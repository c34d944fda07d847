import RiscCore.Drivers.Uart

/-!
# `Core.Timer` — the kernel's tick (`kernel/time/timer.cpp`, `clint_timer.h`)

`mtime` runs by itself, so every read of it is an argument. `none` is an access outside the buffer of
`put_dec`, which does not happen.
-/

namespace RiscCore
namespace Core

open Drivers

/-- The two variables of `KernelTimer`, and the compare register of hart 0. -/
structure KernelTimer where
  sInterval : Word
  sTicks : Word
  mtimecmp0 : Word
deriving DecidableEq, Repr

namespace KernelTimer

/-- `interrupt_after`; it reads `now` from `mtime`. -/
def interruptAfter (t : KernelTimer) (value now : Word) : KernelTimer := { t with mtimecmp0 := now + value }

/-- `init`, up to the two writes that enable the interrupt. -/
def init (t : KernelTimer) (interval now : Word) : KernelTimer :=
  ({ t with sInterval := interval }).interruptAfter interval now

def ticks (t : KernelTimer) : Word := t.sTicks

/-- `on_interrupt` reads `mtime` twice, once for the message and once for the next interrupt. -/
def onInterrupt (t : KernelTimer) (out : Uart) (shown now : Word) : Option (KernelTimer × Uart) := do
  let t := { t with sTicks := t.sTicks + 1 }
  let out ← (out.puts (literal "current timer count: ")).putDec shown
  let out := out.putc 10#8
  let out ← (out.puts (literal "current ticks count: ")).putDec t.ticks
  let out := out.putc 10#8
  return (t.interruptAfter t.sInterval now, out)

variable {t : KernelTimer}

/-- **One tick.** The next interrupt is one interval after the second reading. -/
theorem onInterrupt_spec (t : KernelTimer) (out : Uart) (shown now : Word) :
    ∃ out', t.onInterrupt out shown now =
      some ({ t with sTicks := t.sTicks + 1, mtimecmp0 := now + t.sInterval }, out') := by
  obtain ⟨out₁, h₁⟩ := Uart.putDec_some (out.puts (literal "current timer count: ")) shown
  obtain ⟨out₂, h₂⟩ := Uart.putDec_some ((out₁.putc 10#8).puts (literal "current ticks count: ")) (t.sTicks + 1)
  refine ⟨out₂.putc 10#8, ?_⟩
  unfold onInterrupt
  rw [h₁]
  show (((out₁.putc 10#8).puts (literal "current ticks count: ")).putDec (t.sTicks + 1)).bind _ = _
  rw [h₂]
  rfl

end KernelTimer
end Core
end RiscCore
