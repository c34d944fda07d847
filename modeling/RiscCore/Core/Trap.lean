import RiscCore.Core.Sched
import RiscCore.Core.Timer

/-!
# `Core.Trap` — `trap_handle` and the system calls (`kernel/arch/riscv/trap`, `kernel/arch/riscv/syscall`)

The handler gets the trap frame and may edit it. It ends in one of three ways: it returns to `trap_entry`;
it has called `sys_exit`, which does not return; or it waits for ever. `Platform` is the kernel state with the
timer; `Bus` is what the handler reads from outside.

`trapHandle_returns` says all there is about the first way: three causes come back, and what they do to the
frame.
-/

namespace RiscCore
namespace Core

open Drivers

/-- `TrapFrame`, in declaration order. -/
structure TrapFrame where
  ra : Word
  gp : Word
  tp : Word
  t0 : Word
  t1 : Word
  t2 : Word
  s0 : Word
  s1 : Word
  a0 : Word
  a1 : Word
  a2 : Word
  a3 : Word
  a4 : Word
  a5 : Word
  a6 : Word
  a7 : Word
  s2 : Word
  s3 : Word
  s4 : Word
  s5 : Word
  s6 : Word
  s7 : Word
  s8 : Word
  s9 : Word
  s10 : Word
  s11 : Word
  t3 : Word
  t4 : Word
  t5 : Word
  t6 : Word
  sp : Word
  mepc : Word
  mcause : Word
  mtval : Word
  mstatus : Word
  mhartid : Word
deriving DecidableEq, Repr

/-! ## Causes -/

def kMcauseInterruptBit : Word := 1#64 <<< 63

/-- The top bit of `mcause`. -/
def mcauseIsInterrupt (mcause : Word) : Bool := (mcause &&& kMcauseInterruptBit) != 0#64

/-- The rest of it. -/
def mcauseCode (mcause : Word) : Word := mcause &&& ~~~kMcauseInterruptBit

/-- The exceptions that have a name. -/
inductive ExceptionCode where
  | illegalInstruction | breakpoint | loadAccessFault | storeAmoAccessFault | ecallFromMMode
  | instructionPageFault | loadPageFault | storeAmoPageFault
deriving DecidableEq, Repr

def ExceptionCode.value : ExceptionCode → Word
  | .illegalInstruction => 2#64
  | .breakpoint => 3#64
  | .loadAccessFault => 5#64
  | .storeAmoAccessFault => 7#64
  | .ecallFromMMode => 11#64
  | .instructionPageFault => 12#64
  | .loadPageFault => 13#64
  | .storeAmoPageFault => 15#64

/-- The interrupts that have a name. -/
inductive InterruptCode where
  | machineSoftware | machineTimer | machineExternal
deriving DecidableEq, Repr

def InterruptCode.value : InterruptCode → Word
  | .machineSoftware => 3#64
  | .machineTimer => 7#64
  | .machineExternal => 11#64

/-- The `switch` of `exception_name`. -/
def exceptionName (code : Word) : List Byte :=
  if code = ExceptionCode.illegalInstruction.value then literal "illegal instruction"
  else if code = ExceptionCode.breakpoint.value then literal "breakpoint"
  else if code = ExceptionCode.loadAccessFault.value then literal "load access fault"
  else if code = ExceptionCode.storeAmoAccessFault.value then literal "store/amo access fault"
  else if code = ExceptionCode.ecallFromMMode.value then literal "ecall from M-mode"
  else if code = ExceptionCode.instructionPageFault.value then literal "instruction page fault"
  else if code = ExceptionCode.loadPageFault.value then literal "load page fault"
  else if code = ExceptionCode.storeAmoPageFault.value then literal "store/amo page fault"
  else literal "unknown exception"

/-- The `switch` of `interrupt_name`. -/
def interruptName (code : Word) : List Byte :=
  if code = InterruptCode.machineTimer.value then literal "machine timer interrupt"
  else if code = InterruptCode.machineSoftware.value then literal "machine software interrupt"
  else if code = InterruptCode.machineExternal.value then literal "machine external interrupt"
  else literal "unknown interrupt"

/-! ## System calls -/

namespace Syscall

/-- What `a7` may ask for. -/
inductive Number where
  | write | exit | yield
deriving DecidableEq, Repr

def Number.value : Number → Word
  | .write => 1#64
  | .exit => 2#64
  | .yield => 3#64

def kFdStdout : Word := 1#64
def kFdStderr : Word := 2#64
def kErrBadFd : Word := -1#64
def kErrBadPtr : Word := -2#64
def kErrUnknownSyscall : Word := -38#64

/-- `for(i = from; i < from + count; ++i) putc(p[i])`. -/
def writeLoop (ram : Word → Byte) (p : Word) : Nat → Nat → Uart → Uart
  | 0, _, out => out
  | count + 1, i, out => writeLoop ram p count (i + 1) (out.putc (ram (p + BitVec.ofNat 64 i)))

/-- Sends `len` bytes from `buf` and returns `len`. -/
def sysWrite (ram : Word → Byte) (fd buf len : Word) (k : Kernel) : Word × Kernel :=
  if fd ≠ kFdStdout ∧ fd ≠ kFdStderr then
    (kErrBadFd, k)
  else if buf = 0#64 then
    (kErrBadPtr, k)
  else
    (len, { k with uart := writeLoop ram buf len.toNat 0 k.uart })

/-- Only returns 0: the scheduler is not called. -/
def sysYield (k : Kernel) : Word × Kernel := (0#64, k)

/-- How a system call ends. -/
inductive Result where
  | returns (ret : Word) (k : Kernel)
  /-- `sys_exit`, after its `reschedule`. -/
  | exits (k : Kernel)

/-- `a7` selects the call, `a0` to `a2` are its arguments. -/
def dispatch (ram : Word → Byte) (tf : TrapFrame) (k : Kernel) : Option Result :=
  if tf.a7 = Number.write.value then
    let (ret, k) := sysWrite ram tf.a0 tf.a1 tf.a2 k
    some (.returns ret k)
  else if tf.a7 = Number.exit.value then do
    let k ← sysExit tf.a0 k
    return .exits k
  else if tf.a7 = Number.yield.value then
    let (ret, k) := sysYield k
    some (.returns ret k)
  else
    some (.returns kErrUnknownSyscall k)

end Syscall

/-! ## The handler -/

inductive HandleResult where
  | resume | fatal
deriving DecidableEq, Repr

/-- What a handler reports to `trap_handle`. -/
structure HandleSummary where
  isInterrupt : Bool
  code : Word
  result : HandleResult
deriving DecidableEq, Repr

def kInsnBytes32 : Word := 4#64

/-- Goes on behind the `ebreak`, taken to be four bytes long. -/
def handleBreakpoint (tf : TrapFrame) : HandleSummary × TrapFrame :=
  (⟨false, ExceptionCode.breakpoint.value, .resume⟩, { tf with mepc := tf.mepc + kInsnBytes32 })

/-- What the handler may change. -/
structure Platform where
  k : Kernel
  timer : KernelTimer

/-- Memory, for `sys_write`, and the two readings of `mtime` in `on_interrupt`. -/
structure Bus where
  ram : Word → Byte
  shown : Word
  now : Word

/-- How the handler ends. -/
inductive Outcome where
  | returns (tf : TrapFrame) (p : Platform)
  | exits (p : Platform)
  | waits (p : Platform)

/-- `handle_ecall_mmode`; its summary is `⟨false, 11, .resume⟩` and nobody looks at it. -/
def handleEcallMmode (bus : Bus) (tf : TrapFrame) (p : Platform) : Option Outcome := do
  match ← Syscall.dispatch bus.ram tf p.k with
  | .exits k => return .exits { p with k := k }
  | .returns ret k => return .returns { tf with a0 := ret, mepc := tf.mepc + kInsnBytes32 } { p with k := k }

namespace Platform

def puts (p : Platform) (s : String) : Platform := { p with k := { p.k with uart := p.k.uart.puts (literal s) } }

def putsBytes (p : Platform) (s : List Byte) : Platform := { p with k := { p.k with uart := p.k.uart.puts s } }

def putc (p : Platform) (ch : Byte) : Platform := { p with k := { p.k with uart := p.k.uart.putc ch } }

def putHex (p : Platform) (value : Word) : Platform := { p with k := { p.k with uart := p.k.uart.putHex value } }

def putDec (p : Platform) (value : Word) : Option Platform := do
  let out ← p.k.uart.putDec value
  return { p with k := { p.k with uart := out } }

end Platform

/-- The report that the three page faults share, under their own headings. -/
def reportFault (heading : String) (tf : TrapFrame) (p : Platform) : Option Platform := do
  let p := p.puts heading
  let p := ((p.puts "mcause = ").putHex tf.mcause).putc 10#8
  let p := ((p.puts "mepc = ").putHex tf.mepc).putc 10#8
  let p := ((p.puts "mtval = ").putHex tf.mtval).putc 10#8
  let p := ((p.puts "mstatus = ").putHex tf.mstatus).putc 10#8
  let p ← (p.puts "hart = ").putDec tf.mhartid
  return p.putc 10#8

/-- `none` is a fault while it prints or reschedules. -/
def trapHandle (bus : Bus) (tf : TrapFrame) (p : Platform) : Option Outcome :=
  let code := mcauseCode tf.mcause
  if mcauseIsInterrupt tf.mcause = true then
    let p := ((p.puts "type = interrupt: ").putsBytes (interruptName code)).putc 10#8
    if code = InterruptCode.machineTimer.value then do
      let p := p.puts "catch a timer interrupt\n"
      let (timer, out) ← p.timer.onInterrupt p.k.uart bus.shown bus.now
      return .returns tf { k := { p.k with uart := out }, timer := timer }
    else
      some (.waits p)
  else
    let p := ((p.puts "type = exception: ").putsBytes (exceptionName code)).putc 10#8
    if code = ExceptionCode.breakpoint.value then
      let (_, tf) := handleBreakpoint tf
      some (.returns tf (p.puts "resume after breakpoint\n"))
    else if code = ExceptionCode.ecallFromMMode.value then
      handleEcallMmode bus tf p
    else if code = ExceptionCode.illegalInstruction.value then
      some (.waits (p.puts "Excpetion: Illegal instruction\n"))
    else if code = ExceptionCode.instructionPageFault.value then do
      let p ← reportFault "\n=== Instruction Page Fault ===\n" tf p
      return .waits p
    else if code = ExceptionCode.loadPageFault.value then do
      let p ← reportFault "\n=== Load Page Fault ===\n" tf p
      return .waits p
    else if code = ExceptionCode.storeAmoPageFault.value then do
      let p ← reportFault "\n=== Store/Amo Page Fault ===\n" tf p
      return .waits p
    else
      some (.waits p)

/-! ## What a system call does -/

variable {bus : Bus} {tf tf' : TrapFrame} {p p' : Platform} {k : Kernel}

/-- `k` after some output. -/
def Kernel.print (k : Kernel) (out : Uart) : Kernel := { k with uart := out }

theorem dispatch_exit (ram : Word → Byte) (h : tf.a7 = Syscall.Number.exit.value) (k : Kernel) :
    Syscall.dispatch ram tf k = (sysExit tf.a0 k).map .exits := by
  unfold Syscall.dispatch
  rw [h, if_neg (by decide), if_pos rfl]
  cases sysExit tf.a0 k with
  | none => rfl
  | some k' => rfl

theorem dispatch_yield (ram : Word → Byte) (h : tf.a7 = Syscall.Number.yield.value) (k : Kernel) :
    Syscall.dispatch ram tf k = some (.returns 0#64 k) := by
  unfold Syscall.dispatch
  rw [h, if_neg (by decide), if_neg (by decide), if_pos rfl]
  rfl

/-- **Every other call comes back**, having printed at most. -/
theorem dispatch_returns (ram : Word → Byte) (h : tf.a7 ≠ Syscall.Number.exit.value) (k : Kernel) :
    ∃ ret out, Syscall.dispatch ram tf k = some (.returns ret (k.print out)) := by
  unfold Syscall.dispatch
  by_cases hwrite : tf.a7 = Syscall.Number.write.value
  · rw [if_pos hwrite]
    unfold Syscall.sysWrite
    by_cases hfd : tf.a0 ≠ Syscall.kFdStdout ∧ tf.a0 ≠ Syscall.kFdStderr
    · rw [if_pos hfd]
      exact ⟨_, k.uart, rfl⟩
    · rw [if_neg hfd]
      by_cases hbuf : tf.a1 = 0#64
      · rw [if_pos hbuf]
        exact ⟨_, k.uart, rfl⟩
      · rw [if_neg hbuf]
        exact ⟨_, _, rfl⟩
  · rw [if_neg hwrite, if_neg h]
    by_cases hyield : tf.a7 = Syscall.Number.yield.value
    · rw [if_pos hyield]
      exact ⟨_, k.uart, rfl⟩
    · rw [if_neg hyield]
      exact ⟨_, k.uart, rfl⟩

/-! ## How the handler ends -/

/-- The three causes the handler knows how to resume. -/
inductive Cause where
  | timer | breakpoint | ecall
deriving DecidableEq, Repr

/-- `mcause` says so. -/
def Cause.Is : Cause → Word → Prop
  | .timer, mcause => mcauseIsInterrupt mcause = true ∧ mcauseCode mcause = InterruptCode.machineTimer.value
  | .breakpoint, mcause => mcauseIsInterrupt mcause = false ∧ mcauseCode mcause = ExceptionCode.breakpoint.value
  | .ecall, mcause => mcauseIsInterrupt mcause = false ∧ mcauseCode mcause = ExceptionCode.ecallFromMMode.value

/-- `q` is `p` after some output. -/
def Platform.Prints (p q : Platform) : Prop := ∃ out, q = ⟨p.k.print out, p.timer⟩

theorem Platform.Prints.trans {q r : Platform} (h : p.Prints q) (h' : q.Prints r) : p.Prints r := by
  obtain ⟨out, rfl⟩ := h
  obtain ⟨out', rfl⟩ := h'
  exact ⟨out', rfl⟩

theorem prints_puts (p : Platform) (s : String) : p.Prints (p.puts s) := ⟨p.k.uart.puts (literal s), rfl⟩

theorem prints_putsBytes (p : Platform) (s : List Byte) : p.Prints (p.putsBytes s) := ⟨p.k.uart.puts s, rfl⟩

theorem prints_putc (p : Platform) (ch : Byte) : p.Prints (p.putc ch) := ⟨p.k.uart.putc ch, rfl⟩

/-- The first line of either report. -/
theorem prints_banner (p : Platform) (kind : String) (name : List Byte) :
    p.Prints (((p.puts kind).putsBytes name).putc 10#8) :=
  ((prints_puts p kind).trans (prints_putsBytes _ name)).trans (prints_putc _ 10#8)

theorem trapHandle_timer (h : Cause.timer.Is tf.mcause) (bus : Bus) (p : Platform) :
    ∃ out timer, trapHandle bus tf p = some (.returns tf ⟨p.k.print out, timer⟩) := by
  obtain ⟨hint, hcode⟩ := h
  obtain ⟨out, hbanner⟩ := (prints_banner p "type = interrupt: " (interruptName InterruptCode.machineTimer.value)).trans
    (prints_puts _ "catch a timer interrupt\n")
  obtain ⟨out', htick⟩ := KernelTimer.onInterrupt_spec p.timer out bus.shown bus.now
  refine ⟨out', { p.timer with sTicks := p.timer.sTicks + 1, mtimecmp0 := bus.now + p.timer.sInterval }, ?_⟩
  unfold trapHandle
  rw [if_pos hint, hcode, if_pos rfl]
  dsimp only
  rw [hbanner]
  show (p.timer.onInterrupt out bus.shown bus.now).bind _ = _
  rw [htick]
  rfl

theorem trapHandle_breakpoint (h : Cause.breakpoint.Is tf.mcause) (bus : Bus) (p : Platform) :
    ∃ q, p.Prints q ∧ trapHandle bus tf p = some (.returns { tf with mepc := tf.mepc + 4#64 } q) := by
  obtain ⟨hint, hcode⟩ := h
  refine ⟨_, (prints_banner p "type = exception: " (exceptionName ExceptionCode.breakpoint.value)).trans
    (prints_puts _ "resume after breakpoint\n"), ?_⟩
  unfold trapHandle
  rw [if_neg (by rw [hint]; exact Bool.false_ne_true), hcode, if_pos rfl]
  rfl

theorem trapHandle_ecall (h : Cause.ecall.Is tf.mcause) (bus : Bus) (p : Platform) :
    ∃ q, p.Prints q ∧ trapHandle bus tf p = handleEcallMmode bus tf q := by
  obtain ⟨hint, hcode⟩ := h
  refine ⟨_, prints_banner p "type = exception: " (exceptionName ExceptionCode.ecallFromMMode.value), ?_⟩
  unfold trapHandle
  rw [if_neg (by rw [hint]; exact Bool.false_ne_true), hcode, if_neg (by decide), if_pos rfl]

theorem ecall_exit (ha7 : tf.a7 = Syscall.Number.exit.value) (bus : Bus) (p : Platform) :
    handleEcallMmode bus tf p = (sysExit tf.a0 p.k).map fun k => .exits { p with k := k } := by
  unfold handleEcallMmode
  rw [dispatch_exit bus.ram ha7]
  cases sysExit tf.a0 p.k with
  | none => rfl
  | some k => rfl

theorem ecall_returns (ha7 : tf.a7 ≠ Syscall.Number.exit.value) (bus : Bus) (p : Platform) : ∃ ret q, p.Prints q ∧
    Syscall.dispatch bus.ram tf p.k = some (.returns ret q.k) ∧
    handleEcallMmode bus tf p = some (.returns { tf with a0 := ret, mepc := tf.mepc + 4#64 } q) := by
  obtain ⟨ret, out, hd⟩ := dispatch_returns bus.ram ha7 p.k
  refine ⟨ret, ⟨p.k.print out, p.timer⟩, ⟨out, rfl⟩, hd, ?_⟩
  unfold handleEcallMmode
  rw [hd]
  rfl

/-- What a trap that comes back has done to the frame. -/
inductive Resumed (bus : Bus) (tf : TrapFrame) (p : Platform) : TrapFrame → Prop where
  | timer (h : Cause.timer.Is tf.mcause) : Resumed bus tf p tf
  | breakpoint (h : Cause.breakpoint.Is tf.mcause) : Resumed bus tf p { tf with mepc := tf.mepc + 4#64 }
  | ecall (h : Cause.ecall.Is tf.mcause) (ha7 : tf.a7 ≠ Syscall.Number.exit.value) {ret : Word} {q q' : Platform}
      (hq : p.Prints q) (hret : Syscall.dispatch bus.ram tf q.k = some (.returns ret q'.k)) :
      Resumed bus tf p { tf with a0 := ret, mepc := tf.mepc + 4#64 }

/-- A report does not return. -/
theorem reportFault_waits {heading : String} {q : Platform} :
    ((reportFault heading tf p).bind fun r => some (Outcome.waits r)) ≠ some (.returns tf' q) := by
  intro h
  obtain ⟨r, _, hr⟩ := Option.bind_eq_some_iff.mp h
  cases Option.some.inj hr

/-- **Only three causes come back.** -/
theorem trapHandle_returns (h : trapHandle bus tf p = some (.returns tf' p')) : Resumed bus tf p tf' := by
  cases hint : mcauseIsInterrupt tf.mcause with
  | true =>
      by_cases htimer : mcauseCode tf.mcause = InterruptCode.machineTimer.value
      · obtain ⟨out, timer, heq⟩ := trapHandle_timer ⟨hint, htimer⟩ bus p
        rw [heq] at h
        cases h
        exact Resumed.timer ⟨hint, htimer⟩
      · unfold trapHandle at h
        rw [if_pos hint, if_neg htimer] at h
        cases h
  | false =>
      by_cases hbreak : mcauseCode tf.mcause = ExceptionCode.breakpoint.value
      · obtain ⟨q, _, heq⟩ := trapHandle_breakpoint ⟨hint, hbreak⟩ bus p
        rw [heq] at h
        cases h
        exact Resumed.breakpoint ⟨hint, hbreak⟩
      · by_cases hecall : mcauseCode tf.mcause = ExceptionCode.ecallFromMMode.value
        · obtain ⟨q, hq, heq⟩ := trapHandle_ecall ⟨hint, hecall⟩ bus p
          rw [heq] at h
          by_cases ha7 : tf.a7 = Syscall.Number.exit.value
          · rw [ecall_exit ha7] at h
            obtain ⟨k, _, hk⟩ := Option.map_eq_some_iff.mp h
            cases hk
          · obtain ⟨ret, q', _, hd, heq'⟩ := ecall_returns ha7 bus q
            rw [heq'] at h
            cases h
            exact Resumed.ecall ⟨hint, hecall⟩ ha7 hq hd
        · -- everything else is reported and ends in `wfi`
          unfold trapHandle at h
          rw [if_neg (by rw [hint]; exact Bool.false_ne_true), if_neg hbreak, if_neg hecall] at h
          split at h
          · cases h
          · split at h
            · exact (reportFault_waits h).elim
            · split at h
              · exact (reportFault_waits h).elim
              · split at h
                · exact (reportFault_waits h).elim
                · cases h

end Core
end RiscCore
