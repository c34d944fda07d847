import RiscCore.Core.TrapEntry

/-!
# `Core.WriteAbi` — what a program sees of `write` and of unknown calls

One result for each branch of `sys_write`, the loop as a list of bytes, and from them what
`handle_ecall_mmode` does for every call number but `Exit` and `Yield`: to the frame, where `a0` is the
first argument and the result, and to the serial port.
-/

namespace RiscCore
namespace Core

open Drivers

variable {bus : Bus} {tf : TrapFrame} {p : Platform} {k : Kernel} {ram : Word → Byte}

/-- What `putc` sends for one byte: a newline gets a carriage return before it. -/
def expandNewline (ch : Byte) : List Byte := if ch = 10#8 then [13#8, 10#8] else [ch]

/-- `buf[0 .. len)`. -/
def buffer (ram : Word → Byte) (buf len : Word) : List Byte :=
  (List.range len.toNat).map fun i => ram (buf + BitVec.ofNat 64 i)

theorem putc_eq (out : Uart) (ch : Byte) : out.putc ch = out ++ expandNewline ch := by
  unfold Uart.putc expandNewline
  split
  · rename_i h
    rw [h]
    show (out ++ [13#8]) ++ [10#8] = out ++ ([13#8] ++ [10#8])
    rw [List.append_assoc]
  · rfl

/-- The bytes the loop has still to read are those from index `i` on. -/
theorem writeLoop_eq (ram : Word → Byte) (buf : Word) : ∀ (count i : Nat) (out : Uart),
    Syscall.writeLoop ram buf count i out =
      out ++ ((List.range' i count).map fun j => ram (buf + BitVec.ofNat 64 j)).flatMap expandNewline := by
  intro count
  induction count with
  | zero => intro i out; exact (List.append_nil out).symm
  | succ count ih =>
      intro i out
      rw [Syscall.writeLoop, ih, putc_eq, List.range'_succ, List.map_cons, List.flatMap_cons, List.append_assoc]

theorem writeLoop_buffer (ram : Word → Byte) (buf len : Word) (out : Uart) :
    Syscall.writeLoop ram buf len.toNat 0 out = out ++ (buffer ram buf len).flatMap expandNewline := by
  rw [writeLoop_eq, buffer, List.range_eq_range']

/-! ## The branches of `sys_write` -/

/-- `sys_write` takes this descriptor. -/
def ValidFd (fd : Word) : Prop := fd = 1#64 ∨ fd = 2#64

theorem validFd_iff {fd : Word} : ¬ (fd ≠ Syscall.kFdStdout ∧ fd ≠ Syscall.kFdStderr) ↔ ValidFd fd := by
  rw [not_and_or, not_not, not_not]
  rfl

theorem sysWrite_badFd {fd : Word} (h : ¬ ValidFd fd) (buf len : Word) (k : Kernel) :
    Syscall.sysWrite ram fd buf len k = (-1#64, k) := by
  unfold Syscall.sysWrite
  rw [if_pos (not_not.mp (mt validFd_iff.mp h))]
  rfl

theorem sysWrite_badPtr {fd : Word} (h : ValidFd fd) (len : Word) (k : Kernel) :
    Syscall.sysWrite ram fd 0#64 len k = (-2#64, k) := by
  unfold Syscall.sysWrite
  rw [if_neg (validFd_iff.mpr h), if_pos rfl]
  rfl

theorem sysWrite_sends {fd buf : Word} (h : ValidFd fd) (hbuf : buf ≠ 0#64) (len : Word) (k : Kernel) :
    Syscall.sysWrite ram fd buf len k = (len, k.print (k.uart ++ (buffer ram buf len).flatMap expandNewline)) := by
  unfold Syscall.sysWrite
  rw [if_neg (validFd_iff.mpr h), if_neg hbuf, writeLoop_buffer]
  rfl

/-! ## The handler -/

/-- What a call other than `Exit` and `Yield` returns in `a0`, and what it sends. -/
inductive Answer (ram : Word → Byte) (tf : TrapFrame) : Word → List Byte → Prop where
  | sent (ha7 : tf.a7 = Syscall.Number.write.value) (hfd : ValidFd tf.a0) (hbuf : tf.a1 ≠ 0#64) :
      Answer ram tf tf.a2 ((buffer ram tf.a1 tf.a2).flatMap expandNewline)
  | badFd (ha7 : tf.a7 = Syscall.Number.write.value) (hfd : ¬ ValidFd tf.a0) : Answer ram tf (-1#64) []
  | badPtr (ha7 : tf.a7 = Syscall.Number.write.value) (hfd : ValidFd tf.a0) (hbuf : tf.a1 = 0#64) :
      Answer ram tf (-2#64) []
  | unknown (ha7 : tf.a7 ≠ Syscall.Number.write.value) : Answer ram tf (-38#64) []

theorem print_nothing (k : Kernel) : k.print (k.uart ++ []) = k := by
  rw [List.append_nil]
  rfl

theorem dispatch_write (ha7 : tf.a7 = Syscall.Number.write.value) (k : Kernel) : Syscall.dispatch ram tf k =
    some (.returns (Syscall.sysWrite ram tf.a0 tf.a1 tf.a2 k).1 (Syscall.sysWrite ram tf.a0 tf.a1 tf.a2 k).2) := by
  unfold Syscall.dispatch
  rw [if_pos ha7]

theorem dispatch_unknown (hwrite : tf.a7 ≠ Syscall.Number.write.value) (hexit : tf.a7 ≠ Syscall.Number.exit.value)
    (hyield : tf.a7 ≠ Syscall.Number.yield.value) (k : Kernel) :
    Syscall.dispatch ram tf k = some (.returns (-38#64) k) := by
  unfold Syscall.dispatch
  rw [if_neg hwrite, if_neg hexit, if_neg hyield]
  rfl

theorem dispatch_answer (hexit : tf.a7 ≠ Syscall.Number.exit.value) (hyield : tf.a7 ≠ Syscall.Number.yield.value)
    (k : Kernel) : ∃ ret out, Answer ram tf ret out ∧
      Syscall.dispatch ram tf k = some (.returns ret (k.print (k.uart ++ out))) := by
  by_cases hwrite : tf.a7 = Syscall.Number.write.value
  · rw [dispatch_write hwrite]
    by_cases hfd : ValidFd tf.a0
    · by_cases hbuf : tf.a1 = 0#64
      · refine ⟨_, _, Answer.badPtr hwrite hfd hbuf, ?_⟩
        rw [hbuf, sysWrite_badPtr hfd, print_nothing]
      · refine ⟨_, _, Answer.sent hwrite hfd hbuf, ?_⟩
        rw [sysWrite_sends hfd hbuf]
    · refine ⟨_, _, Answer.badFd hwrite hfd, ?_⟩
      rw [sysWrite_badFd hfd, print_nothing]
  · refine ⟨_, _, Answer.unknown hwrite, ?_⟩
    rw [dispatch_unknown hwrite hexit hyield, print_nothing]

/-- **The ABI of `write` and of unknown calls.** The frame keeps everything but `a0` and `mepc`, the kernel
    everything but what was sent. -/
theorem ecall_abi (bus : Bus) (tf : TrapFrame) (p : Platform) (hexit : tf.a7 ≠ Syscall.Number.exit.value)
    (hyield : tf.a7 ≠ Syscall.Number.yield.value) :
    ∃ ret out, handleEcallMmode bus tf p =
        some (.returns { tf with a0 := ret, mepc := tf.mepc + 4#64 } ⟨p.k.print (p.k.uart ++ out), p.timer⟩) ∧
      (tf.a7 = 1#64 → (tf.a0 = 1#64 ∨ tf.a0 = 2#64) → tf.a1 ≠ 0#64 →
        ret = tf.a2 ∧ out = (buffer bus.ram tf.a1 tf.a2).flatMap expandNewline) ∧
      (tf.a7 = 1#64 → ¬ (tf.a0 = 1#64 ∨ tf.a0 = 2#64) → ret = -1#64 ∧ out = []) ∧
      (tf.a7 = 1#64 → (tf.a0 = 1#64 ∨ tf.a0 = 2#64) → tf.a1 = 0#64 → ret = -2#64 ∧ out = []) ∧
      (tf.a7 ≠ 1#64 → ret = -38#64 ∧ out = []) := by
  obtain ⟨ret, out, hans, hd⟩ := @dispatch_answer tf bus.ram hexit hyield p.k
  refine ⟨ret, out, ?_, ?_⟩
  · unfold handleEcallMmode
    rw [hd]
    rfl
  · cases hans with
    | sent ha7 hfd hbuf =>
        exact ⟨fun _ _ _ => ⟨rfl, rfl⟩, fun _ h => absurd hfd h, fun _ _ h => absurd h hbuf, fun h => absurd ha7 h⟩
    | badFd ha7 hfd =>
        exact ⟨fun _ h => absurd h hfd, fun _ _ => ⟨rfl, rfl⟩, fun _ h => absurd h hfd, fun h => absurd ha7 h⟩
    | badPtr ha7 hfd hbuf =>
        exact ⟨fun _ _ h => absurd hbuf h, fun _ h => absurd hfd h, fun _ _ _ => ⟨rfl, rfl⟩, fun h => absurd ha7 h⟩
    | unknown ha7 =>
        exact ⟨fun h => absurd h ha7, fun h => absurd h ha7, fun h => absurd h ha7, fun _ => ⟨rfl, rfl⟩⟩

/-- A program that writes `a` and a newline to standard output. -/
def writeFrame : TrapFrame :=
  { TrapFrame.ofHart yieldHart with a0 := 1#64, a1 := 0x80001000#64, a2 := 2#64, a7 := 1#64 }

def writeBus : Bus := ⟨fun a => if a = 0x80001000#64 then 97#8 else 10#8, 0#64, 0#64⟩

theorem ecall_abi_test : ∃ tf' p', handleEcallMmode writeBus writeFrame testPlatform = some (.returns tf' p') ∧
    tf'.a0 = 2#64 ∧ tf'.a1 = 0x80001000#64 ∧ p'.k.uart = [97#8, 13#8, 10#8] := by
  obtain ⟨ret, out, heq, hsent, _⟩ := ecall_abi writeBus writeFrame testPlatform (by decide) (by decide)
  obtain ⟨rfl, rfl⟩ := hsent rfl (Or.inl rfl) (by decide)
  exact ⟨_, _, heq, rfl, rfl, by decide⟩

end Core
end RiscCore
