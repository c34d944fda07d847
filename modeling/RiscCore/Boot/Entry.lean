import RiscCore.Boot.Layout
import RiscCore.Lib.ByteMem

/-!
# `Boot.Entry` — from reset to `kmain` (`boot/entry.S`)

`start` loads the global pointer and the stack pointer, turns translation off and clears `.bss` word by word. The
code is a list of its instructions, a pseudo-instruction counting as one, with branch targets as positions; the
machine is what these instructions touch. The loop stores eight bytes at a time up to the first boundary of eight
that is not below `bss_end`, so it may write past the end; `start_reaches_kmain` says how far.
-/

namespace RiscCore
namespace Boot

open Mm ByteMem

/-- The registers of `start`. -/
inductive StartReg where
  | gp | sp | t5 | t6
deriving DecidableEq, Repr

inductive StartInstr where
  | la (rd : StartReg) (symbol : Word)
  -- `csrw satp, zero`
  | csrwSatp
  | bgeu (rs1 rs2 : StartReg) (target : Nat)
  -- `sd zero, 0(base)`
  | sdZero (base : StartReg)
  | addi (rd rs : StartReg) (imm : Word)
  | j (target : Nat)
  -- `tail kmain`
  | tail
deriving DecidableEq, Repr

def startCode (s : Sizes) : List StartInstr :=
  [.la .gp (addr s.globalPointer),
   .csrwSatp,
   .la .sp (addr s.stackTop),
   .la .t5 (addr s.bssStart),
   .la .t6 (addr s.bssEnd),
   .bgeu .t5 .t6 9,
   .sdZero .t5,
   .addi .t5 .t5 8#64,
   .j 5,
   .tail]

structure StartHart where
  regs : StartReg → Word
  satp : Word
  mem : Bytes 64
  pc : Nat

namespace StartHart

def setReg (h : StartHart) (r : StartReg) (v : Word) : StartHart :=
  { h with regs := Function.update h.regs r v, pc := h.pc + 1 }

/-- One instruction; `tail kmain` leaves the code. -/
def exec (h : StartHart) : StartInstr → Option StartHart
  | .la rd symbol => some (h.setReg rd symbol)
  | .csrwSatp => some { h with satp := 0#64, pc := h.pc + 1 }
  | .bgeu rs1 rs2 target => some { h with pc := if h.regs rs2 ≤ h.regs rs1 then target else h.pc + 1 }
  | .sdZero base => some { h with mem := store (n := 8) h.mem (h.regs base) 0#64, pc := h.pc + 1 }
  | .addi rd rs imm => some (h.setReg rd (h.regs rs + imm))
  | .j target => some { h with pc := target }
  | .tail => none

def run (code : List StartInstr) : Nat → StartHart → Option StartHart
  | 0, h => some h
  | n + 1, h => do
    let i ← code[h.pc]?
    let h' ← h.exec i
    run code n h'

end StartHart

/-- The bytes from `lo` up to `hi` are zero, the others as in `mem`. -/
def zeroed (mem : Bytes 64) (lo hi : Nat) : Bytes 64 := fun a =>
  if lo ≤ a.toNat ∧ a.toNat < hi then 0#8 else mem a

variable {s : Sizes} {h : StartHart} {mem : Bytes 64} {lo hi : Nat}

theorem zeroed_empty (mem : Bytes 64) (lo : Nat) : zeroed mem lo lo = mem := by
  funext a
  rw [zeroed, if_neg (by omega)]

/-- One more word. -/
theorem store_zeroed (hle : lo ≤ hi) (hfit : hi + 8 ≤ 2 ^ 64) (mem : Bytes 64) :
    store (n := 8) (zeroed mem lo hi) (BitVec.ofNat 64 hi) 0#64 = zeroed mem lo (hi + 8) := by
  funext a
  have hval : (BitVec.ofNat 64 hi).toNat = hi := by
    rw [BitVec.toNat_ofNat]
    omega
  have hsub := toNat_sub_cases (BitVec.ofNat 64 hi) a
  rw [hval] at hsub
  have hmax := a.isLt
  unfold store zeroed
  by_cases hin : (a - BitVec.ofNat 64 hi).toNat < 8
  · rw [if_pos hin, if_pos (by omega)]
    exact BitVec.extractLsb'_zero
  · rw [if_neg hin]
    by_cases hold : lo ≤ a.toNat ∧ a.toNat < hi
    · rw [if_pos hold, if_pos (by omega)]
    · rw [if_neg hold, if_neg (by omega)]

/-! ## The loop -/

theorem run_add (code : List StartInstr) (n k : Nat) (h : StartHart) :
    h.run code (n + k) = (h.run code n).bind fun h' => h'.run code k := by
  induction n generalizing h with
  | zero => rw [Nat.zero_add]; rfl
  | succ n ih =>
      rw [Nat.succ_add, StartHart.run, StartHart.run]
      cases hc : code[h.pc]? with
      | none => rfl
      | some i =>
          cases he : h.exec i with
          | none => simp [he]
          | some h' => simp [he, ih]

/-- At the head of the loop, with the words below `t5` cleared. -/
structure Clearing (s : Sizes) (mem : Bytes 64) (next : Nat) (h : StartHart) : Prop where
  pc : h.pc = 5
  satp : h.satp = 0#64
  gp : h.regs .gp = addr s.globalPointer
  sp : h.regs .sp = addr s.stackTop
  t5 : h.regs .t5 = addr next
  t6 : h.regs .t6 = addr s.bssEnd
  mem : h.mem = zeroed mem s.bssStart next

/-- The first five instructions. -/
theorem start_clearing (s : Sizes) (h : StartHart) :
    ∃ h', ({ h with pc := 0 } : StartHart).run (startCode s) 5 = some h' ∧ Clearing s h.mem s.bssStart h' := by
  refine ⟨_, rfl, rfl, rfl, rfl, rfl, rfl, rfl, ?_⟩
  exact (zeroed_empty h.mem s.bssStart).symm

/-- One turn of the loop. -/
theorem Clearing.turn {next : Nat} (hc : Clearing s mem next h) (hlo : s.bssStart ≤ next) (hnext : next < s.bssEnd)
    (hfit : s.bssEnd ≤ 0x88000000) :
    ∃ h', h.run (startCode s) 4 = some h' ∧ Clearing s mem (next + 8) h' := by
  have hbranch : ¬ h.regs .t6 ≤ h.regs .t5 := by
    rw [hc.t5, hc.t6, BitVec.le_def, addr_toNat hfit, addr_toNat (by omega)]
    omega
  have hstep : h.run (startCode s) 4 =
      some { h with
        regs := Function.update h.regs .t5 (h.regs .t5 + 8#64)
        mem := store (n := 8) h.mem (h.regs .t5) 0#64
        pc := 5 } := by
    simp [StartHart.run, startCode, StartHart.exec, StartHart.setReg, hc.pc, hbranch]
  refine ⟨_, hstep, rfl, hc.satp, hc.gp, hc.sp, ?_, hc.t6, ?_⟩
  · show h.regs .t5 + 8#64 = addr (next + 8)
    rw [hc.t5, addr, addr, BitVec.ofNat_add]
  · show store (n := 8) h.mem (h.regs .t5) 0#64 = zeroed mem s.bssStart (next + 8)
    rw [hc.mem, hc.t5]
    exact store_zeroed hlo (by omega) mem

/-- The end of the loop. -/
theorem Clearing.leave {next : Nat} (hc : Clearing s mem next h) (hnext : s.bssEnd ≤ next)
    (hfit : next ≤ 0x88000000) :
    h.run (startCode s) 1 = some { h with pc := 9 } := by
  have hbranch : h.regs .t6 ≤ h.regs .t5 := by
    rw [hc.t5, hc.t6, BitVec.le_def, addr_toNat hfit, addr_toNat (by omega)]
    exact hnext
  simp [StartHart.run, startCode, StartHart.exec, hc.pc, hbranch]

/-- **The whole loop**, by the number of words left. -/
theorem Clearing.loop (hfit : s.bssEnd ≤ 0x88000000 - 8) : ∀ (k : Nat) {next : Nat} {h : StartHart},
    Clearing s mem next h → s.bssStart ≤ next → (s.bssEnd + 7 - next) / 8 = k → next < s.bssEnd + 8 →
    ∃ h', h.run (startCode s) (4 * k + 1) = some h' ∧ (startCode s)[h'.pc]? = some .tail ∧ h'.satp = 0#64 ∧
      h'.regs .gp = addr s.globalPointer ∧ h'.regs .sp = addr s.stackTop ∧
      h'.mem = zeroed mem s.bssStart (next + 8 * k) := by
  intro k
  induction k with
  | zero =>
      intro next h hc _ hk hle
      have hend : s.bssEnd ≤ next := by omega
      exact ⟨_, hc.leave hend (by omega), rfl, hc.satp, hc.gp, hc.sp, hc.mem⟩
  | succ k ih =>
      intro next h hc hlo hk hle
      obtain ⟨h₁, hturn, hc₁⟩ := hc.turn hlo (by omega) (by omega)
      obtain ⟨h', hrun, htail, hsatp, hgp, hsp, hmem⟩ := ih hc₁ (by omega) (by omega) (by omega)
      have hcount : 4 * (k + 1) + 1 = 4 + (4 * k + 1) := by omega
      have hbytes : next + 8 + 8 * k = next + 8 * (k + 1) := by omega
      refine ⟨h', ?_, htail, hsatp, hgp, hsp, hbytes ▸ hmem⟩
      rw [hcount, run_add, hturn]
      exact hrun

/-- **From reset to `kmain`.** Whatever the sizes of the sections and whatever the memory and the registers hold:
    `start` gets to `tail kmain`, in four instructions for each word of `.bss` and six more, with translation
    off and the two pointers set. `.bss` is zero, and no byte is written outside it but for fewer than eight past
    its end, below the boot stack. -/
theorem start_reaches_kmain (img : Image) (h : StartHart) :
    ∃ h', ({ h with pc := 0 } : StartHart).run (startCode img.toSizes) (6 + 4 * ((img.bss + 7) / 8)) = some h' ∧
      (startCode img.toSizes)[h'.pc]? = some .tail ∧ h'.satp = 0#64 ∧
      (h'.regs .gp).toNat = img.kernelEnd ∧ (h'.regs .sp).toNat = img.bootStackTop ∧ img.bootStackTop % 16 = 0 ∧
      (∀ a : Word, img.bssStart ≤ a.toNat → a.toNat < img.bssEnd → h'.mem a = 0#8) ∧
      (∀ a : Word, h'.mem a ≠ h.mem a → img.bssStart ≤ a.toNat ∧ a.toNat < img.bssEnd + 7 ∧
        a.toNat < img.bootStackBottom) := by
  have hord := ordered img.toSizes
  obtain ⟨hlow, _, hstack⟩ := hord.bss_below
  have hend := img.end_le
  have hsize : img.bssEnd = img.bssStart + img.bss := rfl
  have hbottom := hord.stack
  have haligned := hord.bss_aligned
  have hstop := hord.top
  have htop : img.bootStackTop = img.bootStackBottom + 16 * 1024 := rfl
  obtain ⟨h₁, hfive, hc⟩ := start_clearing img.toSizes h
  obtain ⟨h', hrun, htail, hsatp, hgp, hsp, hmem⟩ :=
    Clearing.loop (by omega) ((img.bss + 7) / 8) hc (Nat.le_refl _) (by omega) (by omega)
  have hcount : 6 + 4 * ((img.bss + 7) / 8) = 5 + (4 * ((img.bss + 7) / 8) + 1) := by omega
  refine ⟨h', ?_, htail, hsatp, ?_, ?_, hord.stack_aligned, fun a hlo hhi => ?_, fun a hne => ?_⟩
  · rw [hcount, run_add, hfive]
    exact hrun
  · rw [hgp]
    exact addr_toNat hend
  · rw [hsp]
    exact addr_toNat (by show img.bootStackTop ≤ _; omega)
  · rw [hmem, zeroed, if_pos (by omega)]
  · -- the loop ends at a boundary of eight, and the stack begins at one of sixteen
    rw [hmem, zeroed] at hne
    have hin : img.bssStart ≤ a.toNat ∧ a.toNat < img.bssStart + 8 * ((img.bss + 7) / 8) := by
      by_contra hout
      rw [if_neg hout] at hne
      exact hne rfl
    have hmod : img.bootStackBottom % 16 = 0 := align_mod _ _
    refine ⟨hin.1, ?_, ?_⟩ <;> omega

end Boot
end RiscCore
