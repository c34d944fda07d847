import Mathlib.Algebra.Group.Nat.Defs
import Mathlib.Tactic.Common

/-!
# `Lib.Sv39Mmu` — how a hart translates an address in Sv39

The translation process of the architecture, for a hart that takes a page fault where the accessed or dirty bit
is missing and has none of the optional uses of the upper entry bits. Memory is read a page at a time, by physical
page number; `none` is the page fault. The walk knows nothing of who built the tables: it reads an entry,
stops at a leaf of any level, and follows what is left as a link.
-/

namespace Sv39Mmu

inductive Access where
  | fetch
  | load
  | store
deriving DecidableEq, Repr

/-- What the permission check reads of the hart: U-mode or S-mode, and the two bits of its status that matter. -/
structure Privilege where
  user : Bool
  sum : Bool
  mxr : Bool
deriving DecidableEq, Repr

/-- The entries of each physical page. -/
abbrev Pages := BitVec 44 → Fin 512 → BitVec 64

/-! ## Entries -/

def ppn (pte : BitVec 64) : BitVec 44 := pte.extractLsb' 10 44

/-- Not valid, writable without being readable, or with a reserved bit set. -/
def broken (pte : BitVec 64) : Bool :=
  !pte.getLsbD 0 || (!pte.getLsbD 1 && pte.getLsbD 2) || pte.extractLsb' 54 10 != 0#10

def leaf (pte : BitVec 64) : Bool := pte.getLsbD 1 || pte.getLsbD 3

/-- In a link the bits `U`, `A` and `D` are reserved. -/
def badLink (pte : BitVec 64) : Bool := pte.getLsbD 4 || pte.getLsbD 6 || pte.getLsbD 7

/-- A leaf of level `level` maps `512 ^ level` pages, and must begin at a multiple of as many. -/
def misaligned (pte : BitVec 64) (level : Nat) : Bool := (ppn pte).toNat % 512 ^ level != 0

def permits (p : Privilege) (access : Access) (pte : BitVec 64) : Bool :=
  let permission := match access with
    | .fetch => pte.getLsbD 3
    | .load => pte.getLsbD 1 || (p.mxr && pte.getLsbD 3)
    | .store => pte.getLsbD 2
  -- S-mode reaches user pages with `SUM` only, and never runs them
  let owner := if p.user then pte.getLsbD 4 else !pte.getLsbD 4 || (p.sum && access != .fetch)
  permission && owner && pte.getLsbD 6 && (access != .store || pte.getLsbD 7)

/-! ## The walk -/

def index (va : BitVec 64) (level : Nat) : Fin 512 :=
  ⟨va.toNat / 2 ^ (12 + 9 * level) % 512, Nat.mod_lt _ (by decide)⟩

/-- The leaf for `va` and its level, with `count` levels left to read; the current level is `count - 1`. -/
def walk (mem : Pages) (va : BitVec 64) : Nat → BitVec 44 → Option (BitVec 64 × Nat)
  | 0, _ => none
  | level + 1, table =>
    let pte := mem table (index va level)
    if broken pte then none
    else if leaf pte then
      if misaligned pte level then none else some (pte, level)
    else if badLink pte then none
    else walk mem va level (ppn pte)

def physical (pte va : BitVec 64) (level : Nat) : BitVec 64 :=
  ((ppn pte).setWidth 64 <<< 12) + BitVec.ofNat 64 (va.toNat % 2 ^ (12 + 9 * level))

/-- Bits 63 to 39 repeat bit 38. -/
def canonical (va : BitVec 64) : Bool := (va.setWidth 39).signExtend 64 == va

def sv39 (p : Privilege) (access : Access) (mem : Pages) (root : BitVec 44) (va : BitVec 64) :
    Option (BitVec 64) :=
  if canonical va then
    match walk mem va 3 root with
    | none => none
    | some (pte, level) => if permits p access pte then some (physical pte va level) else none
  else
    none

/-- Translation under a value of `satp`: none in mode 0, Sv39 in mode 8. Other modes are not used. -/
def translate (p : Privilege) (access : Access) (mem : Pages) (satp va : BitVec 64) : Option (BitVec 64) :=
  if satp.extractLsb' 60 4 = 0#4 then some va
  else if satp.extractLsb' 60 4 = 8#4 then sv39 p access mem (satp.extractLsb' 0 44) va
  else none

variable {mem : Pages} {p : Privilege} {access : Access} {va pa pte : BitVec 64} {table root : BitVec 44} {level : Nat}

/-! ## One step of the walk -/

theorem walk_broken (h : broken (mem table (index va level)) = true) : walk mem va (level + 1) table = none := by
  simp [walk, h]

theorem walk_link (hb : broken (mem table (index va level)) = false) (hl : leaf (mem table (index va level)) = false)
    (hr : badLink (mem table (index va level)) = false) :
    walk mem va (level + 1) table = walk mem va level (ppn (mem table (index va level))) := by
  simp [walk, hb, hl, hr]

/-- The last level: a page of 4096 bytes is never misaligned, and a link leads nowhere. -/
theorem walk_last (pte : BitVec 64) (h : mem table (index va 0) = pte) :
    walk mem va 1 table = if broken pte = false ∧ leaf pte = true then some (pte, 0) else none := by
  have haligned : misaligned pte 0 = false := by simp [misaligned, Nat.mod_one]
  cases hb : broken pte with
  | true => rw [walk_broken (h.symm ▸ hb)]; simp
  | false =>
      cases hl : leaf pte with
      | true => simp [walk, h, hb, hl, haligned]
      | false => simp [walk, h, hb, hl]

/-! ## Which addresses -/

theorem canonical_iff : canonical va = true ↔ va.toNat < 2 ^ 38 ∨ 2 ^ 64 - 2 ^ 38 ≤ va.toNat := by
  have hmax := va.isLt
  have hwidth : (va.setWidth 39).toNat = va.toNat % 2 ^ 39 := BitVec.toNat_setWidth 39 va
  have hmsb : (va.setWidth 39).msb = decide (2 ^ 38 ≤ va.toNat % 2 ^ 39) := by
    rw [BitVec.msb_eq_decide, hwidth]
  rw [canonical, beq_iff_eq, ← BitVec.toNat_inj, BitVec.toNat_signExtend, BitVec.toNat_setWidth, hwidth, hmsb]
  by_cases hhigh : 2 ^ 38 ≤ va.toNat % 2 ^ 39
  · simp only [hhigh, decide_true, if_true]
    omega
  · simp only [hhigh, decide_false, Bool.false_eq_true, if_false]
    omega

theorem sv39_eq_some_iff : sv39 p access mem root va = some pa ↔
    canonical va = true ∧ ∃ pte level, walk mem va 3 root = some (pte, level) ∧ permits p access pte = true ∧
      physical pte va level = pa := by
  unfold sv39
  cases canonical va with
  | false => simp
  | true =>
      cases hw : walk mem va 3 root with
      | none => simp
      | some leaf =>
          obtain ⟨pte, level⟩ := leaf
          simp [Option.ite_none_right_eq_some]

/-- In mode 8 the root is the page that the low 44 bits number. -/
theorem translate_sv39 {satp : BitVec 64} (hmode : satp.extractLsb' 60 4 = 8#4) (hroot : satp.extractLsb' 0 44 = root) :
    translate p access mem satp va = sv39 p access mem root va := by
  have hon : ¬ satp.extractLsb' 60 4 = 0#4 := by rw [hmode]; decide
  rw [translate, if_neg hon, if_pos hmode, hroot]

theorem translate_bare {satp : BitVec 64} (hmode : satp.extractLsb' 60 4 = 0#4) :
    translate p access mem satp va = some va := by
  rw [translate, if_pos hmode]

end Sv39Mmu
