import RiscCore.Lib.Align

/-!
# `Mm.Page` — page geometry (`kernel/mm/page.h`)

Addresses are 64-bit words. The functions are the masks of the header; the lemmas restate each one on the
word's value, which is the form every later proof uses. Wrapping of `addr + kPageMask` is kept: the
value of `alignUp` is only claimed where the sum fits.
-/

namespace RiscCore

/-- `uintptr_t` and `uint64_t`. -/
abbrev Word := BitVec 64

namespace Mm

def kPageShift : Nat := 12
def kPageSize : Word := 1#64 <<< kPageShift
def kPageMask : Word := kPageSize - 1

def isPageAligned (addr : Word) : Bool := (addr &&& kPageMask) == 0

def alignDown (addr : Word) : Word := addr &&& ~~~kPageMask

def alignUp (addr : Word) : Word := (addr + kPageMask) &&& ~~~kPageMask

def pageOffset (addr : Word) : Word := addr &&& kPageMask

/-! ## The same functions on values -/

theorem kPageSize_eq : kPageSize = 4096#64 := by decide

theorem kPageMask_eq : kPageMask = Align.lowMask 64 12 := by decide

@[simp] theorem kPageSize_toNat : kPageSize.toNat = 4096 := by decide

@[simp] theorem kPageMask_toNat : kPageMask.toNat = 4095 := by decide

theorem isPageAligned_iff {addr : Word} : isPageAligned addr = true ↔ addr.toNat % 4096 = 0 := by
  have hval : (addr &&& kPageMask).toNat = addr.toNat % 4096 := by
    rw [kPageMask_eq]
    exact Align.and_lowMask_toNat addr 12
  unfold isPageAligned
  rw [beq_iff_eq, ← hval, ← BitVec.toNat_inj]
  simp

theorem alignDown_toNat (addr : Word) : (alignDown addr).toNat = addr.toNat / 4096 * 4096 := by
  rw [alignDown, kPageMask_eq]
  exact Align.and_not_lowMask_toNat addr 12

theorem alignUp_toNat {addr : Word} (h : addr.toNat + 4095 < 2 ^ 64) :
    (alignUp addr).toNat = (addr.toNat + 4095) / 4096 * 4096 := by
  have hadd : (addr + kPageMask).toNat = addr.toNat + 4095 := by
    rw [BitVec.toNat_add, kPageMask_toNat, Nat.mod_eq_of_lt h]
  rw [← hadd, ← alignDown_toNat, alignUp, alignDown]

/-- In the last page rounding up wraps to 0. -/
theorem alignUp_wrap {addr : Word} (h : 2 ^ 64 ≤ addr.toNat + 4095) : alignUp addr = 0#64 := by
  have hmax := addr.isLt
  have hsum : (addr + kPageMask).toNat = addr.toNat + 4095 - 2 ^ 64 := by
    rw [BitVec.toNat_add, kPageMask_toNat]; omega
  have hval : (alignUp addr).toNat = (addr + kPageMask).toNat / 4096 * 4096 := alignDown_toNat (addr + kPageMask)
  apply BitVec.eq_of_toNat_eq
  rw [hval, hsum, BitVec.toNat_ofNat]
  omega

/-- The rounded end of a range that reaches into the last page is 0, also where the range ends at `2 ^ 64`. -/
theorem alignUp_end {base size : Word} (hin : base.toNat + size.toNat ≤ 2 ^ 64)
    (htop : 2 ^ 64 ≤ base.toNat + size.toNat + 4095) : alignUp (base + size) = 0#64 := by
  by_cases hend : base.toNat + size.toNat = 2 ^ 64
  · have hzero : base + size = 0#64 := by
      apply BitVec.eq_of_toNat_eq
      rw [BitVec.toNat_add, hend]; rfl
    rw [hzero]
    decide
  · apply alignUp_wrap
    rw [BitVec.toNat_add]; omega

theorem pageOffset_toNat (addr : Word) : (pageOffset addr).toNat = addr.toNat % 4096 := by
  rw [pageOffset, kPageMask_eq]
  exact Align.and_lowMask_toNat addr 12

theorem alignDown_add_offset (addr : Word) : alignDown addr + pageOffset addr = addr := by
  apply BitVec.eq_of_toNat_eq
  have hmax := addr.isLt
  rw [BitVec.toNat_add, alignDown_toNat, pageOffset_toNat]
  omega

/-- Both roundings land on a page boundary, wrapped or not. -/
theorem alignDown_aligned (addr : Word) : (alignDown addr).toNat % 4096 = 0 := by
  rw [alignDown_toNat]; omega

theorem alignUp_aligned (addr : Word) : (alignUp addr).toNat % 4096 = 0 := by
  have h : alignUp addr = alignDown (addr + kPageMask) := rfl
  rw [h]; exact alignDown_aligned _

end Mm
end RiscCore
