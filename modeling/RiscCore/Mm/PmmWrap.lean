import RiscCore.Mm.PmmInitExact

/-!
# `Mm.PmmWrap` — `pmm_init` at the end of the address space

A range may end at `2 ^ 64`. `align_up` of an address in the last page is then 0, with two effects. A managed base
in the last page moves to address 0, so none of the managed pages is in the range. And a reserved range whose end
is in the last page, or is `2 ^ 64` itself, ends at 0 for `reserve_range`, which marks nothing.

`WrapHarmless` is the condition on the arguments under which neither is seen: the pages that the first loop of
`pmm_init` frees are marked again by some other reserved range, or lie below all reserved ranges that wrap.
-/

namespace RiscCore
namespace Mm

open Pmm

variable {m : PhysicalRange} {rs : List ReservedRange} {r : ReservedRange} {F : FrameSet} {s : Pmm} {i : Nat}
  {page : Word}

/-- The range lies in the address space; it may end in the last page. -/
def PhysicalRange.InSpace (m : PhysicalRange) : Prop := m.base.toNat + m.size.toNat ≤ 2 ^ 64

def ReservedRange.InSpace (r : ReservedRange) : Prop := r.base.toNat + r.size.toNat ≤ 2 ^ 64

/-- **What `pmm_init` owes its caller.** A free page is inside the managed range and touches no reserved one. -/
def FreeAllowed (m : PhysicalRange) (rs : List ReservedRange) (s : Pmm) : Prop :=
  ∀ pa, s.isPageFree pa = some true → m.Contains pa ∧ ¬ Reserved rs pa

/-- A reserved range that does not wrap overlaps the page. -/
def Shielded (rs : List ReservedRange) (page : Word) : Prop := ∃ r ∈ rs, r.NoWrap ∧ r.Hits page

/-- The page lies below all non-empty reserved ranges whose rounded end wraps. -/
def BelowWrapping (rs : List ReservedRange) (page : Word) : Prop :=
  ∀ r ∈ rs, r.size ≠ 0#64 → ¬ r.NoWrap → page.toNat + 4096 ≤ r.base.toNat

/-- **No wrap is seen.** Index `i` runs through the pages that the first loop frees: the home indices among the
    managed ones, whose number is written here in the arithmetic of the source. -/
def WrapHarmless (m : PhysicalRange) (rs : List ReservedRange) : Prop :=
  ∀ i < min (((alignDown (m.base + m.size)).toNat - (alignUp m.base).toNat) / 4096) kMaxManagedPages, IsHome i →
    Shielded rs (pageAddr (alignUp m.base) i) ∨
      (m.base.toNat + 4095 < 2 ^ 64 ∧ BelowWrapping rs (pageAddr (alignUp m.base) i))

/-! ## What a wrap does -/

/-- A reserved range that wraps covers nothing. -/
theorem not_covered_of_wrap (hr : r.InSpace) (hw : ¬ r.NoWrap) : ¬ F.Covered r i := by
  rintro ⟨_, _, _, hlt⟩
  rw [alignUp_end hr (Nat.le_of_not_lt hw), BitVec.lt_def] at hlt
  exact absurd hlt (Nat.not_lt_zero _)

theorem shielded_iff_covered (hr : ∀ r ∈ rs, r.InSpace) (hi : i < F.total) :
    Shielded rs (pageAddr F.base i) ↔ ∃ r ∈ rs, F.Covered r i := by
  constructor
  · rintro ⟨r, hm, hnw, hhit⟩
    exact ⟨r, hm, (covered_iff hnw hi).mpr hhit⟩
  · rintro ⟨r, hm, hcov⟩
    by_cases hnw : r.NoWrap
    · exact ⟨r, hm, hnw, (covered_iff hnw hi).mp hcov⟩
    · exact absurd hcov (not_covered_of_wrap (hr r hm) hnw)

/-- A page below the last one touches a range that wraps exactly when it is not below it. -/
theorem hits_of_wrap (hw : ¬ r.NoWrap) (hpage : page.toNat + 8192 ≤ 2 ^ 64) :
    r.Hits page ↔ r.size ≠ 0#64 ∧ r.base.toNat < page.toNat + 4096 := by
  unfold ReservedRange.NoWrap at hw
  unfold ReservedRange.Hits
  exact and_congr_right fun _ => and_iff_left (by omega)

/-- Pages that no wrap-free range shields are untouched iff they are below the others. -/
theorem not_reserved_iff (hsh : ¬ Shielded rs page) (hpage : page.toNat + 8192 ≤ 2 ^ 64) :
    ¬ Reserved rs page ↔ BelowWrapping rs page := by
  constructor
  · intro hres r hm hsz hw
    refine Nat.le_of_not_lt fun hlt => hres ⟨r, hm, (hits_of_wrap hw hpage).mpr ⟨hsz, hlt⟩⟩
  · rintro hbelow ⟨r, hm, hhit⟩
    by_cases hnw : r.NoWrap
    · exact hsh ⟨r, hm, hnw, hhit⟩
    · obtain ⟨hsz, hlt⟩ := (hits_of_wrap hnw hpage).mp hhit
      exact Nat.not_lt_of_le (hbelow r hm hsz hnw) hlt

/-! ## The managed pages -/

/-- Managed pages end below the last page of the address space, wherever their base is. -/
theorem managed_page_le (hi : i < initTotal m) : (pageAddr (alignUp m.base) i).toNat + 8192 ≤ 2 ^ 64 := by
  have hval := (freshFrames m).pageAddr_toNat (Nat.le_of_lt hi)
  have hstop := (alignDown (m.base + m.size)).isLt
  have hal := alignDown_aligned (m.base + m.size)
  have hbase := alignUp_aligned m.base
  rw [initTotal_eq] at hi
  have hlt := Nat.lt_of_lt_of_le hi (Nat.min_le_left _ _)
  rw [freshFrames_base] at hval
  omega

/-- A managed page is in the range iff rounding up the base did not wrap. -/
theorem contains_iff (hm : m.InSpace) (hi : i < initTotal m) :
    m.Contains (pageAddr (alignUp m.base) i) ↔ m.base.toNat + 4095 < 2 ^ 64 := by
  unfold PhysicalRange.InSpace at hm
  have hmax := initTotal_le m
  simp only [kMaxManagedPages] at hmax
  constructor
  · intro hc
    by_contra hw
    have hzero := alignUp_wrap (Nat.le_of_not_lt hw)
    have hval := (freshFrames m).pageAddr_toNat (Nat.le_of_lt hi)
    rw [freshFrames_base, hzero] at hval
    have hlo := hc.1
    rw [hzero, hval, BitVec.toNat_ofNat] at hlo
    omega
  · intro hnw
    refine contains_pageAddr ⟨?_, hnw⟩ hi
    -- a range that ends at `2 ^ 64` manages nothing
    refine Nat.lt_of_le_of_ne hm fun htop => ?_
    have hzero : m.base + m.size = 0#64 := by
      apply BitVec.eq_of_toNat_eq
      rw [BitVec.toNat_add, htop]; rfl
    have hdown : alignDown (0#64 : Word) = 0#64 := by decide
    rw [initTotal, hzero, hdown, if_pos (by rw [BitVec.le_def]; exact Nat.zero_le _)] at hi
    exact absurd hi (Nat.not_lt_zero i)

/-- After `pmm_init` a managed page is free iff it is a home page that no wrap-free range shields. -/
theorem mem_initFrames_inSpace (hr : ∀ r ∈ rs, r.InSpace) (hi : i < initTotal m) :
    i ∈ (initFrames m rs).free ↔ IsHome i ∧ ¬ Shielded rs (pageAddr (alignUp m.base) i) := by
  have hcov : Shielded rs (pageAddr (alignUp m.base) i) ↔ ∃ r ∈ rs, (freshFrames m).Covered r i :=
    shielded_iff_covered (F := freshFrames m) hr hi
  rw [mem_initFrames_covered hi, hcov]

theorem freeAllowed_iff (hm : m.InSpace) (hr : ∀ r ∈ rs, r.InSpace) (h : Rep s (initFrames m rs)) :
    FreeAllowed m rs s ↔ WrapHarmless m rs := by
  -- page by page: what is free must be allowed
  have hpage : ∀ i, i < initTotal m →
      ((s.isPageFree (pageAddr (alignUp m.base) i) = some true →
          m.Contains (pageAddr (alignUp m.base) i) ∧ ¬ Reserved rs (pageAddr (alignUp m.base) i)) ↔
        (IsHome i → Shielded rs (pageAddr (alignUp m.base) i) ∨
          (m.base.toNat + 4095 < 2 ^ 64 ∧ BelowWrapping rs (pageAddr (alignUp m.base) i)))) := by
    intro i hi
    have hans : s.isPageFree (pageAddr (alignUp m.base) i) = some true ↔
        IsHome i ∧ ¬ Shielded rs (pageAddr (alignUp m.base) i) := by
      have hq : s.isPageFree (pageAddr (alignUp m.base) i) = some (decide (i ∈ (initFrames m rs).free)) :=
        isPageFree_pageAddr h hi
      rw [hq, Option.some.injEq, decide_eq_true_iff, mem_initFrames_inSpace hr hi]
    rw [hans, contains_iff hm hi]
    by_cases hsh : Shielded rs (pageAddr (alignUp m.base) i)
    · exact ⟨fun _ _ => Or.inl hsh, fun _ hc => absurd hsh hc.2⟩
    · rw [not_reserved_iff hsh (managed_page_le hi)]
      exact ⟨fun hf hhome => Or.inr (hf ⟨hhome, hsh⟩), fun hf hc => (hf hc.1).resolve_left hsh⟩
  rw [WrapHarmless, ← initTotal_eq]
  constructor
  · intro hall i hi
    exact (hpage i hi).mp (hall _)
  · intro hall pa hfree
    obtain ⟨b, hb, hiff⟩ := isPageFree_rep h pa
    rw [hb] at hfree
    obtain ⟨i, hi, rfl, _⟩ := hiff.mp (Option.some.inj hfree)
    rw [Option.some.inj hfree] at hb
    exact (hpage i hi).mpr (hall i hi) hb

/-- Arguments that do not wrap are harmless. -/
theorem wrapHarmless_of_noWrap (hm : m.base.toNat + 4095 < 2 ^ 64) (hr : ∀ r ∈ rs, r.NoWrap) : WrapHarmless m rs :=
  fun _ _ _ => Or.inr ⟨hm, fun r hmem _ hw => absurd (hr r hmem) hw⟩

/-- **When no forbidden page becomes free**, for ranges anywhere in the address space. -/
theorem pmmInit_allowed_iff (m : PhysicalRange) (rs : List ReservedRange) (hm : m.InSpace)
    (hr : ∀ r ∈ rs, r.InSpace) :
    (∃ s, pmmInit m rs = some s ∧ FreeAllowed m rs s) ↔ WrapHarmless m rs := by
  obtain ⟨s, hs, hrep⟩ := pmmInit_rep m rs
  rw [← freeAllowed_iff hm hr hrep, hs]
  constructor
  · rintro ⟨t, ht, hall⟩
    exact Option.some.inj ht ▸ hall
  · exact fun hall => ⟨s, rfl, hall⟩

/-- The unit test's arguments are harmless. -/
theorem pmmInit_allowed_test :
    ∃ s, pmmInit testManaged testReserved = some s ∧ FreeAllowed testManaged testReserved s :=
  (pmmInit_allowed_iff testManaged testReserved (by unfold PhysicalRange.InSpace; decide)
    (by unfold ReservedRange.InSpace; decide)).mpr
    (wrapHarmless_of_noWrap (by decide) (by unfold ReservedRange.NoWrap; decide))

/-- The fifteen pages below the last one, all of them reserved together with it. -/
def topManaged : PhysicalRange := ⟨0xffffffffffff0000#64, 0xf000#64⟩
def topReserved : ReservedRange := ⟨0xffffffffffff0000#64, 0x10000#64⟩

/-- The reserved range ends at `2 ^ 64`, that is at 0, and its first page is free. -/
theorem reserved_page_free :
    topManaged.InSpace ∧ topReserved.InSpace ∧ ∃ s, pmmInit topManaged [topReserved] = some s ∧
      s.isPageFree 0xffffffffffff0000#64 = some true ∧ Reserved [topReserved] 0xffffffffffff0000#64 ∧
      ¬ FreeAllowed topManaged [topReserved] s := by
  obtain ⟨s, hs, _⟩ := pmmInit_rep topManaged [topReserved]
  have hfree : (pmmInit topManaged [topReserved]).bind (fun s => s.isPageFree 0xffffffffffff0000#64) = some true := by
    decide +kernel
  have hres : Reserved [topReserved] 0xffffffffffff0000#64 := by decide
  rw [hs, Option.bind_some] at hfree
  exact ⟨by unfold PhysicalRange.InSpace; decide, by unfold ReservedRange.InSpace; decide, s, hs, hfree, hres,
    fun hall => (hall _ hfree).2 hres⟩

end Mm
end RiscCore
