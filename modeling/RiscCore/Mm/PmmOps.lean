import RiscCore.Mm.Frames

/-!
# `Mm.PmmOps` — the allocator's calls as abstract steps

One lemma for each public function of `pmm.cpp`, over any state that stores a `FrameSet`: `alloc_page`
takes the lowest free index below `total`, `free_page` adds `freedIndex i`, the queries read the free set.
Each says `some`, so no call in such a state indexes outside the bitmap.
-/

namespace RiscCore
namespace Mm

open Pmm

variable {s : Pmm} {F : FrameSet}

/-- `i` is the page `alloc_page` returns next. -/
structure FrameSet.IsLowest (F : FrameSet) (i : Nat) : Prop where
  lt_total : i < F.total
  mem : i ∈ F.free
  least : ∀ j, j < i → j ∉ F.free

theorem FrameSet.lt_max (F : FrameSet) {i : Nat} (hi : i < F.total) : i < kMaxManagedPages :=
  Nat.lt_of_lt_of_le hi F.total_le

/-! ## `alloc_page` -/

/-- The scan from `i`, every earlier index being used. -/
theorem allocLoop_rep (h : Rep s F) : ∀ (count i : Nat), i + count = F.total → (∀ j, j < i → j ∉ F.free) →
    (s.allocLoop count i = some (0#64, s) ∧ ∀ j, j < F.total → j ∉ F.free) ∨
    ∃ j s', F.IsLowest j ∧ s.allocLoop count i = some (pageAddr F.base j, s') ∧ Rep s' (F.reserve j) := by
  -- the induction is on the indices left; every earlier one is known to be used
  intro count
  induction count with
  | zero =>
      intro i hi hused
      exact Or.inl ⟨rfl, fun j hj => hused j (by omega)⟩
  | succ count ih =>
      intro i hi hused
      have hlt : i < F.total := by omega
      by_cases hm : i ∈ F.free
      · -- the scan stops here
        obtain ⟨s', hs', hrep⟩ := markUsedIndex_rep h (F.lt_max hlt)
        refine Or.inr ⟨i, s', ⟨hlt, hm, hused⟩, ?_, hrep⟩
        simp [allocLoop, usedIndex_rep h (F.lt_max hlt), hm, hs', h.base]
      · have hstep : s.allocLoop (count + 1) i = s.allocLoop count (i + 1) := by
          simp [allocLoop, usedIndex_rep h (F.lt_max hlt), hm]
        rw [hstep]
        refine ih (i + 1) (by omega) (fun j hj => ?_)
        by_cases hji : j = i
        · exact hji ▸ hm
        · exact hused j (by omega)

/-- **`alloc_page`** returns null iff no managed index is free, else the lowest free page. -/
theorem allocPage_rep (h : Rep s F) :
    (s.allocPage = some (0#64, s) ∧ ∀ i, i < F.total → i ∉ F.free) ∨
    ∃ i s', F.IsLowest i ∧ s.allocPage = some (pageAddr F.base i, s') ∧ Rep s' (F.reserve i) := by
  unfold allocPage
  rw [h.total]
  exact allocLoop_rep h F.total 0 (by omega) (fun j hj => absurd hj (Nat.not_lt_zero j))

/-! ## Managed pages -/

theorem isManagedPage_iff (h : Rep s F) {pa : Word} :
    s.isManagedPage pa = true ↔ ∃ i, i < F.total ∧ pa = pageAddr F.base i := by
  have hstop : (pageAddr F.base F.total).toNat = F.base.toNat + F.total * 4096 :=
    F.pageAddr_toNat (Nat.le_refl _)
  have hb := F.base_aligned
  constructor
  · intro hm
    unfold isManagedPage at hm
    split at hm
    · exact absurd hm (by simp)
    · rename_i hal
      -- an aligned address in the range is a whole number of pages from the base
      have hal' : pa.toNat % 4096 = 0 := isPageAligned_iff.mp (by simpa using hal)
      simp only [Bool.and_eq_true, decide_eq_true_eq, ge_iff_le, BitVec.le_def, BitVec.lt_def, h.base, h.total,
        hstop] at hm
      obtain ⟨hlo, hhi⟩ := hm
      refine ⟨(pa.toNat - F.base.toNat) / 4096, by omega, BitVec.toNat_inj.mp ?_⟩
      rw [F.pageAddr_toNat (by omega)]
      omega
  · rintro ⟨i, hi, rfl⟩
    have hval := F.pageAddr_toNat (Nat.le_of_lt hi)
    have hal : isPageAligned (pageAddr F.base i) = true :=
      isPageAligned_iff.mpr (F.pageAddr_aligned (Nat.le_of_lt hi))
    simp only [isManagedPage, hal, Bool.not_true, Bool.false_eq_true, if_false, Bool.and_eq_true,
      decide_eq_true_eq, ge_iff_le, BitVec.le_def, BitVec.lt_def, h.base, h.total, hstop, hval]
    omega

theorem isManagedPage_pageAddr (h : Rep s F) {i : Nat} (hi : i < F.total) :
    s.isManagedPage (pageAddr F.base i) = true :=
  (isManagedPage_iff h).mpr ⟨i, hi, rfl⟩

theorem paToIndex_pageAddr (h : Rep s F) {i : Nat} (hi : i ≤ F.total) :
    s.paToIndex (pageAddr F.base i) = i := by
  have hval := F.pageAddr_toNat hi
  have hfit := F.fits
  have hsub : (pageAddr F.base i - F.base).toNat = i * 4096 := by
    rw [BitVec.toNat_sub_of_le (by rw [BitVec.le_def]; omega)]; omega
  rw [paToIndex, h.base, BitVec.toNat_ushiftRight, hsub, kPageShift, Nat.shiftRight_eq_div_pow]
  omega

/-! ## Queries and `free_page` -/

theorem isPageFree_pageAddr (h : Rep s F) {i : Nat} (hi : i < F.total) :
    s.isPageFree (pageAddr F.base i) = some (decide (i ∈ F.free)) := by
  simp [isPageFree, isManagedPage_pageAddr h hi, paToIndex_pageAddr h (Nat.le_of_lt hi),
    usedIndex_rep h (F.lt_max hi)]

theorem isPageFree_unmanaged {pa : Word} (hn : s.isManagedPage pa = false) :
    s.isPageFree pa = some false := by
  simp [isPageFree, hn]

/-- **`is_page_free`** answers for every address: managed, and its index is free. -/
theorem isPageFree_rep (h : Rep s F) (pa : Word) :
    ∃ b, s.isPageFree pa = some b ∧ (b = true ↔ ∃ i, i < F.total ∧ pa = pageAddr F.base i ∧ i ∈ F.free) := by
  by_cases hm : s.isManagedPage pa = true
  · obtain ⟨i, hi, rfl⟩ := (isManagedPage_iff h).mp hm
    refine ⟨_, isPageFree_pageAddr h hi, ?_⟩
    rw [decide_eq_true_iff]
    refine ⟨fun hf => ⟨i, hi, rfl, hf⟩, ?_⟩
    rintro ⟨j, hj, he, hf⟩
    exact F.pageAddr_inj (Nat.le_of_lt hi) (Nat.le_of_lt hj) he ▸ hf
  · refine ⟨false, isPageFree_unmanaged (by simpa using hm), ?_⟩
    constructor
    · intro hc; exact absurd hc (by simp)
    · rintro ⟨i, hi, rfl, _⟩; exact absurd (isManagedPage_pageAddr h hi) hm

theorem freePage_unmanaged {pa : Word} (hn : s.isManagedPage pa = false) :
    s.freePage pa = some (false, s) := by
  simp [freePage, hn]

theorem freePage_free (h : Rep s F) {i : Nat} (hi : i < F.total) (hm : i ∈ F.free) :
    s.freePage (pageAddr F.base i) = some (false, s) := by
  have hal : isPageAligned (pageAddr F.base i) = true :=
    isPageAligned_iff.mpr (F.pageAddr_aligned (Nat.le_of_lt hi))
  simp [freePage, isManagedPage_pageAddr h hi, hal, paToIndex_pageAddr h (Nat.le_of_lt hi),
    usedIndex_rep h (F.lt_max hi), hm]

/-- A used managed page is always accepted, and frees the bit its mask selects. -/
theorem freePage_used (h : Rep s F) {i : Nat} (hi : i < F.total) (hm : i ∉ F.free) :
    ∃ s', s.freePage (pageAddr F.base i) = some (true, s') ∧
      Rep s' (F.release (freedIndex i) (freedIndex_lt (F.lt_max hi))) := by
  have hal : isPageAligned (pageAddr F.base i) = true :=
    isPageAligned_iff.mpr (F.pageAddr_aligned (Nat.le_of_lt hi))
  obtain ⟨s', hs', hrep⟩ := markFreeIndex_rep h (F.lt_max hi)
  refine ⟨s', ?_, hrep⟩
  simp [freePage, isManagedPage_pageAddr h hi, hal, paToIndex_pageAddr h (Nat.le_of_lt hi),
    usedIndex_rep h (F.lt_max hi), hm, hs']

/-- **`free_page`, all outcomes.** Rejected with the state untouched, or the page is managed and used. -/
theorem freePage_cases (h : Rep s F) (pa : Word) :
    (s.freePage pa = some (false, s) ∧ ¬ ∃ i, i < F.total ∧ pa = pageAddr F.base i ∧ i ∉ F.free) ∨
    ∃ i s', ∃ hi : i < F.total, pa = pageAddr F.base i ∧ i ∉ F.free ∧ s.freePage pa = some (true, s') ∧
      Rep s' (F.release (freedIndex i) (freedIndex_lt (F.lt_max hi))) := by
  by_cases hm : s.isManagedPage pa = true
  · obtain ⟨i, hi, rfl⟩ := (isManagedPage_iff h).mp hm
    by_cases hf : i ∈ F.free
    · refine Or.inl ⟨freePage_free h hi hf, ?_⟩
      rintro ⟨j, hj, he, hnf⟩
      exact hnf (F.pageAddr_inj (Nat.le_of_lt hi) (Nat.le_of_lt hj) he ▸ hf)
    · obtain ⟨s', hs', hrep⟩ := freePage_used h hi hf
      exact Or.inr ⟨i, s', hi, rfl, hf, hs', hrep⟩
  · refine Or.inl ⟨freePage_unmanaged (by simpa using hm), ?_⟩
    rintro ⟨i, hi, rfl, _⟩
    exact hm (isManagedPage_pageAddr h hi)

end Mm
end RiscCore
