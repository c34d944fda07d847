import RiscCore.Mm.PmmOps

/-!
# `Mm.PmmInit` — the free set `pmm_init` builds

`pmm_init` runs two loops over the bitmap: one that frees indices below `total`, one that takes the pages
of each reserved range out again. `initFrames` is the resulting abstract state, for every argument,
wrapping ones included; `pmmInit_rep` says the code builds it without leaving the bitmap.
-/

namespace RiscCore
namespace Mm

open Pmm

/-! ## The first loop: free every managed index -/

theorem markFreeLoop_rep : ∀ (count i : Nat) {s : Pmm} {F : FrameSet}, Rep s F →
    i + count ≤ kMaxManagedPages →
    ∃ s' G, markFreeLoop count s i = some s' ∧ Rep s' G ∧ G.base = F.base ∧ G.total = F.total ∧
      ∀ x, x ∈ G.free ↔ x ∈ F.free ∨ ∃ j, i ≤ j ∧ j < i + count ∧ freedIndex j = x := by
  intro count
  induction count with
  | zero =>
      intro i s F h _
      refine ⟨s, F, rfl, h, rfl, rfl, fun x => ⟨Or.inl, ?_⟩⟩
      rintro (hx | ⟨j, hj, hj', _⟩)
      · exact hx
      · omega
  | succ count ih =>
      intro i s F h hle
      have hi : i < kMaxManagedPages := by omega
      obtain ⟨s₁, hs₁, h₁⟩ := markFreeIndex_rep h hi
      obtain ⟨s', G, hs', hG, hb, ht, hfree⟩ := ih (i + 1) h₁ (by omega)
      refine ⟨s', G, ?_, hG, hb, ht, fun x => ?_⟩
      · simp only [markFreeLoop, hs₁, Option.bind_eq_bind, Option.bind_some, hs']
      · rw [hfree, FrameSet.release_free, Finset.mem_insert]
        constructor
        · rintro ((he | hx) | ⟨j, hj, hj', he⟩)
          · exact Or.inr ⟨i, Nat.le_refl _, by omega, he.symm⟩
          · exact Or.inl hx
          · exact Or.inr ⟨j, by omega, by omega, he⟩
        · rintro (hx | ⟨j, hj, hj', he⟩)
          · exact Or.inl (Or.inr hx)
          · by_cases hji : j = i
            · exact Or.inl (Or.inl (hji ▸ he.symm))
            · exact Or.inr ⟨j, by omega, by omega, he⟩

/-! ## The second loop: take the reserved ranges out -/

/-- The indices `reserve_range(base, size)` marks, in the wrapping arithmetic of the source. -/
def FrameSet.Covered (F : FrameSet) (r : ReservedRange) (i : Nat) : Prop :=
  r.size ≠ 0#64 ∧ i < F.total ∧ alignDown r.base ≤ pageAddr F.base i ∧
    pageAddr F.base i < alignUp (r.base + r.size)

instance (F : FrameSet) (r : ReservedRange) : DecidablePred (F.Covered r) :=
  fun _ => inferInstanceAs (Decidable (_ ∧ _ ∧ _ ∧ _))

/-- `Covered` on values. -/
theorem FrameSet.covered_toNat (F : FrameSet) {r : ReservedRange} {i : Nat} (hi : i < F.total) :
    F.Covered r i ↔ r.size ≠ 0#64 ∧ (alignDown r.base).toNat ≤ F.base.toNat + i * 4096 ∧
      F.base.toNat + i * 4096 < (alignUp (r.base + r.size)).toNat := by
  unfold FrameSet.Covered
  rw [BitVec.le_def, BitVec.lt_def, F.pageAddr_toNat (Nat.le_of_lt hi)]
  constructor
  · rintro ⟨hs, _, hlo, hhi⟩; exact ⟨hs, hlo, hhi⟩
  · rintro ⟨hs, hlo, hhi⟩; exact ⟨hs, hi, hlo, hhi⟩

/-- The marking loop from page `k` up to (not including) page `stop`. -/
theorem reserveLoop_rep (stop : Nat) : ∀ (n k fuel : Nat) {s : Pmm} {F : FrameSet}, Rep s F →
    k + n = stop → stop ≤ F.total → n < fuel →
    ∃ s', reserveLoop (pageAddr F.base stop) fuel s (pageAddr F.base k) = some s' ∧
      Rep s' (F.without (fun i => k ≤ i ∧ i < stop)) := by
  -- `n` pages are left; the fuel only has to outlast them
  intro n
  induction n with
  | zero =>
      intro k fuel s F h hk hstop hfuel
      obtain ⟨fuel, rfl⟩ := Nat.exists_eq_succ_of_ne_zero (by omega : fuel ≠ 0)
      have hks : k = stop := by omega
      subst hks
      have hF : F.without (fun i => k ≤ i ∧ i < k) = F :=
        F.without_eq_self (fun i _ => by omega)
      exact ⟨s, by simp [reserveLoop], by rw [hF]; exact h⟩
  | succ n ih =>
      intro k fuel s F h hk hstop hfuel
      obtain ⟨fuel, rfl⟩ := Nat.exists_eq_succ_of_ne_zero (by omega : fuel ≠ 0)
      have hlt : pageAddr F.base k < pageAddr F.base stop := by
        rw [BitVec.lt_def, F.pageAddr_toNat (by omega), F.pageAddr_toNat hstop]; omega
      obtain ⟨s₁, hs₁, h₁⟩ := markUsedIndex_rep h (F.lt_max (i := k) (by omega))
      obtain ⟨s', hs', h'⟩ := ih (k + 1) fuel h₁ (by omega) hstop (by omega)
      refine ⟨s', ?_, ?_⟩
      · simp only [reserveLoop, if_pos hlt, paToIndex_pageAddr h (i := k) (by omega), hs₁,
          Option.bind_eq_bind, Option.bind_some, FrameSet.pageAddr_succ]
        exact hs'
      · have hF : (F.reserve k).without (fun i => k + 1 ≤ i ∧ i < stop)
            = F.without (fun i => k ≤ i ∧ i < stop) := by
          refine FrameSet.ext_free (F := (F.reserve k).without _) (G := F.without _) rfl rfl ?_
          ext i
          simp only [FrameSet.without_free, FrameSet.reserve_free, Finset.mem_filter, Finset.mem_erase]
          constructor
          · rintro ⟨⟨hne, hm⟩, hn⟩; exact ⟨hm, by omega⟩
          · rintro ⟨hm, hn⟩; exact ⟨⟨by omega, hm⟩, by omega⟩
        rw [← hF]; exact h'

/-- An aligned address between two managed boundaries is the address of a managed page. -/
theorem exists_pageAddr (F : FrameSet) {x : Word} (hal : x.toNat % 4096 = 0)
    (hlo : F.base.toNat ≤ x.toNat) (hhi : x.toNat ≤ F.base.toNat + F.total * 4096) :
    ∃ k, k ≤ F.total ∧ x = pageAddr F.base k := by
  have hb := F.base_aligned
  refine ⟨(x.toNat - F.base.toNat) / 4096, by omega, BitVec.toNat_inj.mp ?_⟩
  rw [F.pageAddr_toNat (by omega)]; omega

/-- Taking out indices none of which is free changes nothing. -/
theorem Rep.without_none {s : Pmm} {F : FrameSet} (h : Rep s F) {P : Nat → Prop} [DecidablePred P]
    (hP : ∀ i ∈ F.free, ¬ P i) : Rep s (F.without P) := by
  rw [F.without_eq_self hP]; exact h

/-- The start of a range, clipped to the managed pages. -/
theorem FrameSet.clipStart_toNat (F : FrameSet) (a : Word) :
    (if a < F.base then F.base else a).toNat = max a.toNat F.base.toNat := by
  split
  · rename_i hlt
    rw [BitVec.lt_def] at hlt
    exact (Nat.max_eq_right (Nat.le_of_lt hlt)).symm
  · rename_i hge
    rw [BitVec.lt_def] at hge
    exact (Nat.max_eq_left (Nat.le_of_not_lt hge)).symm

/-- The end of a range, clipped to the managed pages. -/
theorem FrameSet.clipStop_toNat (F : FrameSet) (a : Word) :
    (if a > pageAddr F.base F.total then pageAddr F.base F.total else a).toNat =
      min a.toNat (F.base.toNat + F.total * 4096) := by
  have hend := F.pageAddr_toNat (Nat.le_refl F.total)
  split
  · rename_i hgt
    rw [gt_iff_lt, BitVec.lt_def, hend] at hgt
    rw [hend]
    exact (Nat.min_eq_right (Nat.le_of_lt hgt)).symm
  · rename_i hle
    rw [gt_iff_lt, BitVec.lt_def, hend] at hle
    exact (Nat.min_eq_left (Nat.le_of_not_lt hle)).symm

/-- The indices between the clipped boundaries are the covered ones. -/
theorem FrameSet.between_iff_covered (F : FrameSet) {r : ReservedRange} {k m : Nat} (hsz : r.size ≠ 0#64)
    (hm : m ≤ F.total) (hk : F.base.toNat + k * 4096 = max (alignDown r.base).toNat F.base.toNat)
    (hmv : F.base.toNat + m * 4096 = min (alignUp (r.base + r.size)).toNat (F.base.toNat + F.total * 4096))
    (i : Nat) : k ≤ i ∧ i < m ↔ F.Covered r i := by
  constructor
  · rintro ⟨hki, him⟩
    exact (F.covered_toNat (Nat.lt_of_lt_of_le him hm)).mpr ⟨hsz, by omega, by omega⟩
  · intro hcov
    have hi : i < F.total := hcov.2.1
    obtain ⟨_, hlo, hhi⟩ := (F.covered_toNat hi).mp hcov
    omega

/-- The loop of `reserve_range` between the clipped boundaries. -/
theorem reserveClipped_rep {s : Pmm} {F : FrameSet} (h : Rep s F) {r : ReservedRange} (hsz : r.size ≠ 0#64)
    {start stop : Word} (hstart : start.toNat = max (alignDown r.base).toNat F.base.toNat)
    (hstop : stop.toNat = min (alignUp (r.base + r.size)).toNat (F.base.toNat + F.total * 4096)) :
    ∃ s', (if start ≥ stop then some s else reserveLoop stop (2 ^ 52) s start) = some s' ∧
      Rep s' (F.without (F.Covered r)) := by
  by_cases hge : start ≥ stop
  · rw [if_pos hge]
    refine ⟨s, rfl, h.without_none fun i _ hcov => ?_⟩
    have hi : i < F.total := hcov.2.1
    obtain ⟨_, hlo, hhi⟩ := (F.covered_toNat hi).mp hcov
    rw [ge_iff_le, BitVec.le_def] at hge
    omega
  · rw [if_neg hge]
    rw [ge_iff_le, BitVec.le_def] at hge
    have hb := F.base_aligned
    have had := alignDown_aligned r.base
    have hau := alignUp_aligned (r.base + r.size)
    -- both are boundaries of managed pages
    obtain ⟨k, hk, hkeq⟩ := exists_pageAddr F (x := start) (by omega) (by omega) (by omega)
    obtain ⟨m, hm, hmeq⟩ := exists_pageAddr F (x := stop) (by omega) (by omega) (by omega)
    rw [hkeq, F.pageAddr_toNat hk] at hstart
    rw [hmeq, F.pageAddr_toNat hm] at hstop
    rw [hkeq, hmeq, F.pageAddr_toNat hk, F.pageAddr_toNat hm] at hge
    have hmax := F.total_le
    simp only [kMaxManagedPages] at hmax
    obtain ⟨s', hs', h'⟩ := reserveLoop_rep m (m - k) k (2 ^ 52) h (by omega) hm (by omega)
    have hF : F.without (fun i => k ≤ i ∧ i < m) = F.without (F.Covered r) :=
      F.without_congr fun i _ => F.between_iff_covered hsz hm hstart hstop i
    rw [hkeq, hmeq, ← hF]
    exact ⟨s', hs', h'⟩

/-- **`reserve_range`** removes exactly the covered indices, whatever the arguments. -/
theorem reserveRange_rep {s : Pmm} {F : FrameSet} (h : Rep s F) (r : ReservedRange) :
    ∃ s', s.reserveRange r.base r.size = some s' ∧ Rep s' (F.without (F.Covered r)) := by
  unfold reserveRange
  by_cases hz : r.size = 0#64 ∨ s.gTotalPages = 0
  · rw [if_pos hz]
    refine ⟨s, rfl, h.without_none ?_⟩
    rintro i _ ⟨hs, hi, _⟩
    rcases hz with hz | hz
    · exact hs hz
    · rw [h.total] at hz; omega
  · rw [if_neg hz, h.base, h.total]
    have hsz : r.size ≠ 0#64 := fun hc => hz (Or.inl hc)
    exact reserveClipped_rep h hsz (F.clipStart_toNat (alignDown r.base))
      (F.clipStop_toNat (alignUp (r.base + r.size)))

theorem reserveAll_rep : ∀ (rs : List ReservedRange) {s : Pmm} {F : FrameSet}, Rep s F →
    ∃ s', s.reserveAll rs = some s' ∧ Rep s' (F.without (fun i => ∃ r ∈ rs, F.Covered r i)) := by
  intro rs
  induction rs with
  | nil =>
      intro s F h
      have hF : F.without (fun i => ∃ r ∈ ([] : List ReservedRange), F.Covered r i) = F :=
        F.without_eq_self (by simp)
      exact ⟨s, rfl, by rw [hF]; exact h⟩
  | cons r rs ih =>
      intro s F h
      obtain ⟨s₁, hs₁, h₁⟩ := reserveRange_rep h r
      obtain ⟨s', hs', h'⟩ := ih h₁
      refine ⟨s', by simp only [reserveAll, hs₁, Option.bind_eq_bind, Option.bind_some, hs'], ?_⟩
      have hF : (F.without (F.Covered r)).without
            (fun i => ∃ q ∈ rs, (F.without (F.Covered r)).Covered q i)
          = F.without (fun i => ∃ q ∈ r :: rs, F.Covered q i) := by
        refine FrameSet.ext_free (F := (F.without _).without _) (G := F.without _) rfl rfl ?_
        simp only [FrameSet.without_free, Finset.filter_filter]
        refine Finset.filter_congr (fun i _ => ?_)
        rw [List.exists_mem_cons_iff, not_or]
        exact Iff.rfl
      rw [← hF]; exact h'

/-! ## The state after `pmm_init` -/

/-- `g_total_pages` as `pmm_init` computes it, wrapping included. -/
def initTotal (m : PhysicalRange) : Nat :=
  let base := alignUp m.base
  let stop := alignDown (m.base + m.size)
  if stop ≤ base then 0
  else
    let pageCount := ((stop - base) / kPageSize).toNat
    if pageCount < kMaxManagedPages then pageCount else kMaxManagedPages

theorem initTotal_le (m : PhysicalRange) : initTotal m ≤ kMaxManagedPages := by
  simp only [initTotal]
  split
  · exact Nat.zero_le _
  · split <;> omega

theorem pageCount_toNat {stop base : Word} (h : base < stop) :
    ((stop - base) / kPageSize).toNat = (stop.toNat - base.toNat) / 4096 := by
  rw [BitVec.toNat_udiv, BitVec.toNat_sub_of_le (BitVec.le_of_lt h), kPageSize_toNat]

/-- The total as a minimum, covering both branches of the source. -/
theorem initTotal_eq (m : PhysicalRange) :
    initTotal m = min (((alignDown (m.base + m.size)).toNat - (alignUp m.base).toNat) / 4096)
      kMaxManagedPages := by
  simp only [initTotal]
  by_cases hle : alignDown (m.base + m.size) ≤ alignUp m.base
  · rw [if_pos hle]
    rw [BitVec.le_def] at hle
    rw [Nat.sub_eq_zero_of_le hle, Nat.zero_div, Nat.zero_min]
  · rw [if_neg hle, pageCount_toNat (by simpa using hle), Nat.min_def]
    split <;> split <;> omega

theorem initTotal_fits (m : PhysicalRange) : (alignUp m.base).toNat + initTotal m * 4096 < 2 ^ 64 := by
  have hlt := (alignDown (m.base + m.size)).isLt
  have hbase := (alignUp m.base).isLt
  have hmin : initTotal m ≤ ((alignDown (m.base + m.size)).toNat - (alignUp m.base).toNat) / 4096 := by
    rw [initTotal_eq]; exact Nat.min_le_left _ _
  omega

/-- The frames of a managed range, with the given free indices. -/
def rangeFrames (m : PhysicalRange) (free : Finset Nat) (h : ∀ i ∈ free, i < kMaxManagedPages) : FrameSet where
  base := alignUp m.base
  total := initTotal m
  free := free
  base_aligned := alignUp_aligned _
  total_le := initTotal_le m
  fits := initTotal_fits m
  free_lt := h

/-- The indices the first loop frees: the home bit of every word that holds a managed index. -/
def homeIndices (total : Nat) : Finset Nat :=
  (Finset.range kMaxManagedPages).filter (fun i => IsHome i ∧ 64 * (i / 64) < total)

theorem mem_homeIndices {total i : Nat} :
    i ∈ homeIndices total ↔ i < kMaxManagedPages ∧ IsHome i ∧ 64 * (i / 64) < total := by
  rw [homeIndices, Finset.mem_filter, Finset.mem_range]

/-- The abstract state after the first loop. -/
def freshFrames (m : PhysicalRange) : FrameSet :=
  rangeFrames m (homeIndices (initTotal m)) (fun _ hi => (mem_homeIndices.mp hi).1)

@[simp] theorem freshFrames_base (m : PhysicalRange) : (freshFrames m).base = alignUp m.base := rfl
@[simp] theorem freshFrames_total (m : PhysicalRange) : (freshFrames m).total = initTotal m := rfl

/-- **The abstract state after `pmm_init`.** -/
def initFrames (m : PhysicalRange) (rs : List ReservedRange) : FrameSet :=
  (freshFrames m).without (fun i => ∃ r ∈ rs, (freshFrames m).Covered r i)

@[simp] theorem initFrames_base (m : PhysicalRange) (rs : List ReservedRange) :
    (initFrames m rs).base = alignUp m.base := rfl
@[simp] theorem initFrames_total (m : PhysicalRange) (rs : List ReservedRange) :
    (initFrames m rs).total = initTotal m := rfl

/-- The bits freed while the loop runs over `[0, total)` are the home bits of those words. -/
theorem exists_freedIndex {total x : Nat} :
    (∃ j, 0 ≤ j ∧ j < 0 + total ∧ freedIndex j = x) ↔ IsHome x ∧ 64 * (x / 64) < total := by
  constructor
  · rintro ⟨j, _, hj, rfl⟩
    have hw := freedIndex_word j
    exact ⟨isHome_freedIndex j, by omega⟩
  · rintro ⟨hhome, hlt⟩
    refine ⟨64 * (x / 64), Nat.zero_le _, by omega, ?_⟩
    have hword : wordIndex (64 * (x / 64)) = wordIndex x := by
      simp only [wordIndex, kBitsPerWord]; omega
    rw [freedIndex, hword]
    exact hhome

/-- **`pmm_init`** never leaves the bitmap and builds `initFrames`, for every argument. -/
theorem pmmInit_rep (m : PhysicalRange) (rs : List ReservedRange) :
    ∃ s, pmmInit m rs = some s ∧ Rep s (initFrames m rs) := by
  have hclear : BitSet.clear (Vector.replicate kBitmapWords (BitVec.allOnes 64)) = ∅ :=
    BitSet.clear_replicate_allOnes (by decide)
  unfold pmmInit
  by_cases hle : alignDown (m.base + m.size) ≤ alignUp m.base
  · -- nothing to manage: the early return leaves every bit set
    have htotal : initTotal m = 0 := by simp only [initTotal]; rw [if_pos hle]
    have hempty : (initFrames m rs).free = ∅ := by
      apply Finset.eq_empty_of_forall_notMem
      intro i hi
      have hhome := (mem_homeIndices.mp (Finset.mem_filter.mp hi).1).2.2
      omega
    simp only [if_pos hle]
    exact ⟨_, rfl, rfl, htotal.symm, hclear.trans hempty.symm, by rw [hempty]; rfl⟩
  · simp only [if_neg hle]
    have htotal : (if ((alignDown (m.base + m.size) - alignUp m.base) / kPageSize).toNat < kMaxManagedPages
        then ((alignDown (m.base + m.size) - alignUp m.base) / kPageSize).toNat else kMaxManagedPages)
        = initTotal m := by
      simp only [initTotal]; rw [if_neg hle]
    rw [htotal]
    have hstart : Rep
        { gUsedBitmap := Vector.replicate kBitmapWords (BitVec.allOnes 64), gManagedBase := alignUp m.base,
          gTotalPages := initTotal m, gFreePages := 0 }
        (rangeFrames m ∅ (by simp)) := ⟨rfl, rfl, hclear, rfl⟩
    -- the first loop frees one bit in each word it touches
    obtain ⟨s₁, G, hs₁, hG, hb, ht, hfree⟩ :=
      markFreeLoop_rep (initTotal m) 0 hstart (by rw [Nat.zero_add]; exact initTotal_le m)
    have hGeq : G = freshFrames m := by
      refine FrameSet.ext_free (hb.trans (freshFrames_base m).symm) (ht.trans (freshFrames_total m).symm) ?_
      ext x
      rw [hfree, exists_freedIndex]
      constructor
      · rintro (hx | hx)
        · exact absurd hx (Finset.notMem_empty _)
        · have hle := initTotal_le m
          refine mem_homeIndices.mpr ⟨?_, hx⟩
          have hlt := hx.2
          simp only [kMaxManagedPages] at hle ⊢
          omega
      · intro hx; exact Or.inr (mem_homeIndices.mp hx).2
    subst hGeq
    -- the second loop takes the reserved ranges out again
    obtain ⟨s', hs', h'⟩ := reserveAll_rep rs hG
    exact ⟨s', by simp only [hs₁, Option.bind_eq_bind, Option.bind_some, hs'], h'⟩

end Mm
end RiscCore
