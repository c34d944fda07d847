import Mathlib.Order.Interval.Finset.Nat
import RiscCore.Mm.PmmInit

/-!
# `Mm.PmmInitExact` — when the initial free set is the intended one

Under the no-wrap conditions the word-level bounds of `initFrames` become page geometry: the managed
pages are the whole pages of the range, and `reserve_range` removes exactly the pages a non-empty
reserved range overlaps. The first loop, however, frees only the *home* index of each bitmap word, so
`pmm_init` meets its purpose on exactly the arguments named by `pmmInit_exact_iff`.
-/

namespace RiscCore
namespace Mm

open Pmm

/-! ## The intended geometry -/

/-- `[base, base + size)` and its rounded ends stay inside 64 bits. -/
def PhysicalRange.NoWrap (m : PhysicalRange) : Prop :=
  m.base.toNat + m.size.toNat < 2 ^ 64 ∧ m.base.toNat + 4095 < 2 ^ 64

/-- `[base, base + size)` and its end rounded up stay inside 64 bits. -/
def ReservedRange.NoWrap (r : ReservedRange) : Prop := r.base.toNat + r.size.toNat + 4095 < 2 ^ 64

/-- The page at `page` lies entirely inside the range. -/
def PhysicalRange.Contains (m : PhysicalRange) (page : Word) : Prop :=
  m.base.toNat ≤ page.toNat ∧ page.toNat + 4096 ≤ m.base.toNat + m.size.toNat

/-- The page at `page` shares a byte with the range, the range being non-empty. -/
def ReservedRange.Hits (r : ReservedRange) (page : Word) : Prop :=
  r.size ≠ 0#64 ∧ r.base.toNat < page.toNat + 4096 ∧ page.toNat < r.base.toNat + r.size.toNat

instance (r : ReservedRange) (page : Word) : Decidable (r.Hits page) :=
  inferInstanceAs (Decidable (_ ∧ _ ∧ _))

/-- Some non-empty reserved range overlaps the page. -/
def Reserved (rs : List ReservedRange) (page : Word) : Prop := ∃ r ∈ rs, r.Hits page

instance (rs : List ReservedRange) (page : Word) : Decidable (Reserved rs page) :=
  inferInstanceAs (Decidable (∃ r ∈ rs, r.Hits page))

/-- The numbers `k` of the pages `[k * 4096, (k + 1) * 4096)` that lie inside the range. -/
def PhysicalRange.wholePages (m : PhysicalRange) : Finset Nat :=
  Finset.Ico ((m.base.toNat + 4095) / 4096) ((m.base.toNat + m.size.toNat) / 4096)

theorem PhysicalRange.mem_wholePages {m : PhysicalRange} {k : Nat} :
    k ∈ m.wholePages ↔ m.base.toNat ≤ k * 4096 ∧ (k + 1) * 4096 ≤ m.base.toNat + m.size.toNat := by
  rw [wholePages, Finset.mem_Ico]; omega

/-- How many pages the allocator manages: the whole pages of the range, at most `kMaxManagedPages`. -/
def PhysicalRange.managedPages (m : PhysicalRange) : Nat := min m.wholePages.card kMaxManagedPages

/-! ## No wrap: words become geometry -/

variable {m : PhysicalRange} {rs : List ReservedRange}

theorem initTotal_noWrap (hm : m.NoWrap) : initTotal m = m.managedPages := by
  have hsum : (m.base + m.size).toNat = m.base.toNat + m.size.toNat := by
    rw [BitVec.toNat_add, Nat.mod_eq_of_lt hm.1]
  rw [initTotal_eq, PhysicalRange.managedPages, PhysicalRange.wholePages, Nat.card_Ico,
    alignUp_toNat hm.2, alignDown_toNat, hsum, ← Nat.sub_mul, Nat.mul_div_cancel _ (by decide)]

theorem contains_pageAddr (hm : m.NoWrap) {i : Nat} (hi : i < initTotal m) :
    m.Contains (pageAddr (alignUp m.base) i) := by
  have hval := (freshFrames m).pageAddr_toNat (i := i) (Nat.le_of_lt hi)
  have hle : i < ((m.base.toNat + m.size.toNat) / 4096) - (m.base.toNat + 4095) / 4096 := by
    rw [initTotal_noWrap hm, PhysicalRange.managedPages, PhysicalRange.wholePages, Nat.card_Ico] at hi
    exact Nat.lt_of_lt_of_le hi (Nat.min_le_left _ _)
  rw [freshFrames_base, alignUp_toNat hm.2] at hval
  constructor <;> omega

/-- Without wrapping, `reserve_range` covers the managed pages the range overlaps. -/
theorem covered_iff {F : FrameSet} {r : ReservedRange} (hr : r.NoWrap) {i : Nat} (hi : i < F.total) :
    F.Covered r i ↔ r.Hits (pageAddr F.base i) := by
  have hal := F.pageAddr_aligned (Nat.le_of_lt hi)
  have hsum : (r.base + r.size).toNat = r.base.toNat + r.size.toNat := by
    rw [BitVec.toNat_add, Nat.mod_eq_of_lt]; unfold ReservedRange.NoWrap at hr; omega
  have hup : (alignUp (r.base + r.size)).toNat = (r.base.toNat + r.size.toNat + 4095) / 4096 * 4096 := by
    rw [alignUp_toNat (by rw [hsum]; exact hr), hsum]
  unfold FrameSet.Covered ReservedRange.Hits
  rw [BitVec.le_def, BitVec.lt_def, alignDown_toNat, hup]
  constructor
  · rintro ⟨hs, _, hlo, hhi⟩; exact ⟨hs, by omega, by omega⟩
  · rintro ⟨hs, hlo, hhi⟩; exact ⟨hs, hi, by omega, by omega⟩

/-- Which managed pages are free after `pmm_init`: home pages that no reserved range covers. -/
theorem mem_initFrames_covered {i : Nat} (hi : i < initTotal m) :
    i ∈ (initFrames m rs).free ↔ IsHome i ∧ ¬ ∃ r ∈ rs, (freshFrames m).Covered r i := by
  have hlt : i < kMaxManagedPages := (freshFrames m).lt_max hi
  have hword : 64 * (i / 64) < initTotal m := by omega
  rw [initFrames, FrameSet.without_free, Finset.mem_filter]
  exact and_congr_left fun _ =>
    ⟨fun h => (mem_homeIndices.mp h).2.1, fun h => mem_homeIndices.mpr ⟨hlt, h, hword⟩⟩

/-- Without wrapping these are the unreserved ones. -/
theorem mem_initFrames (hr : ∀ r ∈ rs, r.NoWrap) {i : Nat} (hi : i < initTotal m) :
    i ∈ (initFrames m rs).free ↔ IsHome i ∧ ¬ Reserved rs (pageAddr (alignUp m.base) i) := by
  have hcov : (∃ r ∈ rs, (freshFrames m).Covered r i) ↔ Reserved rs (pageAddr (alignUp m.base) i) := by
    constructor
    · rintro ⟨r, hm, hc⟩; exact ⟨r, hm, (covered_iff (hr r hm) hi).mp hc⟩
    · rintro ⟨r, hm, hc⟩; exact ⟨r, hm, (covered_iff (F := freshFrames m) (hr r hm) hi).mpr hc⟩
  rw [mem_initFrames_covered hi, hcov]

/-- A free index beyond the managed pages is the home index of the last bitmap word. -/
theorem mem_initFrames_stray {i : Nat} (hi : initTotal m ≤ i) :
    i ∈ (initFrames m rs).free ↔ i ∈ homeIndices (initTotal m) := by
  have hcov : ¬ ∃ r ∈ rs, (freshFrames m).Covered r i := by
    rintro ⟨r, _, _, hlt, _⟩
    rw [freshFrames_total] at hlt
    omega
  rw [initFrames, FrameSet.without_free, Finset.mem_filter]
  exact and_iff_left hcov

/-- The home index of the bitmap word that holds the last managed page is itself managed. -/
def LastHomeManaged (total : Nat) : Prop := total = 0 ∨ (total - 1) / 64 % 64 ≤ (total - 1) % 64

instance (total : Nat) : Decidable (LastHomeManaged total) := inferInstanceAs (Decidable (_ ∨ _))

theorem lastHomeManaged_iff {total : Nat} (hle : total ≤ kMaxManagedPages) :
    LastHomeManaged total ↔ ∀ i ∈ homeIndices total, i < total := by
  simp only [kMaxManagedPages] at hle
  constructor
  · intro h i hi
    obtain ⟨_, hhome, hword⟩ := mem_homeIndices.mp hi
    rw [isHome_iff] at hhome
    rcases h with h | h
    · omega
    · have hdiv : (total - 1) / 64 = i / 64 ∨ i < total := by omega
      rcases hdiv with hdiv | hlt
      · rw [hdiv] at h; omega
      · exact hlt
  · intro h
    by_cases h0 : total = 0
    · exact Or.inl h0
    · refine Or.inr (Nat.le_of_not_lt fun hlt => ?_)
      -- the home index of the last word is then at or above `total`
      have hf := freedIndex_word (total - 1)
      have ho := freedIndex_offset (total - 1)
      have hmem : freedIndex (total - 1) ∈ homeIndices total := by
        refine mem_homeIndices.mpr ⟨freedIndex_lt ?_, isHome_freedIndex _, by omega⟩
        simp only [kMaxManagedPages]; omega
      have := h _ hmem
      omega

/-! ## The exact free set -/

/-- **The intended result of `pmm_init`.** -/
structure InitExact (m : PhysicalRange) (rs : List ReservedRange) (s : Pmm) : Prop where
  total : s.totalPages = m.managedPages
  free_iff : ∀ i, i < s.totalPages → ∃ b, s.isPageFree (pageAddr (alignUp m.base) i) = some b ∧
    (b = true ↔ ¬ Reserved rs (pageAddr (alignUp m.base) i))
  count : s.freePages =
    ((Finset.range s.totalPages).filter (fun i => ¬ Reserved rs (pageAddr (alignUp m.base) i))).card

/-- The managed pages that no reserved range covers. -/
def unreserved (m : PhysicalRange) (rs : List ReservedRange) : Finset Nat :=
  (Finset.range m.managedPages).filter fun i => ¬ Reserved rs (pageAddr (alignUp m.base) i)

theorem mem_unreserved {i : Nat} :
    i ∈ unreserved m rs ↔ i < m.managedPages ∧ ¬ Reserved rs (pageAddr (alignUp m.base) i) := by
  rw [unreserved, Finset.mem_filter, Finset.mem_range]

/-- The free set is what the allocator answers and counts. -/
theorem initExact_iff_free {s : Pmm} (hm : m.NoWrap) (h : Rep s (initFrames m rs)) :
    InitExact m rs s ↔ (initFrames m rs).free = unreserved m rs := by
  have hinit : initTotal m = m.managedPages := initTotal_noWrap hm
  have htot : s.totalPages = m.managedPages := h.total.trans hinit
  have hfree : ∀ i, i < m.managedPages → s.isPageFree (pageAddr (alignUp m.base) i)
      = some (decide (i ∈ (initFrames m rs).free)) := fun i hi =>
    isPageFree_pageAddr h (by rw [initFrames_total, hinit]; exact hi)
  constructor
  · intro hex
    have hsub : unreserved m rs ⊆ (initFrames m rs).free := by
      intro i hi
      obtain ⟨hlt, hnr⟩ := mem_unreserved.mp hi
      obtain ⟨b, hb, hiff⟩ := hex.free_iff i (htot ▸ hlt)
      rw [hfree i hlt] at hb
      have hbt := hiff.mpr hnr
      rw [← Option.some.inj hb, decide_eq_true_iff] at hbt
      exact hbt
    -- equal cardinalities leave no room for a stray free index
    have hcard : (initFrames m rs).free.card ≤ (unreserved m rs).card := by
      have hc := hex.count
      rw [htot] at hc
      exact Nat.le_of_eq (h.counted.symm.trans hc)
    exact (Finset.eq_of_subset_of_card_le hsub hcard).symm
  · intro heq
    refine ⟨htot, fun i hi => ?_, ?_⟩
    · rw [htot] at hi
      refine ⟨_, hfree i hi, ?_⟩
      rw [decide_eq_true_iff, heq, mem_unreserved]
      exact and_iff_right hi
    · rw [htot]
      exact h.counted.trans (congrArg Finset.card heq)

/-- The home indices are the unreserved pages exactly when the others are reserved and none lies behind the last page. -/
theorem initFrames_free_eq_iff (hm : m.NoWrap) (hr : ∀ r ∈ rs, r.NoWrap) :
    (initFrames m rs).free = unreserved m rs ↔
      (∀ i, i < m.managedPages → i % 64 ≠ i / 64 % 64 → Reserved rs (pageAddr (alignUp m.base) i)) ∧
      LastHomeManaged m.managedPages := by
  have hinit : initTotal m = m.managedPages := initTotal_noWrap hm
  have hmem : ∀ i, i < m.managedPages → (i ∈ (initFrames m rs).free ↔
      i % 64 = i / 64 % 64 ∧ ¬ Reserved rs (pageAddr (alignUp m.base) i)) := fun i hi => by
    rw [mem_initFrames hr (hinit ▸ hi), isHome_iff]
  rw [lastHomeManaged_iff (hinit ▸ initTotal_le m)]
  constructor
  · intro heq
    refine ⟨fun i hi hne => ?_, fun i hi => ?_⟩
    · by_contra hnr
      have hin := mem_unreserved.mpr ⟨hi, hnr⟩
      rw [← heq] at hin
      exact hne ((hmem i hi).mp hin).1
    · by_contra hge
      have hstray : i ∈ (initFrames m rs).free := (mem_initFrames_stray (by omega)).mpr (hinit ▸ hi)
      rw [heq] at hstray
      exact hge (mem_unreserved.mp hstray).1
  · rintro ⟨hnonhome, hlast⟩
    ext i
    rw [mem_unreserved]
    by_cases hi : i < m.managedPages
    · rw [hmem i hi]
      refine ⟨fun h => ⟨hi, h.2⟩, fun h => ⟨?_, h.2⟩⟩
      by_contra hne
      exact h.2 (hnonhome i hi hne)
    · rw [mem_initFrames_stray (by omega)]
      exact ⟨fun h => absurd (hlast i (hinit ▸ h)) hi, fun h => absurd h.1 hi⟩

theorem initExact_iff {s : Pmm} (hm : m.NoWrap) (hr : ∀ r ∈ rs, r.NoWrap)
    (h : Rep s (initFrames m rs)) :
    InitExact m rs s ↔
      (∀ i, i < m.managedPages → i % 64 ≠ i / 64 % 64 → Reserved rs (pageAddr (alignUp m.base) i)) ∧
      LastHomeManaged m.managedPages :=
  (initExact_iff_free hm h).trans (initFrames_free_eq_iff hm hr)

/-- **When `pmm_init` builds the intended free set:** every managed page that is not a home page is
    reserved anyway, and the last bitmap word's home page is managed. -/
theorem pmmInit_exact_iff (m : PhysicalRange) (rs : List ReservedRange) (hm : m.NoWrap)
    (hr : ∀ r ∈ rs, r.NoWrap) :
    (∃ s, pmmInit m rs = some s ∧ InitExact m rs s) ↔
      (∀ i, i < m.managedPages → i % 64 ≠ i / 64 % 64 → Reserved rs (pageAddr (alignUp m.base) i)) ∧
      LastHomeManaged m.managedPages := by
  obtain ⟨s, hs, hrep⟩ := pmmInit_rep m rs
  rw [← initExact_iff hm hr hrep, hs]
  constructor
  · rintro ⟨t, ht, hex⟩; exact Option.some.inj ht ▸ hex
  · intro hex; exact ⟨s, rfl, hex⟩

/-- Four pages whose non-home pages are all reserved, by ranges that cover them in part: page 0 alone is free, as
    intended. -/
theorem pmmInit_exact_iff_test :
    ∃ s, pmmInit ⟨0x80000000#64, 0x4000#64⟩ [⟨0x80001010#64, 100#64⟩, ⟨0x80002800#64, 0x1000#64⟩] = some s ∧
      InitExact ⟨0x80000000#64, 0x4000#64⟩ [⟨0x80001010#64, 100#64⟩, ⟨0x80002800#64, 0x1000#64⟩] s :=
  (pmmInit_exact_iff ⟨0x80000000#64, 0x4000#64⟩ [⟨0x80001010#64, 100#64⟩, ⟨0x80002800#64, 0x1000#64⟩]
    (by unfold PhysicalRange.NoWrap; decide) (by unfold ReservedRange.NoWrap; decide)).mpr (by decide)

/-- The sixteen-page range and the three reservations of the allocator's own unit test. -/
def testManaged : PhysicalRange := ⟨0x80000000#64, 0x10000#64⟩
def testReserved : List ReservedRange :=
  [⟨0x80000000#64, 4096#64⟩, ⟨0x80003010#64, 100#64⟩, ⟨0x90000000#64, 4096#64⟩]

/-- On the unit test's own input no page at all is free; the test expects fourteen. -/
theorem pmmInit_test_not_exact :
    testManaged.NoWrap ∧ (∀ r ∈ testReserved, r.NoWrap) ∧
      (pmmInit testManaged testReserved).map Pmm.freePages = some 0 ∧
      ¬ ∃ s, pmmInit testManaged testReserved = some s ∧ InitExact testManaged testReserved s := by
  refine ⟨by unfold PhysicalRange.NoWrap; decide, by unfold ReservedRange.NoWrap; decide, by decide +kernel, ?_⟩
  rintro ⟨s, hs, hex⟩
  have hfree : (pmmInit testManaged testReserved).map Pmm.freePages = some 0 := by decide +kernel
  have htotal : (pmmInit testManaged testReserved).map Pmm.totalPages = some 16 := by decide +kernel
  rw [hs] at hfree htotal
  have hf : s.freePages = 0 := Option.some.inj hfree
  have ht : s.totalPages = 16 := Option.some.inj htotal
  have hcount := hex.count
  rw [hf, ht] at hcount
  exact absurd hcount (by decide +kernel)

end Mm
end RiscCore
