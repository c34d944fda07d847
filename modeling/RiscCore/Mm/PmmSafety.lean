import RiscCore.Mm.PmmRuns

/-!
# `Mm.PmmSafety` — what holds over whole runs of the allocator

The run theorems: pages are handed out once, the counter agrees with the bitmap, and what `free_page`
accepts. All three are read off the `Ledger`, the abstract state behind every reachable allocator.
-/

namespace RiscCore
namespace Mm

open Pmm Runs

variable {m : PhysicalRange} {rs : List ReservedRange} {F₀ F : FrameSet} {c : Client}

/-- A managed page of the initial free set is inside the range and unreserved. -/
theorem init_page_ok (hm : m.NoWrap) (hr : ∀ r ∈ rs, r.NoWrap) {i : Nat} (hi : i < initTotal m)
    (hf : i ∈ (initFrames m rs).free) :
    isPageAligned (pageAddr (alignUp m.base) i) = true ∧ m.Contains (pageAddr (alignUp m.base) i) ∧
      ¬ Reserved rs (pageAddr (alignUp m.base) i) :=
  ⟨isPageAligned_iff.mpr ((freshFrames m).pageAddr_aligned (Nat.le_of_lt hi)), contains_pageAddr hm hi,
    ((mem_initFrames hr hi).mp hf).2⟩

/-- Releasing one managed index changes the `is_page_free` answer of that page only. -/
theorem isPageFree_release {s s' : Pmm} {i : Nat} (h : Rep s F) (hi : i < F.total)
    {hmax : i < kMaxManagedPages} (h' : Rep s' (F.release i hmax)) (q : Word) :
    ∃ b, s.isPageFree q = some b ∧ s'.isPageFree q = some (b || q == pageAddr F.base i) := by
  obtain ⟨b, hb, hbiff⟩ := isPageFree_rep h q
  obtain ⟨b', hb', hbiff'⟩ := isPageFree_rep h' q
  refine ⟨b, hb, ?_⟩
  have heq : b' = (b || q == pageAddr F.base i) := by
    apply Bool.eq_iff_iff.mpr
    rw [Bool.or_eq_true, beq_iff_eq, hbiff, hbiff']
    constructor
    · rintro ⟨j, hj, rfl, hm⟩
      rcases Finset.mem_insert.mp hm with rfl | hm
      · exact Or.inr rfl
      · exact Or.inl ⟨j, hj, rfl, hm⟩
    · rintro (⟨j, hj, rfl, hm⟩ | rfl)
      · exact ⟨j, hj, rfl, Finset.mem_insert_of_mem hm⟩
      · exact ⟨i, hi, rfl, Finset.mem_insert_self _ _⟩
  rw [hb', heq]

/-- **No page is handed out twice.** In every run that frees only outstanding pages no call leaves the
    bitmap, `alloc_page` returns null or an unreserved page of the managed range that nobody holds, and
    freeing a held page succeeds and makes exactly that page free. -/
theorem pages_handed_out_once (m : PhysicalRange) (rs : List ReservedRange) (hm : m.NoWrap)
    (hr : ∀ r ∈ rs, r.NoWrap) :
    ∃ s, pmmInit m rs = some s ∧ ∀ c, Reach Client.step Client.Owns ⟨s, []⟩ c →
      (∃ p s', c.pmm.allocPage = some (p, s') ∧ (p ≠ 0#64 →
        isPageAligned p = true ∧ m.Contains p ∧ ¬ Reserved rs p ∧ p ∉ c.outstanding)) ∧
      (∀ p ∈ c.outstanding, ∃ s', c.pmm.freePage p = some (true, s') ∧ c.pmm.isPageFree p = some false ∧
        ∀ q, ∃ b, c.pmm.isPageFree q = some b ∧ s'.isPageFree q = some (b || q == p)) := by
  obtain ⟨s, hs, hrep⟩ := pmmInit_rep m rs
  refine ⟨s, hs, fun c hc => ?_⟩
  have hhome := initFrames_homed m rs
  obtain ⟨F, hled⟩ := ledger_reach hhome hrep hc
  constructor
  · obtain ⟨p, s', _, ha, _, hpage⟩ := hled.alloc
    refine ⟨p, s', ha, fun hne => ?_⟩
    obtain ⟨hnew, i, hi, rfl, hmem⟩ := hpage hne
    obtain ⟨hal, hin, hres⟩ := init_page_ok hm hr hi hmem
    exact ⟨hal, hin, hres, hnew⟩
  · intro p hp
    obtain ⟨i, s', hmax, hi, rfl, hnf, hfree, hrel, _⟩ := hled.free_held hhome hp
    have hiF : i < F.total := by rw [hled.total]; exact hi
    have hused := isPageFree_pageAddr hled.rep hiF
    rw [hled.base] at hused
    refine ⟨s', hfree, by rw [hused, decide_eq_false hnf], fun q => ?_⟩
    have hq := isPageFree_release hled.rep hiF hrel q
    rw [hled.base] at hq
    exact hq

/-- A hundred and sixty pages: the bits of pages 0, 65 and 130 can be cleared. -/
def managed160 : PhysicalRange := ⟨0x80000000#64, 0xa0000#64⟩

/-- With page 65 reserved, after two allocations and one free: page 0 is handed out again, page 130 is still held and
    can be freed. -/
theorem pages_handed_out_once_test :
    ∃ s c, pmmInit managed160 [⟨0x80041010#64, 100#64⟩] = some s ∧
      run Client.step ⟨s, []⟩ [.alloc, .alloc, .free 0x80000000#64] = some c ∧ c.outstanding = [0x80082000#64] ∧
      (∃ s', c.pmm.allocPage = some (0x80000000#64, s') ∧ managed160.Contains 0x80000000#64 ∧
        ¬ Reserved [⟨0x80041010#64, 100#64⟩] 0x80000000#64 ∧ 0x80000000#64 ∉ c.outstanding) ∧
      ∃ s', c.pmm.freePage 0x80082000#64 = some (true, s') ∧ s'.isPageFree 0x80082000#64 = some true := by
  obtain ⟨s, hs, hall⟩ := pages_handed_out_once managed160 [⟨0x80041010#64, 100#64⟩]
    (by unfold PhysicalRange.NoWrap; decide) (by unfold ReservedRange.NoWrap; decide)
  have hrun : ∀ s ∈ pmmInit managed160 [⟨0x80041010#64, 100#64⟩],
      Always Client.step Client.Owns ⟨s, []⟩ [.alloc, .alloc, .free 0x80000000#64] ∧
      ((run Client.step ⟨s, []⟩ [.alloc, .alloc, .free 0x80000000#64]).map Client.outstanding) =
        some [0x80082000#64] := by decide +kernel
  have hnext : ∀ s ∈ pmmInit managed160 [⟨0x80041010#64, 100#64⟩],
      ∀ c ∈ run Client.step ⟨s, []⟩ [.alloc, .alloc, .free 0x80000000#64],
      ∀ a ∈ c.pmm.allocPage, a.1 = 0x80000000#64 := by decide +kernel
  obtain ⟨howns, hout⟩ := hrun s hs
  obtain ⟨c, hc, hout⟩ := Option.map_eq_some_iff.mp hout
  obtain ⟨⟨p, s', ha, hp⟩, hheld⟩ := hall c (Reach.of_run _ howns hc)
  obtain rfl : p = 0x80000000#64 := hnext s hs c hc _ ha
  obtain ⟨_, hin, hres, hnew⟩ := hp (by decide)
  obtain ⟨t, hf, _, hexact⟩ := hheld 0x80082000#64 (by rw [hout]; exact List.mem_cons_self)
  obtain ⟨b, _, hfree⟩ := hexact 0x80082000#64
  exact ⟨s, c, hs, hc, hout, ⟨s', ha, hin, hres, hnew⟩, t, hf, by simpa using hfree⟩

/-! ## Accounting -/

/-- `k` consecutive calls of `alloc_page` return pages and the next one returns null. -/
inductive AllocsUntilNull : Pmm → Nat → Prop where
  | done {s s' : Pmm} : s.allocPage = some (0#64, s') → AllocsUntilNull s 0
  | page {s s' : Pmm} {p : Word} {k : Nat} : s.allocPage = some (p, s') → p ≠ 0#64 →
      AllocsUntilNull s' k → AllocsUntilNull s (k + 1)

/-- **The counter tells the truth.** -/
structure Accounting (s : Pmm) : Prop where
  count : s.freePages = ((Finset.range s.totalPages).filter
    (fun i => s.isPageFree (pageAddr s.gManagedBase i) = some true)).card
  allocs : AllocsUntilNull s s.freePages
  noStray : ∀ i, s.totalPages ≤ i → i < kMaxManagedPages → s.usedIndex i = some true
  stats : s.getStats.usedPages + s.getStats.freePages = s.getStats.totalPages ∧ s.freePages ≤ s.totalPages

/-- With a non-zero base and no stray bit, exactly the free indices can be allocated. -/
theorem allocsUntilNull_card : ∀ (k : Nat) {s : Pmm} {F : FrameSet}, Rep s F → F.base ≠ 0#64 →
    (∀ i ∈ F.free, i < F.total) → F.free.card = k → AllocsUntilNull s k := by
  intro k
  -- each page taken leaves one free index less
  induction k with
  | zero =>
      intro s F h _ _ hcard
      rcases allocPage_rep h with ⟨hnull, _⟩ | ⟨i, s', hlow, _⟩
      · exact AllocsUntilNull.done hnull
      · rw [Finset.card_eq_zero] at hcard
        exact absurd (hcard ▸ hlow.mem) (Finset.notMem_empty i)
  | succ k ih =>
      intro s F h hbase hlt hcard
      rcases allocPage_rep h with ⟨_, hused⟩ | ⟨i, s', hlow, ha, hrep⟩
      · obtain ⟨i, hi⟩ := Finset.card_pos.mp (by omega : 0 < F.free.card)
        exact absurd hi (hused i (hlt i hi))
      · -- page addresses start at a non-zero base, so none of them reads as null
        have hne : pageAddr F.base i ≠ 0#64 := by
          intro h0
          have hval := F.pageAddr_toNat (Nat.le_of_lt hlow.lt_total)
          rw [h0] at hval
          exact hbase (BitVec.eq_of_toNat_eq (by simp only [BitVec.toNat_ofNat] at hval ⊢; omega))
        refine AllocsUntilNull.page ha hne (ih hrep hbase ?_ ?_)
        · intro j hj; exact hlt j (Finset.mem_of_mem_erase hj)
        · rw [FrameSet.reserve_free, Finset.card_erase_of_mem hlow.mem, hcard]; rfl

theorem accounting_of_noStray {s : Pmm} (h : Rep s F) (hbase : F.base ≠ 0#64)
    (hlt : ∀ i ∈ F.free, i < F.total) : Accounting s where
  count := by
    have hset : (Finset.range s.totalPages).filter
        (fun i => s.isPageFree (pageAddr s.gManagedBase i) = some true) = F.free := by
      ext i
      rw [Finset.mem_filter, Finset.mem_range, totalPages, h.total, h.base]
      constructor
      · rintro ⟨hi, hf⟩
        rw [isPageFree_pageAddr h hi, Option.some.injEq, decide_eq_true_iff] at hf
        exact hf
      · intro hi
        exact ⟨hlt i hi, by rw [isPageFree_pageAddr h (hlt i hi), decide_eq_true hi]⟩
    rw [hset]; exact h.counted
  allocs := by
    rw [freePages, h.counted]
    exact allocsUntilNull_card _ h hbase hlt rfl
  noStray := by
    intro i hge hi
    rw [totalPages, h.total] at hge
    have hnm : i ∉ F.free := fun hm => Nat.not_lt_of_le hge (hlt i hm)
    rw [usedIndex_rep h hi, decide_eq_true hnm]
  stats := by
    have hsub : F.free ⊆ Finset.range F.total := fun i hi => Finset.mem_range.mpr (hlt i hi)
    have hcard : s.gFreePages ≤ s.gTotalPages := by
      rw [h.counted, h.total]; simpa using Finset.card_le_card hsub
    have hmax : s.gTotalPages ≤ kMaxManagedPages := h.total ▸ F.total_le
    simp only [kMaxManagedPages] at hmax
    refine ⟨?_, hcard⟩
    show (s.gTotalPages + 2 ^ 64 - s.gFreePages) % 2 ^ 64 + s.gFreePages = s.gTotalPages
    omega

/-- **When the accounting is right:** in every reachable state of every run that frees only outstanding
    pages, if and only if the home page of the last bitmap word is managed. -/
theorem accounting_iff (m : PhysicalRange) (rs : List ReservedRange) (hm : m.NoWrap)
    (hbase : alignUp m.base ≠ 0#64) :
    ∃ s, pmmInit m rs = some s ∧ ∀ c, Reach Client.step Client.Owns ⟨s, []⟩ c →
      (Accounting c.pmm ↔ LastHomeManaged m.managedPages) := by
  obtain ⟨s, hs, hrep⟩ := pmmInit_rep m rs
  refine ⟨s, hs, fun c hc => ?_⟩
  obtain ⟨F, hled⟩ := ledger_reach (initFrames_homed m rs) hrep hc
  have hinit : initTotal m = m.managedPages := initTotal_noWrap hm
  have htot : F.total = initTotal m := hled.total
  rw [lastHomeManaged_iff (hinit ▸ initTotal_le m), ← hinit]
  constructor
  · intro hacc i hi
    by_contra hge
    -- the stray bit is clear after `pmm_init` and nothing ever sets it
    have hmem : i ∈ F.free :=
      hled.stray i ((mem_initFrames_stray (Nat.le_of_not_lt hge)).mpr hi) (Nat.le_of_not_lt hge)
    have hmax := F.free_lt i hmem
    have hused := hacc.noStray i (by rw [totalPages, hled.rep.total, htot]; omega) hmax
    rw [usedIndex_rep hled.rep hmax, Option.some.injEq, decide_eq_true_iff] at hused
    exact hused hmem
  · intro hall
    refine accounting_of_noStray hled.rep (by rw [hled.base]; exact hbase) (fun i hi => ?_)
    by_contra hge
    have hge : initTotal m ≤ i := by omega
    have hstray := (mem_initFrames_stray hge).mp (hled.sub hi)
    have := hall i hstray
    omega

/-- The condition holds for the unit test's sixteen pages, so the counter is right there from the start. -/
theorem accounting_test : ∃ s, pmmInit testManaged [] = some s ∧ Accounting s := by
  obtain ⟨s, hs, hall⟩ := accounting_iff testManaged [] (by unfold PhysicalRange.NoWrap; decide) (by decide)
  exact ⟨s, hs, (hall ⟨s, []⟩ Reach.refl).mpr (by decide)⟩

/-- Sixty-five pages: the second bitmap word holds page 64 only, but `pmm_init` clears bit 65. -/
def managed65 : PhysicalRange := ⟨0x80000000#64, 0x41000#64⟩

/-- Right after `pmm_init` on 65 pages the counter says two free pages; one page is free. -/
theorem accounting_fails_65 :
    managed65.NoWrap ∧ alignUp managed65.base ≠ 0#64 ∧ ∃ s, pmmInit managed65 [] = some s ∧
      s.freePages = 2 ∧ s.usedIndex 65 = some false ∧
      ∃ c, Reach Client.step Client.Owns ⟨s, []⟩ c ∧ ¬ Accounting c.pmm := by
  refine ⟨by unfold PhysicalRange.NoWrap; decide, by decide, ?_⟩
  obtain ⟨s, hs, _⟩ := pmmInit_rep managed65 []
  have hfree : (pmmInit managed65 []).map Pmm.freePages = some 2 := by decide +kernel
  have htotal : (pmmInit managed65 []).map Pmm.totalPages = some 65 := by decide +kernel
  have hbit : (pmmInit managed65 []).bind (fun s => s.usedIndex 65) = some false := by decide +kernel
  rw [hs] at hfree htotal hbit
  have htot : s.totalPages = 65 := Option.some.inj htotal
  refine ⟨s, hs, Option.some.inj hfree, hbit, ⟨s, []⟩, Reach.refl, fun hacc => ?_⟩
  have hused := hacc.noStray 65 (by rw [htot]) (by decide)
  rw [Option.bind_some] at hbit
  rw [hbit] at hused
  exact absurd hused (by decide)

/-! ## What `free_page` accepts -/

/-- Every run keeps some representation, whatever is passed to `free_page`, and frees home indices only. -/
theorem rep_reach {s : Pmm} (h0 : Rep s F₀) (hr : Reach Client.step Client.Anything ⟨s, []⟩ c) :
    ∃ F, Rep c.pmm F ∧ F.base = F₀.base ∧ F.total = F₀.total ∧ (Homed F₀ → Homed F) := by
  refine Reach.invariant
    (I := fun c => ∃ F, Rep c.pmm F ∧ F.base = F₀.base ∧ F.total = F₀.total ∧ (Homed F₀ → Homed F))
    ⟨F₀, h0, rfl, rfl, id⟩ ?_ hr
  rintro t op u ⟨F, h, hb, ht, hhome⟩ _ hst
  cases op with
  | alloc =>
      rcases allocPage_rep h with ⟨ha, _⟩ | ⟨i, s', _, ha, hrep⟩
      · rw [Client.step_alloc ha] at hst
        cases hst
        exact ⟨F, h, hb, ht, hhome⟩
      · rw [Client.step_alloc ha] at hst
        cases hst
        exact ⟨F.reserve i, hrep, hb, ht, fun h₀ j hj => hhome h₀ j (Finset.mem_of_mem_erase hj)⟩
  | free page =>
      -- an accepted call clears the home bit of the page's word, whichever page that is
      rcases freePage_cases h page with ⟨hf, _⟩ | ⟨i, s', hi, _, _, hf, hrep⟩
      · rw [Client.step_free hf] at hst
        cases hst
        exact ⟨F, h, hb, ht, hhome⟩
      · rw [Client.step_free hf] at hst
        cases hst
        refine ⟨F.release (freedIndex i) (freedIndex_lt (F.lt_max hi)), hrep, hb, ht, fun h₀ j hj => ?_⟩
        rcases Finset.mem_insert.mp hj with rfl | hj
        · exact isHome_freedIndex i
        · exact hhome h₀ j hj

/-- `free_page` accepts exactly the managed pages marked used, and a rejected call changes nothing. -/
theorem freePage_accepts {s : Pmm} (h : Rep s F) (p : Word) :
    ∃ ok s', s.freePage p = some (ok, s') ∧
      (ok = true ↔ s.isManagedPage p = true ∧ s.isPageFree p = some false) ∧ (ok = false → s' = s) := by
  rcases freePage_cases h p with ⟨hf, hnot⟩ | ⟨i, s', hi, rfl, hnf, hf, _⟩
  · refine ⟨false, s, hf, ⟨fun hc => absurd hc (by simp), ?_⟩, fun _ => rfl⟩
    rintro ⟨hman, hfree⟩
    obtain ⟨i, hi, rfl⟩ := (isManagedPage_iff h).mp hman
    rw [isPageFree_pageAddr h hi, Option.some.injEq, decide_eq_false_iff_not] at hfree
    exact absurd ⟨i, hi, rfl, hfree⟩ hnot
  · refine ⟨true, s', hf, ⟨fun _ => ⟨isManagedPage_pageAddr h hi, ?_⟩, fun _ => rfl⟩, fun hc => absurd hc (by simp)⟩
    rw [isPageFree_pageAddr h hi, decide_eq_false hnf]

/-- `free_page p` succeeds exactly when `P` holds; then `p` and no other page becomes free, else nothing changes. -/
def Pmm.FreesWhen (s : Pmm) (p : Word) (P : Prop) : Prop :=
  ∃ ok s', s.freePage p = some (ok, s') ∧ (ok = true ↔ P) ∧ (ok = false → s' = s) ∧
    (ok = true → ∀ q, ∃ b, s.isPageFree q = some b ∧ s'.isPageFree q = some (b || q == p))

theorem Pmm.FreesWhen.congr {s : Pmm} {p : Word} {P Q : Prop} (h : s.FreesWhen p P) (hiff : P ↔ Q) :
    s.FreesWhen p Q :=
  propext hiff ▸ h

theorem Ledger.freesWhen (hhome : Homed F₀) (h : Ledger F₀ c F) {p : Word} (hp : F₀.Offers p) :
    c.pmm.FreesWhen p (p ∈ c.outstanding) := by
  rcases h.free hhome hp with ⟨hmem, hf⟩ | ⟨hmem, i, s', _, hi, rfl, hf, hrel, _⟩
  · exact ⟨false, c.pmm, hf, by simp [hmem], fun _ => rfl, fun hc => absurd hc (by simp)⟩
  · exact ⟨true, s', hf, by simp [hmem], fun hc => absurd hc (by simp),
      fun _ q => isPageFree_release h.rep hi hrel q⟩

/-! ### Pages left free and pages taken out -/

/-- `page` is no managed page that `pmm_init` left used, and not the free page at null. -/
def Pmm.LeftFree (s : Pmm) (page : Word) : Prop :=
  s.isManagedPage page = true → page ≠ 0#64 ∧ s.isPageFree page = some true

/-- `page` is no managed page whose bit `mark_free_index` cannot clear, and not the managed page at null. -/
def Pmm.Freeable (s : Pmm) (page : Word) : Prop :=
  s.isManagedPage page = true → page ≠ 0#64 ∧ IsHome (s.paToIndex page)

instance (s : Pmm) (page : Word) : Decidable (s.LeftFree page) := inferInstanceAs (Decidable (_ → _ ∧ _))
instance (s : Pmm) (page : Word) : Decidable (s.Freeable page) := inferInstanceAs (Decidable (_ → _ ∧ _))

theorem Pmm.LeftFree.offers {s : Pmm} (h : Rep s F) {page : Word} (hp : s.LeftFree page) : F.Offers page := by
  rintro i hi rfl
  obtain ⟨hne, hfree⟩ := hp (isManagedPage_pageAddr h hi)
  rw [isPageFree_pageAddr h hi, Option.some.injEq, decide_eq_true_iff] at hfree
  exact ⟨hne, hfree⟩

/-- Before the reserved ranges are taken out the free managed indices are the home indices. -/
theorem mem_freshFrames {i : Nat} (hi : i < initTotal m) : i ∈ (freshFrames m).free ↔ IsHome i := by
  have hmax : i < kMaxManagedPages := (freshFrames m).lt_max hi
  have hword : 64 * (i / 64) < initTotal m := by omega
  constructor
  · intro hf
    exact (mem_homeIndices.mp hf).2.1
  · intro hhome
    exact mem_homeIndices.mpr ⟨hmax, hhome, hword⟩

theorem freshFrames_homed (m : PhysicalRange) : Homed (freshFrames m) := fun _ hi => (mem_homeIndices.mp hi).2.1

theorem Pmm.Freeable.offers {s : Pmm} (h : Rep s (initFrames m rs)) {page : Word} (hp : s.Freeable page) :
    (freshFrames m).Offers page := by
  rintro i hi rfl
  obtain ⟨hne, hhome⟩ := hp (isManagedPage_pageAddr h hi)
  have hindex : s.paToIndex (pageAddr (freshFrames m).base i) = i := paToIndex_pageAddr h (Nat.le_of_lt hi)
  rw [hindex] at hhome
  exact ⟨hne, (mem_freshFrames hi).mpr hhome⟩

/-- The reserved pages that `free_page` would make free. -/
def takenOut (m : PhysicalRange) (rs : List ReservedRange) : List Word :=
  ((List.range (initTotal m)).filter fun i => IsHome i ∧ Reserved rs (pageAddr (alignUp m.base) i)).map
    (pageAddr (alignUp m.base))

theorem mem_takenOut {p : Word} : p ∈ takenOut m rs ↔
    ∃ i, i < initTotal m ∧ p = pageAddr (alignUp m.base) i ∧ IsHome i ∧ Reserved rs p := by
  rw [takenOut, List.mem_map]
  constructor
  · rintro ⟨i, hi, rfl⟩
    obtain ⟨hlt, hdec⟩ := List.mem_filter.mp hi
    obtain ⟨hhome, hres⟩ := of_decide_eq_true hdec
    exact ⟨i, List.mem_range.mp hlt, rfl, hhome, hres⟩
  · rintro ⟨i, hlt, rfl, hhome, hres⟩
    exact ⟨i, List.mem_filter.mpr ⟨List.mem_range.mpr hlt, decide_eq_true ⟨hhome, hres⟩⟩, rfl⟩

theorem takenOut_nodup (m : PhysicalRange) (rs : List ReservedRange) : (takenOut m rs).Nodup := by
  refine (List.nodup_range.filter _).map_on fun i hi j hj he => ?_
  have hlt := List.mem_range.mp (List.mem_filter.mp hi).1
  have hlt' := List.mem_range.mp (List.mem_filter.mp hj).1
  exact (freshFrames m).pageAddr_inj (Nat.le_of_lt hlt) (Nat.le_of_lt hlt') he

/-- Seen from the first loop of `pmm_init`, somebody holds the pages the second one takes out. -/
theorem ledger_takenOut (hr : ∀ r ∈ rs, r.NoWrap) {s : Pmm} (h : Rep s (initFrames m rs)) :
    Ledger (freshFrames m) ⟨s, takenOut m rs⟩ (initFrames m rs) where
  rep := h
  base := rfl
  total := rfl
  sub := Finset.filter_subset _ _
  stray := fun _ hi hge => (mem_initFrames_stray hge).mpr hi
  held := by
    intro p hp
    obtain ⟨i, hi, rfl, hhome, hres⟩ := mem_takenOut.mp hp
    exact ⟨i, hi, rfl, (mem_freshFrames hi).mpr hhome, fun hf => ((mem_initFrames hr hi).mp hf).2 hres⟩
  taken := by
    intro i hf hi hnf _
    have hhome := (mem_freshFrames hi).mp hf
    have hres : Reserved rs (pageAddr (alignUp m.base) i) := by
      by_contra hres
      exact hnf ((mem_initFrames hr hi).mpr ⟨hhome, hres⟩)
    exact mem_takenOut.mpr ⟨i, hi, rfl, hhome, hres⟩
  nodup := takenOut_nodup m rs

/-- Those of them that `free_page` was not given yet. -/
theorem mem_stillKept_takenOut {s : Pmm} (h : Rep s (initFrames m rs)) {p : Word} (hp : s.Freeable p)
    {ops : List PmmOp} : p ∈ stillKept (takenOut m rs) ops ↔
      s.isManagedPage p = true ∧ Reserved rs p ∧ .free p ∉ ops := by
  rw [mem_stillKept, mem_takenOut, isManagedPage_iff h]
  constructor
  · rintro ⟨⟨i, hi, hpage, _, hres⟩, hnot⟩
    exact ⟨⟨i, hi, hpage⟩, hres, hnot⟩
  · rintro ⟨⟨i, hi, rfl⟩, hres, hnot⟩
    have hfree := (hp.offers h i hi rfl).2
    exact ⟨⟨i, hi, rfl, (mem_freshFrames hi).mp hfree, hres⟩, hnot⟩

/-- **`free_page` tests one bit.** Whatever it was given before, it accepts exactly the managed pages marked used. In
    the runs that pass it no page `pmm_init` left used, these are the outstanding pages and no page is handed out
    while it is reserved or outstanding; where reserved pages are passed too, each of them is accepted once without
    having been handed out. -/
theorem freePage_one_bit (m : PhysicalRange) (rs : List ReservedRange) (hr : ∀ r ∈ rs, r.NoWrap) :
    ∃ s, pmmInit m rs = some s ∧
      (∀ c, Reach Client.step Client.Anything ⟨s, []⟩ c → ∀ p, ∃ ok s', c.pmm.freePage p = some (ok, s') ∧
        (ok = true ↔ c.pmm.isManagedPage p = true ∧ c.pmm.isPageFree p = some false) ∧
        (ok = false → s' = c.pmm)) ∧
      (∀ ops : List PmmOp, (∀ page, .free page ∈ ops → s.LeftFree page) →
        ∃ c, run Client.step ⟨s, []⟩ ops = some c ∧
          (∀ p, s.LeftFree p → c.pmm.FreesWhen p (p ∈ c.outstanding)) ∧
          ∃ p s', c.pmm.allocPage = some (p, s') ∧ (p ≠ 0#64 → ¬ Reserved rs p ∧ p ∉ c.outstanding)) ∧
      (∀ ops : List PmmOp, (∀ page, .free page ∈ ops → s.Freeable page) →
        ∃ c, run Client.step ⟨s, []⟩ ops = some c ∧
          (∀ p, s.Freeable p → c.pmm.FreesWhen p
            (p ∈ c.outstanding ∨ s.isManagedPage p = true ∧ Reserved rs p ∧ .free p ∉ ops)) ∧
          ∃ p s', c.pmm.allocPage = some (p, s') ∧
            (p ≠ 0#64 → (Reserved rs p → .free p ∈ ops) ∧ p ∉ c.outstanding)) := by
  obtain ⟨s, hs, hrep⟩ := pmmInit_rep m rs
  refine ⟨s, hs, fun c hc p => ?_, fun ops hops => ?_, fun ops hops => ?_⟩
  · obtain ⟨F, h, _⟩ := rep_reach hrep hc
    exact freePage_accepts h p
  · -- nobody else holds a page `pmm_init` left free
    have hstart : Ledger (initFrames m rs) ⟨s, [] ++ []⟩ (initFrames m rs) := ledger_init hrep
    have hhome := initFrames_homed m rs
    obtain ⟨c, F, hrun, hled⟩ := Ledger.run_kept (c := ⟨s, []⟩) hhome ops hstart
      fun page hm => (hops page hm).offers hrep
    have hled : Ledger (initFrames m rs) c F := by
      have hnone : stillKept [] ops = [] := rfl
      rw [hnone, List.append_nil] at hled
      exact hled
    refine ⟨c, hrun, fun p hp => hled.freesWhen hhome (hp.offers hrep), ?_⟩
    obtain ⟨p, s', _, ha, _, hpage⟩ := hled.alloc
    refine ⟨p, s', ha, fun hne => ?_⟩
    obtain ⟨hnew, i, hi, rfl, hmem⟩ := hpage hne
    exact ⟨((mem_initFrames hr hi).mp hmem).2, hnew⟩
  · -- the reserved pages are held from the start
    have hstart : Ledger (freshFrames m) ⟨s, [] ++ takenOut m rs⟩ (initFrames m rs) := ledger_takenOut hr hrep
    have hhome := freshFrames_homed m
    obtain ⟨c, F, hrun, hled⟩ := Ledger.run_kept (c := ⟨s, []⟩) hhome ops hstart
      fun page hm => (hops page hm).offers hrep
    refine ⟨c, hrun, fun p hp => ?_, ?_⟩
    · have hfrees := hled.freesWhen hhome (hp.offers hrep)
      exact hfrees.congr (by rw [List.mem_append, mem_stillKept_takenOut hrep hp])
    · obtain ⟨p, s', _, ha, _, hpage⟩ := hled.alloc
      refine ⟨p, s', ha, fun hne => ?_⟩
      obtain ⟨hnew, i, hi, rfl, hmem⟩ := hpage hne
      refine ⟨fun hres => ?_, fun hout => hnew (List.mem_append_left _ hout)⟩
      by_contra hnot
      have htaken : pageAddr (freshFrames m).base i ∈ takenOut m rs :=
        mem_takenOut.mpr ⟨i, hi, rfl, (mem_freshFrames hi).mp hmem, hres⟩
      exact hnew (List.mem_append_right _ (mem_stillKept.mpr ⟨htaken, hnot⟩))

/-- With page 65 reserved, page 0 is handed out, taken back once and rejected the second time; the reserved page is
    accepted although nobody was given it. -/
theorem freePage_one_bit_test :
    ∃ s, pmmInit managed160 [⟨0x80041010#64, 100#64⟩] = some s ∧
      (∃ c, run Client.step ⟨s, []⟩ [.alloc] = some c ∧ 0x80000000#64 ∈ c.outstanding ∧
        ∃ s', c.pmm.freePage 0x80000000#64 = some (true, s') ∧ s'.isPageFree 0x80000000#64 = some true) ∧
      ∃ c, run Client.step ⟨s, []⟩ [.alloc, .free 0x80000000#64] = some c ∧ 0x80000000#64 ∉ c.outstanding ∧
        c.pmm.freePage 0x80000000#64 = some (false, c.pmm) ∧ 0x80041000#64 ∉ c.outstanding ∧
        ∃ s', c.pmm.freePage 0x80041000#64 = some (true, s') := by
  obtain ⟨s, hs, _, hleft, hfreeable⟩ := freePage_one_bit managed160 [⟨0x80041010#64, 100#64⟩]
    (by unfold ReservedRange.NoWrap; decide)
  -- what holds of the state `pmm_init` returns is evaluated there
  have hleftFree : ∀ s ∈ pmmInit managed160 [⟨0x80041010#64, 100#64⟩], s.LeftFree 0x80000000#64 := by decide +kernel
  have hboth : ∀ s ∈ pmmInit managed160 [⟨0x80041010#64, 100#64⟩], s.Freeable 0x80000000#64 ∧
      s.Freeable 0x80041000#64 ∧ s.isManagedPage 0x80041000#64 = true := by decide +kernel
  have hheld : ∀ s ∈ pmmInit managed160 [⟨0x80041010#64, 100#64⟩], ∀ c ∈ run Client.step ⟨s, []⟩ [.alloc],
      c.outstanding = [0x80000000#64] := by decide +kernel
  have hback : ∀ s ∈ pmmInit managed160 [⟨0x80041010#64, 100#64⟩],
      ∀ c ∈ run Client.step ⟨s, []⟩ [.alloc, .free 0x80000000#64], c.outstanding = [] := by decide +kernel
  have hzero := hleftFree s hs
  obtain ⟨hfreeZero, hfreeReserved, hman⟩ := hboth s hs
  refine ⟨s, hs, ?_, ?_⟩
  · obtain ⟨c, hrun, hfrees, _⟩ := hleft [.alloc] (by simp)
    have hmem : 0x80000000#64 ∈ c.outstanding := by rw [hheld s hs c hrun]; exact List.mem_cons_self
    obtain ⟨ok, s', hf, hok, _, hexact⟩ := hfrees 0x80000000#64 hzero
    obtain rfl := hok.mpr hmem
    obtain ⟨b, _, hfree⟩ := hexact rfl 0x80000000#64
    exact ⟨c, hrun, hmem, s', hf, by simpa using hfree⟩
  · obtain ⟨c, hrun, hfrees, _⟩ := hleft [.alloc, .free 0x80000000#64] (by simpa using hzero)
    obtain ⟨c', hrun', hfrees', _⟩ := hfreeable [.alloc, .free 0x80000000#64] (by simpa using hfreeZero)
    obtain rfl : c = c' := Option.some.inj (hrun.symm.trans hrun')
    have hnone : ∀ p, p ∉ c.outstanding := by rw [hback s hs c hrun]; exact fun _ => List.not_mem_nil
    refine ⟨c, hrun, hnone _, ?_, hnone _, ?_⟩
    · obtain ⟨ok, s', hf, hok, hsame, _⟩ := hfrees 0x80000000#64 hzero
      have hrej : ok = false := by
        rw [← Bool.not_eq_true, hok]
        exact hnone _
      rw [hf, hrej, hsame hrej]
    · obtain ⟨ok, s', hf, hok, _⟩ := hfrees' 0x80041000#64 hfreeReserved
      obtain rfl := hok.mpr (Or.inr ⟨hman, by decide, by decide⟩)
      exact ⟨s', hf⟩

/-- A reserved page nobody was given is accepted by `free_page` and handed out by the next `alloc_page`. -/
theorem freePage_accepts_reserved :
    Reserved [⟨0x80000000#64, 4096#64⟩] 0x80000000#64 ∧
      ∃ s, pmmInit testManaged [⟨0x80000000#64, 4096#64⟩] = some s ∧
      ∃ c, Reach Client.step Client.Anything ⟨s, []⟩ c ∧ 0x80000000#64 ∉ c.outstanding ∧
      ∃ s₁, c.pmm.freePage 0x80000000#64 = some (true, s₁) ∧
      ∃ s₂, s₁.allocPage = some (0x80000000#64, s₂) := by
  refine ⟨by decide, ?_⟩
  obtain ⟨s, hs, hrep⟩ := pmmInit_rep testManaged [⟨0x80000000#64, 4096#64⟩]
  refine ⟨s, hs, ⟨s, []⟩, Reach.refl, List.not_mem_nil, ?_⟩
  obtain ⟨ok, s₁, hf, _⟩ := freePage_accepts hrep 0x80000000#64
  have hok : ((pmmInit testManaged [⟨0x80000000#64, 4096#64⟩]).bind
      (fun s => s.freePage 0x80000000#64)).map Prod.fst = some true := by decide +kernel
  have hnext : (((pmmInit testManaged [⟨0x80000000#64, 4096#64⟩]).bind
      (fun s => s.freePage 0x80000000#64)).bind (fun r => r.2.allocPage)).map Prod.fst
      = some 0x80000000#64 := by decide +kernel
  rw [hs, Option.bind_some, hf] at hok hnext
  have hok : ok = true := Option.some.inj hok
  subst hok
  refine ⟨s₁, hf, ?_⟩
  rw [Option.bind_some] at hnext
  obtain ⟨⟨p, s₂⟩, ha, hp⟩ := Option.map_eq_some_iff.mp hnext
  exact ⟨s₂, by rw [ha]; exact congrArg (fun x => some (x, s₂)) hp⟩

end Mm
end RiscCore
