import RiscCore.Mm.PmmSafety

/-!
# `Mm.PmmAlloc` — what `alloc_page` answers, and what undoes it

`alloc_page` takes the lowest free managed page, and the next `free_page` of that page restores every bit and both
counters: only home indices are ever free, whatever was passed to `free_page` before, so the mask of `free_page`
selects the bit that `alloc_page` set. Frees of outstanding pages commute.

A null pointer is also the address of page 0. It means that no page is free as long as page 0 is not a free managed
page itself.
-/

namespace RiscCore
namespace Mm

open Pmm Runs

variable {m : PhysicalRange} {rs : List ReservedRange} {F₀ F : FrameSet} {c : Client} {s s' : Pmm} {p : Word}

/-! ## The lowest page, and back -/

/-- **`alloc_page` returned `p` as it should**: the lowest free page, alone changed, and `free_page` takes it back. -/
structure TakesLowest (s : Pmm) (p : Word) (s' : Pmm) : Prop where
  managed : s.isManagedPage p = true
  free : s.isPageFree p = some true
  lowest : ∀ q, s.isPageFree q = some true → p ≤ q
  taken : s'.isPageFree p = some false
  only : ∀ q, q ≠ p → s'.isPageFree q = s.isPageFree q
  count : s'.freePages + 1 = s.freePages
  undo : s'.freePage p = some (true, s)

/-- The lowest free index is the lowest free address. -/
theorem FrameSet.IsLowest.le_free {i : Nat} (h : F.IsLowest i) (hs : Rep s F) {q : Word}
    (hq : s.isPageFree q = some true) : pageAddr F.base i ≤ q := by
  obtain ⟨b, hb, hiff⟩ := isPageFree_rep hs q
  rw [hb] at hq
  obtain ⟨j, hj, rfl, hfree⟩ := hiff.mp (Option.some.inj hq)
  have hij : i ≤ j := Nat.le_of_not_lt fun hlt => h.least j hlt hfree
  rw [BitVec.le_def, F.pageAddr_toNat (Nat.le_of_lt h.lt_total), F.pageAddr_toNat (Nat.le_of_lt hj)]
  omega

/-- An index that is put back where it came from. -/
theorem FrameSet.release_reserve {i : Nat} (hi : i ∈ F.free) (hmax : i < kMaxManagedPages) :
    (F.reserve i).release i hmax = F :=
  FrameSet.ext_free rfl rfl (Finset.insert_erase hi)

theorem allocPage_takesLowest (h : Rep s F) (hhome : Homed F) (ha : s.allocPage = some (p, s')) (hp : p ≠ 0#64) :
    TakesLowest s p s' := by
  rcases allocPage_rep h with ⟨hnull, _⟩ | ⟨i, t, hlow, halloc, hrep⟩
  · rw [hnull] at ha
    exact absurd (Prod.mk.inj (Option.some.inj ha)).1.symm hp
  · rw [halloc] at ha
    obtain ⟨rfl, rfl⟩ := Prod.mk.inj (Option.some.inj ha)
    have hi := hlow.lt_total
    have hmax := F.lt_max hi
    have hback : Rep s ((F.reserve i).release i hmax) := by
      rw [FrameSet.release_reserve hlow.mem hmax]; exact h
    -- the index is home, so the bit that `free_page` clears is the one that was set
    obtain ⟨s₂, hfree, hrep₂⟩ := freePage_used hrep hi (Finset.notMem_erase i F.free)
    have hsame : Rep s₂ F := by
      have hF : (F.reserve i).release (freedIndex i) (freedIndex_lt hmax) = F := by
        refine FrameSet.ext_free rfl rfl ?_
        rw [FrameSet.release_free, hhome i hlow.mem]
        exact Finset.insert_erase hlow.mem
      rw [← hF]; exact hrep₂
    obtain rfl := hsame.unique h
    refine ⟨isManagedPage_pageAddr h hi, ?_, fun q hq => hlow.le_free h hq, ?_, fun q hq => ?_, ?_, hfree⟩
    · rw [isPageFree_pageAddr h hi, decide_eq_true hlow.mem]
    · have hused := isPageFree_pageAddr hrep hi
      rw [FrameSet.reserve_base, FrameSet.reserve_free, decide_eq_false (Finset.notMem_erase i F.free)] at hused
      exact hused
    · obtain ⟨b, hb, hb'⟩ := isPageFree_release hrep hi hback q
      rw [FrameSet.reserve_base, beq_false_of_ne hq, Bool.or_false] at hb'
      rw [hb, hb']
    · rw [freePages, freePages, hrep.counted, h.counted, FrameSet.reserve_free]
      exact Finset.card_erase_add_one hlow.mem

/-! ## The order of frees -/

/-- What remains to be freed: held pages, each of them once. -/
def Returnable (F₀ : FrameSet) (c : Client) (ops : List PmmOp) : Prop :=
  (∃ F, Ledger F₀ c F) ∧ ops.Nodup ∧ ∀ op ∈ ops, ∃ p ∈ c.outstanding, op = .free p

/-- The client after it gave one held page back. -/
theorem Ledger.step_free (hhome : Homed F₀) (h : Ledger F₀ c F) (hp : p ∈ c.outstanding) :
    ∃ i s', ∃ hi : i < kMaxManagedPages, c.step (.free p) = some ⟨s', c.outstanding.erase p⟩ ∧
      Ledger F₀ ⟨s', c.outstanding.erase p⟩ (F.release i hi) ∧ p = pageAddr F₀.base i ∧ i < F₀.total := by
  obtain ⟨i, s', hi, htotal, hpage, _, hfree, _, hled⟩ := h.free_held hhome hp
  exact ⟨i, s', hi, Client.step_free hfree, hled, hpage, htotal⟩

theorem Returnable.next (hhome : Homed F₀) {op : PmmOp} {ops : List PmmOp} (h : Returnable F₀ c (op :: ops)) :
    ∃ c', c.step op = some c' ∧ Returnable F₀ c' ops := by
  obtain ⟨⟨F, hled⟩, hnodup, hheld⟩ := h
  obtain ⟨hnew, hrest⟩ := List.nodup_cons.mp hnodup
  obtain ⟨p, hp, rfl⟩ := hheld op List.mem_cons_self
  obtain ⟨i, s', hi, hst, hled', _⟩ := hled.step_free hhome hp
  refine ⟨_, hst, ⟨_, hled'⟩, hrest, fun op hop => ?_⟩
  obtain ⟨q, hq, rfl⟩ := hheld op (List.mem_cons_of_mem _ hop)
  have hne : q ≠ p := fun he => hnew (he ▸ hop)
  exact ⟨q, (List.mem_erase_of_ne hne).mpr hq, rfl⟩

theorem Returnable.perm {ops ops' : List PmmOp} (h : Returnable F₀ c ops) (hperm : ops.Perm ops') :
    Returnable F₀ c ops' :=
  ⟨h.1, hperm.nodup_iff.mp h.2.1, fun op hop => h.2.2 op (hperm.mem_iff.mpr hop)⟩

theorem Returnable.init {ops ops' : List PmmOp} (h : Returnable F₀ c (ops ++ ops')) : Returnable F₀ c ops :=
  ⟨h.1, (List.nodup_append'.mp h.2.1).1, fun op hop => h.2.2 op (List.mem_append_left ops' hop)⟩

/-- **Two held pages can be freed in either order.** -/
theorem Returnable.swap (hhome : Homed F₀) {op op' : PmmOp} (h : Returnable F₀ c [op, op']) :
    run Client.step c [op, op'] = run Client.step c [op', op] := by
  obtain ⟨⟨F, hled⟩, hnodup, hheld⟩ := h
  obtain ⟨p, hp, rfl⟩ := hheld op List.mem_cons_self
  obtain ⟨q, hq, rfl⟩ := hheld op' (List.mem_cons_of_mem _ List.mem_cons_self)
  have hne : p ≠ q := fun he => (List.nodup_cons.mp hnodup).1 (he ▸ List.mem_cons_self)
  -- both orders, one page after the other
  have hboth : ∀ {p q : Word}, p ≠ q → p ∈ c.outstanding → q ∈ c.outstanding → ∃ i j t,
      ∃ hi : i < kMaxManagedPages, ∃ hj : j < kMaxManagedPages,
      run Client.step c [.free p, .free q] = some ⟨t, (c.outstanding.erase p).erase q⟩ ∧
      Rep t ((F.release i hi).release j hj) ∧
      (p = pageAddr F₀.base i ∧ i < F₀.total) ∧ q = pageAddr F₀.base j ∧ j < F₀.total := by
    intro p q hne hp hq
    obtain ⟨i, s₁, hi, hst₁, hled₁, hpi⟩ := hled.step_free hhome hp
    obtain ⟨j, s₂, hj, hst₂, hled₂, hqj⟩ := hled₁.step_free hhome ((List.mem_erase_of_ne hne.symm).mpr hq)
    exact ⟨i, j, s₂, hi, hj, by simp only [run, hst₁, hst₂, Option.bind_some], hled₂.rep, hpi, hqj⟩
  obtain ⟨i, j, t, hi, hj, hrun, hrep, ⟨hpi, hilt⟩, hqj, hjlt⟩ := hboth hne hp hq
  obtain ⟨j', i', t', hj', hi', hrun', hrep', ⟨hqj', hjlt'⟩, hpi', hilt'⟩ := hboth hne.symm hq hp
  obtain rfl := F₀.pageAddr_inj (Nat.le_of_lt hilt) (Nat.le_of_lt hilt') (hpi.symm.trans hpi')
  obtain rfl := F₀.pageAddr_inj (Nat.le_of_lt hjlt) (Nat.le_of_lt hjlt') (hqj.symm.trans hqj')
  have hframes : (F.release j hj').release i hi' = (F.release i hi).release j hj :=
    FrameSet.ext_free rfl rfl (Finset.insert_comm i j F.free)
  rw [hframes] at hrep'
  rw [hrun, hrun', hrep.unique hrep', List.erase_comm]

/-- **Run lemma.** Held pages can be freed one after the other. -/
theorem Returnable.run (hhome : Homed F₀) : ∀ (ops : List PmmOp) {c : Client}, Returnable F₀ c ops →
    ∃ c', Runs.run Client.step c ops = some c' := by
  intro ops
  induction ops with
  | nil => exact fun {c} _ => ⟨c, rfl⟩
  | cons op ops ih =>
      intro c h
      obtain ⟨c₁, hst, hrest⟩ := h.next hhome
      obtain ⟨c', hrun⟩ := ih hrest
      exact ⟨c', by rw [Runs.run, hst, Option.bind_some, hrun]⟩

/-- **Allocation is lowest-first and `free_page` inverts it**, in every state that calls with arbitrary arguments
    reach. Where only outstanding pages are freed, the order of a number of frees does not matter. -/
theorem alloc_lowest_first (m : PhysicalRange) (rs : List ReservedRange) :
    ∃ s, pmmInit m rs = some s ∧
      (∀ c, Reach Client.step Client.Anything ⟨s, []⟩ c →
        ∃ p s', c.pmm.allocPage = some (p, s') ∧ (p ≠ 0#64 → TakesLowest c.pmm p s')) ∧
      (∀ c, Reach Client.step Client.Owns ⟨s, []⟩ c → ∀ ps qs : List Word, ps.Nodup →
        (∀ p ∈ ps, p ∈ c.outstanding) → qs.Perm ps →
        ∃ c', run Client.step c (ps.map .free) = some c' ∧ run Client.step c (qs.map .free) = some c') := by
  obtain ⟨s, hs, hrep⟩ := pmmInit_rep m rs
  have hhome := initFrames_homed m rs
  refine ⟨s, hs, fun c hc => ?_, fun c hc ps qs hnodup hheld hperm => ?_⟩
  · obtain ⟨F, h, _, _, hF⟩ := rep_reach hrep hc
    rcases allocPage_rep h with ⟨ha, _⟩ | ⟨i, s', _, ha, _⟩
    · exact ⟨0#64, c.pmm, ha, fun hne => absurd rfl hne⟩
    · exact ⟨_, s', ha, allocPage_takesLowest h (hF hhome) ha⟩
  · have hled := ledger_reach hhome hrep hc
    have hinj : Function.Injective PmmOp.free := fun a b he => PmmOp.free.inj he
    have hret : Returnable (initFrames m rs) c (ps.map .free) := by
      refine ⟨hled, hnodup.map hinj, fun op hop => ?_⟩
      obtain ⟨p, hp, rfl⟩ := List.mem_map.mp hop
      exact ⟨p, hheld p hp, rfl⟩
    obtain ⟨c', hrun⟩ := hret.run hhome
    refine ⟨c', hrun, ?_⟩
    rw [← hrun]
    refine (run_perm (P := Returnable (initFrames m rs)) ?_ (fun _ _ _ h => h.perm) (fun _ _ _ h => h.swap hhome)
      (fun _ _ _ h => h.init) (hperm.map PmmOp.free).symm hret).symm
    intro c op ops h t ht
    obtain ⟨c₁, hst, hrest⟩ := h.next hhome
    rw [Option.mem_def, hst] at ht
    exact Option.some.inj ht ▸ hrest

/-! ## Null -/

/-- **A null pointer means that no page is free**, and then nothing was changed. -/
def NullMeansExhaustion (s : Pmm) : Prop :=
  ∃ p s', s.allocPage = some (p, s') ∧
    (p = 0#64 ↔ ∀ q, s.isManagedPage q = true → s.isPageFree q = some false) ∧ (p = 0#64 → s' = s)

/-- The only page at address 0 is page 0 of a range that begins there. -/
theorem FrameSet.pageAddr_eq_zero {i : Nat} (hi : i < F.total) (h0 : pageAddr F.base i = 0#64) :
    F.base = 0#64 ∧ i = 0 := by
  have hval := F.pageAddr_toNat (Nat.le_of_lt hi)
  rw [h0] at hval
  simp only [BitVec.toNat_ofNat, Nat.zero_mod] at hval
  exact ⟨BitVec.eq_of_toNat_eq (by simp only [BitVec.toNat_ofNat, Nat.zero_mod]; omega), by omega⟩

theorem nullMeansExhaustion_iff (h : Rep s F) : NullMeansExhaustion s ↔ s.isPageFree 0#64 = some false := by
  constructor
  · rintro ⟨p, s', ha, hiff, _⟩
    obtain ⟨b, hb, hbiff⟩ := isPageFree_rep h 0#64
    cases b with
    | false => exact hb
    | true =>
        -- page 0 is free, so the scan stops at it at once and its address reads as null
        obtain ⟨i, hi, hzero, hfree⟩ := hbiff.mp rfl
        obtain ⟨hbase, rfl⟩ := FrameSet.pageAddr_eq_zero hi hzero.symm
        have hman := isManagedPage_pageAddr h hi
        rw [← hzero] at hman
        rcases allocPage_rep h with ⟨_, hused⟩ | ⟨j, t, hlow, halloc, _⟩
        · exact absurd hfree (hused 0 hi)
        · have hj : j = 0 := Nat.le_zero.mp (Nat.le_of_not_lt fun hlt => hlow.least 0 hlt hfree)
          rw [halloc, hj, ← hzero] at ha
          exact hiff.mp (Prod.mk.inj (Option.some.inj ha)).1.symm 0#64 hman
  · intro h0
    rcases allocPage_rep h with ⟨ha, hused⟩ | ⟨i, t, hlow, ha, _⟩
    · refine ⟨0#64, s, ha, ⟨fun _ q hq => ?_, fun _ => rfl⟩, fun _ => rfl⟩
      obtain ⟨i, hi, rfl⟩ := (isManagedPage_iff h).mp hq
      rw [isPageFree_pageAddr h hi, decide_eq_false (hused i hi)]
    · have hfree : s.isPageFree (pageAddr F.base i) = some true := by
        rw [isPageFree_pageAddr h hlow.lt_total, decide_eq_true hlow.mem]
      have hne : pageAddr F.base i ≠ 0#64 := by
        intro hz
        rw [hz, h0] at hfree
        exact absurd hfree (by simp)
      refine ⟨_, t, ha, ⟨fun hz => absurd hz hne, fun hall => ?_⟩, fun hz => absurd hz hne⟩
      rw [hall _ (isManagedPage_pageAddr h hlow.lt_total)] at hfree
      exact absurd hfree (by simp)

/-- A page below the managed ones, or one that is in use. -/
theorem isPageFree_zero (h : Rep s F) (hbase : F.base ≠ 0#64 ∨ F.total = 0) : s.isPageFree 0#64 = some false := by
  obtain ⟨b, hb, hiff⟩ := isPageFree_rep h 0#64
  cases b with
  | false => exact hb
  | true =>
      obtain ⟨i, hi, hzero, _⟩ := hiff.mp rfl
      have hz := (FrameSet.pageAddr_eq_zero hi hzero.symm).1
      rcases hbase with hne | ht
      · exact absurd hz hne
      · omega

/-- With a managed base of zero some calls make page 0 free: `pmm_init` did, or `free_page(0)` does. -/
theorem exists_zero_free (h : Rep s F) (hbase : F.base = 0#64) (ht : 0 < F.total) :
    ∃ c, Reach Client.step Client.Anything ⟨s, []⟩ c ∧ c.pmm.isPageFree 0#64 = some true := by
  have hzero : pageAddr F.base 0 = 0#64 := by rw [hbase]; rfl
  by_cases hm : 0 ∈ F.free
  · refine ⟨⟨s, []⟩, Reach.refl, ?_⟩
    rw [← hzero, isPageFree_pageAddr h ht, decide_eq_true hm]
  · obtain ⟨s', hfree, hrep⟩ := freePage_used h ht hm
    rw [hzero] at hfree
    have hst := Client.step_free (c := ⟨s, []⟩) hfree
    refine ⟨_, Reach.single trivial hst, ?_⟩
    have hans := isPageFree_pageAddr hrep ht
    rw [FrameSet.release_base, hzero] at hans
    have hmem : 0 ∈ (F.release (freedIndex 0) (freedIndex_lt (F.lt_max ht))).free :=
      Finset.mem_insert_self (freedIndex 0) F.free
    rw [hans, decide_eq_true hmem]

/-- **When null means exhaustion:** in the reachable states where page 0 is not a free managed page, and in no
    others; in all reachable states iff the managed base is not zero or nothing is managed. -/
theorem alloc_null_iff (m : PhysicalRange) (rs : List ReservedRange) :
    ∃ s, pmmInit m rs = some s ∧
      (∀ c, Reach Client.step Client.Anything ⟨s, []⟩ c →
        (NullMeansExhaustion c.pmm ↔ c.pmm.isPageFree 0#64 = some false)) ∧
      ((∀ c, Reach Client.step Client.Anything ⟨s, []⟩ c → NullMeansExhaustion c.pmm) ↔
        alignUp m.base ≠ 0#64 ∨ alignDown (m.base + m.size) = 0#64) := by
  obtain ⟨s, hs, hrep⟩ := pmmInit_rep m rs
  have hstate : ∀ c, Reach Client.step Client.Anything ⟨s, []⟩ c →
      (NullMeansExhaustion c.pmm ↔ c.pmm.isPageFree 0#64 = some false) := by
    intro c hc
    obtain ⟨F, h, _⟩ := rep_reach hrep hc
    exact nullMeansExhaustion_iff h
  refine ⟨s, hs, hstate, fun hall => ?_, fun hcond c hc => ?_⟩
  · by_cases hbase : alignUp m.base = 0#64
    · right
      by_contra hstop
      have htotal : 0 < initTotal m := by
        have hne : (alignDown (m.base + m.size)).toNat ≠ 0 := BitVec.toNat_ne.mp hstop
        have hal := alignDown_aligned (m.base + m.size)
        have hzero : (alignUp m.base).toNat = 0 := by rw [hbase]; rfl
        rw [initTotal_eq, hzero, kMaxManagedPages]
        omega
      obtain ⟨c, hc, hfree⟩ := exists_zero_free hrep hbase htotal
      rw [(hstate c hc).mp (hall c hc)] at hfree
      exact absurd hfree (by simp)
    · exact Or.inl hbase
  · obtain ⟨F, h, hb, ht, _⟩ := rep_reach hrep hc
    refine (hstate c hc).mpr (isPageFree_zero h ?_)
    rw [hb, ht, initFrames_base, initFrames_total]
    refine hcond.imp id fun hstop => ?_
    rw [initTotal, hstop, if_pos]
    rw [BitVec.le_def]
    exact Nat.zero_le _

/-- Sixteen pages from address 0, page 0 free: the first call marks it used and returns its address, a null. -/
theorem null_page_allocated :
    ∃ s s', pmmInit ⟨0#64, 0x10000#64⟩ [] = some s ∧ s.allocPage = some (0#64, s') ∧
      s.isManagedPage 0#64 = true ∧ s.isPageFree 0#64 = some true ∧ s'.freePages + 1 = s.freePages ∧
      ¬ NullMeansExhaustion s := by
  obtain ⟨s, hs, hrep⟩ := pmmInit_rep ⟨0#64, 0x10000#64⟩ []
  have hfree : (pmmInit ⟨0#64, 0x10000#64⟩ []).bind (fun s => s.isPageFree 0#64) = some true := by decide +kernel
  have hman : (pmmInit ⟨0#64, 0x10000#64⟩ []).map (fun s => s.isManagedPage 0#64) = some true := by decide +kernel
  have hnull : (pmmInit ⟨0#64, 0x10000#64⟩ []).bind (fun s => s.allocPage.map fun r =>
      (r.1, decide (r.2.freePages + 1 = s.freePages))) = some (0#64, true) := by decide +kernel
  rw [hs, Option.bind_some] at hfree hnull
  rw [hs] at hman
  obtain ⟨⟨p, s'⟩, ha, hp⟩ := Option.map_eq_some_iff.mp hnull
  obtain ⟨rfl, hcount⟩ := Prod.mk.inj hp
  refine ⟨s, s', hs, ha, Option.some.inj hman, hfree, of_decide_eq_true hcount, fun hc => ?_⟩
  rw [(nullMeansExhaustion_iff hrep).mp hc] at hfree
  exact absurd hfree (by simp)

end Mm
end RiscCore
