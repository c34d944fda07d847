import RiscCore.Arch.TableFrame
import RiscCore.Mm.PmmSafety

/-!
# `Arch.PageBalance` — where the pages are

`Apart` says that tables and client pages are used and apart. Here is the other half: every page that was free at
the start and is not free now is a table or held by a client, so no call loses a page (`no_page_leaks`). The one
exception is the page at address zero, which `alloc_page` marks used and returns as null.

Tables are never given back: `unmap_page` clears leaves only, and so what the allocator and its clients have between
them can only shrink (`tables_only_grow`).
-/

namespace RiscCore
namespace Arch

open Mm Pmm Runs Forest

variable {F₀ : FrameSet} {c c' : Machine} {owned : List Word} {s s' : Pmm} {G U : Set Word} {p q : Word} {m : Mem}
  {roots : Set Word} {r va : Word}

/-! ## The allocator's side -/

/-- `Holds`, and nothing else is missing. The pages in `G` are used and nobody's. -/
structure Balance (F₀ : FrameSet) (G : Set Word) (owned : List Word) (U : Set Word) (s : Pmm) : Prop where
  holds : Holds F₀ owned U s
  null : 0#64 ∉ U ∧ 0#64 ∉ owned
  kept : ∀ q ∈ Grantable F₀, q ≠ 0#64 → s.isPageFree q = some false → q ∈ U ∨ q ∈ owned
  gone : ∀ q ∈ G, q ∉ owned ∧ s.isPageFree q = some false

/-- `alloc_page` makes its result used, and no other page. -/
theorem allocPage_used_iff {F : FrameSet} (h : Rep s F) (ha : s.allocPage = some (p, s')) (q : Word) :
    s'.isPageFree q = some false ↔ s.isPageFree q = some false ∨ q = p := by
  obtain ⟨b, hb, hiff⟩ := isPageFree_rep h q
  rcases allocPage_rep h with ⟨hnull, hused⟩ | ⟨i, t, hlow, halloc, hrep⟩
  · obtain ⟨rfl, rfl⟩ := Prod.mk.inj (Option.some.inj (ha.symm.trans hnull))
    -- nothing is free, so `q` is not
    have hfalse : b = false := by
      by_contra hfree
      obtain ⟨i, hi, _, hmem⟩ := hiff.mp (eq_true_of_ne_false hfree)
      exact hused i hi hmem
    rw [hb, hfalse]
    exact iff_of_true rfl (Or.inl rfl)
  · obtain ⟨rfl, rfl⟩ := Prod.mk.inj (Option.some.inj (ha.symm.trans halloc))
    obtain ⟨b', hb', hiff'⟩ := isPageFree_rep hrep q
    rw [hb, hb', Option.some.injEq, Option.some.injEq, ← Bool.not_eq_true, ← Bool.not_eq_true, hiff, hiff']
    constructor
    · intro hused
      refine or_iff_not_imp_right.mpr fun hne hfree => hused ?_
      obtain ⟨j, hj, rfl, hmem⟩ := hfree
      exact ⟨j, hj, rfl, Finset.mem_erase.mpr ⟨fun he => hne (by rw [he]), hmem⟩⟩
    · rintro (hold | rfl) ⟨j, hj, he, hmem⟩
      · exact hold ⟨j, hj, he, Finset.mem_of_mem_erase hmem⟩
      · obtain rfl := F.pageAddr_inj (Nat.le_of_lt hlow.lt_total) (Nat.le_of_lt hj) he
        exact Finset.notMem_erase i F.free hmem

theorem allocPage_free {F : FrameSet} (h : Rep s F) (ha : s.allocPage = some (p, s')) (hp : p ≠ 0#64) :
    s.isPageFree p = some true := by
  rcases allocPage_rep h with ⟨hnull, _⟩ | ⟨i, t, hlow, halloc, _⟩
  · exact absurd (Prod.mk.inj (Option.some.inj (ha.symm.trans hnull))).1 hp
  · obtain ⟨rfl, _⟩ := Prod.mk.inj (Option.some.inj (ha.symm.trans halloc))
    rw [isPageFree_pageAddr h hlow.lt_total, decide_eq_true hlow.mem]

theorem Balance.alloc (h : Balance F₀ G owned U s) : ∃ p s', s.allocPage = some (p, s') ∧
    ((p = 0#64 ∧ Balance F₀ G owned U s') ∨ (p ≠ 0#64 ∧ isPageAligned p = true ∧ p ∉ U ∧ p ∉ owned ∧
      Balance F₀ G owned (insert p U) s' ∧ Balance F₀ G (p :: owned) U s')) := by
  obtain ⟨p, s', halloc, hcase⟩ := h.holds.alloc
  obtain ⟨_, _, hled, _⟩ := h.holds
  have hchange := allocPage_used_iff hled.rep halloc
  have hstep : ∀ q ∈ Grantable F₀, q ≠ 0#64 → s'.isPageFree q = some false → q = p ∨ q ∈ U ∨ q ∈ owned := by
    intro q hq hq0 hused
    exact ((hchange q).mp hused).symm.imp id (h.kept q hq hq0)
  have hgone : ∀ q ∈ G, q ∉ owned ∧ s'.isPageFree q = some false :=
    fun q hq => ⟨(h.gone q hq).1, (hchange q).mpr (Or.inl (h.gone q hq).2)⟩
  refine ⟨p, s', halloc, ?_⟩
  rcases hcase with ⟨rfl, hh⟩ | ⟨hp, hal, hU, ho, hins, hcons⟩
  · exact Or.inl ⟨rfl, hh, h.null, fun q hq hq0 hused => (hstep q hq hq0 hused).resolve_left hq0, hgone⟩
  · refine Or.inr ⟨hp, hal, hU, ho, ⟨hins, ⟨?_, h.null.2⟩, ?_, hgone⟩, ⟨hcons, ⟨h.null.1, ?_⟩, ?_, ?_⟩⟩
    · exact fun hz => (Set.mem_insert_iff.mp hz).elim (fun he => hp he.symm) h.null.1
    · intro q hq hq0 hused
      rcases hstep q hq hq0 hused with rfl | hqU | hqo
      · exact Or.inl (Set.mem_insert q U)
      · exact Or.inl (Set.mem_insert_of_mem p hqU)
      · exact Or.inr hqo
    · exact fun hz => (List.mem_cons.mp hz).elim (fun he => hp he.symm) h.null.2
    · intro q hq hq0 hused
      rcases hstep q hq hq0 hused with rfl | hqU | hqo
      · exact Or.inr List.mem_cons_self
      · exact Or.inl hqU
      · exact Or.inr (List.mem_cons_of_mem p hqo)
    · -- a page in `G` was not free
      intro q hq
      refine ⟨fun hin => ?_, (hgone q hq).2⟩
      rcases List.mem_cons.mp hin with rfl | hin
      · have hused := (h.gone q hq).2
        rw [allocPage_free hled.rep halloc hp] at hused
        cases hused
      · exact (h.gone q hq).1 hin

theorem balance_allocOk (F₀ : FrameSet) (G : Set Word) (owned : List Word) :
    AllocOk Pmm.allocPage (Balance F₀ G owned) where
  call := by
    intro U s h
    obtain ⟨p, s', halloc, hcase⟩ := h.alloc
    refine ⟨p, s', halloc, hcase.imp id ?_⟩
    rintro ⟨hp, hal, hU, _, hins, _⟩
    exact ⟨hp, hal, hU, hins⟩

/-- A page that is given back is missing no more. -/
theorem Balance.free (hhome : Homed F₀) (h : Balance F₀ G owned U s) (hnd : owned.Nodup) (hp : p ∈ owned) :
    ∃ s', s.freePage p = some (true, s') ∧ Balance F₀ G (owned.erase p) U s' := by
  obtain ⟨s', hfree, hholds⟩ := h.holds.free hhome hnd hp
  obtain ⟨out, F, hled, _, howned⟩ := h.holds
  obtain ⟨i, t, hmax, hi, rfl, _, hfree', hrep, _⟩ := hled.free_held hhome (howned p hp).1
  obtain ⟨_, rfl⟩ := Prod.mk.inj (Option.some.inj (hfree.symm.trans hfree'))
  have hchange := isPageFree_release hled.rep (hled.total ▸ hi) hrep
  rw [hled.base] at hchange
  refine ⟨s', hfree, hholds, ⟨h.null.1, fun hz => h.null.2 (List.mem_of_mem_erase hz)⟩, fun q hq hq0 hused => ?_,
    fun q hq => ?_⟩
  · obtain ⟨b, hb, hb'⟩ := hchange q
    rw [hused] at hb'
    obtain ⟨rfl, hne⟩ := Bool.or_eq_false_iff.mp (Option.some.inj hb').symm
    refine (h.kept q hq hq0 hb).imp id fun hqo => ?_
    exact (List.mem_erase_of_ne (beq_eq_false_iff_ne.mp hne)).mpr hqo
  · obtain ⟨hqo, hused⟩ := h.gone q hq
    obtain ⟨b, hb, hb'⟩ := hchange q
    rw [hused] at hb
    obtain rfl := Option.some.inj hb
    have hne : q ≠ pageAddr F₀.base i := fun he => hqo (he ▸ hp)
    rw [beq_eq_false_iff_ne.mpr hne, Bool.or_false] at hb'
    exact ⟨fun hin => hqo (List.mem_of_mem_erase hin), hb'⟩

/-! ## Runs -/

/-- What the walkers hand on: the forest, the balance, and all tables that were there before. -/
structure Walked (F₀ : FrameSet) (G : Set Word) (owned : List Word) (roots U : Set Word) (w : World Pmm) : Prop where
  shape : Shape w.mem roots
  balance : Balance F₀ G owned (tables w.mem roots) w.src
  grown : U ⊆ tables w.mem roots

theorem Walked.mapPage {w : World Pmm} (h : Walked F₀ G owned roots U w) (hr : r ∈ roots) (va pa flags : Word) :
    ∃ ok w', Arch.mapPage Pmm.allocPage w r va pa flags = some (ok, w') ∧ Walked F₀ G owned roots U w' := by
  obtain ⟨ok, w', hmap, hs', hb', _⟩ := mapPage_spec (balance_allocOk F₀ G owned) h.shape h.balance hr va pa flags
  obtain ⟨hsub, _⟩ := mapPage_frame (balance_allocOk F₀ G owned) h.shape h.balance hr hmap
  exact ⟨ok, w', hmap, hs', hb', h.grown.trans hsub⟩

/-- **Step lemma.** -/
theorem Apart.balances (hhome : Homed F₀) (h : Apart F₀ c)
    (hb : Balance F₀ G c.owned (tables c.world.mem c.rootSet) c.world.src) {op : MachineOp} (hok : c.Permitted op)
    (hst : c.step op = some c') : Balance F₀ G c'.owned (tables c'.world.mem c'.rootSet) c'.world.src ∧
      tables c.world.mem c.rootSet ⊆ tables c'.world.mem c'.rootSet := by
  have hstart : Walked F₀ G c.owned c.rootSet (tables c.world.mem c.rootSet) c.world := ⟨h.shape, hb, Set.Subset.refl _⟩
  cases op with
  | newRoot =>
      obtain ⟨p, s', halloc, hcase⟩ := hb.alloc
      rcases hcase with ⟨rfl, hb'⟩ | ⟨hp, _, hU, _, hins, _⟩
      · simp only [Machine.step, allocPageTable, halloc, Option.bind_eq_bind, Option.bind_some] at hst
        cases hst
        exact ⟨hb', Set.Subset.refl _⟩
      · have hnew : c.step .newRoot =
            some { c with world := ⟨zeroPage c.world.mem p, s'⟩, roots := p :: c.roots } := by
          simp [Machine.step, allocPageTable, halloc, hp]
        have hroots : ({ c with world := ⟨zeroPage c.world.mem p, s'⟩, roots := p :: c.roots } : Machine).rootSet =
            insert p c.rootSet := Set.ext fun q => List.mem_cons
        obtain ⟨_, htab, _⟩ := plantRoot h.shape (zeroPage c.world.mem p) hU
          (fun i => by rw [zeroPage_apply, if_pos rfl]) (fun q hq i => by rw [zeroPage_apply, if_neg hq])
        generalize zeroPage c.world.mem p = m₁ at hnew htab hroots
        obtain rfl := Option.some.inj (hst.symm.trans hnew)
        rw [hroots]
        show Balance F₀ G c.owned (tables m₁ (insert p c.rootSet)) s' ∧ _ ⊆ tables m₁ (insert p c.rootSet)
        rw [htab]
        exact ⟨hins, Set.subset_insert p _⟩
  | map root va pa flags =>
      obtain ⟨ok, w', hmap, hg⟩ := hstart.mapPage hok va pa flags
      simp only [Machine.step, hmap, Option.bind_eq_bind, Option.bind_some] at hst
      cases hst
      exact ⟨hg.balance, hg.grown⟩
  | mapRange root va pa size flags =>
      have hstep : ∀ (w : World Pmm) (va pa : Word),
          Walked F₀ G c.owned c.rootSet (tables c.world.mem c.rootSet) w →
          ∃ ok w', Arch.mapPage Pmm.allocPage w root va pa flags = some (ok, w') ∧
            Walked F₀ G c.owned c.rootSet (tables c.world.mem c.rootSet) w' :=
        fun w va pa hg => hg.mapPage hok va pa flags
      obtain ⟨ok, w', hmap, hg⟩ := mapRange_keeps hstep hstart va pa size
      simp only [Machine.step, hmap, Option.bind_eq_bind, Option.bind_some] at hst
      cases hst
      exact ⟨hg.balance, hg.grown⟩
  | unmap root va =>
      cases hst
      obtain ⟨_, htab⟩ := unmapPage_shape h.shape (show root ∈ c.rootSet from hok) va
      show Balance F₀ G c.owned (tables (Arch.unmapPage c.world.mem root va).2 c.rootSet) c.world.src ∧
        _ ⊆ tables (Arch.unmapPage c.world.mem root va).2 c.rootSet
      rw [htab]
      exact ⟨hb, Set.Subset.refl _⟩
  | alloc =>
      obtain ⟨p, s', halloc, hcase⟩ := hb.alloc
      simp only [Machine.step, halloc, Option.bind_eq_bind, Option.bind_some] at hst
      cases hst
      refine ⟨?_, Set.Subset.refl _⟩
      rcases hcase with ⟨rfl, hb'⟩ | ⟨hp, _, _, _, _, hcons⟩
      · exact hb'
      · show Balance F₀ G (if p = 0#64 then c.owned else p :: c.owned) _ s'
        rw [if_neg hp]
        exact hcons
  | free page =>
      obtain ⟨s', hfree, hb'⟩ := hb.free hhome h.owned_nodup hok
      simp only [Machine.step, hfree, Option.bind_eq_bind, Option.bind_some] at hst
      cases hst
      exact ⟨hb', Set.Subset.refl _⟩
  | store page i value =>
      cases hst
      have hpU : page ∉ tables c.world.mem c.rootSet := by
        obtain ⟨_, _, _, _, howned⟩ := h.holds
        exact (howned page hok).2
      obtain ⟨_, htab⟩ := shape_frame h.shape (c.world.mem.setEntry page i value)
        (fun q hq j => Mem.setEntry_of_ne value (fun hc => hpU (hc.1 ▸ Inner.inUse hq)))
      show Balance F₀ G c.owned (tables (c.world.mem.setEntry page i value) c.rootSet) c.world.src ∧
        _ ⊆ tables (c.world.mem.setEntry page i value) c.rootSet
      rw [htab]
      exact ⟨hb, Set.Subset.refl _⟩

/-- At the start all pages that are used were used before. -/
theorem balance_init (hrep : Rep s F₀) (mem : Mem) : Balance F₀ ∅ [] (tables mem ∅) s where
  holds := by
    have h := (apart_init hrep mem).holds
    have hroots : (⟨⟨mem, s⟩, [], []⟩ : Machine).rootSet = ∅ := by simp [Machine.rootSet]
    rw [hroots] at h
    exact h
  null := by
    rw [tables_empty]
    exact ⟨Set.notMem_empty _, List.not_mem_nil⟩
  kept := by
    rintro q ⟨i, hi, rfl, hfree⟩ _ hused
    rw [isPageFree_pageAddr hrep hi, decide_eq_true hfree] at hused
    cases hused
  gone := fun _ hq => absurd hq (Set.notMem_empty _)

theorem balance_start (hrep : Rep s F₀) (mem : Mem) :
    Balance F₀ ∅ (⟨⟨mem, s⟩, [], []⟩ : Machine).owned
      (tables mem (⟨⟨mem, s⟩, [], []⟩ : Machine).rootSet) (⟨⟨mem, s⟩, [], []⟩ : Machine).world.src := by
  have hroots : (⟨⟨mem, s⟩, [], []⟩ : Machine).rootSet = ∅ := by simp [Machine.rootSet]
  rw [hroots]
  exact balance_init hrep mem

/-- **Run lemma.** -/
theorem balance_reach (hhome : Homed F₀) (h : Apart F₀ c)
    (hb : Balance F₀ G c.owned (tables c.world.mem c.rootSet) c.world.src)
    (hr : Reach Machine.step Machine.Permitted c c') : Apart F₀ c' ∧
      Balance F₀ G c'.owned (tables c'.world.mem c'.rootSet) c'.world.src ∧
      tables c.world.mem c.rootSet ⊆ tables c'.world.mem c'.rootSet := by
  refine Reach.invariant (I := fun t => Apart F₀ t ∧ Balance F₀ G t.owned (tables t.world.mem t.rootSet) t.world.src ∧
    tables c.world.mem c.rootSet ⊆ tables t.world.mem t.rootSet) ⟨h, hb, Set.Subset.refl _⟩ ?_ hr
  rintro t op u ⟨ht, hbt, hsub⟩ hok hst
  obtain ⟨u', hu', hap⟩ := ht.step hhome hok
  obtain rfl := Option.some.inj (hst.symm.trans hu')
  obtain ⟨hbu, hgrow⟩ := ht.balances hhome hbt hok hst
  exact ⟨hap, hbu, hsub.trans hgrow⟩

/-! ## Counting -/

/-- `t` is a table of some root. -/
def Machine.IsTable (c : Machine) (t : Word) : Prop := ∃ r ∈ c.roots, ∃ level, TableAt c.world.mem r level t

theorem isTable_iff {t : Word} : c.IsTable t ↔ t ∈ tables c.world.mem c.rootSet := by
  constructor
  · rintro ⟨r, hr, level, ht⟩
    exact TableAt.inUse (show r ∈ c.rootSet from hr) ht
  · rintro ⟨r, hr, π, hlen, hw⟩
    exact ⟨r, hr, 2 - π.length, tableAt_iff.mpr ⟨π, by omega, hw⟩⟩

theorem grantable_iff (hrep : Rep s F₀) : q ∈ Grantable F₀ ↔ s.isPageFree q = some true := by
  obtain ⟨b, hb, hiff⟩ := isPageFree_rep hrep q
  rw [hb, Option.some.injEq, hiff]
  exact Iff.rfl

/-- Where a page is that was free at the start. -/
theorem Balance.free_iff (h : Balance F₀ G owned U s) (hq : q ∈ Grantable F₀) (hq0 : q ≠ 0#64) :
    s.isPageFree q = some true ↔ q ∉ owned ∧ q ∉ U := by
  obtain ⟨_, _, hled, _⟩ := h.holds
  obtain ⟨b, hb, _⟩ := isPageFree_rep hled.rep q
  constructor
  · intro hfree
    have hnot : ∀ hc : q ∈ U ∨ q ∈ owned, False := by
      intro hc
      rw [(h.holds.used hc).2] at hfree
      cases hfree
    exact ⟨fun ho => hnot (Or.inr ho), fun hU => hnot (Or.inl hU)⟩
  · rintro ⟨ho, hU⟩
    cases b with
    | true => exact hb
    | false => exact absurd (h.kept q hq hq0 hb) (fun hc => hc.elim hU ho)

/-- The pages that are missing, as a set. -/
theorem Balance.missing (h : Balance F₀ G owned U s) : ∃ W : Finset Word,
    (∀ q, q ∈ W ↔ q ∈ Grantable F₀ ∧ s.isPageFree q = some false) ∧ F₀.free.card = s.freePages + W.card := by
  obtain ⟨out, F, hled, _⟩ := h.holds
  have hlt : ∀ i ∈ F₀.free \ F.free, i < F₀.total := by
    intro i hi
    obtain ⟨hfree, hnot⟩ := Finset.mem_sdiff.mp hi
    by_contra hge
    exact hnot (hled.stray i hfree (Nat.le_of_not_lt hge))
  refine ⟨(F₀.free \ F.free).image (pageAddr F₀.base), fun q => ?_, ?_⟩
  · constructor
    · intro hq
      obtain ⟨i, hi, rfl⟩ := Finset.mem_image.mp hq
      obtain ⟨hfree, hnot⟩ := Finset.mem_sdiff.mp hi
      refine ⟨⟨i, hlt i hi, rfl, hfree⟩, ?_⟩
      have hans := isPageFree_pageAddr hled.rep (hled.total ▸ hlt i hi)
      rw [hled.base, decide_eq_false hnot] at hans
      exact hans
    · rintro ⟨⟨i, hi, rfl, hfree⟩, hused⟩
      refine Finset.mem_image.mpr ⟨i, Finset.mem_sdiff.mpr ⟨hfree, fun hin => ?_⟩, rfl⟩
      have hans := isPageFree_pageAddr hled.rep (hled.total ▸ hi)
      rw [hled.base, hused, decide_eq_true hin] at hans
      cases hans
  · have hcard : ((F₀.free \ F.free).image (pageAddr F₀.base)).card = (F₀.free \ F.free).card :=
      Finset.card_image_of_injOn fun i hi j hj he =>
        F₀.pageAddr_inj (Nat.le_of_lt (hlt i hi)) (Nat.le_of_lt (hlt j hj)) he
    have hcount : s.freePages = F.free.card := hled.rep.counted
    have hle := Finset.card_le_card hled.sub
    rw [hcard, Finset.card_sdiff_of_subset hled.sub, hcount]
    omega

open Classical in
/-- They are the tables, the clients' pages, and page zero. -/
theorem Balance.count (h : Balance F₀ G owned U s) (hnd : owned.Nodup) : ∃ ts : List Word, ts.Nodup ∧
    (∀ t, t ∈ ts ↔ t ∈ U) ∧ F₀.free.card = s.freePages + ts.length + owned.length +
      if 0#64 ∈ Grantable F₀ ∧ s.isPageFree 0#64 = some false then 1 else 0 := by
  obtain ⟨W, hW, hcard⟩ := h.missing
  have hsplit := Finset.card_filter_add_card_filter_not (s := W) (· ∈ U)
  have hmem : ∀ q, q ∈ U ∨ q ∈ owned → q ∈ W := by
    intro q hq
    have hgrant := h.holds.grantable
    exact (hW q).mpr ⟨hq.elim (fun hU => hgrant.1 hU) (hgrant.2 q), (h.holds.used hq).2⟩
  have hrest : (W.filter (· ∉ U)).erase 0#64 = owned.toFinset := by
    ext q
    rw [Finset.mem_erase, Finset.mem_filter, List.mem_toFinset]
    constructor
    · rintro ⟨hq0, hqW, hqU⟩
      obtain ⟨hgrant, hused⟩ := (hW q).mp hqW
      exact (h.kept q hgrant hq0 hused).resolve_left hqU
    · intro hq
      obtain ⟨_, _, _, _, howned⟩ := h.holds
      exact ⟨fun hz => h.null.2 (hz ▸ hq), hmem q (Or.inr hq), (howned q hq).2⟩
  have hzero : 0#64 ∈ W.filter (· ∉ U) ↔ 0#64 ∈ Grantable F₀ ∧ s.isPageFree 0#64 = some false := by
    rw [Finset.mem_filter, hW]
    exact and_iff_left h.null.1
  have hlen : (W.filter (· ∉ U)).card = owned.length +
      if 0#64 ∈ Grantable F₀ ∧ s.isPageFree 0#64 = some false then 1 else 0 := by
    rw [← List.toFinset_card_of_nodup hnd, ← hrest]
    by_cases hz : 0#64 ∈ W.filter (· ∉ U)
    · rw [if_pos (hzero.mp hz), Finset.card_erase_add_one hz]
    · rw [if_neg (mt hzero.mpr hz), Finset.erase_eq_of_notMem hz]
      rfl
  refine ⟨(W.filter (· ∈ U)).toList, Finset.nodup_toList _, fun t => ?_, ?_⟩
  · rw [Finset.mem_toList, Finset.mem_filter]
    exact ⟨fun ht => ht.2, fun ht => ⟨hmem t (Or.inl ht), ht⟩⟩
  · rw [Finset.length_toList]
    omega

/-- **No page leaks.** After `pmm_init` and any permitted calls of the page-table code and the allocator's clients: a
    page that was free at the start is free, held by a client, or a table, and only one of these; and `free_pages`
    counts what is left. Only the page at address zero can get lost, if it was free at all. -/
theorem no_page_leaks (m : PhysicalRange) (rs : List ReservedRange) (mem : Mem) :
    ∃ s, pmmInit m rs = some s ∧ ∀ c, Reach Machine.step Machine.Permitted ⟨⟨mem, s⟩, [], []⟩ c →
      (∀ p, p ≠ 0#64 → s.isPageFree p = some true →
        (c.world.src.isPageFree p = some true ↔ p ∉ c.owned ∧ ¬ c.IsTable p) ∧ ¬ (p ∈ c.owned ∧ c.IsTable p)) ∧
      ∃ ts : List Word, ts.Nodup ∧ (∀ t, t ∈ ts ↔ c.IsTable t) ∧
        s.freePages = c.world.src.freePages + ts.length + c.owned.length +
          if s.isPageFree 0#64 = some true ∧ c.world.src.isPageFree 0#64 = some false then 1 else 0 := by
  obtain ⟨s, hs, hrep⟩ := pmmInit_rep m rs
  refine ⟨s, hs, fun c hc => ?_⟩
  obtain ⟨hap, hb, _⟩ := balance_reach (initFrames_homed m rs) (apart_init hrep mem) (balance_start hrep mem) hc
  refine ⟨fun p hp hfree => ?_, ?_⟩
  · rw [isTable_iff]
    refine ⟨hb.free_iff ((grantable_iff hrep).mpr hfree) hp, fun hboth => ?_⟩
    obtain ⟨_, _, _, _, howned⟩ := hap.holds
    exact (howned p hboth.1).2 hboth.2
  · obtain ⟨ts, hnd, hts, hcount⟩ := hb.count hap.owned_nodup
    refine ⟨ts, hnd, fun t => (hts t).trans isTable_iff.symm, ?_⟩
    have hcard : s.freePages = (initFrames m rs).free.card := hrep.counted
    simp only [grantable_iff hrep] at hcount
    rw [hcard, hcount]

/-- Eight pages: three are tables, the client holds one, four are left. -/
theorem no_page_leaks_test : ∃ s c, pmmInit eightPages [] = some s ∧ s.freePages = 8 ∧
    run Machine.step (unclean s) oneMapping = some c ∧ c.world.src.freePages = 4 ∧
    (0x800c3000#64 ∈ c.owned ∧ ¬ c.IsTable 0x800c3000#64) ∧
    ∃ ts : List Word, ts.Nodup ∧ (∀ t, t ∈ ts ↔ c.IsTable t) ∧ ts.length = 3 ∧ 0x80082000#64 ∈ ts := by
  obtain ⟨s, hs, hall⟩ := no_page_leaks eightPages [] fun _ _ => 1#64
  obtain ⟨c, hc, hr, hroots, howned, _, hbottom⟩ := oneMapping_run hs
  have hcounts : ∀ s ∈ pmmInit eightPages [], (s.freePages = 8 ∧ s.isPageFree 0#64 = some false) ∧
      s.isPageFree 0x800c3000#64 = some true ∧
      ∀ c ∈ run Machine.step (unclean s) oneMapping, c.world.src.freePages = 4 := by decide +kernel
  obtain ⟨⟨height, hzero⟩, hwas, hfour⟩ := hcounts s hs
  obtain ⟨hpages, ts, hnd, hts, hcount⟩ := hall c hr
  have hmem : 0x800c3000#64 ∈ c.owned := by rw [howned]; exact List.mem_cons_self
  have htable : c.IsTable 0x80082000#64 := ⟨0x80000000#64, by rw [hroots]; exact List.mem_cons_self, 0, hbottom⟩
  rw [if_neg (by rw [hzero]; simp), height, hfour c hc, howned, List.length_singleton] at hcount
  obtain ⟨_, hnotBoth⟩ := hpages 0x800c3000#64 (by decide) hwas
  exact ⟨s, c, hs, height, hc, hfour c hc, ⟨hmem, fun ht => hnotBoth ⟨hmem, ht⟩⟩, ts, hnd, hts, by omega,
    (hts _).mpr htable⟩

/-- **Tables only grow.** From any reachable state on: what is a table stays one, whatever is unmapped, and the free
    pages together with the clients' never become more. -/
theorem tables_only_grow (m : PhysicalRange) (rs : List ReservedRange) (mem : Mem) :
    ∃ s, pmmInit m rs = some s ∧ ∀ c c', Reach Machine.step Machine.Permitted ⟨⟨mem, s⟩, [], []⟩ c →
      Reach Machine.step Machine.Permitted c c' →
      (∀ t, c.IsTable t → c'.IsTable t) ∧
      c'.world.src.freePages + c'.owned.length ≤ c.world.src.freePages + c.owned.length := by
  obtain ⟨s, hs, hrep⟩ := pmmInit_rep m rs
  refine ⟨s, hs, fun c c' hc hc' => ?_⟩
  have hhome := initFrames_homed m rs
  obtain ⟨hap, hb, _⟩ := balance_reach hhome (apart_init hrep mem) (balance_start hrep mem) hc
  -- if page zero is lost, it stays lost
  have hb₀ : Balance (initFrames m rs) (fun q => q = 0#64 ∧ c.world.src.isPageFree 0#64 = some false) c.owned
      (tables c.world.mem c.rootSet) c.world.src := by
    refine ⟨hb.holds, hb.null, hb.kept, ?_⟩
    rintro q ⟨rfl, hused⟩
    exact ⟨hb.null.2, hused⟩
  obtain ⟨hap', hb', hsub⟩ := balance_reach hhome hap hb₀ hc'
  obtain ⟨ts, hnd, hts, hcount⟩ := hb.count hap.owned_nodup
  obtain ⟨ts', _, hts', hcount'⟩ := hb'.count hap'.owned_nodup
  have hlen : ts.length ≤ ts'.length :=
    (hnd.subperm fun t ht => (hts' t).mpr (hsub ((hts t).mp ht))).length_le
  refine ⟨fun t ht => isTable_iff.mpr (hsub (isTable_iff.mp ht)), ?_⟩
  have hlost : c.world.src.isPageFree 0#64 = some false → c'.world.src.isPageFree 0#64 = some false :=
    fun hused => (hb'.gone 0#64 ⟨rfl, hused⟩).2
  by_cases hz : 0#64 ∈ Grantable (initFrames m rs) ∧ c.world.src.isPageFree 0#64 = some false
  · rw [if_pos hz] at hcount
    rw [if_pos ⟨hz.1, hlost hz.2⟩] at hcount'
    omega
  · rw [if_neg hz] at hcount
    omega

/-- Nothing is mapped any more and the client has given its page back: the tables are still tables. -/
theorem tables_only_grow_test : ∃ s c c', pmmInit eightPages [] = some s ∧
    run Machine.step (unclean s) oneMapping = some c ∧
    run Machine.step c [.unmap 0x80000000#64 0x1000#64, .free 0x800c3000#64] = some c' ∧
    c'.world.mem 0x80082000#64 1 = 0#64 ∧ c'.IsTable 0x80041000#64 ∧ c'.IsTable 0x80082000#64 ∧
    c'.world.src.freePages + c'.owned.length ≤ 5 := by
  obtain ⟨s, hs, hall⟩ := tables_only_grow eightPages [] fun _ _ => 1#64
  obtain ⟨c, hc, hr, hroots, howned, hmid, hbottom⟩ := oneMapping_run hs
  have hafter : ∀ s ∈ pmmInit eightPages [], ∀ c ∈ run Machine.step (unclean s) oneMapping,
      c.world.src.freePages = 4 ∧
      Always Machine.step Machine.Permitted c [.unmap 0x80000000#64 0x1000#64, .free 0x800c3000#64] ∧
      (run Machine.step c [.unmap 0x80000000#64 0x1000#64, .free 0x800c3000#64]).map
        (fun c' => c'.world.mem 0x80082000#64 1) = some 0#64 := by decide +kernel
  obtain ⟨hfour, hperm, hcleared⟩ := hafter s hs c hc
  obtain ⟨c', hc', hcleared⟩ := Option.map_eq_some_iff.mp hcleared
  obtain ⟨hkeeps, hle⟩ := hall c c' hr (Reach.of_run _ hperm hc')
  have hroot : 0x80000000#64 ∈ c.roots := by rw [hroots]; exact List.mem_cons_self
  rw [hfour, howned] at hle
  exact ⟨s, c, c', hs, hc, hc', hcleared, hkeeps _ ⟨_, hroot, 1, hmid⟩, hkeeps _ ⟨_, hroot, 0, hbottom⟩, hle⟩

end Arch
end RiscCore
