import RiscCore.Arch.TablePages

/-!
# `Arch.TableFrame` — what the page-table code never writes

A walker writes entries of tables, and zeroes a page that it makes a table. So a call changes memory only in what
are tables after it (`mapPage_frame`), and a run only in pages that were free to be handed out when it began
(`only_free_pages_written`): whatever was reserved, or lies outside the managed range, is as it was.
-/

namespace RiscCore
namespace Arch

open Mm Runs Forest

variable {α : Type} {allocPage : AllocPage α} {I : Set Word → α → Prop} {m m' m'' : Mem} {roots : Set Word}
  {r va pa flags : Word} {U V : Set Word}

/-- `m'` is `m` outside the pages in `U`. -/
def SameOutside (U : Set Word) (m m' : Mem) : Prop := ∀ q, q ∉ U → ∀ i, m' q i = m q i

theorem SameOutside.refl (U : Set Word) (m : Mem) : SameOutside U m m := fun _ _ _ => rfl

theorem SameOutside.trans (h : SameOutside U m m') (h' : SameOutside U m' m'') : SameOutside U m m'' :=
  fun q hq i => (h' q hq i).trans (h q hq i)

theorem SameOutside.mono (h : SameOutside U m m') (hUV : U ⊆ V) : SameOutside V m m' :=
  fun q hq i => h q (fun hc => hq (hUV hc)) i

theorem sameOutside_setEntry {t : Word} (ht : t ∈ U) (m : Mem) (i : Fin 512) (pte : Pte) :
    SameOutside U m (m.setEntry t i pte) :=
  fun _ hq _ => Mem.setEntry_of_ne pte fun hc => hq (hc.1 ▸ ht)

theorem sameOutside_zeroPage {p : Word} (hp : p ∈ U) (m : Mem) : SameOutside U m (zeroPage m p) :=
  fun q hq i => by rw [zeroPage_apply, if_neg fun (hc : q = p) => hq (hc ▸ hp)]

/-! ## One call -/

/-- The creating walk: it writes tables only, and ends in one. -/
theorem mapWalk_frame (hok : AllocOk allocPage I) (hr : r ∈ roots) (va : Word) : ∀ (level : Nat) {w : World α}
    {t : Word} {π : List (Fin 512)}, Shape w.mem roots → I (tables w.mem roots) w.src → π.length + level ≤ 2 →
    walk (child w.mem) r π = some t →
    ∃ table? w', mapWalk allocPage va level t w = some (table?, w') ∧ Shape w'.mem roots ∧
      tables w.mem roots ⊆ tables w'.mem roots ∧ SameOutside (tables w'.mem roots) w.mem w'.mem ∧
      ∀ t', table? = some t' → walk (child w'.mem) r (bottom va level π) = some t' := by
  intro level
  -- one level is a link that is followed, a page that is linked, or a refusal
  induction level with
  | zero =>
      intro w t π h _ _ ht
      refine ⟨some t, w, rfl, h, Set.Subset.refl _, SameOutside.refl _ _, fun t' he => ?_⟩
      rw [← Option.some.inj he]
      exact ht
  | succ level ih =>
      intro w t π h hI hdepth ht
      have hlt : π.length < 2 := by omega
      have hdepth' : (vpnSlot va (level + 1) :: π).length + level ≤ 2 := by
        rw [List.length_cons]
        omega
      have htable : t ∈ tables w.mem roots := ⟨r, hr, π, Nat.le_of_lt hlt, ht⟩
      cases hc : child w.mem t (vpnSlot va (level + 1)) with
      | some t₁ =>
          have ht₁ : walk (child w.mem) r (vpnSlot va (level + 1) :: π) = some t₁ := by
            rw [walk_cons, ht, Option.bind_some, hc]
          obtain ⟨table?, w', hwalk, hrest⟩ := ih h hI hdepth' ht₁
          exact ⟨table?, w', (mapWalk_linked h hr hlt ht hc).trans hwalk, hrest⟩
      | none =>
          obtain ⟨p, a', halloc, hcase⟩ := hok.call hI
          rcases hcase with ⟨rfl, _⟩ | ⟨hp0, hp, hfresh, hI'⟩
          · refine ⟨none, _, mapWalk_refused hc halloc, h, Set.Subset.refl _, SameOutside.refl _ _, fun t' he => ?_⟩
            cases he
          · obtain ⟨hlink, hpath, _⟩ := linkPage_grown h hr hlt ht hc hp hfresh
            obtain ⟨_, htab⟩ := linkPage_extends h hr hlt ht (child_eq_none.mp hc) hp hfresh
            rw [← htab] at hI'
            obtain ⟨table?, w', hwalk, hshape, hsub, hsame, hend⟩ :=
              ih (w := ⟨linkPage w.mem t (vpnSlot va (level + 1)) p, a'⟩) hlink.forest.shape hI' hdepth' hpath
            have hgrows : tables w.mem roots ⊆ tables (linkPage w.mem t (vpnSlot va (level + 1)) p) roots := by
              rw [htab]
              exact Set.subset_insert p _
            have hpage : p ∈ tables (linkPage w.mem t (vpnSlot va (level + 1)) p) roots := by
              rw [htab]
              exact Set.mem_insert p _
            refine ⟨table?, w', (mapWalk_grows hc halloc hp0 hp).trans hwalk, hshape, hgrows.trans hsub, ?_, hend⟩
            have hzero : SameOutside (tables w'.mem roots) w.mem (zeroPage w.mem p) :=
              sameOutside_zeroPage (hsub hpage) w.mem
            exact (hzero.trans (sameOutside_setEntry (hsub (hgrows htable)) _ _ _)).trans hsame

/-- **`map_page` writes tables only.** -/
theorem mapPage_frame (hok : AllocOk allocPage I) {w w' : World α} (h : Shape w.mem roots)
    (hI : I (tables w.mem roots) w.src) (hr : r ∈ roots) {ok : Bool}
    (hmap : mapPage allocPage w r va pa flags = some (ok, w')) :
    tables w.mem roots ⊆ tables w'.mem roots ∧ SameOutside (tables w'.mem roots) w.mem w'.mem := by
  have hstay : w' = w → tables w.mem roots ⊆ tables w'.mem roots ∧ SameOutside (tables w'.mem roots) w.mem w'.mem := by
    rintro rfl
    exact ⟨Set.Subset.refl _, SameOutside.refl _ _⟩
  obtain ⟨table?, w₁, hwalk, hshape, hsub, hsame, hend⟩ := mapWalk_frame hok hr va 2 h hI root_depth rfl
  unfold mapPage at hmap
  split at hmap
  · cases hmap
    exact hstay rfl
  split at hmap
  · cases hmap
    exact hstay rfl
  rw [hwalk] at hmap
  cases table? with
  | none =>
      cases hmap
      exact ⟨hsub, hsame⟩
  | some t =>
      have hleaf : leafTable w₁.mem r va = some t := hend t rfl
      have ht : t ∈ tables w₁.mem roots := ⟨r, hr, [vpnSlot va 1, vpnSlot va 2], Nat.le_refl 2, hleaf⟩
      simp only [Option.bind_eq_bind, Option.bind_some] at hmap
      split at hmap
      · cases hmap
        exact ⟨hsub, hsame⟩
      · cases hmap
        obtain ⟨_, htab, _⟩ := leafWrite hshape hr hleaf (makePte pa (flags ||| pteV))
        show _ ⊆ tables (w₁.mem.setEntry t (vpnSlot va 0) (makePte pa (flags ||| pteV))) roots ∧ _
        rw [htab]
        exact ⟨hsub, hsame.trans (sameOutside_setEntry ht _ _ _)⟩

/-- **`unmap_page` writes tables only.** -/
theorem unmapPage_frame (h : Shape m roots) (hr : r ∈ roots) (va : Word) :
    SameOutside (tables m roots) m (unmapPage m r va).2 := by
  unfold unmapPage
  split
  · exact SameOutside.refl _ _
  · rw [unmapWalk_eq h hr]
    cases ht : leafTable m r va with
    | none => exact SameOutside.refl _ _
    | some t =>
        have hin : t ∈ tables m roots := ⟨r, hr, [vpnSlot va 1, vpnSlot va 2], Nat.le_refl 2, ht⟩
        dsimp only
        split
        · exact SameOutside.refl _ _
        · exact sameOutside_setEntry hin _ _ _

/-! ## Runs on the real allocator -/

variable {F₀ : FrameSet} {c c' : Machine} {owned : List Word} {s : Pmm}

/-- The pages that the allocator may hand out. -/
def Grantable (F₀ : FrameSet) : Set Word := {q | ∃ i, i < F₀.total ∧ q = Pmm.pageAddr F₀.base i ∧ i ∈ F₀.free}

/-- Tables and client pages were free once. -/
theorem Holds.grantable (h : Holds F₀ owned U s) : U ⊆ Grantable F₀ ∧ ∀ q ∈ owned, q ∈ Grantable F₀ := by
  obtain ⟨out, F, hled, hU, howned⟩ := h
  have hout : ∀ q ∈ out, q ∈ Grantable F₀ := by
    intro q hq
    obtain ⟨i, hi, he, hfree, _⟩ := hled.held q hq
    exact ⟨i, hi, he, hfree⟩
  exact ⟨fun q hq => hout q (hU q hq), fun q hq => hout q (howned q hq).1⟩

/-- `map_page` on the machine: everything written was free once. -/
theorem mapPage_grantable {w : World Pmm} (h : Shape w.mem roots) (hh : Holds F₀ owned (tables w.mem roots) w.src)
    (hsame : SameOutside (Grantable F₀) m w.mem) (hr : r ∈ roots) (va pa flags : Word) :
    ∃ ok w', mapPage Pmm.allocPage w r va pa flags = some (ok, w') ∧ Shape w'.mem roots ∧
      Holds F₀ owned (tables w'.mem roots) w'.src ∧ SameOutside (Grantable F₀) m w'.mem := by
  obtain ⟨ok, w', hmap, hs', hh'⟩ := mapPage_holds h hh hr va pa flags
  obtain ⟨_, hwritten⟩ := mapPage_frame (holds_allocOk F₀ owned) h hh hr hmap
  exact ⟨ok, w', hmap, hs', hh', hsame.trans (hwritten.mono hh'.grantable.1)⟩

/-- **Step lemma.** -/
theorem Apart.writes (hhome : Homed F₀) (h : Apart F₀ c) (hsame : SameOutside (Grantable F₀) m c.world.mem)
    {op : MachineOp} (hok : c.Permitted op) (hst : c.step op = some c') :
    Apart F₀ c' ∧ SameOutside (Grantable F₀) m c'.world.mem := by
  obtain ⟨c₁, hc₁, hap⟩ := h.step hhome hok
  obtain rfl := Option.some.inj (hst.symm.trans hc₁)
  refine ⟨hap, ?_⟩
  cases op with
  | newRoot =>
      obtain ⟨p, s', halloc, hcase⟩ := h.holds.alloc
      rcases hcase with ⟨rfl, _⟩ | ⟨hp, _, _, _, hins, _⟩
      · simp only [Machine.step, allocPageTable, halloc, Option.bind_eq_bind, Option.bind_some] at hst
        cases hst
        exact hsame
      · have hnew : c.step .newRoot =
            some { c with world := ⟨zeroPage c.world.mem p, s'⟩, roots := p :: c.roots } := by
          simp [Machine.step, allocPageTable, halloc, hp]
        have hzero : SameOutside (Grantable F₀) c.world.mem (zeroPage c.world.mem p) :=
          sameOutside_zeroPage (hins.grantable.1 (Set.mem_insert p _)) c.world.mem
        -- how the page was cleared does not matter any more
        generalize zeroPage c.world.mem p = m₁ at hnew hzero
        rw [← Option.some.inj (hnew.symm.trans hst)]
        exact hsame.trans hzero
  | map root va pa flags =>
      obtain ⟨ok, w', hmap, _, _, hsame'⟩ :=
        mapPage_grantable h.shape h.holds hsame (show root ∈ c.rootSet from hok) va pa flags
      simp only [Machine.step, hmap, Option.bind_eq_bind, Option.bind_some] at hst
      cases hst
      exact hsame'
  | mapRange root va pa size flags =>
      have hstep : ∀ (w : World Pmm) (va pa : Word), (Shape w.mem c.rootSet ∧
          Holds F₀ c.owned (tables w.mem c.rootSet) w.src ∧ SameOutside (Grantable F₀) m w.mem) →
          ∃ ok w', Arch.mapPage Pmm.allocPage w root va pa flags = some (ok, w') ∧ Shape w'.mem c.rootSet ∧
            Holds F₀ c.owned (tables w'.mem c.rootSet) w'.src ∧ SameOutside (Grantable F₀) m w'.mem := by
        rintro w va pa ⟨hs, hh, hw⟩
        exact mapPage_grantable hs hh hw (show root ∈ c.rootSet from hok) va pa flags
      obtain ⟨ok, w', hmap, _, _, hsame'⟩ := mapRange_keeps hstep ⟨h.shape, h.holds, hsame⟩ va pa size
      simp only [Machine.step, hmap, Option.bind_eq_bind, Option.bind_some] at hst
      cases hst
      exact hsame'
  | unmap root va =>
      cases hst
      have htables : tables c.world.mem c.rootSet ⊆ Grantable F₀ := h.holds.grantable.1
      exact hsame.trans ((unmapPage_frame h.shape (show root ∈ c.rootSet from hok) va).mono htables)
  | alloc =>
      obtain ⟨p, s', halloc, _⟩ := h.holds.alloc
      simp only [Machine.step, halloc, Option.bind_eq_bind, Option.bind_some] at hst
      cases hst
      exact hsame
  | free page =>
      obtain ⟨s', hfree, _⟩ := h.holds.free hhome h.owned_nodup hok
      simp only [Machine.step, hfree, Option.bind_eq_bind, Option.bind_some] at hst
      cases hst
      exact hsame
  | store page i value =>
      cases hst
      exact hsame.trans (sameOutside_setEntry (h.holds.grantable.2 page hok) _ i value)

/-- **Run lemma.** -/
theorem writes_reach (hhome : Homed F₀) (hrep : Rep s F₀) {mem : Mem}
    (hr : Reach Machine.step Machine.Permitted ⟨⟨mem, s⟩, [], []⟩ c) :
    Apart F₀ c ∧ SameOutside (Grantable F₀) mem c.world.mem := by
  refine Reach.invariant (I := fun c => Apart F₀ c ∧ SameOutside (Grantable F₀) mem c.world.mem)
    ⟨apart_init hrep mem, SameOutside.refl _ mem⟩ ?_ hr
  rintro t op u ⟨ht, hsame⟩ hok hst
  exact ht.writes hhome hsame hok hst

/-- **Only pages that were free are ever written.** After `pmm_init` and any permitted calls of the page-table
    code and the allocator's clients, in any order: a page that `is_page_free` did not report free at the start
    holds what it held then. The allocator's own variables, `g_kernel_page_table` and the stack are no pages of
    `Mem`. -/
theorem only_free_pages_written (m : PhysicalRange) (rs : List ReservedRange) (mem : Mem) :
    ∃ s, pmmInit m rs = some s ∧ ∀ c, Reach Machine.step Machine.Permitted ⟨⟨mem, s⟩, [], []⟩ c →
      ∀ q, s.isPageFree q = some false → ∀ i, c.world.mem q i = mem q i := by
  obtain ⟨s, hs, hrep⟩ := pmmInit_rep m rs
  refine ⟨s, hs, fun c hc q hq => ?_⟩
  obtain ⟨_, hsame⟩ := writes_reach (initFrames_homed m rs) hrep hc
  refine hsame q fun hgrant => ?_
  obtain ⟨b, hb, hiff⟩ := isPageFree_rep hrep q
  rw [hiff.mpr hgrant, hq] at hb
  cases hb

/-- The root has been zeroed; the page after it, which the allocator never hands out, is as it was. -/
theorem only_free_pages_written_test : ∃ s c, pmmInit eightPages [] = some s ∧
    run Machine.step (unclean s) oneMapping = some c ∧ c.world.mem 0x80000000#64 1 = 0#64 ∧
    ∀ i, c.world.mem 0x80001000#64 i = 1#64 := by
  obtain ⟨s, hs, hall⟩ := only_free_pages_written eightPages [] fun _ _ => 1#64
  obtain ⟨c, hc, hr, _⟩ := oneMapping_run hs
  have hused : ∀ s ∈ pmmInit eightPages [], s.isPageFree 0x80001000#64 = some false ∧
      ∀ c ∈ run Machine.step (unclean s) oneMapping, c.world.mem 0x80000000#64 1 = 0#64 := by decide +kernel
  obtain ⟨hnotFree, hzeroed⟩ := hused s hs
  exact ⟨s, c, hs, hc, hzeroed c hc, hall c hr _ hnotFree⟩

end Arch
end RiscCore
