import RiscCore.Lib.Runs
import RiscCore.Mm.PmmInitExact

/-!
# `Mm.PmmRuns` — clients of the allocator

A `Client` is the allocator together with the pages its callers currently hold: non-null results of
`alloc_page` that no accepted `free_page` has taken back. The code keeps no such list — one bit per page
is all it knows — so the run theorems are about the agreement of the two.

The invariant `Ledger` says that the free set never leaves the initial one and that the held pages are
exactly the ones whose index was free initially and is used now, the page at null apart. As the initial
free indices are home indices, freeing a held page clears exactly its own bit.
-/

namespace RiscCore
namespace Mm

open Pmm Runs

inductive PmmOp where
  | alloc
  | free (page : Word)
deriving DecidableEq, Repr

/-- The allocator and the pages handed out and not yet taken back. -/
structure Client where
  pmm : Pmm
  outstanding : List Word

namespace Client

def step (c : Client) : PmmOp → Option Client
  | .alloc => do
    let (p, s') ← c.pmm.allocPage
    return ⟨s', if p = 0#64 then c.outstanding else p :: c.outstanding⟩
  | .free page => do
    let (ok, s') ← c.pmm.freePage page
    return ⟨s', if ok then c.outstanding.erase page else c.outstanding⟩

/-- Only outstanding pages are freed. -/
def Owns (c : Client) : PmmOp → Prop
  | .alloc => True
  | .free page => page ∈ c.outstanding

instance (c : Client) : DecidablePred c.Owns
  | .alloc => isTrue trivial
  | .free page => inferInstanceAs (Decidable (page ∈ c.outstanding))

/-- No restriction at all. -/
def Anything (_ : Client) (_ : PmmOp) : Prop := True

theorem step_alloc {c : Client} {p : Word} {s' : Pmm} (h : c.pmm.allocPage = some (p, s')) :
    c.step .alloc = some ⟨s', if p = 0#64 then c.outstanding else p :: c.outstanding⟩ := by
  simp [step, h]

theorem step_free {c : Client} {page : Word} {ok : Bool} {s' : Pmm} (h : c.pmm.freePage page = some (ok, s')) :
    c.step (.free page) = some ⟨s', if ok then c.outstanding.erase page else c.outstanding⟩ := by
  simp [step, h]

end Client

/-! ## The invariant -/

/-- **The ledger.** `F₀` is the state after `pmm_init`, `F` the current one. -/
structure Ledger (F₀ : FrameSet) (c : Client) (F : FrameSet) : Prop where
  rep : Rep c.pmm F
  base : F.base = F₀.base
  total : F.total = F₀.total
  sub : F.free ⊆ F₀.free
  stray : ∀ i ∈ F₀.free, F₀.total ≤ i → i ∈ F.free
  held : ∀ p ∈ c.outstanding, ∃ i, i < F₀.total ∧ p = pageAddr F₀.base i ∧ i ∈ F₀.free ∧ i ∉ F.free
  taken : ∀ i ∈ F₀.free, i < F₀.total → i ∉ F.free → pageAddr F₀.base i ≠ 0#64 → pageAddr F₀.base i ∈ c.outstanding
  nodup : c.outstanding.Nodup

/-- All free indices are home indices. -/
def Homed (F₀ : FrameSet) : Prop := ∀ i ∈ F₀.free, IsHome i

theorem initFrames_homed (m : PhysicalRange) (rs : List ReservedRange) : Homed (initFrames m rs) :=
  fun _ hi => (mem_homeIndices.mp (Finset.mem_filter.mp hi).1).2.1

theorem ledger_init {s : Pmm} {F₀ : FrameSet} (h : Rep s F₀) : Ledger F₀ ⟨s, []⟩ F₀ where
  rep := h
  base := rfl
  total := rfl
  sub := Finset.Subset.refl _
  stray := fun _ hi _ => hi
  held := fun _ hp => absurd hp List.not_mem_nil
  taken := fun _ hi _ hnf => absurd hi hnf
  nodup := List.nodup_nil

variable {F₀ F : FrameSet} {c c' : Client}

/-- **What `alloc_page` does to a ledger.** A null result leaves the held pages alone; a page comes from the
    initial free set and is not held. -/
theorem Ledger.alloc (h : Ledger F₀ c F) :
    ∃ p s' F', c.pmm.allocPage = some (p, s') ∧
      Ledger F₀ ⟨s', if p = 0#64 then c.outstanding else p :: c.outstanding⟩ F' ∧
      (p ≠ 0#64 → p ∉ c.outstanding ∧ ∃ i, i < F₀.total ∧ p = pageAddr F₀.base i ∧ i ∈ F₀.free) := by
  rcases allocPage_rep h.rep with ⟨hnull, _⟩ | ⟨i, s', hlow, halloc, hrep⟩
  · exact ⟨0#64, c.pmm, F, hnull, by rw [if_pos rfl]; exact h, fun hne => absurd rfl hne⟩
  · have hi : i < F₀.total := h.total ▸ hlow.lt_total
    have hmem : i ∈ F₀.free := h.sub hlow.mem
    -- a held page has a used index, the allocated one was free
    have hnew : pageAddr F.base i ∉ c.outstanding := by
      intro hp
      obtain ⟨j, hj, he, _, hnf⟩ := h.held _ hp
      rw [h.base] at he
      exact hnf (F₀.pageAddr_inj (Nat.le_of_lt hi) (Nat.le_of_lt hj) he ▸ hlow.mem)
    have hheld : ∀ p ∈ c.outstanding, ∃ j, j < F₀.total ∧ p = pageAddr F₀.base j ∧ j ∈ F₀.free ∧
        j ∉ (F.reserve i).free := by
      intro p hp
      obtain ⟨j, hj, he, hf, hnf⟩ := h.held p hp
      exact ⟨j, hj, he, hf, fun hm => hnf (Finset.mem_of_mem_erase hm)⟩
    refine ⟨pageAddr F.base i, s', F.reserve i, halloc, ?_, fun _ => ⟨hnew, i, hi, by rw [h.base], hmem⟩⟩
    refine ⟨hrep, h.base, h.total, fun j hj => h.sub (Finset.mem_of_mem_erase hj), ?_, ?_, ?_, ?_⟩
    · intro j hj hge
      exact Finset.mem_erase.mpr ⟨by omega, h.stray j hj hge⟩
    · intro p hp
      split at hp
      · exact hheld p hp
      · rcases List.mem_cons.mp hp with rfl | hp
        · exact ⟨i, hi, by rw [h.base], hmem, Finset.notMem_erase _ _⟩
        · exact hheld p hp
    · intro j hj hlt hnf hne
      by_cases hji : j = i
      · rw [hji, ← h.base] at hne ⊢
        rw [if_neg hne]
        exact List.mem_cons_self
      · have hout := h.taken j hj hlt (fun hm => hnf (Finset.mem_erase.mpr ⟨hji, hm⟩)) hne
        split
        · exact hout
        · exact List.mem_cons_of_mem _ hout
    · show (if pageAddr F.base i = 0#64 then c.outstanding else pageAddr F.base i :: c.outstanding).Nodup
      split
      · exact h.nodup
      · exact List.nodup_cons.mpr ⟨hnew, h.nodup⟩

/-- **A held page is accepted back** and exactly its own index becomes free. -/
theorem Ledger.free_held (hhome : Homed F₀) (h : Ledger F₀ c F) {p : Word} (hp : p ∈ c.outstanding) :
    ∃ i s', ∃ hi : i < kMaxManagedPages, i < F₀.total ∧ p = pageAddr F₀.base i ∧ i ∉ F.free ∧
      c.pmm.freePage p = some (true, s') ∧ Rep s' (F.release i hi) ∧
      Ledger F₀ ⟨s', c.outstanding.erase p⟩ (F.release i hi) := by
  obtain ⟨i, hi, rfl, hmem, hnf⟩ := h.held p hp
  have hiF : i < F.total := by rw [h.total]; exact hi
  obtain ⟨s', hs', hrep⟩ := freePage_used h.rep hiF hnf
  -- the index is initially free, hence home: the mask selects its own bit
  have hrep' : Rep s' (F.release i (F.lt_max hiF)) := by
    have hF : F.release (freedIndex i) (freedIndex_lt (F.lt_max hiF)) = F.release i (F.lt_max hiF) :=
      FrameSet.ext_free rfl rfl (by rw [FrameSet.release_free, FrameSet.release_free, hhome i hmem])
    rw [← hF]; exact hrep
  rw [h.base] at hs'
  refine ⟨i, s', F.lt_max hiF, hi, rfl, hnf, hs', hrep', hrep', h.base, h.total, ?_, ?_, ?_, ?_, ?_⟩
  · intro j hj
    rcases Finset.mem_insert.mp hj with rfl | hj
    · exact hmem
    · exact h.sub hj
  · intro j hj hge
    exact Finset.mem_insert_of_mem (h.stray j hj hge)
  · intro q hq
    obtain ⟨hne, hq⟩ := (List.Nodup.mem_erase_iff h.nodup).mp hq
    obtain ⟨j, hj, rfl, hf, hjnf⟩ := h.held q hq
    refine ⟨j, hj, rfl, hf, fun hm => ?_⟩
    rcases Finset.mem_insert.mp hm with rfl | hm
    · exact hne rfl
    · exact hjnf hm
  · intro j hj hlt hjnf hne
    have hji : j ≠ i := fun he => hjnf (he ▸ Finset.mem_insert_self _ _)
    have hpage : pageAddr F₀.base j ≠ pageAddr F₀.base i :=
      fun he => hji (F₀.pageAddr_inj (Nat.le_of_lt hlt) (Nat.le_of_lt hi) he)
    exact (List.mem_erase_of_ne hpage).mpr
      (h.taken j hj hlt (fun hm => hjnf (Finset.mem_insert_of_mem hm)) hne)
  · exact h.nodup.erase _

/-- **Step lemma.** A permitted call keeps the ledger. -/
theorem Ledger.step (hhome : Homed F₀) (h : Ledger F₀ c F) {op : PmmOp} (hok : c.Owns op)
    (hst : c.step op = some c') : ∃ F', Ledger F₀ c' F' := by
  cases op with
  | alloc =>
      obtain ⟨p, s', F', ha, hl, _⟩ := h.alloc
      rw [Client.step_alloc ha] at hst
      cases hst
      exact ⟨F', hl⟩
  | free page =>
      obtain ⟨_, s', hi, _, _, _, hf, _, hl⟩ := h.free_held hhome hok
      rw [Client.step_free hf] at hst
      cases hst
      exact ⟨_, hl⟩

/-- **Run lemma.** Every run that frees only outstanding pages keeps the ledger. -/
theorem ledger_reach (hhome : Homed F₀) {s : Pmm} (h0 : Rep s F₀)
    (hr : Reach Client.step Client.Owns ⟨s, []⟩ c) : ∃ F, Ledger F₀ c F :=
  Reach.invariant (I := fun c => ∃ F, Ledger F₀ c F) ⟨F₀, ledger_init h0⟩
    (fun _ _ _ ⟨_, h⟩ hok hst => h.step hhome hok hst) hr

/-! ## Pages somebody else holds -/

/-- `page` is no managed page outside the free set, and not the managed page at null. -/
def FrameSet.Offers (F : FrameSet) (page : Word) : Prop :=
  ∀ i, i < F.total → page = pageAddr F.base i → page ≠ 0#64 ∧ i ∈ F.free

/-- **What `free_page` does to a ledger.** It accepts the held pages and no other page the free set offers. -/
theorem Ledger.free (hhome : Homed F₀) (h : Ledger F₀ c F) {p : Word} (hp : F₀.Offers p) :
    (p ∉ c.outstanding ∧ c.pmm.freePage p = some (false, c.pmm)) ∨
    p ∈ c.outstanding ∧ ∃ i s', ∃ hi : i < kMaxManagedPages, i < F.total ∧ p = pageAddr F.base i ∧
      c.pmm.freePage p = some (true, s') ∧ Rep s' (F.release i hi) ∧
      Ledger F₀ ⟨s', c.outstanding.erase p⟩ (F.release i hi) := by
  by_cases hmem : p ∈ c.outstanding
  · obtain ⟨i, s', hi, hlt, hpage, _, hf, hrel, hled⟩ := h.free_held hhome hmem
    rw [← h.base] at hpage
    rw [← h.total] at hlt
    exact Or.inr ⟨hmem, i, s', hi, hlt, hpage, hf, hrel, hled⟩
  · rcases freePage_cases h.rep p with ⟨hf, _⟩ | ⟨i, s', hi, hpage, hnf, _⟩
    · exact Or.inl ⟨hmem, hf⟩
    · -- a used index the free set offers is held
      rw [h.base] at hpage
      rw [h.total] at hi
      obtain ⟨hne, hfree⟩ := hp i hi hpage
      rw [hpage] at hne hmem
      exact absurd (h.taken i hfree hi hnf hne) hmem

/-- The pages of `kept` that none of the calls gives back. -/
def stillKept (kept : List Word) (ops : List PmmOp) : List Word := kept.filter fun p => PmmOp.free p ∉ ops

theorem mem_stillKept {kept : List Word} {ops : List PmmOp} {p : Word} :
    p ∈ stillKept kept ops ↔ p ∈ kept ∧ .free p ∉ ops := by
  rw [stillKept, List.mem_filter, decide_eq_true_iff]

theorem stillKept_cons (kept : List Word) (op : PmmOp) (ops : List PmmOp) :
    stillKept kept (op :: ops) = stillKept (stillKept kept [op]) ops := by
  rw [stillKept, stillKept, stillKept, List.filter_filter]
  refine List.filter_congr fun p _ => ?_
  rw [← Bool.decide_and]
  exact decide_eq_decide.mpr (by rw [List.mem_cons, List.mem_singleton, not_or, and_comm])

theorem stillKept_alloc (kept : List Word) : stillKept kept [.alloc] = kept :=
  List.filter_eq_self.mpr fun _ _ => by rw [decide_eq_true_iff]; simp

theorem stillKept_free_of_notMem {kept : List Word} {p : Word} (hp : p ∉ kept) : stillKept kept [.free p] = kept := by
  refine List.filter_eq_self.mpr fun q hq => ?_
  have hne : q ≠ p := fun he => hp (he ▸ hq)
  rw [decide_eq_true_iff, List.mem_singleton, PmmOp.free.injEq]
  exact hne

/-- Giving back one of all the held pages. -/
theorem erase_append_kept {held kept : List Word} (h : (held ++ kept).Nodup) (p : Word) :
    (held ++ kept).erase p = held.erase p ++ stillKept kept [.free p] := by
  have hheld : held.Nodup := (List.nodup_append'.mp h).1
  rw [h.erase_eq_filter, hheld.erase_eq_filter, List.filter_append]
  refine congrArg _ (List.filter_congr fun q _ => ?_)
  by_cases hq : q = p
  · simp [hq]
  · simp [hq]

/-- **Step lemma.** -/
theorem Ledger.step_kept (hhome : Homed F₀) {kept : List Word} (h : Ledger F₀ ⟨c.pmm, c.outstanding ++ kept⟩ F)
    {op : PmmOp} (hop : ∀ page, op = .free page → F₀.Offers page) :
    ∃ c' F', c.step op = some c' ∧ Ledger F₀ ⟨c'.pmm, c'.outstanding ++ stillKept kept [op]⟩ F' := by
  cases op with
  | alloc =>
      obtain ⟨p, s', F', ha, hled, _⟩ := h.alloc
      refine ⟨_, F', Client.step_alloc ha, ?_⟩
      rw [stillKept_alloc]
      by_cases hnull : p = 0#64
      · rw [if_pos hnull] at hled ⊢
        exact hled
      · rw [if_neg hnull] at hled ⊢
        exact hled
  | free page =>
      rcases h.free hhome (hop page rfl) with ⟨hmem, hf⟩ | ⟨_, i, s', hi, _, _, hf, _, hled⟩
      · -- nobody holds the page, so the lists do not change
        have hkept : page ∉ kept := fun hm => hmem (List.mem_append_right _ hm)
        refine ⟨_, F, Client.step_free hf, ?_⟩
        rw [stillKept_free_of_notMem hkept]
        exact h
      · refine ⟨_, F.release i hi, Client.step_free hf, ?_⟩
        rw [if_pos rfl, ← erase_append_kept h.nodup]
        exact hled

/-- **Run lemma.** Every run that is given only pages the free set offers succeeds, and the pages in use are the
outstanding ones and those nobody has given back yet. -/
theorem Ledger.run_kept (hhome : Homed F₀) : ∀ (ops : List PmmOp) {c : Client} {kept : List Word} {F : FrameSet},
    Ledger F₀ ⟨c.pmm, c.outstanding ++ kept⟩ F → (∀ page, .free page ∈ ops → F₀.Offers page) →
    ∃ c' F', run Client.step c ops = some c' ∧ Ledger F₀ ⟨c'.pmm, c'.outstanding ++ stillKept kept ops⟩ F' := by
  intro ops
  induction ops with
  | nil =>
      intro c kept F h _
      have hkept : stillKept kept [] = kept := List.filter_eq_self.mpr fun p _ => by simp
      exact ⟨c, F, rfl, by rw [hkept]; exact h⟩
  | cons op ops ih =>
      intro c kept F h hops
      have hop : ∀ page, op = .free page → F₀.Offers page := fun page he => hops page (he ▸ List.mem_cons_self)
      obtain ⟨c₁, F₁, hst, h₁⟩ := h.step_kept hhome hop
      obtain ⟨c', F', hrun, h'⟩ := ih h₁ fun page hm => hops page (List.mem_cons_of_mem _ hm)
      refine ⟨c', F', by rw [run, hst, Option.bind_some, hrun], ?_⟩
      rw [stillKept_cons]
      exact h'

end Mm
end RiscCore
