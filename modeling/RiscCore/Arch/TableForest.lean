import RiscCore.Arch.PageTable
import RiscCore.Lib.Forest

/-!
# `Arch.TableForest` — page tables as a forest, and the walkers that create no table

The tables reachable through valid entries form a forest of depth two below the roots (`Shape`), its links
carry only `V`, and `entryAt m r va` is the level-0 entry that translates `va` in the address space of
root `r`. That is the abstract state; the walkers are proved against it once, for any number of roots that
share one memory and one allocator:

* a fresh page linked into an empty slot, or planted as a root, only *extends* the forest: every path and
  every level-0 entry stays;
* a write at level 0 changes the entry of one page of one root and nothing else;
* the reading walkers return the level-0 entry's content.

The allocator is whatever satisfies `AllocOk`: a null, or an aligned page that is not a table yet.
-/

namespace RiscCore
namespace Arch

open Mm Forest

variable {α : Type} {allocPage : AllocPage α} {I : Set Word → α → Prop}

/-- The table that entry `i` of table `t` points to. -/
def child (m : Mem) (t : Word) (i : Fin 512) : Option Word :=
  if pteValid (m t i) then some (pteToTable (m t i)) else none

/-- All tables of the given roots, the roots included. -/
abbrev tables (m : Mem) (roots : Set Word) : Set Word := InUse (child m) roots 2

/-- The tables of levels 2 and 1: those whose entries are links. -/
abbrev linkTables (m : Mem) (roots : Set Word) : Set Word := Inner (child m) roots 2

/-- **The heap shape of the page tables.** -/
structure Shape (m : Mem) (roots : Set Word) : Prop where
  disjoint : Disjoint (child m) roots 2
  links : ∀ t ∈ linkTables m roots, ∀ i, pteValid (m t i) = true →
    ∃ p, isPageAligned p = true ∧ m t i = makePte p pteV

/-- **The allocator's contract.** While `U` is the set of tables, a call returns null or an aligned page
    outside `U`, and the contract goes on when that page becomes a table. -/
structure AllocOk (allocPage : AllocPage α) (I : Set Word → α → Prop) : Prop where
  call : ∀ {U : Set Word} {a : α}, I U a → ∃ p a', allocPage a = some (p, a') ∧
    ((p = 0#64 ∧ I U a') ∨ (p ≠ 0#64 ∧ isPageAligned p = true ∧ p ∉ U ∧ I (insert p U) a'))

/-- The level-0 table for `va`, when all its ancestors exist. -/
def leafTable (m : Mem) (r va : Word) : Option Word :=
  walk (child m) r [vpnSlot va 1, vpnSlot va 2]

/-- The level-0 entry for `va`; a missing table reads as an empty entry. -/
def entryAt (m : Mem) (r va : Word) : Pte :=
  match leafTable m r va with
  | some t => m t (vpnSlot va 0)
  | none => 0#64

variable {m m' : Mem} {roots : Set Word} {r va : Word}

theorem entryAt_some {t : Word} (h : leafTable m r va = some t) : entryAt m r va = m t (vpnSlot va 0) := by
  rw [entryAt, h]

theorem entryAt_none (h : leafTable m r va = none) : entryAt m r va = 0#64 := by
  rw [entryAt, h]

theorem pteValid_zero : pteValid 0#64 = false := by decide

theorem child_eq_none {t : Word} {i : Fin 512} : child m t i = none ↔ pteValid (m t i) = false := by
  unfold child
  cases h : pteValid (m t i) with
  | false => simp
  | true => simp

theorem child_link {t p : Word} {i : Fin 512} (hp : isPageAligned p = true) (h : m t i = makePte p pteV) :
    child m t i = some p := by
  rw [child, h, pteValid_link, if_pos rfl, pteToTable, pteToPa_makePte hp (by decide)]

theorem child_congr {t : Word} {i : Fin 512} (h : m' t i = m t i) : child m' t i = child m t i := by
  rw [child, child, h]

/-- What a valid entry of a link table looks like to the walkers. -/
theorem Shape.link (h : Shape m roots) {t : Word} (ht : t ∈ linkTables m roots) {i : Fin 512}
    (hv : pteValid (m t i) = true) :
    pteLeaf (m t i) = false ∧ child m t i = some (pteToTable (m t i)) := by
  obtain ⟨p, _, hpte⟩ := h.links t ht i hv
  exact ⟨by rw [hpte, pteLeaf_link], by rw [child, if_pos hv]⟩

theorem leafTable_not_link (h : Shape m roots) (hr : r ∈ roots) {t : Word}
    (ht : leafTable m r va = some t) : t ∉ linkTables m roots :=
  not_inner_of_depth h.disjoint hr rfl ht

/-- The forest depends on the link tables only. -/
theorem shape_frame (h : Shape m roots) (m' : Mem) (hsame : ∀ q ∈ linkTables m roots, ∀ i, m' q i = m q i) :
    Shape m' roots ∧ tables m' roots = tables m roots := by
  have hchild : ∀ q ∈ linkTables m roots, ∀ i, child m' q i = child m q i :=
    fun q hq i => child_congr (hsame q hq i)
  refine ⟨⟨h.disjoint.congr hchild, ?_⟩, inUse_congr hchild⟩
  intro q hq i hv
  have hq' : q ∈ linkTables m roots := (inner_congr hchild).subset hq
  rw [hsame q hq' i] at hv ⊢
  exact h.links q hq' i hv

/-! ## Extending the forest -/

/-- `m'` has the paths and the level-0 entries of `m`, and perhaps more tables. -/
structure Extends (roots : Set Word) (m m' : Mem) : Prop where
  shape : Shape m' roots
  paths : ∀ r ∈ roots, ∀ (π : List (Fin 512)) (q : Word), π.length ≤ 2 →
    walk (child m) r π = some q → walk (child m') r π = some q
  entries : ∀ r ∈ roots, ∀ va, entryAt m' r va = entryAt m r va

theorem Extends.refl (h : Shape m roots) : Extends roots m m where
  shape := h
  paths := fun _ _ _ _ _ hw => hw
  entries := fun _ _ _ => rfl

theorem Extends.trans {m'' : Mem} (h₁ : Extends roots m m') (h₂ : Extends roots m' m'') :
    Extends roots m m'' where
  shape := h₂.shape
  paths := fun r hr π q hlen hw => h₂.paths r hr π q hlen (h₁.paths r hr π q hlen hw)
  entries := fun r hr va => (h₂.entries r hr va).trans (h₁.entries r hr va)

/-- A slot that is followed leads on to the same table. -/
theorem Extends.slot (h : Extends roots m m') {r t u : Word} {i : Fin 512} {π : List (Fin 512)} (hr : r ∈ roots)
    (hlen : (i :: π).length ≤ 2) (ht : walk (child m) r π = some t) (hu : walk (child m) r (i :: π) = some u) :
    child m' t i = some u := by
  have hnow := h.paths r hr (i :: π) u hlen hu
  rw [walk_cons, h.paths r hr π t (Nat.le_of_succ_le hlen) ht, Option.bind_some] at hnow
  exact hnow

/-- The memory after a fresh page `p` has been zeroed and linked into slot `i` of `t`. -/
def linkPage (m : Mem) (t : Word) (i : Fin 512) (p : Word) : Mem :=
  (zeroPage m p).setEntry t i (makePte p pteV)

theorem linkPage_apply {t p : Word} {i : Fin 512} (t' : Word) (i' : Fin 512) :
    linkPage m t i p t' i' = if t' = t ∧ i' = i then makePte p pteV else if t' = p then 0#64 else m t' i' := by
  rw [linkPage, Mem.setEntry_apply, zeroPage_apply]

section
variable {t p : Word} {π : List (Fin 512)} {i : Fin 512}

theorem linkPage_linked (hr : r ∈ roots) (hlen : π.length < 2) (ht : walk (child m) r π = some t)
    (hfree : pteValid (m t i) = false) (hp : isPageAligned p = true) (hfresh : p ∉ tables m roots) :
    Linked (child m) (child (linkPage m t i p)) roots 2 r π t i p where
  root := hr
  depth := hlen
  path := ht
  free := child_eq_none.mpr hfree
  fresh := hfresh
  link := child_link hp (by rw [linkPage_apply, if_pos ⟨rfl, rfl⟩])
  empty := by
    intro j
    have hpt : p ≠ t := fun he => hfresh ⟨r, hr, π, Nat.le_of_lt hlen, he ▸ ht⟩
    rw [child_eq_none, linkPage_apply, if_neg (fun hc => hpt hc.1), if_pos rfl, pteValid_zero]
  same := by
    intro q hq j hne
    have hqp : q ≠ p := fun he => hfresh (he ▸ Inner.inUse hq)
    exact child_congr (by rw [linkPage_apply, if_neg hne, if_neg hqp])

/-- **Linking a fresh table extends the forest**, and adds exactly that table. -/
theorem linkPage_extends (h : Shape m roots) (hr : r ∈ roots) (hlen : π.length < 2)
    (ht : walk (child m) r π = some t) (hfree : pteValid (m t i) = false) (hp : isPageAligned p = true)
    (hfresh : p ∉ tables m roots) :
    Extends roots m (linkPage m t i p) ∧ tables (linkPage m t i p) roots = insert p (tables m roots) := by
  have hl := linkPage_linked hr hlen ht hfree hp hfresh
  refine ⟨⟨⟨hl.disjoint h.disjoint, ?_⟩, ?_, ?_⟩, hl.inUse h.disjoint⟩
  · -- a valid link is the new one, or an old one
    intro q hq j hv
    rw [linkPage_apply] at hv ⊢
    split at hv
    · exact ⟨p, hp, by rw [if_pos ‹_›]⟩
    · rename_i hne
      rw [if_neg hne]
      split at hv
      · rw [pteValid_zero] at hv; exact absurd hv (by simp)
      · rename_i hqp
        rw [if_neg hqp]
        exact h.links q ((hl.inner h.disjoint hq).resolve_left hqp) j hv
  · intro r' hr' π' q hlen' hw
    exact (hl.walk_iff h.disjoint hr' π' hlen' q).mpr (Or.inr hw)
  · intro r' hr' va
    have hiff := hl.walk_iff h.disjoint hr' [vpnSlot va 1, vpnSlot va 2] (Nat.le_refl 2)
    cases hold : leafTable m r' va with
    | some q =>
        have hnew : leafTable (linkPage m t i p) r' va = some q := (hiff q).mpr (Or.inr hold)
        -- an old level-0 table is neither the link table that was written nor the fresh page
        have hqt : q ≠ t := fun he => leafTable_not_link h hr' hold (he ▸ ⟨r, hr, π, hlen, ht⟩)
        have hqp : q ≠ p := fun he => hfresh (he ▸ ⟨r', hr', [vpnSlot va 1, vpnSlot va 2], Nat.le_refl 2, hold⟩)
        rw [entryAt_some hnew, entryAt_some hold, linkPage_apply, if_neg (fun hc => hqt hc.1), if_neg hqp]
    | none =>
        rw [entryAt_none hold]
        cases hnew : leafTable (linkPage m t i p) r' va with
        | none => exact entryAt_none hnew
        | some q =>
            -- a level-0 table that was not there is the new page, and it is empty
            rcases (hiff q).mp hnew with ⟨_, _, rfl⟩ | hw
            · have hqt : q ≠ t := fun he => hfresh ⟨r, hr, π, Nat.le_of_lt hlen, he ▸ ht⟩
              rw [entryAt_some hnew, linkPage_apply, if_neg (fun hc => hqt hc.1), if_pos rfl]
            · exact absurd (hold.symm.trans hw) (by simp)

end

/-! ## New roots -/

theorem shape_empty (m : Mem) : Shape m ∅ where
  disjoint := fun _ hr => absurd hr (Set.notMem_empty _)
  links := by
    rintro t ⟨r, hr, _⟩
    exact absurd hr (Set.notMem_empty r)

theorem tables_empty (m : Mem) : tables m ∅ = ∅ := by
  rw [Set.eq_empty_iff_forall_notMem]
  rintro t ⟨r, hr, _⟩
  exact Set.notMem_empty r hr

/-- **A fresh zeroed page can become a root**: it maps nothing, and the other roots do not notice. -/
theorem plantRoot (h : Shape m roots) (m' : Mem) {p : Word} (hfresh : p ∉ tables m roots) (hzero : ∀ i, m' p i = 0#64)
    (hsame : ∀ q, q ≠ p → ∀ i, m' q i = m q i) :
    Shape m' (insert p roots) ∧ tables m' (insert p roots) = insert p (tables m roots) ∧
      (∀ va, entryAt m' p va = 0#64) ∧ ∀ r ∈ roots, ∀ va, entryAt m' r va = entryAt m r va := by
  have hempty : ∀ i, child m' p i = none := fun i => child_eq_none.mpr (by rw [hzero, pteValid_zero])
  have hne : ∀ q ∈ tables m roots, q ≠ p := fun q hq he => hfresh (he ▸ hq)
  have hchild : ∀ q ∈ linkTables m roots, ∀ i, child m' q i = child m q i :=
    fun q hq i => child_congr (hsame q (hne q (Inner.inUse hq)) i)
  have hpl : Planted (child m) (child m') roots 2 p := ⟨hfresh, hempty, hchild⟩
  refine ⟨⟨hpl.disjoint h.disjoint, ?_⟩, hpl.inUse, ?_, ?_⟩
  · intro q hq i hv
    rcases hpl.inner hq with rfl | hold
    · rw [hzero, pteValid_zero] at hv
      exact absurd hv (by simp)
    · rw [hsame q (hne q (Inner.inUse hold)) i] at hv ⊢
      exact h.links q hold i hv
  · intro va
    cases ht : leafTable m' p va with
    | none => exact entryAt_none ht
    | some t => exact absurd (walk_of_empty hempty ht).1 (by simp)
  · intro r hr va
    have hleaf : leafTable m' r va = leafTable m r va := walk_congr hchild hr _ (Nat.le_refl 2)
    cases ht : leafTable m r va with
    | none => rw [entryAt_none ht, entryAt_none (hleaf.trans ht)]
    | some t =>
        have hin : t ∈ tables m roots := ⟨r, hr, [vpnSlot va 1, vpnSlot va 2], Nat.le_refl 2, ht⟩
        rw [entryAt_some ht, entryAt_some (hleaf.trans ht), hsame t (hne t hin)]

/-! ## Writes at level 0 -/

/-- **A level-0 write is local**: one page of one root. -/
theorem leafWrite (h : Shape m roots) (hr : r ∈ roots) {t : Word} (ht : leafTable m r va = some t) (pte : Pte) :
    Shape (m.setEntry t (vpnSlot va 0) pte) roots ∧
      tables (m.setEntry t (vpnSlot va 0) pte) roots = tables m roots ∧
      ∀ r' ∈ roots, ∀ a, entryAt (m.setEntry t (vpnSlot va 0) pte) r' a =
        if r' = r ∧ vpn a = vpn va then pte else entryAt m r' a := by
  have hnl := leafTable_not_link h hr ht
  have hsame : ∀ q ∈ linkTables m roots, ∀ i, m.setEntry t (vpnSlot va 0) pte q i = m q i :=
    fun q hq i => Mem.setEntry_of_ne pte (fun hc => hnl (hc.1 ▸ hq))
  have hchild : ∀ q ∈ linkTables m roots, ∀ i, child (m.setEntry t (vpnSlot va 0) pte) q i = child m q i :=
    fun q hq i => child_congr (hsame q hq i)
  obtain ⟨hshape, htab⟩ := shape_frame h _ hsame
  refine ⟨hshape, htab, ?_⟩
  intro r' hr' a
  have hleaf : leafTable (m.setEntry t (vpnSlot va 0) pte) r' a = leafTable m r' a :=
    walk_congr hchild hr' _ (Nat.le_refl 2)
  cases hold : leafTable m r' a with
  | none =>
      have hne : ¬ (r' = r ∧ vpn a = vpn va) := by
        rintro ⟨rfl, hvpn⟩
        obtain ⟨h2, h1, _⟩ := vpn_eq_iff.mp hvpn
        rw [leafTable, h1, h2, ← leafTable, ht] at hold
        exact absurd hold (by simp)
      rw [if_neg hne, entryAt_none hold, entryAt_none (hleaf.trans hold)]
  | some q =>
      have hiff : q = t ∧ vpnSlot a 0 = vpnSlot va 0 ↔ r' = r ∧ vpn a = vpn va := by
        constructor
        · -- two addresses that end at one table took the same slots on the way
          rintro ⟨rfl, h0⟩
          obtain ⟨rfl, hπ⟩ := h.disjoint r' hr' r hr [vpnSlot a 1, vpnSlot a 2] [vpnSlot va 1, vpnSlot va 2]
            (Nat.le_refl 2) (Nat.le_refl 2) q hold ht
          obtain ⟨h1, hrest⟩ := List.cons.inj hπ
          obtain ⟨h2, _⟩ := List.cons.inj hrest
          exact ⟨rfl, vpn_eq_iff.mpr ⟨h2, h1, h0⟩⟩
        · rintro ⟨rfl, hvpn⟩
          obtain ⟨h2, h1, h0⟩ := vpn_eq_iff.mp hvpn
          rw [leafTable, h1, h2, ← leafTable, ht] at hold
          exact ⟨(Option.some.inj hold).symm, h0⟩
      rw [entryAt_some (hleaf.trans hold), entryAt_some hold, Mem.setEntry_apply]
      by_cases hc : q = t ∧ vpnSlot a 0 = vpnSlot va 0
      · rw [if_pos hc, if_pos (hiff.mp hc)]
      · rw [if_neg hc, if_neg (hiff.not.mp hc)]

/-! ## The public walkers -/

/-- The reading loops step down through links. -/
theorem unmapWalk_eq (h : Shape m roots) (hr : r ∈ roots) (va : Word) :
    unmapWalk m va 2 r = leafTable m r va := by
  have hstep : ∀ (π : List (Fin 512)) (level : Nat) (t : Word), π.length < 2 →
      walk (child m) r π = some t → unmapWalk m va (level + 1) t =
        (child m t (vpnSlot va (level + 1))).bind (unmapWalk m va level) := by
    intro π level t hlen ht
    cases hv : pteValid (m t (vpnSlot va (level + 1))) with
    | false => rw [child_eq_none.mpr hv]; simp [unmapWalk, hv]
    | true =>
        obtain ⟨hleaf, hchild⟩ := h.link ⟨r, hr, π, hlen, ht⟩ hv
        rw [hchild]; simp [unmapWalk, hv, hleaf]
  rw [hstep [] 1 r (by decide) rfl]
  show _ = ((some r).bind (child m · (vpnSlot va 2))).bind (child m · (vpnSlot va 1))
  rw [Option.bind_some]
  cases hc : child m r (vpnSlot va 2) with
  | none => rfl
  | some t =>
      rw [Option.bind_some, Option.bind_some, hstep [vpnSlot va 2] 0 t (Nat.le_refl 2) hc]
      cases child m t (vpnSlot va 1) with
      | none => rfl
      | some t' => rfl

/-- **`virt_to_phys`** reads the level-0 entry. -/
theorem virtToPhys_spec (h : Shape m roots) (hr : r ∈ roots) (hnull : r ≠ 0#64) (va : Word) :
    virtToPhys m r va = if pteValid (entryAt m r va) && pteLeaf (entryAt m r va) then
      pteToPa (entryAt m r va) + pageOffset va else 0#64 := by
  have hstep : ∀ (π : List (Fin 512)) (level : Nat) (t : Word), π.length < 2 →
      walk (child m) r π = some t → virtToPhysLoop m va (level + 1) t =
        (child m t (vpnSlot va level)).elim 0#64 (virtToPhysLoop m va level) := by
    intro π level t hlen ht
    cases hv : pteValid (m t (vpnSlot va level)) with
    | false => rw [child_eq_none.mpr hv]; simp [virtToPhysLoop, hv]
    | true =>
        obtain ⟨hleaf, hchild⟩ := h.link ⟨r, hr, π, hlen, ht⟩ hv
        rw [hchild]; simp [virtToPhysLoop, hv, hleaf]
  have hleafTable : leafTable m r va =
      (child m r (vpnSlot va 2)).bind (child m · (vpnSlot va 1)) := rfl
  rw [virtToPhys, if_neg hnull, hstep [] 2 r (by decide) rfl]
  cases hc₂ : child m r (vpnSlot va 2) with
  | none =>
      rw [hc₂] at hleafTable
      rw [entryAt_none hleafTable, pteValid_zero]; rfl
  | some t₂ =>
      show virtToPhysLoop m va 2 t₂ = _
      rw [hc₂, Option.bind_some] at hleafTable
      rw [hstep [vpnSlot va 2] 1 t₂ (Nat.le_refl 2) hc₂]
      cases hc₁ : child m t₂ (vpnSlot va 1) with
      | none =>
          rw [hc₁] at hleafTable
          rw [entryAt_none hleafTable, pteValid_zero]; rfl
      | some t₁ =>
          rw [hc₁] at hleafTable
          rw [entryAt_some hleafTable]
          cases hv : pteValid (m t₁ (vpnSlot va 0)) with
          | false => simp [virtToPhysLoop, hv]
          | true => simp [virtToPhysLoop, hv]

/-- Equal entries, equal translation. -/
theorem virtToPhys_congr (h : Shape m roots) (h' : Shape m' roots) (hr : r ∈ roots) {a : Word}
    (he : entryAt m' r a = entryAt m r a) : virtToPhys m' r a = virtToPhys m r a := by
  by_cases hnull : r = 0#64
  · rw [virtToPhys, virtToPhys, if_pos hnull, if_pos hnull]
  · rw [virtToPhys_spec h hr hnull, virtToPhys_spec h' hr hnull, he]

/-- **`unmap_page`.** It returns `true` iff `va` is aligned and its entry is a leaf; then that entry is
    cleared and nothing else changes. -/
theorem unmapPage_spec (h : Shape m roots) (hr : r ∈ roots) (hnull : r ≠ 0#64) (va : Word) :
    (unmapPage m r va = (false, m) ∧
      ¬ (isPageAligned va = true ∧ pteValid (entryAt m r va) = true ∧ pteLeaf (entryAt m r va) = true)) ∨
    ∃ m', unmapPage m r va = (true, m') ∧ isPageAligned va = true ∧ pteValid (entryAt m r va) = true ∧
      pteLeaf (entryAt m r va) = true ∧ Shape m' roots ∧ tables m' roots = tables m roots ∧
      ∀ r' ∈ roots, ∀ a, entryAt m' r' a = if r' = r ∧ vpn a = vpn va then 0#64 else entryAt m r' a := by
  cases hal : isPageAligned va with
  | false => exact Or.inl ⟨by simp [unmapPage, hal], fun hc => absurd hc.1 (by decide)⟩
  | true =>
      have hwalk := unmapWalk_eq h hr va
      cases ht : leafTable m r va with
      | none =>
          refine Or.inl ⟨by simp [unmapPage, hal, hnull, hwalk, ht], fun hc => ?_⟩
          rw [entryAt_none ht, pteValid_zero] at hc
          exact absurd hc.2.1 (by decide)
      | some t =>
          rw [entryAt_some ht]
          by_cases hv : pteValid (m t (vpnSlot va 0)) = true ∧ pteLeaf (m t (vpnSlot va 0)) = true
          · obtain ⟨hshape, htab, hent⟩ := leafWrite h hr ht 0#64
            refine Or.inr ⟨_, ?_, rfl, hv.1, hv.2, hshape, htab, hent⟩
            simp [unmapPage, hal, hnull, hwalk, ht, hv.1, hv.2]
          · refine Or.inl ⟨?_, fun hc => hv hc.2⟩
            have hor : (!pteValid (m t (vpnSlot va 0)) || !pteLeaf (m t (vpnSlot va 0))) = true := by
              cases hvv : pteValid (m t (vpnSlot va 0)) with
              | false => rfl
              | true =>
                  cases hll : pteLeaf (m t (vpnSlot va 0)) with
                  | false => rfl
                  | true => exact absurd ⟨hvv, hll⟩ hv
            simp only [unmapPage, hal, hnull, hwalk, ht, hor, if_true]
            simp

/-- `unmap_page` leaves the tables as they are. -/
theorem unmapPage_shape (h : Shape m roots) (hr : r ∈ roots) (va : Word) :
    Shape (unmapPage m r va).2 roots ∧ tables (unmapPage m r va).2 roots = tables m roots := by
  by_cases hnull : r = 0#64
  · have hrej : unmapPage m r va = (false, m) := by simp [unmapPage, hnull]
    rw [hrej]
    exact ⟨h, rfl⟩
  · rcases unmapPage_spec h hr hnull va with ⟨hrej, _⟩ | ⟨m', hacc, _, _, _, hshape, htab, _⟩
    · rw [hrej]
      exact ⟨h, rfl⟩
    · rw [hacc]
      exact ⟨hshape, htab⟩

end Arch
end RiscCore
