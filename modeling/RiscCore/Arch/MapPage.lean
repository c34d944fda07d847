import Mathlib.Data.Finset.Insert
import RiscCore.Arch.TableForest
import RiscCore.Lib.Supply

/-!
# `Arch.MapPage` — what `map_page` needs, takes and leaves behind

`missing` counts the intermediate tables that a page's walk lacks. The creating walk makes exactly that many
calls of `alloc_page` if they are all granted, and stops at the first null otherwise; what it built so far
stays. The lemmas on the walk assume nothing of the allocator beyond the answers it gives in this one call,
so they serve any contract: `MapOutcome` lists how a call of `map_page` can end under `AllocOk`, and
`mapPage_spec` is what its callers use.
-/

namespace RiscCore
namespace Arch

open Mm Forest Supply

variable {α : Type} {allocPage : AllocPage α} {I : Set Word → α → Prop}

/-- Pages that can become tables. -/
abbrev FreshPages (U : Set Word) (ps : List Word) : Prop := Fresh (fun p => isPageAligned p = true) U ps

/-- The intermediate tables missing on the walk for `va` from `t` at `level` down. -/
def missing (m : Mem) (va : Word) : Nat → Word → Nat
  | 0, _ => 0
  | level + 1, t => (child m t (vpnSlot va (level + 1))).elim (level + 1) (missing m va level)

/-- The intermediate tables that walk passes, by their paths. -/
def stops (va : Word) : Nat → List (Fin 512) → Finset (List (Fin 512))
  | 0, _ => ∅
  | level + 1, π => insert (vpnSlot va (level + 1) :: π) (stops va level (vpnSlot va (level + 1) :: π))

/-- The path of the table where it ends. -/
def bottom (va : Word) : Nat → List (Fin 512) → List (Fin 512)
  | 0, π => π
  | level + 1, π => bottom va level (vpnSlot va (level + 1) :: π)

variable {m m' m'' : Mem} {roots : Set Word} {r va pa flags : Word}

theorem missing_none {level : Nat} {t : Word} (h : child m t (vpnSlot va (level + 1)) = none) :
    missing m va (level + 1) t = level + 1 := by
  rw [missing, h, Option.elim_none]

theorem missing_some {level : Nat} {t t' : Word} (h : child m t (vpnSlot va (level + 1)) = some t') :
    missing m va (level + 1) t = missing m va level t' := by
  rw [missing, h, Option.elim_some]

/-- Below an empty table everything is missing. -/
theorem missing_empty {t : Word} (h : ∀ i, child m t i = none) (va : Word) : ∀ level, missing m va level t = level
  | 0 => rfl
  | _ + 1 => missing_none (h _)

theorem missing_le (m : Mem) (va : Word) : ∀ (level : Nat) (t : Word), missing m va level t ≤ level := by
  intro level
  induction level with
  | zero => exact fun _ => Nat.le_refl 0
  | succ level ih =>
      intro t
      cases hc : child m t (vpnSlot va (level + 1)) with
      | none => rw [missing_none hc]
      | some t' =>
          rw [missing_some hc]
          exact Nat.le_succ_of_le (ih t')

/-- Where the level-0 table exists, nothing is missing. -/
theorem missing_eq_zero {t : Word} (h : leafTable m r va = some t) : missing m va 2 r = 0 := by
  obtain ⟨t₁, h₁, hc₀⟩ := Option.bind_eq_some_iff.mp h
  have hc₁ : child m r (vpnSlot va 2) = some t₁ := h₁
  rw [missing_some hc₁, missing_some hc₀]
  rfl

/-! ## Growing the forest -/

/-- `m'` extends `m` by the tables `ps`; under root `r` the paths `new` lead to tables now. -/
structure Grown (roots : Set Word) (r : Word) (m m' : Mem) (ps : List Word) (new : Finset (List (Fin 512))) :
    Prop where
  forest : Extends roots m m'
  tables_eq : tables m' roots = tables m roots ∪ {p | p ∈ ps}
  built : ∀ ρ : List (Fin 512), ρ.length ≤ 2 →
    ((walk (child m') r ρ).isSome ↔ (walk (child m) r ρ).isSome ∨ ρ ∈ new)
  unchanged : ps = [] → m' = m

variable {ps qs : List Word} {new new' : Finset (List (Fin 512))}

theorem Grown.refl (h : Shape m roots) (r : Word) : Grown roots r m m [] ∅ where
  forest := Extends.refl h
  tables_eq := (union_nil _).symm
  built := fun _ _ => by simp
  unchanged := fun _ => rfl

theorem Grown.trans (h : Grown roots r m m' ps new) (h' : Grown roots r m' m'' qs new') :
    Grown roots r m m'' (ps ++ qs) (new ∪ new') where
  forest := h.forest.trans h'.forest
  tables_eq := by rw [h'.tables_eq, h.tables_eq, union_append]
  built := fun ρ hlen => by rw [h'.built ρ hlen, h.built ρ hlen, Finset.mem_union, or_assoc]
  unchanged := fun hnil => by
    obtain ⟨hps, hqs⟩ := List.append_eq_nil_iff.mp hnil
    rw [h'.unchanged hqs, h.unchanged hps]

/-- A path that leads to a table already may be listed as well. -/
theorem Grown.insert (h : Grown roots r m m' ps new) {π : List (Fin 512)} (hπ : (walk (child m) r π).isSome) :
    Grown roots r m m' ps (insert π new) where
  forest := h.forest
  tables_eq := h.tables_eq
  built := fun ρ hlen => by
    rw [h.built ρ hlen, Finset.mem_insert]
    constructor
    · exact fun hor => hor.imp id Or.inr
    · rintro (hold | rfl | hnew)
      · exact Or.inl hold
      · exact Or.inl hπ
      · exact Or.inr hnew
  unchanged := h.unchanged

section
variable {t p : Word} {π : List (Fin 512)} {i : Fin 512}

/-- **A fresh page in an empty slot**: one path more, and the new table leads nowhere yet. -/
theorem linkPage_grown (h : Shape m roots) (hr : r ∈ roots) (hlen : π.length < 2)
    (ht : walk (child m) r π = some t) (hc : child m t i = none) (hp : isPageAligned p = true)
    (hfresh : p ∉ tables m roots) :
    Grown roots r m (linkPage m t i p) [p] {i :: π} ∧ walk (child (linkPage m t i p)) r (i :: π) = some p ∧
      ∀ j, linkPage m t i p p j = 0#64 := by
  have hfree := child_eq_none.mp hc
  obtain ⟨hext, htab⟩ := linkPage_extends h hr hlen ht hfree hp hfresh
  have hl := linkPage_linked hr hlen ht hfree hp hfresh
  have hpath : walk (child (linkPage m t i p)) r (i :: π) = some p :=
    (hl.walk_iff h.disjoint hr (i :: π) hlen p).mpr (Or.inl ⟨rfl, rfl, rfl⟩)
  refine ⟨⟨hext, ?_, fun ρ hρ => ?_, fun hnil => absurd hnil (List.cons_ne_nil p [])⟩, hpath, fun j => ?_⟩
  · rw [htab, ← union_cons, union_nil]
  · rw [Finset.mem_singleton, Option.isSome_iff_exists, Option.isSome_iff_exists]
    constructor
    · rintro ⟨q, hq⟩
      rcases (hl.walk_iff h.disjoint hr ρ hρ q).mp hq with ⟨_, rfl, _⟩ | hold
      · exact Or.inr rfl
      · exact Or.inl ⟨q, hold⟩
    · rintro (⟨q, hold⟩ | rfl)
      · exact ⟨q, (hl.walk_iff h.disjoint hr ρ hρ q).mpr (Or.inr hold)⟩
      · exact ⟨p, hpath⟩
  · have hne : p ≠ t := fun he => hfresh (he ▸ ⟨r, hr, π, Nat.le_of_lt hlen, ht⟩)
    rw [linkPage_apply, if_neg (fun hc => hne hc.1), if_pos rfl]

/-- The same with the first of the pages that the allocator hands out; the others stay fresh. -/
theorem linkPage_granted (h : Shape m roots) (hr : r ∈ roots) (hlen : π.length < 2)
    (ht : walk (child m) r π = some t) (hc : child m t i = none) {ps : List Word}
    (hfresh : FreshPages (tables m roots) (p :: ps)) :
    Grown roots r m (linkPage m t i p) [p] {i :: π} ∧ walk (child (linkPage m t i p)) r (i :: π) = some p ∧
      (∀ j, linkPage m t i p p j = 0#64) ∧ (∀ j, child (linkPage m t i p) p j = none) ∧
      FreshPages (tables (linkPage m t i p) roots) ps := by
  have hp := (fresh_cons.mp hfresh).1
  obtain ⟨hlink, hp', hzero⟩ := linkPage_grown h hr hlen ht hc hp.1 hp.2
  have hfresh' := (fresh_append [p] hfresh).2
  rw [← hlink.tables_eq] at hfresh'
  exact ⟨hlink, hp', hzero, fun j => child_eq_none.mpr (by rw [hzero, pteValid_zero]), hfresh'⟩

/-! ## One level of the creating walk -/

variable {w : World α} {a' : α} {level : Nat}

/-- A link is followed. -/
theorem mapWalk_linked (h : Shape w.mem roots) (hr : r ∈ roots) (hlen : π.length < 2)
    (ht : walk (child w.mem) r π = some t) {t' : Word} (hc : child w.mem t (vpnSlot va (level + 1)) = some t') :
    mapWalk allocPage va (level + 1) t w = mapWalk allocPage va level t' w := by
  have hv : pteValid (w.mem t (vpnSlot va (level + 1))) = true := by
    apply Bool.eq_true_of_not_eq_false
    intro hf
    rw [child_eq_none.mpr hf] at hc
    exact absurd hc (by simp)
  obtain ⟨hleaf, hnext⟩ := h.link ⟨r, hr, π, hlen, ht⟩ hv
  rw [hnext] at hc
  obtain rfl := Option.some.inj hc
  simp [mapWalk, ensureTable, hv, hleaf]

/-- A missing table is allocated, zeroed and linked. -/
theorem mapWalk_grows (hc : child w.mem t (vpnSlot va (level + 1)) = none)
    (halloc : allocPage w.src = some (p, a')) (hp0 : p ≠ 0#64) (hp : isPageAligned p = true) :
    mapWalk allocPage va (level + 1) t w =
      mapWalk allocPage va level p ⟨linkPage w.mem t (vpnSlot va (level + 1)) p, a'⟩ := by
  have hv := child_eq_none.mp hc
  have hpte : linkPage w.mem t (vpnSlot va (level + 1)) p t (vpnSlot va (level + 1)) = makePte p pteV := by
    rw [linkPage_apply, if_pos ⟨rfl, rfl⟩]
  have hens : ensureTable allocPage w t (vpnSlot va (level + 1)) =
      some (true, ⟨linkPage w.mem t (vpnSlot va (level + 1)) p, a'⟩) := by
    simp [ensureTable, hv, allocPageTable, halloc, hp0, linkPage]
  have hnext : pteToTable (makePte p pteV) = p := pteToPa_makePte hp (by decide)
  simp [mapWalk, hens, hpte, pteLeaf_link, hnext]

/-- A null page ends the walk. -/
theorem mapWalk_refused (hc : child w.mem t (vpnSlot va (level + 1)) = none)
    (halloc : allocPage w.src = some (0#64, a')) :
    mapWalk allocPage va (level + 1) t w = some (none, ⟨w.mem, a'⟩) := by
  have hv := child_eq_none.mp hc
  simp [mapWalk, ensureTable, hv, allocPageTable, halloc]

end

/-! ## The whole walk -/

section
variable {a' a'' : α}

/-- **All missing tables are granted**: the walk builds them and ends at the level-0 table. -/
theorem mapWalk_granted (hr : r ∈ roots) (va : Word) : ∀ (level : Nat) {w : World α} {t : Word}
    {π : List (Fin 512)} {ps : List Word}, Shape w.mem roots → π.length + level ≤ 2 →
    walk (child w.mem) r π = some t → Grants allocPage 0#64 w.src ps a' → FreshPages (tables w.mem roots) ps →
    ps.length = missing w.mem va level t →
    ∃ t' m', mapWalk allocPage va level t w = some (some t', ⟨m', a'⟩) ∧
      walk (child m') r (bottom va level π) = some t' ∧ Grown roots r w.mem m' ps (stops va level π) := by
  intro level
  -- one level is one link that is followed, or one page that is linked
  induction level with
  | zero =>
      intro w t π ps h _ ht hg _ hlen
      obtain rfl : ps = [] := List.length_eq_zero_iff.mp hlen
      cases hg
      exact ⟨t, w.mem, rfl, ht, Grown.refl h r⟩
  | succ level ih =>
      intro w t π ps h hdepth ht hg hfresh hlen
      have hlt : π.length < 2 := by omega
      have hdepth' : (vpnSlot va (level + 1) :: π).length + level ≤ 2 := by
        rw [List.length_cons]; omega
      cases hc : child w.mem t (vpnSlot va (level + 1)) with
      | some t₁ =>
          have ht₁ : walk (child w.mem) r (vpnSlot va (level + 1) :: π) = some t₁ := by
            rw [walk_cons, ht, Option.bind_some, hc]
          rw [missing_some hc] at hlen
          obtain ⟨t', m', hwalk, ht', hgrown⟩ := ih h hdepth' ht₁ hg hfresh hlen
          refine ⟨t', m', (mapWalk_linked h hr hlt ht hc).trans hwalk, ht', hgrown.insert ?_⟩
          rw [ht₁]; rfl
      | none =>
          rw [missing_none hc] at hlen
          cases hg with
          | nil => exact absurd hlen (Nat.succ_ne_zero level).symm
          | @cons _ a₁ _ p ps halloc hp0 hrest =>
              obtain ⟨hlink, hp', _, hempty, hfresh'⟩ := linkPage_granted h hr hlt ht hc hfresh
              have hpal := (fresh_cons.mp hfresh).1.1
              obtain ⟨t', m', hwalk, ht', hgrown⟩ := ih (w := ⟨linkPage w.mem t (vpnSlot va (level + 1)) p, a₁⟩)
                hlink.forest.shape hdepth' hp' hrest hfresh' (by rw [missing_empty hempty]; exact Nat.succ.inj hlen)
              exact ⟨t', m', (mapWalk_grows hc halloc hp0 hpal).trans hwalk, ht', hlink.trans hgrown⟩

/-- **The allocator refuses one of them**: what was built so far stays, the last table of it empty, and that
    much less is missing. -/
theorem mapWalk_starved (hr : r ∈ roots) (va : Word) (hnull : allocPage a' = some (0#64, a'')) :
    ∀ (level : Nat) {w : World α} {t : Word} {π : List (Fin 512)} {ps : List Word}, Shape w.mem roots →
    π.length + level ≤ 2 → walk (child w.mem) r π = some t → Grants allocPage 0#64 w.src ps a' →
    FreshPages (tables w.mem roots) ps → ps.length < missing w.mem va level t →
    ∃ m' new, mapWalk allocPage va level t w = some (none, ⟨m', a''⟩) ∧ Grown roots r w.mem m' ps new ∧
      missing m' va level t + ps.length = missing w.mem va level t ∧
      ∀ p, ps.getLast? = some p → ∀ i, m' p i = 0#64 := by
  intro level
  induction level with
  | zero =>
      intro w t π ps _ _ _ _ _ hlt
      exact absurd hlt (Nat.not_lt_zero _)
  | succ level ih =>
      intro w t π ps h hdepth ht hg hfresh hless
      have hlt : π.length < 2 := by omega
      have hdepth' : (vpnSlot va (level + 1) :: π).length + level ≤ 2 := by
        rw [List.length_cons]; omega
      have hslot : (vpnSlot va (level + 1) :: π).length ≤ 2 := Nat.le_trans (Nat.le_add_right _ level) hdepth'
      cases hc : child w.mem t (vpnSlot va (level + 1)) with
      | some t₁ =>
          have ht₁ : walk (child w.mem) r (vpnSlot va (level + 1) :: π) = some t₁ := by
            rw [walk_cons, ht, Option.bind_some, hc]
          rw [missing_some hc] at hless ⊢
          obtain ⟨m', new, hwalk, hgrown, hcount, hlast⟩ := ih h hdepth' ht₁ hg hfresh hless
          refine ⟨m', new, (mapWalk_linked h hr hlt ht hc).trans hwalk, hgrown, ?_, hlast⟩
          rw [missing_some (hgrown.forest.slot hr hslot ht ht₁)]
          exact hcount
      | none =>
          cases hg with
          | nil =>
              refine ⟨w.mem, ∅, mapWalk_refused hc hnull, Grown.refl h r, rfl, fun p hp => ?_⟩
              exact absurd hp (by simp)
          | @cons _ a₁ _ p ps halloc hp0 hrest =>
              obtain ⟨hlink, hp', hzero, hempty, hfresh'⟩ := linkPage_granted h hr hlt ht hc hfresh
              have hpal := (fresh_cons.mp hfresh).1.1
              have ht' := hlink.forest.paths r hr π t (Nat.le_of_lt hlt) ht
              rw [missing_none hc] at hless ⊢
              have hless' : ps.length < missing (linkPage w.mem t (vpnSlot va (level + 1)) p) va level p := by
                rw [missing_empty hempty]
                exact Nat.lt_of_succ_lt_succ hless
              obtain ⟨m', new, hwalk, hgrown, hcount, hlast⟩ :=
                ih (w := ⟨linkPage w.mem t (vpnSlot va (level + 1)) p, a₁⟩) hlink.forest.shape hdepth' hp' hrest
                  hfresh' hless'
              refine ⟨m', _, (mapWalk_grows hc halloc hp0 hpal).trans hwalk, hlink.trans hgrown, ?_, ?_⟩
              · rw [missing_empty hempty] at hcount
                rw [missing_some (hgrown.forest.slot hr hslot ht' hp'), List.length_cons]
                omega
              · intro q hq i
                cases ps with
                | nil =>
                    obtain rfl := Option.some.inj hq
                    rw [hgrown.unchanged rfl]
                    exact hzero i
                | cons p₂ ps => exact hlast q hq i

end

/-! ## The call -/

/-- A write at level 0 leaves every path. -/
theorem leafWrite_walk (h : Shape m roots) (hr : r ∈ roots) {t : Word} (ht : leafTable m r va = some t) (pte : Pte)
    (ρ : List (Fin 512)) (hlen : ρ.length ≤ 2) :
    walk (child (m.setEntry t (vpnSlot va 0) pte)) r ρ = walk (child m) r ρ := by
  refine walk_congr (fun q hq i => child_congr (Mem.setEntry_of_ne pte ?_)) hr ρ hlen
  rintro ⟨rfl, _⟩
  exact leafTable_not_link h hr ht hq

/-- `m'` is `m` with `pte` as the entry of `va`, the tables `ps` on its way being new. -/
structure Installed (roots : Set Word) (r va : Word) (pte : Pte) (m m' : Mem) (ps : List Word) : Prop where
  shape : Shape m' roots
  tables_eq : tables m' roots = tables m roots ∪ {p | p ∈ ps}
  built : ∀ ρ : List (Fin 512), ρ.length ≤ 2 →
    ((walk (child m') r ρ).isSome ↔ (walk (child m) r ρ).isSome ∨ ρ ∈ stops va 2 [])
  entries : ∀ r' ∈ roots, ∀ a, entryAt m' r' a = if r' = r ∧ vpn a = vpn va then pte else entryAt m r' a

section
variable {w : World α} {a' a'' : α}

theorem root_depth : ([] : List (Fin 512)).length + 2 ≤ 2 := Nat.le_refl 2

/-- **`map_page` with everything it needs.** -/
theorem mapPage_granted (h : Shape w.mem roots) (hr : r ∈ roots) (hnull : r ≠ 0#64)
    (hva : isPageAligned va = true) (hpa : isPageAligned pa = true) (hfree : pteValid (entryAt w.mem r va) = false)
    (hg : Grants allocPage 0#64 w.src ps a') (hfresh : FreshPages (tables w.mem roots) ps)
    (hlen : ps.length = missing w.mem va 2 r) (flags : Word) :
    ∃ m', mapPage allocPage w r va pa flags = some (true, ⟨m', a'⟩) ∧
      Installed roots r va (makePte pa (flags ||| pteV)) w.mem m' ps := by
  obtain ⟨t, m₁, hwalk, ht, hgrown⟩ := mapWalk_granted hr va 2 h root_depth rfl hg hfresh hlen
  have hleaf : leafTable m₁ r va = some t := ht
  have hempty : pteValid (m₁ t (vpnSlot va 0)) = false := by
    rw [← entryAt_some hleaf, hgrown.forest.entries r hr va]; exact hfree
  obtain ⟨hshape, htab, hent⟩ := leafWrite hgrown.forest.shape hr hleaf (makePte pa (flags ||| pteV))
  refine ⟨_, ?_, hshape, htab.trans hgrown.tables_eq, fun ρ hρ => ?_, fun r' hr' a => ?_⟩
  · rw [mapPage, if_neg hnull, hva, hpa, hwalk]
    simp [hempty]
  · rw [leafWrite_walk hgrown.forest.shape hr hleaf _ ρ hρ]
    exact hgrown.built ρ hρ
  · rw [hent r' hr' a, hgrown.forest.entries r' hr' a]

/-- **`map_page` on a refusal.** -/
theorem mapPage_starved (h : Shape w.mem roots) (hr : r ∈ roots) (hnull : r ≠ 0#64)
    (hva : isPageAligned va = true) (hpa : isPageAligned pa = true) (hg : Grants allocPage 0#64 w.src ps a')
    (hfresh : FreshPages (tables w.mem roots) ps) (hlt : ps.length < missing w.mem va 2 r)
    (hrefused : allocPage a' = some (0#64, a'')) (flags : Word) :
    ∃ m' new, mapPage allocPage w r va pa flags = some (false, ⟨m', a''⟩) ∧ Grown roots r w.mem m' ps new ∧
      missing m' va 2 r + ps.length = missing w.mem va 2 r ∧ ∀ p, ps.getLast? = some p → ∀ i, m' p i = 0#64 := by
  obtain ⟨m', new, hwalk, hgrown, hcount, hlast⟩ :=
    mapWalk_starved hr va hrefused 2 h root_depth rfl hg hfresh hlt
  refine ⟨m', new, ?_, hgrown, hcount, hlast⟩
  rw [mapPage, if_neg hnull, hva, hpa, hwalk]
  rfl

/-- **`map_page` on a mapped page.** -/
theorem mapPage_occupied (h : Shape w.mem roots) (hr : r ∈ roots)
    (hv : pteValid (entryAt w.mem r va) = true) (pa flags : Word) :
    mapPage allocPage w r va pa flags = some (false, w) := by
  cases ht : leafTable w.mem r va with
  | none =>
      rw [entryAt_none ht, pteValid_zero] at hv
      exact absurd hv (by simp)
  | some t =>
      -- nothing is missing, so the walk calls nobody
      have hnone : ([] : List Word).length = missing w.mem va 2 r := (missing_eq_zero ht).symm
      obtain ⟨t', m', hwalk, ht', hgrown⟩ :=
        mapWalk_granted hr va 2 h root_depth rfl (Grants.nil w.src) fresh_nil hnone
      obtain rfl := hgrown.unchanged rfl
      rw [entryAt_some ht'] at hv
      unfold mapPage
      split
      · rfl
      split
      · rfl
      rw [hwalk]
      simp [hv]

end

/-- **How a call of `map_page` ends.** -/
inductive MapOutcome (allocPage : AllocPage α) (I : Set Word → α → Prop) (roots : Set Word) (r va pa flags : Word)
    (w : World α) : Bool → World α → Prop where
  | rejected : isPageAligned va = false ∨ isPageAligned pa = false ∨ pteValid (entryAt w.mem r va) = true →
      MapOutcome allocPage I roots r va pa flags w false w
  | starved {ps : List Word} {a' : α} {w' : World α} {new : Finset (List (Fin 512))} :
      Grants allocPage 0#64 w.src ps a' → FreshPages (tables w.mem roots) ps → ps.length < missing w.mem va 2 r →
      allocPage a' = some (0#64, w'.src) → Grown roots r w.mem w'.mem ps new →
      missing w'.mem va 2 r + ps.length = missing w.mem va 2 r →
      (∀ p, ps.getLast? = some p → ∀ i, w'.mem p i = 0#64) → I (tables w'.mem roots) w'.src →
      MapOutcome allocPage I roots r va pa flags w false w'
  | mapped {ps : List Word} {w' : World α} :
      isPageAligned va = true → isPageAligned pa = true → pteValid (entryAt w.mem r va) = false →
      Grants allocPage 0#64 w.src ps w'.src → ps.length = missing w.mem va 2 r →
      Installed roots r va (makePte pa (flags ||| pteV)) w.mem w'.mem ps → I (tables w'.mem roots) w'.src →
      MapOutcome allocPage I roots r va pa flags w true w'

theorem mapPage_outcome (hok : AllocOk allocPage I) {w : World α} (h : Shape w.mem roots)
    (hI : I (tables w.mem roots) w.src) (hr : r ∈ roots) (hnull : r ≠ 0#64) (va pa flags : Word) :
    ∃ ok w', mapPage allocPage w r va pa flags = some (ok, w') ∧
      MapOutcome allocPage I roots r va pa flags w ok w' := by
  cases hva : isPageAligned va with
  | false => exact ⟨false, w, by simp [mapPage, hva], MapOutcome.rejected (Or.inl hva)⟩
  | true =>
      cases hpa : isPageAligned pa with
      | false => exact ⟨false, w, by simp [mapPage, hpa], MapOutcome.rejected (Or.inr (Or.inl hpa))⟩
      | true =>
          cases hv : pteValid (entryAt w.mem r va) with
          | true =>
              exact ⟨false, w, mapPage_occupied h hr hv pa flags, MapOutcome.rejected (Or.inr (Or.inr hv))⟩
          | false =>
              obtain ⟨ps, a', hg, hfresh, hend⟩ :=
                grants_or_null (fun p => isPageAligned p = true) hok.call (missing w.mem va 2 r) hI
              rcases hend with ⟨hlen, hI'⟩ | ⟨hlt, a'', hrefused, hI'⟩
              · obtain ⟨m', hmap, hinst⟩ := mapPage_granted h hr hnull hva hpa hv hg hfresh hlen flags
                rw [← hinst.tables_eq] at hI'
                exact ⟨true, ⟨m', a'⟩, hmap, MapOutcome.mapped hva hpa hv hg hlen hinst hI'⟩
              · obtain ⟨m', new, hmap, hgrown, hcount, hlast⟩ :=
                  mapPage_starved h hr hnull hva hpa hg hfresh hlt hrefused flags
                rw [← hgrown.tables_eq] at hI'
                exact ⟨false, ⟨m', a''⟩, hmap,
                  MapOutcome.starved hg hfresh hlt hrefused hgrown hcount hlast hI'⟩

/-- **`map_page`.** It never faults; on `false` no level-0 entry of any root changes, on `true` the entry of
    `va` was empty and now holds `pa` and the flags, and no other entry changes. -/
theorem mapPage_spec (hok : AllocOk allocPage I) {w : World α} (h : Shape w.mem roots)
    (hI : I (tables w.mem roots) w.src) (hr : r ∈ roots) (va pa flags : Word) :
    ∃ ok w', mapPage allocPage w r va pa flags = some (ok, w') ∧ Shape w'.mem roots ∧
      I (tables w'.mem roots) w'.src ∧
      (ok = false → ∀ r' ∈ roots, ∀ a, entryAt w'.mem r' a = entryAt w.mem r' a) ∧
      (ok = true → r ≠ 0#64 ∧ isPageAligned va = true ∧ isPageAligned pa = true ∧
        pteValid (entryAt w.mem r va) = false ∧
        ∀ r' ∈ roots, ∀ a, entryAt w'.mem r' a =
          if r' = r ∧ vpn a = vpn va then makePte pa (flags ||| pteV) else entryAt w.mem r' a) := by
  by_cases hnull : r = 0#64
  · refine ⟨false, w, by rw [mapPage, if_pos hnull], h, hI, fun _ _ _ _ => rfl, fun hc => ?_⟩
    exact absurd hc (by simp)
  obtain ⟨ok, w', hmap, hout⟩ := mapPage_outcome hok h hI hr hnull va pa flags
  refine ⟨ok, w', hmap, ?_⟩
  cases hout with
  | rejected _ => exact ⟨h, hI, fun _ _ _ _ => rfl, fun hc => absurd hc (by simp)⟩
  | starved _ _ _ _ hgrown _ _ hI' =>
      exact ⟨hgrown.forest.shape, hI', fun _ => hgrown.forest.entries, fun hc => absurd hc (by simp)⟩
  | mapped hva hpa hfree _ _ hinst hI' =>
      exact ⟨hinst.shape, hI', fun hc => absurd hc (by simp), fun _ => ⟨hnull, hva, hpa, hfree, hinst.entries⟩⟩

/-- **When `map_page` succeeds.** -/
theorem mapPage_true_iff (hok : AllocOk allocPage I) {w : World α} (h : Shape w.mem roots)
    (hI : I (tables w.mem roots) w.src) (hr : r ∈ roots) (hnull : r ≠ 0#64) (va pa flags : Word) :
    (∃ w', mapPage allocPage w r va pa flags = some (true, w')) ↔
      isPageAligned va = true ∧ isPageAligned pa = true ∧ pteValid (entryAt w.mem r va) = false ∧
        Supplies allocPage 0#64 (missing w.mem va 2 r) w.src := by
  obtain ⟨ok, w', hmap, hout⟩ := mapPage_outcome hok h hI hr hnull va pa flags
  rw [hmap]
  cases hout with
  | rejected hrej =>
      refine ⟨fun ⟨_, hc⟩ => absurd hc (by simp), ?_⟩
      rintro ⟨hva, hpa, hfree, _⟩
      rw [hva, hpa, hfree] at hrej
      exact absurd hrej (by simp)
  | starved hg _ hlt hrefused =>
      exact ⟨fun ⟨_, hc⟩ => absurd hc (by simp), fun ⟨_, _, _, hsup⟩ => absurd hsup (hg.not_supplies hrefused hlt)⟩
  | mapped hva hpa hfree hg hlen =>
      exact ⟨fun _ => ⟨hva, hpa, hfree, _, w'.src, hlen, hg⟩, fun _ => ⟨w', rfl⟩⟩

end Arch
end RiscCore
