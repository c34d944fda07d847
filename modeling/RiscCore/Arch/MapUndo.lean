import RiscCore.Arch.MapRange

/-!
# `Arch.MapUndo` — taking a mapping back

`map_page` looks at the `V` bit only and stores whatever flags it is given; `virt_to_phys` and `unmap_page` also ask
for one of the permissions, and the decoder reads everything from bit 10 on as page number. So a mapping is visible
and can be undone iff its flags have a permission and add nothing to the page number (`map_page_undo_iff`).
-/

namespace RiscCore
namespace Arch

open Mm Pmm Forest Runs Supply

variable {α : Type} {allocPage : AllocPage α} {I : Set Word → α → Prop} {roots : Set Word}
  {r root va pa flags : Word} {m m' m'' : Mem} {k : Nat}

/-! ## One page -/

theorem pageOffset_aligned (hva : isPageAligned va = true) : pageOffset va = 0#64 := by
  have hal := isPageAligned_iff.mp hva
  apply BitVec.eq_of_toNat_eq
  rw [pageOffset_toNat, hal]
  rfl

/-- The address of a page whose entry `map_page` has just written. -/
theorem virtToPhys_written (h : Shape m roots) (hr : root ∈ roots) (hnull : root ≠ 0#64)
    (he : entryAt m root va = makePte pa (flags ||| pteV)) (hva : isPageAligned va = true)
    (hpa : isPageAligned pa = true) :
    virtToPhys m root va =
      if pteLeaf flags then pa ||| ((flags >>> kPtePpnShift) <<< kPageShift) else 0#64 := by
  have hv : pteV >>> kPtePpnShift = 0#64 := by decide
  rw [virtToPhys_spec h hr hnull, he, pteValid_makePte, pteLeaf_makePte, Bool.true_and, pteToPa_makePte_or hpa,
    pageOffset_aligned hva, BitVec.add_zero, BitVec.ushiftRight_or_distrib, hv, BitVec.or_zero]

/-- An entry that is not valid does not translate. -/
theorem virtToPhys_invalid (h : Shape m roots) (hr : root ∈ roots) {a : Word}
    (hv : pteValid (entryAt m root a) = false) : virtToPhys m root a = 0#64 := by
  by_cases hnull : root = 0#64
  · rw [virtToPhys, if_pos hnull]
  · rw [virtToPhys_spec h hr hnull, hv, Bool.false_and]
    rfl

/-- Emptying entries that were not valid before restores the translations. -/
theorem virtToPhys_restored (h : Shape m roots) (h' : Shape m' roots) (hr : root ∈ roots) {P : Word → Prop}
    (hfree : ∀ a, P a → pteValid (entryAt m root a) = false) (hempty : ∀ a, P a → entryAt m' root a = 0#64)
    (hframe : ∀ a, ¬ P a → entryAt m' root a = entryAt m root a) (a : Word) :
    virtToPhys m' root a = virtToPhys m root a := by
  by_cases ha : P a
  · have hv : pteValid (entryAt m' root a) = false := by
      rw [hempty a ha, pteValid_zero]
    rw [virtToPhys_invalid h hr (hfree a ha), virtToPhys_invalid h' hr hv]
  · exact virtToPhys_congr h h' hr (hframe a ha)

/-- `unmap_page` removes no table. -/
theorem unmapPage_leafTable (h : Shape m roots) (hr : r ∈ roots) (va : Word) :
    leafTable (unmapPage m r va).2 r va = leafTable m r va := by
  unfold unmapPage
  split
  · rfl
  · rw [unmapWalk_eq h hr]
    cases ht : leafTable m r va with
    | none => exact ht
    | some t =>
        show leafTable (if (!pteValid (m t (vpnSlot va 0)) || !pteLeaf (m t (vpnSlot va 0))) = true then (false, m)
          else (true, m.setEntry t (vpnSlot va 0) 0#64)).2 r va = some t
        split
        · exact ht
        · exact (leafWrite_walk h hr ht 0#64 [vpnSlot va 1, vpnSlot va 2] (Nat.le_refl 2)).trans ht

/-- **An unmapped page can be mapped again**, and needs no table. -/
theorem mapPage_again {w : World α} (h : Shape w.mem roots) (hr : root ∈ roots) (hnull : root ≠ 0#64)
    (hva : isPageAligned va = true) (hpa : isPageAligned pa = true) (hun : unmapPage w.mem root va = (true, m'))
    (a : α) (flags : Word) : ∃ w', mapPage allocPage ⟨m', a⟩ root va pa flags = some (true, w') := by
  have hm : m' = (unmapPage w.mem root va).2 := by rw [hun]
  rcases unmapPage_spec h hr hnull va with ⟨hrej, _⟩ | ⟨m₁, hacc, _, hv, _, hshape, _, hent⟩
  · rw [hrej] at hun
    exact absurd (Prod.mk.inj hun).1 (by simp)
  · rw [hun] at hacc
    obtain ⟨_, rfl⟩ := Prod.mk.inj hacc
    -- a valid entry has a level-0 table, and it is still there
    cases ht : leafTable w.mem root va with
    | none =>
        rw [entryAt_none ht, pteValid_zero] at hv
        exact absurd hv (by simp)
    | some t =>
        have ht' : leafTable m' root va = some t := by rw [hm, unmapPage_leafTable h hr, ht]
        have hempty : pteValid (entryAt m' root va) = false := by
          rw [hent root hr, if_pos ⟨rfl, rfl⟩, pteValid_zero]
        obtain ⟨m₂, hmap, _⟩ := mapPage_granted (w := ⟨m', a⟩) hshape hr hnull hva hpa hempty (Grants.nil a) fresh_nil
          (missing_eq_zero ht').symm flags
        exact ⟨_, hmap⟩

/-- **A mapping works and can be taken back**: from `m`, `map_page` has led to `w'`. -/
def VisibleAndUndone (allocPage : AllocPage α) (m : Mem) (w' : World α) (root va pa : Word) : Prop :=
  virtToPhys w'.mem root va = pa ∧
  ∃ m', unmapPage w'.mem root va = (true, m') ∧ (∀ a, virtToPhys m' root a = virtToPhys m root a) ∧
    ∀ a pa' flags', isPageAligned pa' = true →
      ∃ w'', mapPage allocPage ⟨m', a⟩ root va pa' flags' = some (true, w'')

/-- **When a mapping is visible and can be undone:** its flags have a permission, and add nothing to the page
    number. -/
theorem map_page_undo_iff (hok : AllocOk allocPage I) {w : World α} {c : Space α} (hzero : ∀ i, w.mem root i = 0#64)
    (hI : I {root} w.src) (hr : Reach (Space.step allocPage root) (fun _ _ => True) ⟨w, []⟩ c) {w' : World α}
    (hmap : mapPage allocPage c.world root va pa flags = some (true, w')) :
    VisibleAndUndone allocPage c.world.mem w' root va pa ↔
      pteLeaf flags = true ∧ pa ||| ((flags >>> kPtePpnShift) <<< kPageShift) = pa := by
  obtain ⟨hshape, hI'⟩ := shape_reach hok hzero hI hr
  have hmem := Set.mem_singleton root
  obtain ⟨ok, w₁, hmap', hshape', _, _, hdone⟩ := mapPage_spec hok hshape hI' hmem va pa flags
  obtain ⟨rfl, rfl⟩ := Prod.mk.inj (Option.some.inj (hmap.symm.trans hmap'))
  obtain ⟨hnull, hva, hpa, hfree, hent⟩ := hdone rfl
  have hentry : entryAt w'.mem root va = makePte pa (flags ||| pteV) := by
    rw [hent root hmem, if_pos ⟨rfl, rfl⟩]
  have hphys := virtToPhys_written hshape' hmem hnull hentry hva hpa
  constructor
  · rintro ⟨hvis, m', hun, _⟩
    have hleaf : pteLeaf flags = true := by
      rcases unmapPage_spec hshape' hmem hnull va with ⟨hrej, _⟩ | ⟨_, _, _, _, hleaf, _⟩
      · rw [hrej] at hun
        exact absurd (Prod.mk.inj hun).1 (by simp)
      · rw [hentry, pteLeaf_makePte] at hleaf
        exact hleaf
    rw [hphys, hleaf, if_pos rfl] at hvis
    exact ⟨hleaf, hvis⟩
  · rintro ⟨hleaf, hpage⟩
    rw [hleaf, if_pos rfl, hpage] at hphys
    refine ⟨hphys, ?_⟩
    rcases unmapPage_spec hshape' hmem hnull va with ⟨_, hrej⟩ | ⟨m', hun, _, _, _, hshape'', _, hcleared⟩
    · rw [hentry, pteValid_makePte, pteLeaf_makePte] at hrej
      exact absurd ⟨hva, rfl, hleaf⟩ hrej
    · refine ⟨m', hun, virtToPhys_restored (P := fun a => vpn a = vpn va) hshape hshape'' hmem ?_ ?_ ?_, ?_⟩
      · intro a ha
        rw [entryAt_congr ha]
        exact hfree
      · intro a ha
        rw [hcleared root hmem, if_pos ⟨rfl, ha⟩]
      · intro a ha
        rw [hcleared root hmem, if_neg (fun hc => ha hc.2), hent root hmem, if_neg (fun hc => ha hc.2)]
      · exact fun a pa' flags' hpa' => mapPage_again hshape' hmem hnull hva hpa' hun a flags'

/-- A mapping with `R` and `W` from two fresh tables. -/
theorem map_page_undo_test : ∃ w' : World (List Word),
    mapPage playback ⟨fun _ _ => 0#64, [0x80001000#64, 0x80002000#64]⟩ 0x80000000#64 0x1000#64 0x5000#64
      (pteR ||| pteW) = some (true, w') ∧
    VisibleAndUndone playback (fun _ _ => 0#64) w' 0x80000000#64 0x1000#64 0x5000#64 := by
  have hfst : (mapPage playback ⟨fun _ _ => 0#64, [0x80001000#64, 0x80002000#64]⟩ 0x80000000#64 0x1000#64 0x5000#64
      (pteR ||| pteW)).map Prod.fst = some true := by decide +kernel
  obtain ⟨⟨ok, w'⟩, hmap, hok⟩ := Option.map_eq_some_iff.mp hfst
  obtain rfl : ok = true := hok
  exact ⟨w', hmap, (map_page_undo_iff (c := ⟨⟨fun _ _ => 0#64, [0x80001000#64, 0x80002000#64]⟩, []⟩) playback_ok
    (fun _ => rfl) playable_two Reach.refl hmap).mpr (by decide)⟩

/-- Without a permission the call succeeds, the page does not translate, and it can neither be unmapped nor mapped. -/
theorem mapping_without_permission :
    ∃ w' : World (List Word), mapPage playback ⟨fun _ _ => 0#64, [0x80001000#64, 0x80002000#64]⟩ 0x80000000#64
        0x1000#64 0x5000#64 (pteA ||| pteD) = some (true, w') ∧
      virtToPhys w'.mem 0x80000000#64 0x1000#64 = 0#64 ∧ (unmapPage w'.mem 0x80000000#64 0x1000#64).1 = false ∧
      (mapPage playback w' 0x80000000#64 0x1000#64 0x5000#64 (pteR ||| pteW)).map Prod.fst = some false ∧
      ¬ VisibleAndUndone playback (fun _ _ => 0#64) w' 0x80000000#64 0x1000#64 0x5000#64 := by
  have hrun : (mapPage playback ⟨fun _ _ => 0#64, [0x80001000#64, 0x80002000#64]⟩ 0x80000000#64 0x1000#64 0x5000#64
      (pteA ||| pteD)).map (fun p => (p.1, virtToPhys p.2.mem 0x80000000#64 0x1000#64,
        (unmapPage p.2.mem 0x80000000#64 0x1000#64).1,
        (mapPage playback p.2 0x80000000#64 0x1000#64 0x5000#64 (pteR ||| pteW)).map Prod.fst)) =
      some (true, 0#64, false, some false) := by decide +kernel
  obtain ⟨⟨ok, w'⟩, hmap, hres⟩ := Option.map_eq_some_iff.mp hrun
  obtain ⟨rfl, hphys, hun, hagain⟩ : ok = true ∧ virtToPhys w'.mem 0x80000000#64 0x1000#64 = 0#64 ∧
      (unmapPage w'.mem 0x80000000#64 0x1000#64).1 = false ∧
      (mapPage playback w' 0x80000000#64 0x1000#64 0x5000#64 (pteR ||| pteW)).map Prod.fst = some false := by
    simpa only [Prod.mk.injEq] using hres
  refine ⟨w', hmap, hphys, hun, hagain, fun hvis => ?_⟩
  rw [hvis.1] at hphys
  exact absurd hphys (by simp)

end Arch
end RiscCore
