import RiscCore.Arch.MapRefinement

/-!
# `Arch.MapExact` — `map_page` on any table that calls have built

A table reached by calls of `map_page` and `unmap_page` has the shape of a forest whatever the flags were, so
every call on it ends in one of the outcomes of `MapOutcome`. `map_page_exact` reads them off: what success
needs and takes, and what a failed call leaves behind.
-/

namespace RiscCore
namespace Arch

open Mm Forest Runs Supply

variable {α : Type} {allocPage : AllocPage α} {I : Set Word → α → Prop} {root : Word} {c : Space α}

/-- No restriction on the flags: the shape does not depend on them. -/
theorem shape_reach (hok : AllocOk allocPage I) {w : World α} (hzero : ∀ i, w.mem root i = 0#64)
    (hI : I {root} w.src) (hr : Reach (Space.step allocPage root) (fun _ _ => True) ⟨w, []⟩ c) :
    Shape c.world.mem {root} ∧ I (tables c.world.mem {root}) c.world.src := by
  have hinit := refines_init hzero hI
  refine Reach.invariant (I := fun c => Shape c.world.mem {root} ∧ I (tables c.world.mem {root}) c.world.src)
    ⟨hinit.shape, hinit.alloc⟩ ?_ hr
  rintro t op u ⟨hshape, hI⟩ _ hst
  cases op with
  | map va pa flags =>
      obtain ⟨ok, w', hmap, hshape', hI', _⟩ := mapPage_spec hok hshape hI (Set.mem_singleton root) va pa flags
      rw [Space.step, hmap] at hst
      obtain rfl := Option.some.inj hst
      exact ⟨hshape', hI'⟩
  | unmap va =>
      obtain ⟨hshape', htab⟩ := unmapPage_shape hshape (Set.mem_singleton root) va
      have hu : u = ⟨{ t.world with mem := (unmapPage t.world.mem root va).2 },
        (.unmap va, (unmapPage t.world.mem root va).1) :: t.log⟩ := (Option.some.inj hst).symm
      rw [hu]
      refine ⟨hshape', ?_⟩
      show I (tables (unmapPage t.world.mem root va).2 {root}) t.world.src
      rw [htab]; exact hI

/-- **`map_page` succeeds exactly when it should and fails harmlessly.** On any table that calls of `map_page`
    and `unmap_page` have built, success needs aligned addresses, a free leaf slot and the missing tables, and
    takes exactly those. On failure every translation is unchanged, at most one page has been taken, it is an
    empty table of the tree and no longer missing, and the same call succeeds once the rest is supplied. -/
theorem map_page_exact (hok : AllocOk allocPage I) {w : World α} (hzero : ∀ i, w.mem root i = 0#64)
    (hI : I {root} w.src) (hnull : root ≠ 0#64)
    (hr : Reach (Space.step allocPage root) (fun _ _ => True) ⟨w, []⟩ c) (va pa flags : Word) :
    ∃ ok w', mapPage allocPage c.world root va pa flags = some (ok, w') ∧
      missing c.world.mem va 2 root ≤ 2 ∧
      (ok = true ↔ isPageAligned va = true ∧ isPageAligned pa = true ∧
        pteValid (entryAt c.world.mem root va) = false ∧
        Supplies allocPage 0#64 (missing c.world.mem va 2 root) c.world.src) ∧
      (ok = true → ∃ ps, ps.length = missing c.world.mem va 2 root ∧ Grants allocPage 0#64 c.world.src ps w'.src ∧
        tables w'.mem {root} = tables c.world.mem {root} ∪ {p | p ∈ ps}) ∧
      (ok = false →
        (∀ a, virtToPhys w'.mem root a = virtToPhys c.world.mem root a) ∧
        (∃ ps a', ps.length ≤ 1 ∧ Grants allocPage 0#64 c.world.src ps a' ∧
          (w'.src = a' ∨ allocPage a' = some (0#64, w'.src)) ∧
          tables w'.mem {root} = tables c.world.mem {root} ∪ {p | p ∈ ps} ∧
          (∀ p ∈ ps, p ∉ tables c.world.mem {root} ∧ ∀ i, w'.mem p i = 0#64) ∧
          missing w'.mem va 2 root + ps.length = missing c.world.mem va 2 root) ∧
        ∀ a₂, I (tables w'.mem {root}) a₂ → isPageAligned va = true → isPageAligned pa = true →
          pteValid (entryAt c.world.mem root va) = false →
          Supplies allocPage 0#64 (missing w'.mem va 2 root) a₂ →
          ∃ w'', mapPage allocPage ⟨w'.mem, a₂⟩ root va pa flags = some (true, w'')) := by
  obtain ⟨hshape, hI'⟩ := shape_reach hok hzero hI hr
  have hmem := Set.mem_singleton root
  obtain ⟨ok, w', hmap, hout⟩ := mapPage_outcome hok hshape hI' hmem hnull va pa flags
  have hiff := mapPage_true_iff hok hshape hI' hmem hnull va pa flags
  have hok' : ok = true ↔ ∃ w', mapPage allocPage c.world root va pa flags = some (true, w') := by
    rw [hmap]
    simp
  refine ⟨ok, w', hmap, missing_le _ va 2 root, hok'.trans hiff, ?_, ?_⟩
  · rintro rfl
    cases hout with
    | mapped _ _ _ hg hlen hinst => exact ⟨_, hlen, hg, hinst.tables_eq⟩
  · rintro rfl
    cases hout with
    | rejected hrej =>
        refine ⟨fun _ => rfl, ⟨[], c.world.src, Nat.zero_le 1, Grants.nil _, Or.inl rfl, (union_nil _).symm,
          fun p hp => absurd hp List.not_mem_nil, rfl⟩, fun a₂ _ hva hpa hfree _ => ?_⟩
        rw [hva, hpa, hfree] at hrej
        exact absurd hrej (by simp)
    | @starved ps a' _ new hg hfresh hlt hrefused hgrown hcount hlast hI₂ =>
        have hone : ps.length ≤ 1 := Nat.le_of_lt_succ (Nat.lt_of_lt_of_le hlt (missing_le _ va 2 root))
        refine ⟨fun a => virtToPhys_congr hshape hgrown.forest.shape hmem (hgrown.forest.entries root hmem a),
          ⟨ps, a', hone, hg, Or.inr hrefused, hgrown.tables_eq, fun p hp => ⟨(hfresh.2 p hp).2, ?_⟩, hcount⟩, ?_⟩
        · -- a list with one element ends in it
          cases ps with
          | nil => exact absurd hp List.not_mem_nil
          | cons q ps =>
              obtain rfl : ps = [] := List.length_eq_zero_iff.mp (Nat.le_zero.mp (Nat.le_of_succ_le_succ hone))
              exact hlast p (by rw [List.mem_singleton.mp hp]; rfl)
        · intro a₂ hI₂ hva hpa hfree hsup
          rw [← hgrown.forest.entries root hmem va] at hfree
          exact (mapPage_true_iff (w := ⟨w'.mem, a₂⟩) hok hgrown.forest.shape hI₂ hmem hnull va pa flags).mpr
            ⟨hva, hpa, hfree, hsup⟩

/-- One page for two missing tables: the call fails, and no address is translated differently. -/
theorem map_page_exact_test : ∃ w' : World (List Word),
    mapPage playback ⟨fun _ _ => 0#64, [0x80001000#64]⟩ 0x80000000#64 0x1000#64 0x5000#64 (pteR ||| pteW) =
      some (false, w') ∧
    ∀ a, virtToPhys w'.mem 0x80000000#64 a = virtToPhys (fun _ _ => 0#64) 0x80000000#64 a := by
  have hplay : Playable {0x80000000#64} [0x80001000#64] := by
    refine ⟨by simp, fun p hp _ => ?_⟩
    rw [List.mem_singleton.mp hp]
    exact ⟨by decide, by simp⟩
  obtain ⟨ok, w', hmap, _, _, _, hfail⟩ := map_page_exact (c := ⟨⟨fun _ _ => 0#64, [0x80001000#64]⟩, []⟩)
    playback_ok (fun _ => rfl) hplay (by decide) Reach.refl 0x1000#64 0x5000#64 (pteR ||| pteW)
  have hfst : (mapPage playback ⟨fun _ _ => 0#64, [0x80001000#64]⟩ 0x80000000#64 0x1000#64 0x5000#64
      (pteR ||| pteW)).map Prod.fst = some false := by decide +kernel
  rw [hmap] at hfst
  obtain rfl : ok = false := Option.some.inj hfst
  exact ⟨w', hmap, (hfail rfl).1⟩

end Arch
end RiscCore
