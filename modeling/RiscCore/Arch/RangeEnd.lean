import RiscCore.Arch.MapRange

/-!
# `Arch.RangeEnd` — ranges that end in the last page

`map_range` compares its cursor with `align_up(va + size)`. Where the last byte of the range is in the top page of
the address space that end is 0: either the sum wraps, or rounding it up does. No cursor is below 0, so the loop
visits nothing and the call returns `true`. In every other range the loop visits exactly the pages of the range.
-/

namespace RiscCore
namespace Arch

open Mm Pmm Forest Runs Supply

variable {α : Type} {allocPage : AllocPage α} {I : Set Word → α → Prop} {roots : Set Word}
  {root va pa size flags p : Word} {k : Nat}

/-- The page at `p` shares a byte with `[va, va + size)`. -/
def Meets (va size p : Word) : Prop := va.toNat < p.toNat + 4096 ∧ p.toNat < va.toNat + size.toNat

/-- A range inside the address space has `pageCount size` pages, the top page included. -/
theorem meets_iff (hva : isPageAligned va = true) (hin : va.toNat + size.toNat ≤ 2 ^ 64) (hp : isPageAligned p = true) :
    Meets va size p ↔ ∃ j < pageCount size, p = pageAddr va j := by
  have halv := isPageAligned_iff.mp hva
  have halp := isPageAligned_iff.mp hp
  unfold Meets pageCount
  constructor
  · rintro ⟨hlo, hhi⟩
    refine ⟨(p.toNat - va.toNat) / 4096, by omega, BitVec.eq_of_toNat_eq ?_⟩
    rw [FrameSet.pageAddr_toNat_mod]
    omega
  · rintro ⟨j, hj, rfl⟩
    have hval : (pageAddr va j).toNat = va.toNat + j * 4096 := by
      rw [FrameSet.pageAddr_toNat_mod, Nat.mod_eq_of_lt]
      omega
    rw [hval]
    omega

/-- **`map_range` visits the whole range.** It calls `map_page` on page after page, all `pageCount size` of them if
    it returns `true`, and up to the first call that fails otherwise. -/
def VisitsRange (allocPage : AllocPage α) (w : World α) (root va pa size flags : Word) : Prop :=
  ∃ ok w', mapRange allocPage w root va pa size flags = some (ok, w') ∧
    (ok = true → MapsPages allocPage root va pa flags w (pageCount size) w') ∧
    (ok = false → ∃ k < pageCount size, ∃ wk, MapsPages allocPage root va pa flags w k wk ∧
      mapPage allocPage wk root (pageAddr va k) (pageAddr pa k) flags = some (false, w'))

/-! ## The top page -/

theorem visits_top (hin : va.toNat + size.toNat ≤ 2 ^ 64) (htop : 2 ^ 64 ≤ va.toNat + size.toNat + 4095) :
    visits va size = 0 := by
  rw [visits, alignUp_end hin htop, BitVec.toNat_ofNat, Nat.zero_mod, Nat.zero_sub]

/-- Where nothing is visited nothing is called. -/
theorem mapRange_unvisited (allocPage : AllocPage α) (hva : isPageAligned va = true) (hpa : isPageAligned pa = true)
    (hnone : visits va size = 0) (w : World α) (root flags : Word) :
    mapRange allocPage w root va pa size flags = some (true, w) := by
  have hstep : ∀ k w₁, k < visits va size → w₁ = w → ∃ ok w₂,
      mapPage allocPage w₁ root (pageAddr va k) (pageAddr pa k) flags = some (ok, w₂) ∧ (ok = true → w₂ = w) := by
    intro k _ hk
    rw [hnone] at hk
    exact absurd hk (Nat.not_lt_zero k)
  obtain ⟨ok, w', hrange, hall, hsome⟩ := mapRange_rule (P := fun _ w₁ => w₁ = w) hva hpa flags hstep rfl
  cases ok with
  | true => rw [hrange, hall rfl]
  | false =>
      obtain ⟨k, hk, _⟩ := hsome rfl
      rw [hnone] at hk
      exact absurd hk (Nat.not_lt_zero k)

/-- A row of successful calls does not lead back to where it began. -/
theorem MapsPages.ne_self (hok : AllocOk allocPage I) {w : World α} (h : Shape w.mem roots)
    (hI : I (tables w.mem roots) w.src) (hr : root ∈ roots) (hk : 0 < k) :
    ¬ MapsPages allocPage root va pa flags w k w := by
  intro hmaps
  obtain ⟨hfree, _⟩ := hmaps.free hok h hI hr 0 hk
  obtain ⟨_, _, _, hp⟩ := hmaps.prefix_mapped hok h hI hr
  rw [hp.pages 0 hk, pteValid_makePte] at hfree
  exact absurd hfree (by simp)

/-- A range that reaches into the top page is not visited. -/
theorem not_visitsRange_top (hok : AllocOk allocPage I) {w : World α} (h : Shape w.mem roots)
    (hI : I (tables w.mem roots) w.src) (hr : root ∈ roots) (hva : isPageAligned va = true)
    (hpa : isPageAligned pa = true) (hsize : size ≠ 0#64) (hin : va.toNat + size.toNat ≤ 2 ^ 64)
    (htop : 2 ^ 64 ≤ va.toNat + size.toNat + 4095) (flags : Word) :
    mapRange allocPage w root va pa size flags = some (true, w) ∧
      ¬ VisitsRange allocPage w root va pa size flags := by
  have hrange := mapRange_unvisited allocPage hva hpa (visits_top hin htop) w root flags
  refine ⟨hrange, ?_⟩
  rintro ⟨ok, w', hrange', hall, _⟩
  obtain ⟨rfl, rfl⟩ := Prod.mk.inj (Option.some.inj (hrange.symm.trans hrange'))
  have hpos : 0 < pageCount size := by
    have hne : size.toNat ≠ 0 := BitVec.toNat_ne.mp hsize
    rw [pageCount]
    omega
  exact MapsPages.ne_self hok h hI hr hpos (hall rfl)

/-- **When `map_range` visits its whole range:** the range ends below the top page. -/
theorem map_range_end_iff (hok : AllocOk allocPage I) {w : World α} {c : Space α}
    (hzero : ∀ i, w.mem root i = 0#64) (hI : I {root} w.src)
    (hr : Reach (Space.step allocPage root) (fun _ _ => True) ⟨w, []⟩ c) (hva : isPageAligned va = true)
    (hpa : isPageAligned pa = true) (hsize : size ≠ 0#64) (hin : va.toNat + size.toNat ≤ 2 ^ 64) (flags : Word) :
    (∀ p, isPageAligned p = true → (Meets va size p ↔ ∃ j < pageCount size, p = pageAddr va j)) ∧
      (VisitsRange allocPage c.world root va pa size flags ↔ va.toNat + size.toNat ≤ 2 ^ 64 - 4096) := by
  obtain ⟨hshape, hI'⟩ := shape_reach hok hzero hI hr
  have hmem := Set.mem_singleton root
  refine ⟨fun p hp => meets_iff hva hin hp, fun hv => ?_, fun hend => ?_⟩
  · by_contra hend
    have htop : 2 ^ 64 ≤ va.toNat + size.toNat + 4095 := by omega
    exact (not_visitsRange_top hok hshape hI' hmem hva hpa hsize hin htop flags).2 hv
  · have hfit : va.toNat + size.toNat + 4095 < 2 ^ 64 := by omega
    obtain ⟨ok, w', k, hrange, _, _, _, _, _, hall, hsome⟩ := mapRange_maps hok hshape hI' hmem hva hpa hfit flags
    refine ⟨ok, w', hrange, fun hok' => ?_, fun hok' => ?_⟩
    · obtain ⟨rfl, hmaps⟩ := hall hok'
      exact hmaps
    · obtain ⟨hk, hfail⟩ := hsome hok'
      exact ⟨k, hk, hfail⟩

/-- Two pages, the second begun by one byte: with two pages for tables both are mapped. -/
theorem map_range_end_test :
    ∃ w', mapRange playback ⟨fun _ _ => 0#64, [0x80001000#64, 0x80002000#64]⟩ 0x80000000#64 0x1000#64 0x5000#64
        0x1001#64 (pteR ||| pteW) = some (true, w') ∧
      MapsPages playback 0x80000000#64 0x1000#64 0x5000#64 (pteR ||| pteW)
        ⟨fun _ _ => 0#64, [0x80001000#64, 0x80002000#64]⟩ 2 w' := by
  have hvisits : VisitsRange playback ⟨fun _ _ => 0#64, [0x80001000#64, 0x80002000#64]⟩ 0x80000000#64 0x1000#64
      0x5000#64 0x1001#64 (pteR ||| pteW) :=
    (map_range_end_iff (c := ⟨⟨fun _ _ => 0#64, [0x80001000#64, 0x80002000#64]⟩, []⟩) playback_ok (fun _ => rfl)
      playable_two Reach.refl (by decide) (by decide) (by decide) (by decide) (pteR ||| pteW)).2.mpr (by decide)
  obtain ⟨ok, w', hmap, hall, _⟩ := hvisits
  have hok : (mapRange playback ⟨fun _ _ => 0#64, [0x80001000#64, 0x80002000#64]⟩ 0x80000000#64 0x1000#64 0x5000#64
      0x1001#64 (pteR ||| pteW)).map Prod.fst = some true := by decide +kernel
  rw [hmap] at hok
  obtain rfl : ok = true := Option.some.inj hok
  exact ⟨w', hmap, hall rfl⟩

/-- The top page: the call returns `true`, asks for no table and maps nothing. -/
theorem top_page_skipped :
    mapRange playback ⟨fun _ _ => 0#64, [0x80001000#64, 0x80002000#64]⟩ 0x80000000#64 0xfffffffffffff000#64 0x5000#64
        0x1000#64 (pteR ||| pteW) = some (true, ⟨fun _ _ => 0#64, [0x80001000#64, 0x80002000#64]⟩) ∧
      ¬ VisitsRange playback ⟨fun _ _ => 0#64, [0x80001000#64, 0x80002000#64]⟩ 0x80000000#64
        0xfffffffffffff000#64 0x5000#64 0x1000#64 (pteR ||| pteW) := by
  obtain ⟨hshape, hI⟩ := shape_reach (c := ⟨⟨fun _ _ => 0#64, [0x80001000#64, 0x80002000#64]⟩, []⟩) playback_ok
    (fun _ => rfl) playable_two Reach.refl
  exact not_visitsRange_top playback_ok hshape hI (Set.mem_singleton _) (by decide) (by decide) (by decide)
    (by decide) (by decide) (pteR ||| pteW)

end Arch
end RiscCore
