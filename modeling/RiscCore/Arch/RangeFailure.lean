import RiscCore.Arch.MapUndo
import RiscCore.Arch.RangeCost

/-!
# `Arch.RangeFailure` — what a failed `map_range` leaves behind

`map_range` stops at the first call of `map_page` that fails and takes nothing back. The pages before it stay
mapped, all others translate as before, and because the first page is mapped now the same call fails at once when it
is repeated. `unmap_page` on the pages that were mapped (`unmapPages`) restores every translation, and on a range
none of whose pages is mapped the call succeeds as soon as the allocator has two pages for each of them.
-/

namespace RiscCore
namespace Arch

open Mm Pmm Forest Runs Supply

variable {α : Type} {allocPage : AllocPage α} {I : Set Word → α → Prop} {roots : Set Word}
  {root va pa size flags : Word} {m m' : Mem} {k n : Nat}

/-! ## Unmapping a row of pages -/

/-- `unmap_page` on the first `k` pages from `va` on, each of which has to be accepted. -/
def unmapPages (root va : Word) : Nat → Mem → Option Mem
  | 0, m => some m
  | k + 1, m => do
    let m ← unmapPages root va k m
    let (ok, m) := unmapPage m root (pageAddr va k)
    if ok then return m else none

/-- The entries of the first `k` pages are empty, all others those of `m`. -/
structure Emptied (root va : Word) (k : Nat) (m m' : Mem) : Prop where
  pages : ∀ a, (∃ j < k, vpn a = vpn (pageAddr va j)) → entryAt m' root a = 0#64
  frame : ∀ a, ¬ (∃ j < k, vpn a = vpn (pageAddr va j)) → entryAt m' root a = entryAt m root a

/-- **A row of leaf mappings can be unmapped**, one page after the other. -/
theorem unmapPages_mapped (h : Shape m' roots) (hr : root ∈ roots) (hnull : 0 < k → root ≠ 0#64)
    (hva : 0 < k → isPageAligned va = true) (hp : PrefixMapped roots root va pa flags m k m')
    (hnew : ∀ j < k, ∀ i < j, vpn (pageAddr va j) ≠ vpn (pageAddr va i)) (hleaf : pteLeaf flags = true) :
    ∀ j ≤ k, ∃ m'', unmapPages root va j m' = some m'' ∧ Shape m'' roots ∧ tables m'' roots = tables m' roots ∧
      Emptied root va j m' m'' := by
  intro j
  induction j with
  | zero =>
      refine fun _ => ⟨m', rfl, h, rfl, fun a hc => ?_, fun _ _ => rfl⟩
      obtain ⟨i, hi, _⟩ := hc
      exact absurd hi (Nat.not_lt_zero i)
  | succ j ih =>
      intro hj
      have hk : 0 < k := Nat.lt_of_lt_of_le (Nat.succ_pos j) hj
      obtain ⟨m₁, hun, h₁, htab, hempty⟩ := ih (Nat.le_of_succ_le hj)
      -- page `j` is none of the pages that were emptied, so its entry is still the one of the range
      have hentry : entryAt m₁ root (pageAddr va j) = makePte (pageAddr pa j) (flags ||| pteV) := by
        rw [hempty.frame _ fun ⟨i, hi, hv⟩ => hnew j hj i hi hv]
        exact hp.pages j hj
      rcases unmapPage_spec h₁ hr (hnull hk) (pageAddr va j) with ⟨_, hrej⟩ | ⟨m₂, hacc, _, _, _, h₂, htab₂, hent⟩
      · rw [hentry, pteValid_makePte, pteLeaf_makePte] at hrej
        exact absurd ⟨pageAddr_isPageAligned (hva hk) j, rfl, hleaf⟩ hrej
      · refine ⟨m₂, by simp [unmapPages, hun, hacc], h₂, htab₂.trans htab, ?_, ?_⟩
        · rintro a ⟨i, hi, hv⟩
          rw [hent root hr]
          by_cases hlast : vpn a = vpn (pageAddr va j)
          · rw [if_pos ⟨rfl, hlast⟩]
          · have hne : i ≠ j := fun he => hlast (he ▸ hv)
            rw [if_neg (fun hc => hlast hc.2)]
            exact hempty.pages a ⟨i, by omega, hv⟩
        · intro a hout
          have hlast : vpn a ≠ vpn (pageAddr va j) := fun hv => hout ⟨j, Nat.lt_succ_self j, hv⟩
          rw [hent root hr, if_neg (fun hc => hlast hc.2)]
          exact hempty.frame a fun ⟨i, hi, hv⟩ => hout ⟨i, Nat.lt_succ_of_lt hi, hv⟩

/-! ## A range that is free -/

/-- Between two calls: the first `k` of `n` pages are mapped, and two pages for each of the others are left. -/
structure Supplied (allocPage : AllocPage α) (I : Set Word → α → Prop) (roots : Set Word) (root va pa flags : Word)
    (n : Nat) (m : Mem) (k : Nat) (w : World α) : Prop where
  shape : Shape w.mem roots
  alloc : I (tables w.mem roots) w.src
  mapped : PrefixMapped roots root va pa flags m k w.mem
  supply : Supplies allocPage 0#64 (2 * (n - k)) w.src

/-- **Step lemma.** The next page is free and needs at most two tables. -/
theorem Supplied.step (hok : AllocOk allocPage I) {w : World α}
    (h : Supplied allocPage I roots root va pa flags n m k w) (hr : root ∈ roots) (hnull : root ≠ 0#64)
    (hva : isPageAligned va = true) (hpa : isPageAligned pa = true) (hfit : va.toNat + n * 4096 < 2 ^ 64)
    (hshort : n ≤ 2 ^ 27) (hfree : ∀ j < n, pteValid (entryAt m root (pageAddr va j)) = false) (hk : k < n) :
    ∃ w', mapPage allocPage w root (pageAddr va k) (pageAddr pa k) flags = some (true, w') ∧
      Supplied allocPage I roots root va pa flags n m (k + 1) w' := by
  have hfree' : pteValid (entryAt w.mem root (pageAddr va k)) = false := by
    rw [h.mapped.entry_next hr hfit hshort hk]
    exact hfree k hk
  have hcost := missing_le w.mem (pageAddr va k) 2 root
  obtain ⟨ok, w', hmap, hout⟩ := mapPage_outcome hok h.shape h.alloc hr hnull (pageAddr va k) (pageAddr pa k) flags
  cases hout with
  | rejected hrej =>
      rw [pageAddr_isPageAligned hva, pageAddr_isPageAligned hpa, hfree'] at hrej
      exact absurd hrej (by simp)
  | starved hg _ hlt hrefused => exact absurd h.supply (hg.not_supplies hrefused (by omega))
  | mapped _ _ _ hg hlen hinst hI =>
      exact ⟨w', hmap, hinst.shape, hI, h.mapped.succ hr hfree' hinst.entries, h.supply.after hg (by omega)⟩

/-- **Two pages for each page of the range are enough**, whatever has been built before. -/
theorem mapRange_supplied (hok : AllocOk allocPage I) {w : World α} (h : Shape w.mem roots)
    (hI : I (tables w.mem roots) w.src) (hr : root ∈ roots) (hnull : root ≠ 0#64) (hva : isPageAligned va = true)
    (hpa : isPageAligned pa = true) (hshort : visits va size ≤ 2 ^ 27)
    (hfree : ∀ j < visits va size, pteValid (entryAt w.mem root (pageAddr va j)) = false)
    (hsup : Supplies allocPage 0#64 (2 * visits va size) w.src) (flags : Word) :
    ∃ w', mapRange allocPage w root va pa size flags = some (true, w') := by
  have hmax := (alignUp (va + size)).isLt
  have hlt := va.isLt
  have hfit : va.toNat + visits va size * 4096 < 2 ^ 64 := by unfold visits; omega
  have hstep : ∀ k w₁, k < visits va size →
      Supplied allocPage I roots root va pa flags (visits va size) w.mem k w₁ → ∃ w₂,
      mapPage allocPage w₁ root (pageAddr va k) (pageAddr pa k) flags = some (true, w₂) ∧
        Supplied allocPage I roots root va pa flags (visits va size) w.mem (k + 1) w₂ :=
    fun k w₁ hk hP => hP.step hok hr hnull hva hpa hfit hshort hfree hk
  obtain ⟨ok, w', hrange, _, hsome⟩ := mapRange_rule
    (P := Supplied allocPage I roots root va pa flags (visits va size) w.mem) hva hpa flags
    (fun k w₁ hk hP => by
      obtain ⟨w₂, hmap, hP'⟩ := hstep k w₁ hk hP
      exact ⟨true, w₂, hmap, fun _ => hP'⟩) ⟨h, hI, PrefixMapped.zero, hsup⟩
  cases ok with
  | true => exact ⟨w', hrange⟩
  | false =>
      obtain ⟨k, hk, wk, hP, hfail⟩ := hsome rfl
      obtain ⟨w₂, hmap, _⟩ := hstep k wk hk hP
      rw [hmap] at hfail
      exact absurd hfail (by simp)

/-- A range whose first page is mapped is refused at once. -/
theorem mapRange_occupied {w : World α} (h : Shape w.mem roots) (hr : root ∈ roots) (hva : isPageAligned va = true)
    (hpa : isPageAligned pa = true) (hpos : 0 < visits va size) (hv : pteValid (entryAt w.mem root va) = true)
    (flags : Word) : mapRange allocPage w root va pa size flags = some (false, w) := by
  have hfirst : mapPage allocPage w root (pageAddr va 0) (pageAddr pa 0) flags = some (false, w) := by
    rw [pageAddr_zero]
    exact mapPage_occupied h hr hv _ flags
  obtain ⟨ok, w', hrange, hall, hsome⟩ := mapRange_rule (P := fun k w₁ => k = 0 ∧ w₁ = w) hva hpa flags
    (fun k w₁ _ hP => by
      obtain ⟨rfl, rfl⟩ := hP
      exact ⟨false, w₁, hfirst, fun hc => absurd hc (by simp)⟩) ⟨rfl, rfl⟩
  cases ok with
  | true =>
      have hnone : visits va size = 0 := (hall rfl).1
      omega
  | false =>
      obtain ⟨k, _, wk, ⟨rfl, rfl⟩, hfail⟩ := hsome rfl
      rw [hfirst] at hfail
      rw [hrange, Option.some.inj hfail]

/-! ## The call that failed -/

/-- **What a failed call leaves**: the first `k` pages of the range, and nothing else. -/
structure PartlyMapped (allocPage : AllocPage α) (root va pa size flags : Word) (w w' : World α) (k : Nat) : Prop where
  stopped : (k = 0 ∧ w' = w ∧ ¬ (isPageAligned va = true ∧ isPageAligned pa = true)) ∨
    (k < visits va size ∧ ∃ wk, MapsPages allocPage root va pa flags w k wk ∧
      mapPage allocPage wk root (pageAddr va k) (pageAddr pa k) flags = some (false, w'))
  outside : ∀ a, (∀ j < k, vpn a ≠ vpn (pageAddr va j)) → virtToPhys w'.mem root a = virtToPhys w.mem root a
  unchanged_iff : (∀ a, virtToPhys w'.mem root a = virtToPhys w.mem root a) ↔ k = 0 ∨ pteLeaf flags = false
  again : 0 < k → ∀ a, mapRange allocPage ⟨w'.mem, a⟩ root va pa size flags = some (false, ⟨w'.mem, a⟩)
  undone : pteLeaf flags = true → ∃ m, unmapPages root va k w'.mem = some m ∧ Shape m {root} ∧
    ∀ a, virtToPhys m root a = virtToPhys w.mem root a

/-- Two bytes of one page: equal page numbers, different offsets. -/
theorem next_byte (hva : isPageAligned va = true) : vpn (va + 1#64) = vpn va ∧ pageOffset (va + 1#64) = 1#64 := by
  have hal := isPageAligned_iff.mp hva
  have hlt := va.isLt
  have hval : (va + 1#64).toNat = va.toNat + 1 := by
    rw [BitVec.toNat_add, BitVec.toNat_ofNat]; omega
  constructor
  · rw [← BitVec.toNat_inj, vpn_toNat, vpn_toNat, hval]
    omega
  · apply BitVec.eq_of_toNat_eq
    rw [pageOffset_toNat, hval, BitVec.toNat_ofNat]
    omega

/-- A page that has become a leaf translates differently, at its first byte or at its second. -/
theorem PrefixMapped.changed (hp : PrefixMapped roots root va pa flags m k m') (h : Shape m roots) (h' : Shape m' roots)
    (hr : root ∈ roots) (hnull : root ≠ 0#64) (hva : isPageAligned va = true) (hk : 0 < k)
    (hfree : pteValid (entryAt m root va) = false) (hleaf : pteLeaf flags = true) :
    ¬ ∀ a, virtToPhys m' root a = virtToPhys m root a := by
  intro hsame
  obtain ⟨hvpn, hoff⟩ := next_byte hva
  have hentry : entryAt m' root va = makePte (pageAddr pa 0) (flags ||| pteV) := by
    have hpage := hp.pages 0 hk
    rwa [pageAddr_zero] at hpage
  -- both bytes translated to 0 before; now they translate to neighbours
  have hzero : ∀ a, vpn a = vpn va → pteToPa (makePte (pageAddr pa 0) (flags ||| pteV)) + pageOffset a = 0#64 := by
    intro a ha
    have hbefore : virtToPhys m root a = 0#64 := virtToPhys_invalid h hr (by rw [entryAt_congr ha]; exact hfree)
    have hnow := hsame a
    rw [hbefore, virtToPhys_spec h' hr hnull, entryAt_congr ha, hentry, pteValid_makePte, pteLeaf_makePte, hleaf,
      Bool.and_self, if_pos rfl] at hnow
    exact hnow
  have h₀ := hzero va rfl
  have h₁ := hzero (va + 1#64) hvpn
  rw [pageOffset_aligned hva, BitVec.add_zero] at h₀
  rw [h₀, hoff] at h₁
  exact absurd h₁ (by decide)

/-- Mappings without a permission are not seen. -/
theorem PrefixMapped.unseen (hp : PrefixMapped roots root va pa flags m k m') (h : Shape m roots) (h' : Shape m' roots)
    (hr : root ∈ roots) (hfree : ∀ j < k, pteValid (entryAt m root (pageAddr va j)) = false)
    (hleaf : pteLeaf flags = false) (a : Word) : virtToPhys m' root a = virtToPhys m root a := by
  by_cases hin : ∃ j < k, vpn a = vpn (pageAddr va j)
  · obtain ⟨j, hj, hv⟩ := hin
    have hbefore : virtToPhys m root a = 0#64 := virtToPhys_invalid h hr (by rw [entryAt_congr hv]; exact hfree j hj)
    rw [hbefore]
    by_cases hnull : root = 0#64
    · rw [virtToPhys, if_pos hnull]
    · rw [virtToPhys_spec h' hr hnull, entryAt_congr hv, hp.pages j hj, pteLeaf_makePte, hleaf, Bool.and_false]
      rfl
  · exact virtToPhys_congr h h' hr (hp.frame root hr a fun hc => hin hc.2)

/-- The state at the failing call, read off the pages mapped before it. -/
theorem MapsPages.partlyMapped (hok : AllocOk allocPage I) {w wk w' : World α} (h : Shape w.mem {root})
    (hI : I (tables w.mem {root}) w.src) (hva : isPageAligned va = true) (hpa : isPageAligned pa = true)
    (hmaps : MapsPages allocPage root va pa flags w k wk) (hk : k < visits va size)
    (hfail : mapPage allocPage wk root (pageAddr va k) (pageAddr pa k) flags = some (false, w')) :
    PartlyMapped allocPage root va pa size flags w w' k := by
  have hmem := Set.mem_singleton root
  obtain ⟨h', _, hnull, hp⟩ := hmaps.failed hok h hI hmem hfail
  have hpages := hmaps.free hok h hI hmem
  refine ⟨Or.inr ⟨hk, wk, hmaps, hfail⟩, fun a hout => ?_, ⟨fun hsame => ?_, fun hor => ?_⟩, fun hpos a => ?_,
    fun hleaf => ?_⟩
  · exact virtToPhys_congr h h' hmem (hp.frame root hmem a fun ⟨_, j, hj, hv⟩ => hout j hj hv)
  · by_cases hk0 : k = 0
    · exact Or.inl hk0
    · refine Or.inr (Bool.eq_false_iff.mpr fun hleaf => ?_)
      have hpos := Nat.pos_of_ne_zero hk0
      have hfirst := (hpages 0 hpos).1
      rw [pageAddr_zero] at hfirst
      exact hp.changed h h' hmem (hnull hpos) hva hpos hfirst hleaf hsame
  · rcases hor with rfl | hleaf
    · exact fun a => virtToPhys_congr h h' hmem (hp.frame root hmem a fun ⟨_, j, hj, _⟩ => Nat.not_lt_zero j hj)
    · exact hp.unseen h h' hmem (fun j hj => (hpages j hj).1) hleaf
  · have hentry := hp.pages 0 hpos
    rw [pageAddr_zero] at hentry
    refine mapRange_occupied (w := ⟨w'.mem, a⟩) h' hmem hva hpa (Nat.lt_of_le_of_lt (Nat.zero_le k) hk) ?_ flags
    rw [hentry, pteValid_makePte]
  · obtain ⟨m, hun, hm, _, hempty⟩ := unmapPages_mapped h' hmem hnull (fun _ => hva) hp
      (fun j hj => (hpages j hj).2) hleaf k (Nat.le_refl k)
    refine ⟨m, hun, hm, virtToPhys_restored (P := fun a => ∃ j < k, vpn a = vpn (pageAddr va j)) h hm hmem ?_
      hempty.pages ?_⟩
    · rintro a ⟨j, hj, hv⟩
      rw [entryAt_congr hv]
      exact (hpages j hj).1
    · intro a hout
      rw [hempty.frame a hout]
      exact hp.frame root hmem a fun hc => hout hc.2

/-- **`map_range` keeps what it has mapped when it fails.** Over any table that calls of `map_page` and `unmap_page`
    have built, a failed call leaves the range partly mapped: the same call fails again, and succeeds after the
    pages have been unmapped and no page of the range is mapped any more, given two pages for each of them. -/
theorem map_range_failure (hok : AllocOk allocPage I) {w : World α} {c : Space α} (hzero : ∀ i, w.mem root i = 0#64)
    (hI : I {root} w.src) (hr : Reach (Space.step allocPage root) (fun _ _ => True) ⟨w, []⟩ c)
    (va pa size flags : Word) :
    ∃ ok w', mapRange allocPage c.world root va pa size flags = some (ok, w') ∧
      (ok = false → ∃ k, PartlyMapped allocPage root va pa size flags c.world w' k) ∧
      ∀ m a, Shape m {root} → I (tables m {root}) a → root ≠ 0#64 → isPageAligned va = true →
        isPageAligned pa = true → visits va size ≤ 2 ^ 27 →
        (∀ j < visits va size, pteValid (entryAt m root (pageAddr va j)) = false) →
        Supplies allocPage 0#64 (2 * visits va size) a →
        ∃ w'', mapRange allocPage ⟨m, a⟩ root va pa size flags = some (true, w'') := by
  obtain ⟨hshape, hI'⟩ := shape_reach hok hzero hI hr
  have hmem := Set.mem_singleton root
  have hretry : ∀ m a, Shape m {root} → I (tables m {root}) a → root ≠ 0#64 → isPageAligned va = true →
      isPageAligned pa = true → visits va size ≤ 2 ^ 27 →
      (∀ j < visits va size, pteValid (entryAt m root (pageAddr va j)) = false) →
      Supplies allocPage 0#64 (2 * visits va size) a →
      ∃ w'', mapRange allocPage ⟨m, a⟩ root va pa size flags = some (true, w'') :=
    fun m a h hI hnull hva hpa hshort hfree hsup =>
      mapRange_supplied (w := ⟨m, a⟩) hok h hI hmem hnull hva hpa hshort hfree hsup flags
  by_cases hal : isPageAligned va = true ∧ isPageAligned pa = true
  · obtain ⟨ok, w', k, hrange, _, _, _, _, _, _, hsome⟩ := mapRange_outcome hok hshape hI' hmem hal.1 hal.2 size flags
    refine ⟨ok, w', hrange, fun hok' => ?_, hretry⟩
    obtain ⟨hk, wk, hmaps, hfail⟩ := hsome hok'
    exact ⟨k, hmaps.partlyMapped hok hshape hI' hal.1 hal.2 hk hfail⟩
  · -- a misaligned range is refused before the first call, unless it is empty
    by_cases hsz : size = 0#64
    · exact ⟨true, c.world, by rw [mapRange, if_pos hsz], fun hc => absurd hc (by simp), hretry⟩
    · have hrej : (!isPageAligned va || !isPageAligned pa) = true := by
        rw [← Bool.not_and, Bool.not_eq_true', Bool.eq_false_iff, ne_eq, Bool.and_eq_true]
        exact hal
      refine ⟨false, c.world, by rw [mapRange, if_neg hsz, if_pos hrej], fun _ => ⟨0, ?_⟩, hretry⟩
      exact ⟨Or.inl ⟨rfl, rfl, hal⟩, fun _ _ => rfl, ⟨fun _ => Or.inl rfl, fun _ _ => rfl⟩,
        fun hc => absurd hc (Nat.lt_irrefl 0), fun _ => ⟨c.world.mem, rfl, hshape, fun _ => rfl⟩⟩

/-- Two pages on either side of a 2 MiB boundary, and tables for the first of them only. -/
theorem map_range_failure_test : ∃ w' k,
    mapRange playback ⟨fun _ _ => 0#64, [0x80001000#64, 0x80002000#64]⟩ 0x80000000#64 0x1ff000#64 0x5000#64 0x2000#64
      (pteR ||| pteW) = some (false, w') ∧
    PartlyMapped playback 0x80000000#64 0x1ff000#64 0x5000#64 0x2000#64 (pteR ||| pteW)
      ⟨fun _ _ => 0#64, [0x80001000#64, 0x80002000#64]⟩ w' k := by
  obtain ⟨ok, w', hrange, hsome, _⟩ := map_range_failure
    (c := ⟨⟨fun _ _ => 0#64, [0x80001000#64, 0x80002000#64]⟩, []⟩) playback_ok (fun _ => rfl) playable_two Reach.refl
    0x1ff000#64 0x5000#64 0x2000#64 (pteR ||| pteW)
  have hfst : (mapRange playback ⟨fun _ _ => 0#64, [0x80001000#64, 0x80002000#64]⟩ 0x80000000#64 0x1ff000#64
      0x5000#64 0x2000#64 (pteR ||| pteW)).map Prod.fst = some false := by decide +kernel
  rw [hrange] at hfst
  obtain rfl : ok = false := Option.some.inj hfst
  obtain ⟨k, hpart⟩ := hsome rfl
  exact ⟨w', k, hrange, hpart⟩

/-- The same call: it returns `false`, its first page stays mapped, and the repeated call fails again, although the
    allocator has four more pages. -/
theorem failed_range_stays :
    ∃ w' : World (List Word), mapRange playback ⟨fun _ _ => 0#64, [0x80001000#64, 0x80002000#64]⟩ 0x80000000#64
        0x1ff000#64 0x5000#64 0x2000#64 (pteR ||| pteW) = some (false, w') ∧
      virtToPhys (fun _ _ => 0#64) 0x80000000#64 0x1ff000#64 = 0#64 ∧
      virtToPhys w'.mem 0x80000000#64 0x1ff000#64 = 0x5000#64 ∧
      (mapRange playback ⟨w'.mem, [0x80003000#64, 0x80004000#64, 0x80005000#64, 0x80006000#64]⟩ 0x80000000#64
        0x1ff000#64 0x5000#64 0x2000#64 (pteR ||| pteW)).map Prod.fst = some false := by
  have hrun : (mapRange playback ⟨fun _ _ => 0#64, [0x80001000#64, 0x80002000#64]⟩ 0x80000000#64
      0x1ff000#64 0x5000#64 0x2000#64 (pteR ||| pteW)).map (fun p => (p.1,
        virtToPhys p.2.mem 0x80000000#64 0x1ff000#64,
        (mapRange playback ⟨p.2.mem, [0x80003000#64, 0x80004000#64, 0x80005000#64, 0x80006000#64]⟩ 0x80000000#64
          0x1ff000#64 0x5000#64 0x2000#64 (pteR ||| pteW)).map Prod.fst)) =
      some (false, 0x5000#64, some false) := by decide +kernel
  obtain ⟨⟨ok, w'⟩, hrange, hres⟩ := Option.map_eq_some_iff.mp hrun
  obtain ⟨rfl, hphys, hagain⟩ : ok = false ∧ virtToPhys w'.mem 0x80000000#64 0x1ff000#64 = 0x5000#64 ∧
      (mapRange playback ⟨w'.mem, [0x80003000#64, 0x80004000#64, 0x80005000#64, 0x80006000#64]⟩ 0x80000000#64
        0x1ff000#64 0x5000#64 0x2000#64 (pteR ||| pteW)).map Prod.fst = some false := by
    simpa only [Prod.mk.injEq] using hres
  exact ⟨w', hrange, by decide, hphys, hagain⟩

end Arch
end RiscCore
