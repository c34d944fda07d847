import Mathlib.Data.Finset.Card
import Mathlib.Data.Finset.Union
import RiscCore.Arch.MapRange

/-!
# `Arch.RangeCost` — how many tables a range costs

A table below the root is known by its path, so the tables that exist are a finite set `B` of paths (`Built`) and
mapping a page adds the two `stops` of its walk. Hence `map_range` takes as many pages from the allocator as the
set grows by, whatever the order and the sharing among the pages of the range and with earlier ranges.

The count is used in both directions: `MapsPages.granted` reads it off a successful run, and `mapRange_granted`
shows that a supply of that many pages is enough, assuming nothing of the allocator after them.
-/

namespace RiscCore
namespace Arch

open Mm Pmm Forest Runs Supply

variable {α : Type} {allocPage : AllocPage α} {I : Set Word → α → Prop} {roots : Set Word}
  {root va pa size flags : Word} {m m' : Mem} {B : Finset (List (Fin 512))} {k n : Nat}

/-- The tables below `root` are those at the paths `B`. -/
def Built (m : Mem) (root : Word) (B : Finset (List (Fin 512))) : Prop :=
  ∀ ρ : List (Fin 512), ρ ≠ [] → ρ.length ≤ 2 → ((walk (child m) root ρ).isSome ↔ ρ ∈ B)

theorem Built.empty (h : ∀ i, child m root i = none) : Built m root ∅ := by
  intro ρ hne _
  rw [Option.isSome_iff_exists]
  constructor
  · rintro ⟨q, hq⟩
    exact absurd (walk_of_empty h hq).1 hne
  · exact fun hc => absurd hc (Finset.notMem_empty ρ)

theorem stops_eq (va : Word) : stops va 2 [] = {[vpnSlot va 2], [vpnSlot va 1, vpnSlot va 2]} := rfl

/-- **What is missing is what the set grows by.** -/
theorem Built.missing_add_card (h : Built m root B) (va : Word) :
    missing m va 2 root + B.card = (B ∪ stops va 2 []).card := by
  have h₁ := h [vpnSlot va 2] (List.cons_ne_nil _ _) (Nat.le_succ 1)
  have h₂ := h [vpnSlot va 1, vpnSlot va 2] (List.cons_ne_nil _ _) (Nat.le_refl 2)
  have hpaths : [vpnSlot va 2] ≠ [vpnSlot va 1, vpnSlot va 2] := by simp
  have hwalk₁ : walk (child m) root [vpnSlot va 2] = child m root (vpnSlot va 2) := rfl
  have hwalk₂ : walk (child m) root [vpnSlot va 1, vpnSlot va 2] =
      (child m root (vpnSlot va 2)).bind (child m · (vpnSlot va 1)) := rfl
  rw [hwalk₁] at h₁
  rw [hwalk₂] at h₂
  have hcost : missing m va 2 root = (stops va 2 [] \ B).card := by
    rw [stops_eq]
    cases hc : child m root (vpnSlot va 2) with
    | none =>
        rw [hc] at h₁ h₂
        have hB₁ : [vpnSlot va 2] ∉ B := fun hb => absurd (h₁.mpr hb) (by simp)
        have hB₂ : [vpnSlot va 1, vpnSlot va 2] ∉ B := fun hb => absurd (h₂.mpr hb) (by simp)
        rw [missing_none hc, Finset.insert_sdiff_of_notMem _ hB₁, Finset.sdiff_eq_self_of_disjoint
          (Finset.disjoint_singleton_left.mpr hB₂), Finset.card_pair hpaths]
    | some t =>
        rw [hc, Option.bind_some] at h₂
        have hB₁ : [vpnSlot va 2] ∈ B := h₁.mp (by rw [hc]; rfl)
        rw [missing_some hc, Finset.insert_sdiff_of_mem _ hB₁]
        cases hc' : child m t (vpnSlot va 1) with
        | none =>
            have hB₂ : [vpnSlot va 1, vpnSlot va 2] ∉ B := fun hb => absurd (h₂.mpr hb) (by simp [hc'])
            rw [missing_none hc', Finset.sdiff_eq_self_of_disjoint (Finset.disjoint_singleton_left.mpr hB₂),
              Finset.card_singleton]
        | some t' =>
            have hB₂ : [vpnSlot va 1, vpnSlot va 2] ∈ B := h₂.mp (by rw [hc']; rfl)
            rw [missing_some hc', missing, Finset.sdiff_eq_empty_iff_subset.mpr (Finset.singleton_subset_iff.mpr hB₂),
              Finset.card_empty]
  rw [hcost, Finset.card_sdiff_add_card, Finset.union_comm]

/-- Installing a page adds its stops. -/
theorem Built.installed {pte : Pte} {ps : List Word} (h : Built m root B)
    (hinst : Installed roots root va pte m m' ps) : Built m' root (B ∪ stops va 2 []) := by
  intro ρ hne hlen
  rw [hinst.built ρ hlen, h ρ hne hlen, Finset.mem_union]

/-- The tables that the first `k` pages of a range need. -/
def routes (va : Word) (k : Nat) : Finset (List (Fin 512)) :=
  (Finset.range k).biUnion fun j => stops (pageAddr va j) 2 []

theorem routes_succ (va : Word) (k : Nat) : routes va (k + 1) = routes va k ∪ stops (pageAddr va k) 2 [] := by
  rw [routes, Finset.range_add_one, Finset.biUnion_insert, Finset.union_comm]
  rfl

theorem routes_mono {j : Nat} (h : j ≤ k) (va : Word) : routes va j ⊆ routes va k :=
  Finset.biUnion_subset_biUnion_of_subset_left _ (Finset.range_subset_range.mpr h)

/-- **What a successful run took.** -/
theorem MapsPages.granted (hok : AllocOk allocPage I) {w w' : World α} (h : Shape w.mem roots)
    (hI : I (tables w.mem roots) w.src) (hr : root ∈ roots) (hB : Built w.mem root B)
    (hmaps : MapsPages allocPage root va pa flags w k w') :
    Built w'.mem root (B ∪ routes va k) ∧
      ∃ ps, Grants allocPage 0#64 w.src ps w'.src ∧ ps.length + B.card = (B ∪ routes va k).card := by
  induction hmaps with
  | zero =>
      have hnone : B ∪ routes va 0 = B := Finset.union_empty B
      rw [hnone]
      exact ⟨hB, [], Grants.nil _, Nat.zero_add _⟩
  | @succ k w₁ w₂ hmaps hmap ih =>
      obtain ⟨hB₁, ps, hg, hcount⟩ := ih
      obtain ⟨h₁, hI₁, _, _⟩ := hmaps.prefix_mapped hok h hI hr
      obtain ⟨_, _, hnull, _⟩ := (MapsPages.succ hmaps hmap).prefix_mapped hok h hI hr
      obtain ⟨ok, w', hmap', hout⟩ :=
        mapPage_outcome hok h₁ hI₁ hr (hnull (Nat.succ_pos k)) (pageAddr va k) (pageAddr pa k) flags
      obtain ⟨rfl, rfl⟩ := Prod.mk.inj (Option.some.inj (hmap.symm.trans hmap'))
      rw [routes_succ, ← Finset.union_assoc]
      cases hout with
      | @mapped qs _ _ _ _ hg' hlen hinst =>
          refine ⟨hB₁.installed hinst, ps ++ qs, hg.append hg', ?_⟩
          rw [← hB₁.missing_add_card, ← hlen, ← hcount, List.length_append]
          omega

/-! ## A supply that is enough -/

/-- Pages of one range that is no longer than the address space of a root have different page numbers. -/
theorem vpn_pageAddr_inj {j : Nat} (hfit : va.toNat + n * 4096 < 2 ^ 64) (hshort : n ≤ 2 ^ 27) (hj : j < n)
    (hk : k < n) (h : vpn (pageAddr va j) = vpn (pageAddr va k)) : j = k := by
  have hdiv : ∀ i, (va.toNat + i * 4096) / 4096 = va.toNat / 4096 + i :=
    fun i => Nat.add_mul_div_right _ _ (by decide)
  rw [← BitVec.toNat_inj, vpn_toNat, vpn_toNat, FrameSet.pageAddr_toNat_of_le hfit (Nat.le_of_lt hj),
    FrameSet.pageAddr_toNat_of_le hfit (Nat.le_of_lt hk), hdiv, hdiv] at h
  omega

/-- The next page of a short range is not one of those mapped so far. -/
theorem PrefixMapped.entry_next {m m' : Mem} {k : Nat} (hp : PrefixMapped roots root va pa flags m k m')
    (hr : root ∈ roots) (hfit : va.toNat + n * 4096 < 2 ^ 64) (hshort : n ≤ 2 ^ 27) (hk : k < n) :
    entryAt m' root (pageAddr va k) = entryAt m root (pageAddr va k) := by
  refine hp.frame root hr _ ?_
  rintro ⟨_, j, hj, hv⟩
  have hkj : k = j := vpn_pageAddr_inj hfit hshort hk (Nat.lt_trans hj hk) hv
  omega

/-- Between two calls: `k` of `n` pages are mapped, and `rest` is what the allocator has left for the others. -/
structure Underway (allocPage : AllocPage α) (roots : Set Word) (root va pa flags : Word) (n : Nat)
    (B : Finset (List (Fin 512))) (w : World α) (ps : List Word) (a' : α) (k : Nat) (w₁ : World α) : Prop where
  shape : Shape w₁.mem roots
  built : Built w₁.mem root (B ∪ routes va k)
  mapped : PrefixMapped roots root va pa flags w.mem k w₁.mem
  supply : ∃ qs rest, ps = qs ++ rest ∧ tables w₁.mem roots = tables w.mem roots ∪ {p | p ∈ qs} ∧
    Grants allocPage 0#64 w₁.src rest a' ∧ rest.length + (B ∪ routes va k).card = (B ∪ routes va n).card

/-- **Step lemma.** While the supply lasts, the next call succeeds. -/
theorem Underway.step {w w₁ : World α} {ps : List Word} {a' : α}
    (h : Underway allocPage roots root va pa flags n B w ps a' k w₁) (hr : root ∈ roots) (hnull : root ≠ 0#64)
    (hva : isPageAligned va = true) (hpa : isPageAligned pa = true) (hfit : va.toNat + n * 4096 < 2 ^ 64)
    (hshort : n ≤ 2 ^ 27) (hfree : ∀ j < n, pteValid (entryAt w.mem root (pageAddr va j)) = false)
    (hfresh : FreshPages (tables w.mem roots) ps) (hk : k < n) :
    ∃ w₂, mapPage allocPage w₁ root (pageAddr va k) (pageAddr pa k) flags = some (true, w₂) ∧
      Underway allocPage roots root va pa flags n B w ps a' (k + 1) w₂ := by
  obtain ⟨qs, rest, rfl, htab, hg, hcount⟩ := h.supply
  have hcost := h.built.missing_add_card (pageAddr va k)
  rw [Finset.union_assoc, ← routes_succ] at hcost
  have hgrow : (B ∪ routes va (k + 1)).card ≤ (B ∪ routes va n).card :=
    Finset.card_le_card (Finset.union_subset_union_right (routes_mono hk va))
  -- the pages for this call come off the front of the supply
  obtain ⟨new, rest, a₁, rfl, hnew, hgnew, hgrest⟩ := hg.take (n := missing w₁.mem (pageAddr va k) 2 root) (by omega)
  have hfree' : pteValid (entryAt w₁.mem root (pageAddr va k)) = false := by
    rw [h.mapped.entry_next hr hfit hshort hk]
    exact hfree k hk
  have hfresh' := (fresh_append qs hfresh).2
  rw [← htab] at hfresh'
  obtain ⟨m₂, hmap, hinst⟩ := mapPage_granted h.shape hr hnull (pageAddr_isPageAligned hva k)
    (pageAddr_isPageAligned hpa k) hfree' hgnew (fresh_append new hfresh').1 hnew flags
  refine ⟨⟨m₂, a₁⟩, hmap, hinst.shape, ?_, h.mapped.succ hr hfree' hinst.entries, qs ++ new, rest, ?_, ?_, hgrest, ?_⟩
  · rw [routes_succ, ← Finset.union_assoc]
    exact h.built.installed hinst
  · rw [List.append_assoc]
  · rw [hinst.tables_eq, htab, union_append]
  · rw [List.length_append] at hcount
    omega

/-- **Run lemma.** A supply of exactly what the range costs maps the whole range. -/
theorem mapRange_granted {w : World α} {ps : List Word} {a' : α} (h : Shape w.mem roots) (hr : root ∈ roots)
    (hnull : root ≠ 0#64) (hB : Built w.mem root B) (hva : isPageAligned va = true) (hpa : isPageAligned pa = true)
    (hfit : va.toNat + size.toNat + 4095 < 2 ^ 64) (hshort : pageCount size ≤ 2 ^ 27)
    (hfree : ∀ j < pageCount size, pteValid (entryAt w.mem root (pageAddr va j)) = false)
    (hg : Grants allocPage 0#64 w.src ps a') (hfresh : FreshPages (tables w.mem roots) ps)
    (hcount : ps.length + B.card = (B ∪ routes va (pageCount size)).card) (flags : Word) :
    ∃ m', mapRange allocPage w root va pa size flags = some (true, ⟨m', a'⟩) ∧ Shape m' roots ∧
      tables m' roots = tables w.mem roots ∪ {p | p ∈ ps} ∧ Built m' root (B ∪ routes va (pageCount size)) ∧
      PrefixMapped roots root va pa flags w.mem (pageCount size) m' := by
  have hlt := (alignUp_range hva hfit).2
  have hinit : Underway allocPage roots root va pa flags (pageCount size) B w ps a' 0 w := by
    have hnone : B ∪ routes va 0 = B := Finset.union_empty B
    refine ⟨h, ?_, PrefixMapped.zero, [], ps, rfl, (union_nil _).symm, hg, ?_⟩
    · rw [hnone]; exact hB
    · rw [hnone]; exact hcount
  have hstep : ∀ k w₁, k < pageCount size → Underway allocPage roots root va pa flags (pageCount size) B w ps a' k w₁ →
      ∃ w₂, mapPage allocPage w₁ root (pageAddr va k) (pageAddr pa k) flags = some (true, w₂) ∧
        Underway allocPage roots root va pa flags (pageCount size) B w ps a' (k + 1) w₂ :=
    fun k w₁ hk hU => hU.step hr hnull hva hpa hlt hshort hfree hfresh hk
  obtain ⟨ok, w', hrange, hall, hsome⟩ := mapRange_pages
    (P := Underway allocPage roots root va pa flags (pageCount size) B w ps a') hva hpa hfit flags (fun k w₁ hk hU => by
      obtain ⟨w₂, hmap, hU'⟩ := hstep k w₁ hk hU
      exact ⟨true, w₂, hmap, fun _ => hU'⟩) hinit
  cases ok with
  | false =>
      -- a failing call contradicts the step lemma
      obtain ⟨k, hk, wk, hU, hfail⟩ := hsome rfl
      obtain ⟨w₂, hmap, _⟩ := hstep k wk hk hU
      rw [hmap] at hfail
      exact absurd hfail (by simp)
  | true =>
      obtain ⟨hshape, hbuilt, hmapped, qs, rest, rfl, htab, hgrest, hleft⟩ := hall rfl
      obtain rfl : rest = [] := List.length_eq_zero_iff.mp (by omega)
      cases hgrest
      rw [List.append_nil]
      exact ⟨w'.mem, hrange, hshape, htab, hbuilt, hmapped⟩

end Arch
end RiscCore
