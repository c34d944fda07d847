import RiscCore.Mm.KernelAddressSpace

/-!
# `Mm.PublishedTable` — which kernel table is published

`kernel_address_space_init` checks the root it allocates but none of the three mapping calls, so it publishes
whatever they left. Under any allocator each call leaves a prefix of its region (`identity_stage`), and prefixes of
disjoint regions do not make up for each other: the table is complete exactly when all three calls succeeded, that
is when the allocator had all 69 pages.
-/

namespace RiscCore
namespace Mm

open Pmm Arch Memmap Forest Runs Supply

variable {α : Type} {allocPage : AllocPage α} {I : Set Word → α → Prop} {root va size a : Word} {m : Mem}

/-- **One region under any allocator.** The first `k` pages are mapped; all of them only at the full cost. -/
theorem identity_stage (hok : AllocOk allocPage I) {w : World α} (h : Shape w.mem {root})
    (hI : I (tables w.mem {root}) w.src) (hva : isPageAligned va = true)
    (hhi : va.toNat + pageCount size * 4096 ≤ 2 ^ 39) (flags : Word) :
    ∃ ok w' k, mapRange allocPage w root va va size flags = some (ok, w') ∧ Shape w'.mem {root} ∧
      I (tables w'.mem {root}) w'.src ∧ k ≤ pageCount size ∧
      (∀ a, a.toNat < 2 ^ 39 → entryAt w'.mem root a =
        if InPages va k a then makePte (alignDown a) (flags ||| pteV) else entryAt w.mem root a) ∧
      (k = pageCount size → ∀ B, Built w.mem root B → Built w'.mem root (B ∪ routes va (pageCount size)) ∧
        ∃ ps, Grants allocPage 0#64 w.src ps w'.src ∧ ps.length + B.card = (B ∪ routes va (pageCount size)).card) := by
  have hround : size.toNat ≤ pageCount size * 4096 := by rw [pageCount]; omega
  have hfit : va.toNat + size.toNat + 4095 < 2 ^ 64 := by omega
  have hmem := Set.mem_singleton root
  obtain ⟨ok, w', k, hrange, h', hI', _, hp, hk, hall, hsome⟩ := mapRange_maps hok h hI hmem hva hva hfit flags
  have hhi' : va.toNat + k * 4096 ≤ 2 ^ 39 :=
    Nat.le_trans (Nat.add_le_add_left (Nat.mul_le_mul_right _ hk) _) hhi
  refine ⟨ok, w', k, hrange, h', hI', hk, fun a ha => hp.identity hmem hva hhi' ha, fun hfull B hB => ?_⟩
  cases ok with
  | true =>
      obtain ⟨rfl, hmaps⟩ := hall rfl
      exact hmaps.granted hok h hI hmem hB
  | false => exact absurd hfull (Nat.ne_of_lt (hsome rfl).1)

/-- An empty entry of a non-null address is not an identity mapping. -/
theorem not_identity (h : Shape m {root}) (hnull : root ≠ 0#64) (ha : a ≠ 0#64) (he : entryAt m root a = 0#64) :
    virtToPhys m root a ≠ a := by
  rw [virtToPhys_spec h (Set.mem_singleton root) hnull, he]
  exact ha.symm

/-- The first page that is missing shows. -/
theorem full_of_identity (h : Shape m {root}) (hnull : root ≠ 0#64) {k n : Nat} (hk : k ≤ n)
    (hfit : va.toNat + n * 4096 < 2 ^ 64) (hva : 0 < va.toNat)
    (hleft : ∀ a, InPages va n a → ¬ InPages va k a → entryAt m root a = 0#64)
    (hid : k < n → virtToPhys m root (pageAddr va k) = pageAddr va k) : k = n := by
  rcases Nat.lt_or_eq_of_le hk with hlt | heq
  · have haddr := FrameSet.pageAddr_toNat_of_le hfit hk
    have hne : pageAddr va k ≠ 0#64 := by
      intro hzero
      rw [hzero] at haddr
      simp only [BitVec.toNat_ofNat] at haddr
      omega
    have hent : entryAt m root (pageAddr va k) = 0#64 := by
      apply hleft _ (inPages_pageAddr hfit hlt)
      unfold InPages
      omega
    exact absurd (hid hlt) (not_identity h hnull hne hent)
  · exact heq

/-- Every address of the three regions is mapped to itself. -/
def Complete (m : Mem) (root : Word) : Prop :=
  ∀ a, kDram.Contains a ∨ kUart0.Contains a ∨ kClint.Contains a → virtToPhys m root a = a

theorem contains_dram : kDram.Contains a ↔ InPages kDram.base 32768 a := Iff.rfl

theorem contains_clint : kClint.Contains a ↔ InPages kClint.base 16 a := Iff.rfl

theorem contains_uart (h : kUart0.Contains a) : InPages kUart0.base 1 a :=
  ⟨h.1, Nat.lt_of_lt_of_le h.2 (by decide)⟩

/-- A table of the full kernel mapping is complete. -/
theorem KernelTable.complete (h : KernelTable m root) : Complete m root := by
  have hdevice : ∀ a, InPages kUart0.base 1 a ∨ InPages kClint.base 16 a → virtToPhys m root a = a :=
    fun a ha => (h.mapped (kernel_below (Or.inr ha)) (kernelMapping_device ha) (by decide) (by decide)).1
  rintro a (hdram | huart | hclint)
  · rw [contains_dram] at hdram
    exact (h.mapped (kernel_below (Or.inl hdram)) (kernelMapping_dram hdram) (by decide) (by decide)).1
  · exact hdevice a (Or.inl (contains_uart huart))
  · exact hdevice a (Or.inr (contains_clint.mp hclint))

/-- **Prefixes of disjoint regions do not make up for each other**: a table of three prefixes is complete only if
    each is its whole region. -/
theorem full_of_complete (h : Shape m {root}) (hnull : root ≠ 0#64) {e₁ e₂ e₃ : Word → Pte} {k₁ k₂ k₃ : Nat}
    (hk₁ : k₁ ≤ 32768) (hk₂ : k₂ ≤ 1) (hk₃ : k₃ ≤ 16)
    (hent : ∀ a, a.toNat < 2 ^ 39 → entryAt m root a = if InPages kClint.base k₃ a then e₃ a
      else if InPages kUart0.base k₂ a then e₂ a else if InPages kDram.base k₁ a then e₁ a else 0#64)
    (hcomplete : Complete m root) : k₁ = 32768 ∧ k₂ = 1 ∧ k₃ = 16 := by
  obtain ⟨bdram, buart, bclint⟩ := kernel_bases
  refine ⟨?_, ?_, ?_⟩
  · have hfit : kDram.base.toNat + 32768 * 4096 < 2 ^ 64 := by decide
    refine full_of_identity h hnull hk₁ hfit (by decide) (fun a hin hout => ?_) fun hlt => ?_
    · unfold InPages at hin
      have hclint : ¬ InPages kClint.base k₃ a := by unfold InPages; omega
      have huart : ¬ InPages kUart0.base k₂ a := by unfold InPages; omega
      rw [hent a (by omega), if_neg hclint, if_neg huart, if_neg hout]
    · exact hcomplete _ (Or.inl (contains_dram.mpr (inPages_pageAddr hfit hlt)))
  · have hfit : kUart0.base.toNat + 1 * 4096 < 2 ^ 64 := by decide
    refine full_of_identity h hnull hk₂ hfit (by decide) (fun a hin hout => ?_) fun hlt => ?_
    · unfold InPages at hin
      have hclint : ¬ InPages kClint.base k₃ a := by unfold InPages; omega
      have hdram : ¬ InPages kDram.base k₁ a := by unfold InPages; omega
      rw [hent a (by omega), if_neg hclint, if_neg hout, if_neg hdram]
    · obtain rfl : k₂ = 0 := Nat.lt_one_iff.mp hlt
      rw [pageAddr_zero]
      exact hcomplete _ (Or.inr (Or.inl ⟨Nat.le_refl _, by decide⟩))
  · have hfit : kClint.base.toNat + 16 * 4096 < 2 ^ 64 := by decide
    refine full_of_identity h hnull hk₃ hfit (by decide) (fun a hin hout => ?_) fun hlt => ?_
    · unfold InPages at hin
      have huart : ¬ InPages kUart0.base k₂ a := by unfold InPages; omega
      have hdram : ¬ InPages kDram.base k₁ a := by unfold InPages; omega
      rw [hent a (by omega), if_neg hout, if_neg huart, if_neg hdram]
    · exact hcomplete _ (Or.inr (Or.inr (contains_clint.mpr (inPages_pageAddr hfit hlt))))

/-- **`kernel_address_space_init` under any allocator.** It never faults; without a root it publishes null, and
    if what it publishes is complete the allocator had 69 pages. -/
theorem init_outcome (hok : AllocOk allocPage I) {k : KernelSpace α} (hI : I ∅ k.world.src) :
    ∃ k', kernelAddressSpaceInit allocPage k = some k' ∧
      ((kernelPageTable k' = 0#64 ∧ ∃ a', allocPage k.world.src = some (0#64, a')) ∨
        (kernelPageTable k' ≠ 0#64 ∧ (Complete k'.world.mem (kernelPageTable k') →
          Supplies allocPage 0#64 69 k.world.src))) := by
  obtain ⟨root, a₀, halloc, hcase⟩ := hok.call hI
  rcases hcase with ⟨rfl, _⟩ | ⟨hroot, _, _, hI₀⟩
  · refine ⟨⟨{ k.world with src := a₀ }, 0#64⟩, ?_, Or.inl ⟨rfl, a₀, halloc⟩⟩
    simp [kernelAddressSpaceInit, allocPageTable, halloc]
  obtain ⟨hdram, huart, hclint⟩ := kernel_pages
  obtain ⟨bdram, buart, bclint⟩ := kernel_bases
  obtain ⟨cost₁, cost₂, cost₃⟩ := kernel_cost
  obtain ⟨auart, aclint⟩ := devices_aligned
  obtain ⟨hshape₀, htab₀, hbuilt₀, hent₀⟩ := root_planted k.world.mem root
  generalize hm₀ : zeroPage k.world.mem root = m₀ at hshape₀ htab₀ hbuilt₀ hent₀
  rw [insert_empty_eq, ← htab₀] at hI₀
  have hfit₁ : kDram.base.toNat + pageCount kDram.size * 4096 ≤ 2 ^ 39 := by rw [hdram, bdram]; decide
  have hfit₂ : kUart0.base.toNat + pageCount (alignUp kUart0.size) * 4096 ≤ 2 ^ 39 := by rw [huart, buart]; decide
  have hfit₃ : kClint.base.toNat + pageCount (alignUp kClint.size) * 4096 ≤ 2 ^ 39 := by rw [hclint, bclint]; decide
  obtain ⟨ok₁, w₁, k₁, hrange₁, hshape₁, hI₁, hk₁, hent₁, hfull₁⟩ :=
    identity_stage (w := ⟨m₀, a₀⟩) hok hshape₀ hI₀ (by decide) hfit₁ (pteR ||| pteW ||| pteX ||| pteA ||| pteD)
  obtain ⟨ok₂, w₂, k₂, hrange₂, hshape₂, hI₂, hk₂, hent₂, hfull₂⟩ :=
    identity_stage hok hshape₁ hI₁ auart hfit₂ (pteR ||| pteW ||| pteA ||| pteD)
  obtain ⟨ok₃, w₃, k₃, hrange₃, hshape₃, hI₃, hk₃, hent₃, hfull₃⟩ :=
    identity_stage hok hshape₂ hI₂ aclint hfit₃ (pteR ||| pteW ||| pteA ||| pteD)
  refine ⟨⟨w₃, root⟩, ?_, Or.inr ⟨hroot, fun hcomplete => ?_⟩⟩
  · simp [kernelAddressSpaceInit, allocPageTable, halloc, hroot, hm₀, hrange₁, mapDeviceRegion_eq auart, hrange₂,
      mapDeviceRegion_eq aclint, hrange₃]
  have hent : ∀ a, a.toNat < 2 ^ 39 → entryAt w₃.mem root a = _ := fun a ha => by
    rw [hent₃ a ha, hent₂ a ha, hent₁ a ha, hent₀]
  rw [hdram] at hk₁
  rw [huart] at hk₂
  rw [hclint] at hk₃
  obtain ⟨hend₁, hend₂, hend₃⟩ := full_of_complete hshape₃ hroot hk₁ hk₂ hk₃ hent hcomplete
  obtain ⟨hbuilt₁, ps₁, hg₁, hlen₁⟩ := hfull₁ (hend₁.trans hdram.symm) ∅ hbuilt₀
  obtain ⟨hbuilt₂, ps₂, hg₂, hlen₂⟩ := hfull₂ (hend₂.trans huart.symm) _ hbuilt₁
  obtain ⟨_, ps₃, hg₃, hlen₃⟩ := hfull₃ (hend₃.trans hclint.symm) _ hbuilt₂
  refine ⟨root :: (ps₁ ++ ps₂ ++ ps₃), w₃.src, ?_, Grants.cons halloc hroot ((hg₁.append hg₂).append hg₃)⟩
  rw [cost₁] at hlen₁ hlen₂
  rw [cost₂] at hlen₂ hlen₃
  rw [cost₃] at hlen₃
  rw [Finset.card_empty] at hlen₁
  rw [List.length_cons, List.length_append, List.length_append]
  omega

/-- **When the published table is complete.** The function never faults, and it publishes null or a complete table
    if and only if the first call of `alloc_page` returns null or the first 69 calls all return pages. -/
theorem published_table_complete_iff (hok : AllocOk allocPage I) {k : KernelSpace α} (hI : I ∅ k.world.src) :
    ∃ k', kernelAddressSpaceInit allocPage k = some k' ∧
      ((kernelPageTable k' = 0#64 ∨ Complete k'.world.mem (kernelPageTable k')) ↔
        (∃ a', allocPage k.world.src = some (0#64, a')) ∨ Supplies allocPage 0#64 69 k.world.src) := by
  obtain ⟨k', hinit, hcase⟩ := init_outcome hok hI
  refine ⟨k', hinit, ?_⟩
  constructor
  · rcases hcase with ⟨_, hrefused⟩ | ⟨hroot, hneeds⟩
    · exact fun _ => Or.inl hrefused
    · rintro (hnull | hcomplete)
      · exact absurd hnull hroot
      · exact Or.inr (hneeds hcomplete)
  · rintro (⟨a', hrefused⟩ | hsup)
    · rcases hcase with ⟨hnull, _⟩ | ⟨hroot, _⟩
      · exact Or.inl hnull
      · -- without a first page there is no root
        have hnone : kernelAddressSpaceInit allocPage k = some ⟨{ k.world with src := a' }, 0#64⟩ := by
          simp [kernelAddressSpaceInit, allocPageTable, hrefused]
        rw [hinit] at hnone
        rw [Option.some.inj hnone] at hroot
        exact absurd rfl hroot
    · -- the contract says that the 69 pages are fresh
      obtain ⟨ps, a', hg, hfresh, hend⟩ := grants_or_null (fun p => isPageAligned p = true) hok.call 69 hI
      rcases hend with ⟨hlen, _⟩ | ⟨hlt, _, hrefused, _⟩
      · obtain ⟨k'', hinit', _, htable, _⟩ := init_granted hg hlen hfresh
        obtain rfl := Option.some.inj (hinit.symm.trans hinit')
        exact Or.inr htable.complete
      · exact absurd hsup (hg.not_supplies hrefused hlt)

/-- With the first 69 pages of DRAM the published table is complete. -/
theorem published_table_complete_test :
    ∃ k', kernelAddressSpaceInit playback ⟨⟨fun _ _ => 0#64, firstPages⟩, 0#64⟩ = some k' ∧
      (kernelPageTable k' = 0#64 ∨ Complete k'.world.mem (kernelPageTable k')) := by
  have hnodup : firstPages.Nodup := by decide +kernel
  have hplay : Playable ∅ firstPages := by
    refine ⟨?_, fun p hp _ => ⟨(firstPages_ok p hp).2, Set.notMem_empty p⟩⟩
    exact hnodup.imp fun hne _ => hne.symm
  obtain ⟨k', hinit, hiff⟩ :=
    published_table_complete_iff (k := ⟨⟨fun _ _ => 0#64, firstPages⟩, 0#64⟩) playback_ok hplay
  have hlen : firstPages.length = 69 := by rw [firstPages, List.length_map, List.length_range]
  exact ⟨k', hinit, hiff.mpr (Or.inr ⟨firstPages, [], hlen, playback_grants _ fun p hp => (firstPages_ok p hp).1⟩)⟩

/-- An allocator of sixteen pages has a root to give and no more: the root is published, and the first byte of
    DRAM is not mapped. -/
theorem partial_table_published : ∃ s k', pmmInit testManaged [] = some s ∧
    kernelAddressSpaceInit Pmm.allocPage ⟨⟨fun _ _ => 0#64, s⟩, 0#64⟩ = some k' ∧
    kernelPageTable k' = 0x80000000#64 ∧ kDram.Contains 0x80000000#64 ∧
    virtToPhys k'.world.mem (kernelPageTable k') 0x80000000#64 = 0#64 := by
  have hrun : ((pmmInit testManaged []).bind fun s =>
      (kernelAddressSpaceInit Pmm.allocPage ⟨⟨fun _ _ => 0#64, s⟩, 0#64⟩).map fun k' =>
        (kernelPageTable k', virtToPhys k'.world.mem (kernelPageTable k') 0x80000000#64)) =
      some (0x80000000#64, 0#64) := by decide +kernel
  obtain ⟨s, hs, hinit⟩ := Option.bind_eq_some_iff.mp hrun
  obtain ⟨k', hk', hfacts⟩ := Option.map_eq_some_iff.mp hinit
  obtain ⟨hroot, htrans⟩ := Prod.mk.inj hfacts
  exact ⟨s, k', hs, hk', hroot, ⟨Nat.le_refl _, by decide⟩, htrans⟩

end Mm
end RiscCore
