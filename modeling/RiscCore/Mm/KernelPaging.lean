import RiscCore.Arch.Mmu
import RiscCore.Mm.PlatformInit

/-!
# `Mm.KernelPaging` — the kernel's address space once paging is on

`kmain` publishes the kernel's table and hands it to `enable_sv39` without asking how complete it is. Whatever
the allocator had to give, the hart never leaves the identity and never leaves the three regions, user mode
reaches nothing, and no device page is executable (`kernel_paging`); with 69 pages everything in them is reached.
-/

namespace RiscCore
namespace Mm

open Pmm Arch Memmap Forest Runs Supply
open Sv39Mmu (Privilege Access)

/-- The first pages of each region, mapped to themselves. -/
def partMapping (dram uart clint : Nat) (a : Word) : Option (Word × Word) :=
  if InPages kClint.base clint a then some (alignDown a, pteR ||| pteW ||| pteA ||| pteD)
  else if InPages kUart0.base uart a then some (alignDown a, pteR ||| pteW ||| pteA ||| pteD)
  else if InPages kDram.base dram a then some (alignDown a, pteR ||| pteW ||| pteX ||| pteA ||| pteD)
  else none

/-- What the kernel may do at `va`: anything in DRAM, and anything but run code on the pages of the devices. -/
def KernelMay (p : Privilege) (access : Access) (va : Word) : Prop :=
  p.user = false ∧ (kDram.Contains va ∨ ((InPages kUart0.base 1 va ∨ kClint.Contains va) ∧ access ≠ .fetch))

variable {α : Type} {allocPage : AllocPage α} {I : Set Word → α → Prop} {root va a : Word} {m : Mem}
  {dram uart clint : Nat} {p : Privilege} {access : Access}

theorem inPages_mono {n n' : Nat} (h : InPages root n a) (hle : n ≤ n') : InPages root n' a := by
  have hend : root.toNat + n * 4096 ≤ root.toNat + n' * 4096 :=
    Nat.add_le_add_left (Nat.mul_le_mul_right 4096 hle) _
  exact ⟨h.1, Nat.lt_of_lt_of_le h.2 hend⟩

/-- **The published table, under any allocator**: prefixes of the three regions. -/
theorem init_prefixes (hok : AllocOk allocPage I) {k : KernelSpace α} (hI : I ∅ k.world.src) :
    ∃ k', kernelAddressSpaceInit allocPage k = some k' ∧ (kernelPageTable k' = 0#64 ∨
      (Shape k'.world.mem {kernelPageTable k'} ∧ I (tables k'.world.mem {kernelPageTable k'}) k'.world.src ∧
        ∃ dram uart clint, dram ≤ 32768 ∧ uart ≤ 1 ∧ clint ≤ 16 ∧ ∀ a, a.toNat < 2 ^ 39 →
          entryAt k'.world.mem (kernelPageTable k') a = encode (partMapping dram uart clint a))) := by
  obtain ⟨root, a₀, halloc, hcase⟩ := hok.call hI
  rcases hcase with ⟨rfl, _⟩ | ⟨hroot, _, _, hI₀⟩
  · refine ⟨⟨{ k.world with src := a₀ }, 0#64⟩, ?_, Or.inl rfl⟩
    simp [kernelAddressSpaceInit, allocPageTable, halloc]
  obtain ⟨hdram, huart, hclint⟩ := kernel_pages
  obtain ⟨bdram, buart, bclint⟩ := kernel_bases
  obtain ⟨auart, aclint⟩ := devices_aligned
  obtain ⟨hshape₀, htab₀, _, hent₀⟩ := root_planted k.world.mem root
  generalize hm₀ : zeroPage k.world.mem root = m₀ at hshape₀ htab₀ hent₀
  rw [insert_empty_eq, ← htab₀] at hI₀
  have hfit₁ : kDram.base.toNat + pageCount kDram.size * 4096 ≤ 2 ^ 39 := by rw [hdram, bdram]; decide
  have hfit₂ : kUart0.base.toNat + pageCount (alignUp kUart0.size) * 4096 ≤ 2 ^ 39 := by rw [huart, buart]; decide
  have hfit₃ : kClint.base.toNat + pageCount (alignUp kClint.size) * 4096 ≤ 2 ^ 39 := by rw [hclint, bclint]; decide
  obtain ⟨ok₁, w₁, dram, hrange₁, hshape₁, hI₁, hk₁, hent₁, _⟩ :=
    identity_stage (w := ⟨m₀, a₀⟩) hok hshape₀ hI₀ (by decide) hfit₁ (pteR ||| pteW ||| pteX ||| pteA ||| pteD)
  obtain ⟨ok₂, w₂, uart, hrange₂, hshape₂, hI₂, hk₂, hent₂, _⟩ :=
    identity_stage hok hshape₁ hI₁ auart hfit₂ (pteR ||| pteW ||| pteA ||| pteD)
  obtain ⟨ok₃, w₃, clint, hrange₃, hshape₃, hI₃, hk₃, hent₃, _⟩ :=
    identity_stage hok hshape₂ hI₂ aclint hfit₃ (pteR ||| pteW ||| pteA ||| pteD)
  refine ⟨⟨w₃, root⟩, ?_, Or.inr ⟨hshape₃, hI₃, dram, uart, clint, hdram ▸ hk₁, huart ▸ hk₂, hclint ▸ hk₃, ?_⟩⟩
  · simp [kernelAddressSpaceInit, allocPageTable, halloc, hroot, hm₀, hrange₁, mapDeviceRegion_eq auart, hrange₂,
      mapDeviceRegion_eq aclint, hrange₃]
  intro a ha
  show entryAt w₃.mem root a = _
  rw [hent₃ a ha, hent₂ a ha, hent₁ a ha, hent₀, partMapping]
  split
  · rfl
  split
  · rfl
  split
  · rfl
  · rfl

/-! ## What an access sees of a prefix -/

theorem partMapping_storable {x : Word × Word} (hx : partMapping dram uart clint a = some x) : Storable x := by
  have hpage : isPageAligned (alignDown a) = true := isPageAligned_iff.mpr (alignDown_aligned a)
  have hdevice : Storable (alignDown a, pteR ||| pteW ||| pteA ||| pteD) :=
    ⟨hpage, (by decide : (pteR ||| pteW ||| pteA ||| pteD).toNat < 2 ^ 10),
      (by decide : pteLeaf (pteR ||| pteW ||| pteA ||| pteD) = true)⟩
  have hmemory : Storable (alignDown a, pteR ||| pteW ||| pteX ||| pteA ||| pteD) :=
    ⟨hpage, (by decide : (pteR ||| pteW ||| pteX ||| pteA ||| pteD).toNat < 2 ^ 10),
      (by decide : pteLeaf (pteR ||| pteW ||| pteX ||| pteA ||| pteD) = true)⟩
  unfold partMapping at hx
  split at hx
  · exact Option.some.inj hx ▸ hdevice
  split at hx
  · exact Option.some.inj hx ▸ hdevice
  split at hx
  · exact Option.some.inj hx ▸ hmemory
  · cases hx

/-- An entry depends on the page number only. -/
theorem entryAt_congr {b : Word} (h : vpn a = vpn b) : entryAt m root a = entryAt m root b := by
  obtain ⟨h2, h1, h0⟩ := vpn_eq_iff.mp h
  rw [entryAt, entryAt, leafTable, leafTable, h2, h1, h0]

/-- The regions lie in the lower half: a canonical address of the upper half shares its page number with nothing
    that is mapped. -/
theorem partMapping_entry (hdram : dram ≤ 32768) (huart : uart ≤ 1) (hclint : clint ≤ 16)
    (hent : ∀ a, a.toNat < 2 ^ 39 → entryAt m root a = encode (partMapping dram uart clint a))
    (hcan : Sv39Mmu.canonical va = true) : entryAt m root va = encode (partMapping dram uart clint va) := by
  obtain ⟨bdram, buart, bclint⟩ := kernel_bases
  rcases Sv39Mmu.canonical_iff.mp hcan with hlow | hhigh
  · exact hent va (by omega)
  · have hmax := va.isLt
    have hval : (va &&& Align.lowMask 64 39).toNat = va.toNat % 2 ^ 39 := Align.and_lowMask_toNat va 39
    have hvpn : vpn va = vpn (va &&& Align.lowMask 64 39) := by
      apply BitVec.eq_of_toNat_eq
      rw [vpn_toNat, vpn_toNat, hval]
      omega
    have hempty : ∀ b : Word, 2 ^ 38 ≤ b.toNat → partMapping dram uart clint b = none := by
      intro b hb
      have hc : ¬ InPages kClint.base clint b := by unfold InPages; omega
      have hu : ¬ InPages kUart0.base uart b := by unfold InPages; omega
      have hd : ¬ InPages kDram.base dram b := by unfold InPages; omega
      rw [partMapping, if_neg hc, if_neg hu, if_neg hd]
    rw [entryAt_congr hvpn, hent _ (by omega), hempty va (by omega), hempty _ (by omega)]

theorem permits_dram (p : Privilege) (access : Access) :
    Sv39Mmu.permits p access (pteR ||| pteW ||| pteX ||| pteA ||| pteD) = !p.user := by
  obtain ⟨user, sum, mxr⟩ := p
  cases user <;> cases access <;> rfl

theorem permits_device (p : Privilege) (access : Access) :
    Sv39Mmu.permits p access (pteR ||| pteW ||| pteA ||| pteD) = (!p.user && access != .fetch) := by
  obtain ⟨user, sum, mxr⟩ := p
  cases user <;> cases access <;> rfl

/-- A page mapped to itself, below 2^38. -/
theorem obtains_identity {flags : Word} (hlow : va.toNat < 2 ^ 38) (hR : flags.getLsbD 1 = true) (pa : Word) :
    obtains p access (some (alignDown va, flags)) va = some pa ↔
      Sv39Mmu.permits p access flags = true ∧ pa = va := by
  have hcan : Sv39Mmu.canonical va = true := Sv39Mmu.canonical_iff.mpr (Or.inl hlow)
  have hbound : (alignDown va).toNat < 2 ^ 56 := by rw [alignDown_toNat]; omega
  rw [obtains, Option.ite_none_right_eq_some, alignDown_add_offset, Option.some.injEq]
  constructor
  · rintro ⟨⟨_, _, _, hp⟩, hpa⟩
    exact ⟨hp, hpa.symm⟩
  · rintro ⟨hp, hpa⟩
    exact ⟨⟨hcan, hbound, fun _ => hR, hp⟩, hpa.symm⟩

/-- **What an access obtains from the prefixes.** -/
theorem obtains_part (hdram : dram ≤ 32768) (huart : uart ≤ 1) (hclint : clint ≤ 16) (pa : Word) :
    obtains p access (partMapping dram uart clint va) va = some pa ↔ pa = va ∧ p.user = false ∧
      (InPages kDram.base dram va ∨
        ((InPages kUart0.base uart va ∨ InPages kClint.base clint va) ∧ access ≠ .fetch)) := by
  obtain ⟨bdram, buart, bclint⟩ := kernel_bases
  by_cases hd : InPages kDram.base dram va
  · have hc : ¬ InPages kClint.base clint va := by unfold InPages at hd ⊢; omega
    have hu : ¬ InPages kUart0.base uart va := by unfold InPages at hd ⊢; omega
    have hlow : va.toNat < 2 ^ 38 := by unfold InPages at hd; omega
    rw [partMapping, if_neg hc, if_neg hu, if_pos hd, obtains_identity hlow (by decide), permits_dram,
      Bool.not_eq_true']
    exact ⟨fun h => ⟨h.2, h.1, Or.inl hd⟩, fun h => ⟨h.2.1, h.1⟩⟩
  · by_cases hdev : InPages kUart0.base uart va ∨ InPages kClint.base clint va
    · have hlow : va.toNat < 2 ^ 38 := by unfold InPages at hdev; omega
      have hmap : partMapping dram uart clint va = some (alignDown va, pteR ||| pteW ||| pteA ||| pteD) := by
        unfold partMapping
        split
        · rfl
        · rename_i hc
          rw [if_pos (hdev.resolve_right hc)]
      rw [hmap, obtains_identity hlow (by decide), permits_device, Bool.and_eq_true, Bool.not_eq_true',
        bne_iff_ne]
      exact ⟨fun h => ⟨h.2, h.1.1, Or.inr ⟨hdev, h.1.2⟩⟩, fun h => ⟨⟨h.2.1, (h.2.2.resolve_left hd).2⟩, h.1⟩⟩
    · have hmap : partMapping dram uart clint va = none := by
        rw [partMapping, if_neg fun h => hdev (Or.inr h), if_neg fun h => hdev (Or.inl h), if_neg hd]
      rw [hmap]
      constructor
      · intro h
        cases h
      · rintro ⟨_, _, hin | ⟨hin, _⟩⟩
        · exact absurd hin hd
        · exact absurd hin hdev

/-- The hart's view of a published table that maps the prefixes. -/
theorem kernel_translate_iff (h : Shape m {root}) (hphys : ∀ t ∈ tables m {root}, Physical t)
    (hdram : dram ≤ 32768) (huart : uart ≤ 1) (hclint : clint ≤ 16)
    (hent : ∀ a, a.toNat < 2 ^ 39 → entryAt m root a = encode (partMapping dram uart clint a)) (pa : Word) :
    Sv39Mmu.translate p access (pages m) (makeSatp root) va = some pa ↔ pa = va ∧ p.user = false ∧
      (InPages kDram.base dram va ∨
        ((InPages kUart0.base uart va ∨ InPages kClint.base clint va) ∧ access ≠ .fetch)) := by
  rw [← obtains_part hdram huart hclint]
  by_cases hcan : Sv39Mmu.canonical va = true
  · rw [hart_obtains h hphys (Set.mem_singleton root) (fun y hy => partMapping_storable hy)
      (partMapping_entry hdram huart hclint hent hcan)]
  · -- neither side accepts the address
    constructor
    · intro ht
      exact absurd ((hart_translate_iff h hphys (Set.mem_singleton root)).mp ht).1 hcan
    · intro ho
      cases hx : partMapping dram uart clint va with
      | none => rw [hx] at ho; cases ho
      | some y =>
          rw [hx] at ho
          exact absurd (Option.ite_none_right_eq_some.mp ho).1.1 hcan

/-- **Paging is on, in whatever state the table is.** If the allocator's pages lie below `2 ^ 56` and the root is not
    null, then through the table that `kernel_address_space_init` publishes the hart translates no address to another
    one, reaches nothing outside DRAM and the pages of the two devices, nothing in user mode, and runs no code on a
    device page. If the allocator has 69 pages it reaches all the rest. -/
theorem kernel_paging (hok : AllocOk allocPage I)
    (hbound : ∀ U a, I U a → ∀ q a', allocPage a = some (q, a') → q.toNat < 2 ^ 56) {k : KernelSpace α}
    (hI : I ∅ k.world.src) :
    ∃ k', kernelAddressSpaceInit allocPage k = some k' ∧
      (kernelPageTable k' ≠ 0#64 → ∀ p access va pa,
        Sv39Mmu.translate p access (pages k'.world.mem) (makeSatp (kernelPageTable k')) va = some pa →
          pa = va ∧ KernelMay p access va) ∧
      (Supplies allocPage 0#64 69 k.world.src → ∀ p access va, KernelMay p access va →
        Sv39Mmu.translate p access (pages k'.world.mem) (makeSatp (kernelPageTable k')) va = some va) := by
  have hok' : AllocOk allocPage (Located I) := hok.bounded hbound
  have hI' : Located I ∅ k.world.src := ⟨hI, fun q hq => absurd hq (Set.notMem_empty q)⟩
  obtain ⟨k', hinit, hcase⟩ := init_prefixes hok' hI'
  refine ⟨k', hinit, fun hroot => ?_, fun hsup => ?_⟩
  · obtain ⟨hshape, hloc, dram, uart, clint, hdram, huart, hclint, hent⟩ := hcase.resolve_left hroot
    intro p access va pa ht
    obtain ⟨rfl, huser, hin⟩ := (kernel_translate_iff hshape hloc.2 hdram huart hclint hent pa).mp ht
    refine ⟨rfl, huser, ?_⟩
    rcases hin with hin | ⟨hin, hacc⟩
    · exact Or.inl (contains_dram.mpr (inPages_mono hin hdram))
    · exact Or.inr ⟨hin.imp (fun h => inPages_mono h huart) (fun h => contains_clint.mpr (inPages_mono h hclint)), hacc⟩
  · -- the 69 pages complete the table
    obtain ⟨ps, a', hg, hfresh, hend⟩ := grants_or_null (fun p => isPageAligned p = true) hok'.call 69 hI'
    rcases hend with ⟨hlen, _⟩ | ⟨hlt, _, hrefused, _⟩
    · obtain ⟨k'', hinit', _, htable, _⟩ := init_granted hg hlen hfresh
      obtain rfl := Option.some.inj (hinit.symm.trans hinit')
      obtain ⟨hshape, hloc, _⟩ := hcase.resolve_left htable.nonnull
      intro p access va ⟨huser, hin⟩
      refine (kernel_translate_iff hshape hloc.2 (Nat.le_refl _) (Nat.le_refl _) (Nat.le_refl _) htable.entries va).mpr
        ⟨rfl, huser, ?_⟩
      exact hin.imp contains_dram.mp fun h => ⟨h.1.imp id contains_clint.mp, h.2⟩
    · exact absurd hsup (hg.not_supplies hrefused hlt)

/-- An image of twelve pages. -/
def smallImage : Boot.Image := ⟨⟨0x4000, 0x1000, 0x1000, 0x2000⟩, by decide⟩

/-- With the allocator that `pmm_init()` leaves beside this image the kernel runs on in DRAM, and not on the UART. -/
theorem kernel_paging_test : ∃ s k', pmmInitPlatform smallImage.toSizes = some s ∧
    kernelAddressSpaceInit Pmm.allocPage ⟨⟨fun _ _ => 0#64, s⟩, 0#64⟩ = some k' ∧
    Sv39Mmu.translate ⟨false, false, false⟩ .fetch (pages k'.world.mem) (makeSatp (kernelPageTable k'))
      0x80000000#64 = some 0x80000000#64 ∧
    (kernelPageTable k' ≠ 0#64 → ∀ pa, Sv39Mmu.translate ⟨false, false, false⟩ .fetch (pages k'.world.mem)
      (makeSatp (kernelPageTable k')) 0x10000000#64 ≠ some pa) := by
  obtain ⟨s, hs, hI, hsupply⟩ := platform_start smallImage
  obtain ⟨k', hinit, hsound, hcomplete⟩ := kernel_paging (k := ⟨⟨fun _ _ => 0#64, s⟩, 0#64⟩) (holds_allocOk _ [])
    (platform_bounded smallImage) hI
  refine ⟨s, k', hs, hinit, ?_, fun hroot pa ht => ?_⟩
  · exact hcomplete (hsupply.mpr (by decide)) _ _ _ ⟨rfl, Or.inl ⟨Nat.le_refl _, by decide⟩⟩
  · obtain ⟨_, _, hin⟩ := hsound hroot _ _ _ _ ht
    rcases hin with hdram | ⟨_, hacc⟩
    · exact absurd hdram.1 (by decide)
    · exact absurd rfl hacc

end Mm
end RiscCore
