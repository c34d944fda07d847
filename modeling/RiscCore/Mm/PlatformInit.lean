import RiscCore.Arch.TableFrame
import RiscCore.Boot.Layout
import RiscCore.Mm.PublishedTable

/-!
# `Mm.PlatformInit` — the allocator that the kernel boots with (`kernel/mm/pmm_platform.cpp`)

`pmm_init()` manages all DRAM and reserves one range, from `kernel_start` to `kernel_end`. The image is whole pages
at the bottom of DRAM, so what is free afterwards are the home pages above it. Two things follow for every image
that fits: nothing that runs on this allocator writes into the image, and the kernel's page table is complete if
and only if the image leaves enough home pages.
-/

namespace RiscCore
namespace Mm

open Pmm Arch Memmap Runs Supply Boot

def platformManaged : PhysicalRange := ⟨kDram.base, kDram.size⟩

def platformReserved (s : Sizes) : List ReservedRange :=
  [⟨addr s.kernelStart, addr s.kernelEnd - addr s.kernelStart⟩]

/-- `pmm_init()` without arguments. -/
def pmmInitPlatform (s : Sizes) : Option Pmm := pmmInit platformManaged (platformReserved s)

/-- The pages of the image. -/
def imagePages (img : Image) : Nat := (img.kernelEnd - img.kernelStart) / 4096

/-! ## What is free after it -/

theorem platform_base : alignUp platformManaged.base = kDram.base := by decide

theorem platform_total : initTotal platformManaged = 32768 := by decide

theorem dram_base : kDram.base.toNat = 0x80000000 := rfl

/-- The one reserved range, on values. -/
theorem reserved_toNat (img : Image) : (addr img.kernelStart).toNat = 0x80000000 ∧
    (addr img.kernelEnd - addr img.kernelStart).toNat = img.kernelEnd - 0x80000000 := by
  have hstart : img.kernelStart = 0x80000000 := rfl
  have horder := (ordered img.toSizes).start
  have hend := addr_toNat img.end_le
  have hbase : (addr img.kernelStart).toNat = 0x80000000 := addr_toNat (by omega)
  have hle : addr img.kernelStart ≤ addr img.kernelEnd := by
    rw [BitVec.le_def]
    omega
  refine ⟨hbase, ?_⟩
  rw [BitVec.toNat_sub_of_le hle, hend, hbase]

theorem reserved_noWrap (img : Image) : ∀ r ∈ platformReserved img.toSizes, r.NoWrap := by
  intro r hr
  obtain rfl := List.mem_singleton.mp hr
  obtain ⟨hbase, hsize⟩ := reserved_toNat img
  have hend := img.end_le
  unfold ReservedRange.NoWrap
  dsimp only
  omega

theorem platform_page {i : Nat} (hi : i < 32768) : (pageAddr kDram.base i).toNat = 0x80000000 + i * 4096 := by
  rw [FrameSet.pageAddr_toNat_of_le (n := 32768) (by decide) (Nat.le_of_lt hi), dram_base]

/-- A page is reserved if it is one of the image's. -/
theorem platform_reserved_iff (img : Image) {i : Nat} (hi : i < 32768) :
    Reserved (platformReserved img.toSizes) (pageAddr kDram.base i) ↔ i < imagePages img := by
  obtain ⟨hbase, hsize⟩ := reserved_toNat img
  have hpage := platform_page hi
  have hord := ordered img.toSizes
  have horder := hord.start
  have haligned := hord.end_aligned
  have hstart : img.kernelStart = 0x80000000 := rfl
  unfold imagePages
  constructor
  · rintro ⟨r, hr, _, _, hhi⟩
    obtain rfl := List.mem_singleton.mp hr
    dsimp only at hhi
    omega
  · intro hlt
    refine ⟨_, List.mem_singleton.mpr rfl, fun hzero => ?_, ?_, ?_⟩
    · have hvalue := congrArg BitVec.toNat hzero
      rw [hsize, BitVec.toNat_ofNat] at hvalue
      omega
    · dsimp only
      omega
    · dsimp only
      omega

/-- **What is free after `pmm_init()`**: the home pages above the image. -/
theorem platform_free (img : Image) (i : Nat) :
    i ∈ (initFrames platformManaged (platformReserved img.toSizes)).free ↔
      i < 32768 ∧ IsHome i ∧ imagePages img ≤ i := by
  by_cases hi : i < 32768
  · rw [mem_initFrames (reserved_noWrap img) (by rw [platform_total]; exact hi), platform_base,
      platform_reserved_iff img hi, Nat.not_lt]
    exact ⟨fun h => ⟨hi, h⟩, fun h => h.2⟩
  · constructor
    · intro h
      exact absurd (FrameSet.free_lt _ i h) hi
    · exact fun h => absurd h.1 hi

/-- Whatever may be handed out lies above the image. -/
theorem grantable_above (img : Image) {q : Word}
    (hq : q ∈ Grantable (initFrames platformManaged (platformReserved img.toSizes))) :
    img.kernelEnd ≤ q.toNat ∧ q.toNat + 4096 ≤ 0x88000000 := by
  obtain ⟨i, _, rfl, hfree⟩ := hq
  obtain ⟨hi, _, hpages⟩ := (platform_free img i).mp hfree
  rw [initFrames_base, platform_base, platform_page hi]
  have horder := (ordered img.toSizes).start
  have haligned := (ordered img.toSizes).end_aligned
  have hstart : img.kernelStart = 0x80000000 := rfl
  unfold imagePages at hpages
  omega

/-- **The image is safe.** From the allocator that `pmm_init()` leaves, and through any permitted calls of the
    page-table code and the allocator's clients: nothing below `kernel_end` is written, and every page table and
    every page a client holds lies between the image and the end of DRAM. `Mem` is the page tables and the clients'
    pages: the allocator's own variables, `g_kernel_page_table` and the stack, which lie in the image, are not. -/
theorem image_untouched (img : Image) (mem : Mem) :
    ∃ s, pmmInitPlatform img.toSizes = some s ∧
      ∀ c, Reach Machine.step Machine.Permitted ⟨⟨mem, s⟩, [], []⟩ c →
        (∀ q : Word, q.toNat < img.kernelEnd → ∀ i, c.world.mem q i = mem q i) ∧
        (∀ r ∈ c.roots, ∀ level t, TableAt c.world.mem r level t →
          img.kernelEnd ≤ t.toNat ∧ t.toNat + 4096 ≤ 0x88000000) ∧
        ∀ p ∈ c.owned, img.kernelEnd ≤ p.toNat ∧ p.toNat + 4096 ≤ 0x88000000 := by
  obtain ⟨s, hs, hrep⟩ := pmmInit_rep platformManaged (platformReserved img.toSizes)
  refine ⟨s, hs, fun c hc => ?_⟩
  obtain ⟨hap, hsame⟩ := writes_reach (initFrames_homed _ _) hrep hc
  obtain ⟨htables, howned⟩ := hap.holds.grantable
  refine ⟨fun q hq => hsame q fun hgrant => ?_, fun r hr level t ht => ?_, fun p hp => ?_⟩
  · exact absurd (grantable_above img hgrant).1 (Nat.not_le_of_lt hq)
  · exact grantable_above img (htables (TableAt.inUse (show r ∈ c.rootSet from hr) ht))
  · exact grantable_above img (howned p hp)

/-! ## How many pages are left -/

theorem freedIndex_first (w : Nat) : freedIndex (64 * w) = 64 * w + w % 64 := by
  have hword : wordIndex (64 * w) = w := by
    rw [wordIndex, kBitsPerWord, Nat.mul_div_cancel_left w (by decide)]
  rw [freedIndex, hword]
  rfl

/-- The home pages of the last 69 words begin at page 28411. -/
theorem platform_card (img : Image) :
    69 ≤ (initFrames platformManaged (platformReserved img.toSizes)).free.card ↔ imagePages img ≤ 28411 := by
  constructor
  · intro hcard
    by_contra hlarge
    -- the home page of word 443 is gone, 68 are left at most
    have hsub : (initFrames platformManaged (platformReserved img.toSizes)).free ⊆
        (Finset.range 68).image fun k => freedIndex (64 * (444 + k)) := by
      intro i hi
      obtain ⟨hlt, hhome, hpages⟩ := (platform_free img i).mp hi
      have hmod := isHome_iff.mp hhome
      have hword : 444 ≤ i / 64 := by
        rcases Nat.lt_trichotomy (i / 64) 443 with hlow | hedge | hhigh
        · omega
        · rw [hedge] at hmod
          omega
        · exact hhigh
      refine Finset.mem_image.mpr ⟨i / 64 - 444, Finset.mem_range.mpr (by omega), ?_⟩
      rw [freedIndex_first]
      omega
    have hle := (Finset.card_le_card hsub).trans Finset.card_image_le
    rw [Finset.card_range] at hle
    omega
  · intro hsmall
    have hsub : ((Finset.range 69).image fun k => freedIndex (64 * (443 + k))) ⊆
        (initFrames platformManaged (platformReserved img.toSizes)).free := by
      intro i hi
      obtain ⟨k, hk, rfl⟩ := Finset.mem_image.mp hi
      have hlt := Finset.mem_range.mp hk
      refine (platform_free img _).mpr ⟨?_, isHome_freedIndex _, ?_⟩ <;> rw [freedIndex_first] <;> omega
    have hcard : ((Finset.range 69).image fun k => freedIndex (64 * (443 + k))).card = 69 := by
      rw [Finset.card_image_of_injOn, Finset.card_range]
      intro j _ k _ he
      dsimp only at he
      rw [freedIndex_first, freedIndex_first] at he
      omega
    rw [← hcard]
    exact Finset.card_le_card hsub

/-- Calls until null are grants, and a refusal after them. -/
theorem AllocsUntilNull.supplies_iff {s : Pmm} {k : Nat} (h : AllocsUntilNull s k) (n : Nat) :
    Supplies Pmm.allocPage 0#64 n s ↔ n ≤ k := by
  have hgrants : ∃ ps s' s'', ps.length = k ∧ Grants Pmm.allocPage 0#64 s ps s' ∧ s'.allocPage = some (0#64, s'') := by
    induction h with
    | done hnull => exact ⟨[], _, _, rfl, Grants.nil _, hnull⟩
    | page halloc hne _ ih =>
        obtain ⟨ps, s', s'', hlen, hg, hnull⟩ := ih
        exact ⟨_ :: ps, s', s'', congrArg Nat.succ hlen, Grants.cons halloc hne hg, hnull⟩
  obtain ⟨ps, s', s'', rfl, hg, hnull⟩ := hgrants
  constructor
  · intro hsup
    by_contra hlt
    exact hg.not_supplies hnull (Nat.lt_of_not_le hlt) hsup
  · intro hle
    obtain ⟨k, hk⟩ := Nat.exists_eq_add_of_le hle
    obtain ⟨qs, qs', t, rfl, hlen, hg', _⟩ := hg.take (n := n) (by omega)
    exact ⟨qs, t, hlen, hg'⟩

/-- **The allocator that `pmm_init()` leaves.** Nobody holds a page, and it has 69 of them if and only if the image has
    at most 28411. -/
theorem platform_start (img : Image) : ∃ s, pmmInitPlatform img.toSizes = some s ∧
    Holds (initFrames platformManaged (platformReserved img.toSizes)) [] ∅ s ∧
    (Supplies Pmm.allocPage 0#64 69 s ↔ imagePages img ≤ 28411) := by
  obtain ⟨s, hs, hrep⟩ := pmmInit_rep platformManaged (platformReserved img.toSizes)
  have hbase : (initFrames platformManaged (platformReserved img.toSizes)).base ≠ 0#64 := by
    rw [initFrames_base, platform_base]
    decide
  have hall : ∀ i ∈ (initFrames platformManaged (platformReserved img.toSizes)).free,
      i < (initFrames platformManaged (platformReserved img.toSizes)).total := by
    intro i hi
    rw [initFrames_total, platform_total]
    exact ((platform_free img i).mp hi).1
  have hsupply := (allocsUntilNull_card _ hrep hbase hall rfl).supplies_iff 69
  exact ⟨s, hs, ⟨[], _, ledger_init hrep, fun p hp => absurd hp (Set.notMem_empty p),
    fun p hp => absurd hp List.not_mem_nil⟩, hsupply.trans (platform_card img)⟩

/-- What it hands out is a physical address. -/
theorem platform_bounded (img : Image) (U : Set Word) (s : Pmm)
    (h : Holds (initFrames platformManaged (platformReserved img.toSizes)) [] U s) (q : Word) (s' : Pmm)
    (halloc : s.allocPage = some (q, s')) : q.toNat < 2 ^ 56 := by
  obtain ⟨out, F, hled, _⟩ := h
  obtain ⟨p, t, _, halloc', _, hpage⟩ := hled.alloc
  obtain ⟨rfl, rfl⟩ := Prod.mk.inj (Option.some.inj (halloc.symm.trans halloc'))
  by_cases hnull : q = 0#64
  · rw [hnull]
    decide
  · obtain ⟨_, i, hi, rfl, _⟩ := hpage hnull
    rw [initFrames_total, platform_total] at hi
    rw [initFrames_base, platform_base, platform_page hi]
    omega

/-- **When the kernel's page table is complete at boot.** For every image that fits into DRAM, `pmm_init()` and
    `kernel_address_space_init()` return, and the table they leave maps all of DRAM and the two devices if and
    only if the image has at most 28411 pages. -/
theorem boot_table_complete_iff (img : Image) (mem : Mem) :
    ∃ s k', pmmInitPlatform img.toSizes = some s ∧
      kernelAddressSpaceInit Pmm.allocPage ⟨⟨mem, s⟩, 0#64⟩ = some k' ∧
      (Complete k'.world.mem (kernelPageTable k') ↔ imagePages img ≤ 28411) := by
  obtain ⟨s, hs, hI, hsupply⟩ := platform_start img
  obtain ⟨k', hinit, hcase⟩ := init_outcome (k := ⟨⟨mem, s⟩, 0#64⟩) (holds_allocOk _ []) hI
  refine ⟨s, k', hs, hinit, ?_⟩
  rw [← hsupply]
  constructor
  · intro hcomplete
    rcases hcase with ⟨hnull, _⟩ | ⟨_, hneeds⟩
    · -- a null table translates nothing
      have hid := hcomplete kDram.base (Or.inl ⟨Nat.le_refl _, by decide⟩)
      rw [hnull, virtToPhys, if_pos rfl] at hid
      exact absurd hid (by decide)
    · exact hneeds hcomplete
  · intro hsup
    obtain ⟨ps, a', hg, hfresh, hend⟩ :=
      grants_or_null (fun p => isPageAligned p = true) (holds_allocOk _ []).call 69 hI
    rcases hend with ⟨hlen, _⟩ | ⟨hlt, _, hrefused, _⟩
    · obtain ⟨k'', hinit', _, htable, _⟩ := init_granted (k := ⟨⟨mem, s⟩, 0#64⟩) hg hlen hfresh
      obtain rfl := Option.some.inj (hinit.symm.trans hinit')
      exact htable.complete
    · exact absurd hsup (hg.not_supplies hrefused hlt)

end Mm
end RiscCore
