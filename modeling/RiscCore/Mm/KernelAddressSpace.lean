import RiscCore.Arch.RangeCost
import RiscCore.Mm.PmmSafety

/-!
# `Mm.KernelAddressSpace` — the kernel's own page table (`kernel/mm/kernel_address_space.cpp`)

`kernel_address_space_init` allocates a root and maps three regions onto themselves: all DRAM, the UART and the
CLINT. The regions lie below `2 ^ 39` and apart, so the entries of each are what its own `map_range` left
(`PrefixMapped.identity`), and the tables they need are counted once: the root, 65 for DRAM, two for the UART,
and one more for the CLINT, which shares the UART's level-1 table.
-/

namespace RiscCore

/-- `MemoryRegion` of `platform/qemu/memmap.h`. -/
structure MemoryRegion where
  base : Word
  size : Word
deriving DecidableEq, Repr

def MemoryRegion.Contains (r : MemoryRegion) (a : Word) : Prop :=
  r.base.toNat ≤ a.toNat ∧ a.toNat < r.base.toNat + r.size.toNat

namespace Memmap

def kDram : MemoryRegion := ⟨0x80000000#64, 128#64 * 1024#64 * 1024#64⟩
def kUart0 : MemoryRegion := ⟨0x10000000#64, 0x100#64⟩
def kClint : MemoryRegion := ⟨0x02000000#64, 0x10000#64⟩

end Memmap

namespace Mm

open Pmm Arch Memmap Forest Runs Supply

/-- The world of the walkers and the variable `g_kernel_page_table`. -/
structure KernelSpace (α : Type) where
  world : World α
  gKernelPageTable : Word

section
variable {α : Type} (allocPage : AllocPage α)

def mapDeviceRegion (w : World α) (root base size : Word) : Option (Bool × World α) :=
  mapRange allocPage w root (alignDown base) (alignDown base) (alignUp size) (pteR ||| pteW ||| pteA ||| pteD)

/-- The results of the three mapping calls are dropped, as the source drops them. -/
def kernelAddressSpaceInit (k : KernelSpace α) : Option (KernelSpace α) := do
  let (root, w) ← allocPageTable allocPage k.world
  if root = 0#64 then
    return { world := w, gKernelPageTable := root }
  else
    let (_, w) ← mapRange allocPage w root kDram.base kDram.base kDram.size (pteR ||| pteW ||| pteX ||| pteA ||| pteD)
    let (_, w) ← mapDeviceRegion allocPage w root kUart0.base kUart0.size
    let (_, w) ← mapDeviceRegion allocPage w root kClint.base kClint.size
    return { world := w, gKernelPageTable := root }

def kernelPageTable (k : KernelSpace α) : Word := k.gKernelPageTable

end

variable {α : Type} {allocPage : AllocPage α} {I : Set Word → α → Prop} {roots : Set Word}
  {root va size flags a b : Word} {m m' : Mem} {B : Finset (List (Fin 512))} {k n : Nat}

/-! ## What the tables cost -/

/-- The tables for DRAM: one of level 1 in slot 2 of the root, and 64 of level 0 below it. -/
def dramTables : Finset (List (Fin 512)) :=
  insert [2] ((Finset.range 64).image fun i => [Fin.ofNat 512 i, 2])

theorem dram_slots {j : Nat} (hj : j < 32768) :
    vpnSlot (pageAddr kDram.base j) 2 = 2 ∧ vpnSlot (pageAddr kDram.base j) 1 = Fin.ofNat 512 (j / 512) := by
  have hbase : kDram.base.toNat = 0x80000000 := rfl
  have haddr : (pageAddr kDram.base j).toNat = 0x80000000 + j * 4096 := by
    rw [FrameSet.pageAddr_toNat_of_le (n := 32768) (by decide) (Nat.le_of_lt hj), hbase]
  constructor
  · apply Fin.ext
    show (vpnIndex _ 2).toNat = 2
    rw [vpnIndex_toNat, haddr]
    omega
  · apply Fin.ext
    show (vpnIndex _ 1).toNat = j / 512 % 512
    rw [vpnIndex_toNat, haddr]
    omega

theorem routes_dram : routes kDram.base 32768 = dramTables := by
  apply Finset.ext
  intro ρ
  simp only [routes, dramTables, stops_eq, Finset.mem_biUnion, Finset.mem_insert, Finset.mem_singleton,
    Finset.mem_image, Finset.mem_range]
  constructor
  · rintro ⟨j, hj, hρ⟩
    obtain ⟨h2, h1⟩ := dram_slots hj
    rw [h2, h1] at hρ
    rcases hρ with rfl | rfl
    · exact Or.inl rfl
    · exact Or.inr ⟨j / 512, by omega, rfl⟩
  · rintro (rfl | ⟨i, hi, rfl⟩)
    · refine ⟨0, by decide, Or.inl ?_⟩
      rw [(dram_slots (by decide)).1]
    · have hj : i * 512 < 32768 := by omega
      obtain ⟨h2, h1⟩ := dram_slots hj
      refine ⟨i * 512, hj, Or.inr ?_⟩
      rw [h2, h1, Nat.mul_div_cancel i (by decide)]

/-- DRAM takes 65 tables, the UART two more, and the CLINT one. -/
theorem kernel_cost :
    (∅ ∪ routes kDram.base (pageCount kDram.size)).card = 65 ∧
    (∅ ∪ routes kDram.base (pageCount kDram.size) ∪ routes kUart0.base (pageCount (alignUp kUart0.size))).card = 67 ∧
    (∅ ∪ routes kDram.base (pageCount kDram.size) ∪ routes kUart0.base (pageCount (alignUp kUart0.size)) ∪
      routes kClint.base (pageCount (alignUp kClint.size))).card = 68 := by
  have hpages : pageCount kDram.size = 32768 := by decide
  rw [hpages, routes_dram]
  refine ⟨?_, ?_, ?_⟩ <;> decide +kernel

/-! ## With enough pages -/

/-- One region, given exactly what it costs. -/
theorem identity_granted {w : World α} {ps : List Word} {a' : α} (h : Shape w.mem {root}) (hnull : root ≠ 0#64)
    (hB : Built w.mem root B) (hva : isPageAligned va = true) (hhi : va.toNat + pageCount size * 4096 ≤ 2 ^ 39)
    (hclear : ∀ a, InPages va (pageCount size) a → entryAt w.mem root a = 0#64)
    (hg : Grants allocPage 0#64 w.src ps a') (hfresh : FreshPages (tables w.mem {root}) ps)
    (hcount : ps.length + B.card = (B ∪ routes va (pageCount size)).card) (flags : Word) :
    ∃ m', mapRange allocPage w root va va size flags = some (true, ⟨m', a'⟩) ∧ Shape m' {root} ∧
      tables m' {root} = tables w.mem {root} ∪ {p | p ∈ ps} ∧ Built m' root (B ∪ routes va (pageCount size)) ∧
      ∀ a, a.toNat < 2 ^ 39 → entryAt m' root a =
        if InPages va (pageCount size) a then makePte (alignDown a) (flags ||| pteV) else entryAt w.mem root a := by
  have hround : size.toNat ≤ pageCount size * 4096 := by rw [pageCount]; omega
  have hfit : va.toNat + size.toNat + 4095 < 2 ^ 64 := by omega
  have hlt := (alignUp_range hva hfit).2
  have hfree : ∀ j < pageCount size, pteValid (entryAt w.mem root (pageAddr va j)) = false := by
    intro j hj
    rw [hclear _ (inPages_pageAddr hlt hj), pteValid_zero]
  obtain ⟨m', hrange, hshape, htab, hbuilt, hmapped⟩ := mapRange_granted h (Set.mem_singleton root) hnull hB hva hva
    hfit (by omega) hfree hg hfresh hcount flags
  exact ⟨m', hrange, hshape, htab, hbuilt, fun a ha => hmapped.identity (Set.mem_singleton root) hva hhi ha⟩

/-- **What the kernel's table maps**: each page of the three regions to itself, with the region's flags. -/
def kernelMapping (a : Word) : Option (Word × Word) :=
  if InPages kClint.base 16 a then some (alignDown a, pteR ||| pteW ||| pteA ||| pteD)
  else if InPages kUart0.base 1 a then some (alignDown a, pteR ||| pteW ||| pteA ||| pteD)
  else if InPages kDram.base 32768 a then some (alignDown a, pteR ||| pteW ||| pteX ||| pteA ||| pteD)
  else none

/-- `root` is a table that maps just that. -/
structure KernelTable (m : Mem) (root : Word) : Prop where
  shape : Shape m {root}
  nonnull : root ≠ 0#64
  entries : ∀ a, a.toNat < 2 ^ 39 → entryAt m root a = encode (kernelMapping a)

theorem kernel_pages : pageCount kDram.size = 32768 ∧ pageCount (alignUp kUart0.size) = 1 ∧
    pageCount (alignUp kClint.size) = 16 := by decide

theorem kernel_bases : kDram.base.toNat = 0x80000000 ∧ kUart0.base.toNat = 0x10000000 ∧
    kClint.base.toNat = 0x02000000 := by decide

/-- The root: a zeroed page that maps nothing. -/
theorem root_planted (m : Mem) (root : Word) : Shape (zeroPage m root) {root} ∧
    tables (zeroPage m root) {root} = {root} ∧ Built (zeroPage m root) root ∅ ∧
    ∀ a, entryAt (zeroPage m root) root a = 0#64 := by
  have hzero : ∀ i, zeroPage m root root i = 0#64 := fun i => by rw [zeroPage_apply, if_pos rfl]
  have hnew : root ∉ tables m ∅ := by rw [tables_empty]; exact Set.notMem_empty root
  obtain ⟨hshape, htab, hent, _⟩ := plantRoot (shape_empty m) (zeroPage m root) hnew hzero
    (fun q hq i => by rw [zeroPage_apply, if_neg hq])
  rw [tables_empty] at htab
  rw [insert_empty_eq] at hshape htab
  exact ⟨hshape, htab, Built.empty fun i => child_eq_none.mpr (by rw [hzero, pteValid_zero]), hent⟩

/-- A device that begins at a page is mapped from there. -/
theorem mapDeviceRegion_eq {base : Word} (hbase : isPageAligned base = true) (w : World α) (root size : Word) :
    mapDeviceRegion allocPage w root base size =
      mapRange allocPage w root base base (alignUp size) (pteR ||| pteW ||| pteA ||| pteD) := by
  have hdown : alignDown base = base := by
    apply BitVec.eq_of_toNat_eq
    have hmod := isPageAligned_iff.mp hbase
    rw [alignDown_toNat]
    omega
  rw [mapDeviceRegion, hdown]

theorem devices_aligned : isPageAligned kUart0.base = true ∧ isPageAligned kClint.base = true := by decide

/-- **Sixty-nine pages are enough**, and all of them become tables. -/
theorem init_granted {k : KernelSpace α} {ps : List Word} {a' : α} (hg : Grants allocPage 0#64 k.world.src ps a')
    (hlen : ps.length = 69) (hfresh : FreshPages ∅ ps) :
    ∃ k', kernelAddressSpaceInit allocPage k = some k' ∧ k'.world.src = a' ∧
      KernelTable k'.world.mem (kernelPageTable k') ∧ tables k'.world.mem {kernelPageTable k'} = {p | p ∈ ps} := by
  obtain ⟨hdram, huart, hclint⟩ := kernel_pages
  obtain ⟨bdram, buart, bclint⟩ := kernel_bases
  obtain ⟨cost₁, cost₂, cost₃⟩ := kernel_cost
  obtain ⟨auart, aclint⟩ := devices_aligned
  cases hg with
  | nil => exact absurd hlen (by simp)
  | @cons _ a₀ _ root ps halloc hroot hg =>
      obtain ⟨hshape₀, htab₀, hbuilt₀, hent₀⟩ := root_planted k.world.mem root
      -- nothing below looks at how the page was cleared
      generalize hm₀ : zeroPage k.world.mem root = m₀ at hshape₀ htab₀ hbuilt₀ hent₀
      have hfresh₀ := (fresh_append [root] hfresh).2
      have hone : (∅ : Set Word) ∪ {p | p ∈ [root]} = tables m₀ {root} := by
        rw [htab₀, ← union_cons, union_nil, insert_empty_eq]
      rw [hone] at hfresh₀
      rw [List.length_cons] at hlen
      -- the pages go to DRAM, the UART and the CLINT, in this order
      obtain ⟨ps₁, ps', a₁, rfl, hlen₁, hg₁, hg'⟩ := hg.take (n := 65) (by omega)
      rw [List.length_append] at hlen
      obtain ⟨ps₂, ps₃, a₂, rfl, hlen₂, hg₂, hg₃⟩ := hg'.take (n := 2) (by omega)
      rw [List.length_append] at hlen
      obtain ⟨hf₁, hfresh₁⟩ := fresh_append ps₁ hfresh₀
      have hcount₁ : ps₁.length + (∅ : Finset (List (Fin 512))).card = 65 := by rw [hlen₁, Finset.card_empty]
      obtain ⟨m₁, hrange₁, hshape₁, htab₁, hbuilt₁, hent₁⟩ :=
        identity_granted (w := ⟨m₀, a₀⟩) hshape₀ hroot hbuilt₀ (by decide)
          (by rw [hdram, bdram]; decide) (fun a _ => hent₀ a) hg₁ hf₁ (hcount₁.trans cost₁.symm)
          (pteR ||| pteW ||| pteX ||| pteA ||| pteD)
      rw [← htab₁] at hfresh₁
      obtain ⟨hf₂, hfresh₂⟩ := fresh_append ps₂ hfresh₁
      have hclear₂ : ∀ a, InPages kUart0.base (pageCount (alignUp kUart0.size)) a → entryAt m₁ root a = 0#64 := by
        intro a ha
        unfold InPages at ha
        rw [hent₁ a (by omega), if_neg (by unfold InPages; omega), hent₀]
      obtain ⟨m₂, hrange₂, hshape₂, htab₂, hbuilt₂, hent₂⟩ :=
        identity_granted (w := ⟨m₁, a₁⟩) hshape₁ hroot hbuilt₁ auart (by rw [huart, buart]; decide) hclear₂ hg₂ hf₂
          (by rw [cost₂, cost₁, hlen₂]) (pteR ||| pteW ||| pteA ||| pteD)
      rw [← htab₂] at hfresh₂
      have hclear₃ : ∀ a, InPages kClint.base (pageCount (alignUp kClint.size)) a → entryAt m₂ root a = 0#64 := by
        intro a ha
        unfold InPages at ha
        rw [hent₂ a (by omega), if_neg (by unfold InPages; omega), hent₁ a (by omega),
          if_neg (by unfold InPages; omega), hent₀]
      obtain ⟨m₃, hrange₃, hshape₃, htab₃, _, hent₃⟩ :=
        identity_granted (w := ⟨m₂, a₂⟩) hshape₂ hroot hbuilt₂ aclint (by rw [hclint, bclint]; decide) hclear₃ hg₃
          hfresh₂ (by rw [cost₃, cost₂]; omega) (pteR ||| pteW ||| pteA ||| pteD)
      refine ⟨⟨⟨m₃, a'⟩, root⟩, ?_, rfl, ⟨hshape₃, hroot, fun a ha => ?_⟩, ?_⟩
      · simp [kernelAddressSpaceInit, allocPageTable, halloc, hroot, hm₀, hrange₁, mapDeviceRegion_eq auart, hrange₂,
          mapDeviceRegion_eq aclint, hrange₃]
      · rw [hclint] at hent₃
        rw [huart] at hent₂
        rw [hdram] at hent₁
        show entryAt m₃ root a = _
        rw [hent₃ a ha, hent₂ a ha, hent₁ a ha, hent₀]
        unfold kernelMapping
        split
        · rfl
        split
        · rfl
        split
        · rfl
        · rfl
      · show tables m₃ {root} = _
        rw [htab₃, htab₂, htab₁, union_append, union_append, ← hone, union_append, Set.empty_union]
        rfl

/-! ## What the table says -/

theorem kernelMapping_dram (h : InPages kDram.base 32768 a) :
    kernelMapping a = some (alignDown a, pteR ||| pteW ||| pteX ||| pteA ||| pteD) := by
  obtain ⟨bdram, buart, bclint⟩ := kernel_bases
  have hclint : ¬ InPages kClint.base 16 a := by unfold InPages at h ⊢; omega
  have huart : ¬ InPages kUart0.base 1 a := by unfold InPages at h ⊢; omega
  rw [kernelMapping, if_neg hclint, if_neg huart, if_pos h]

theorem kernelMapping_device (h : InPages kUart0.base 1 a ∨ InPages kClint.base 16 a) :
    kernelMapping a = some (alignDown a, pteR ||| pteW ||| pteA ||| pteD) := by
  unfold kernelMapping
  split
  · rfl
  · rename_i hclint
    rw [if_pos (h.resolve_right hclint)]

theorem kernelMapping_none (hdram : ¬ InPages kDram.base 32768 a) (huart : ¬ InPages kUart0.base 1 a)
    (hclint : ¬ InPages kClint.base 16 a) : kernelMapping a = none := by
  rw [kernelMapping, if_neg hclint, if_neg huart, if_neg hdram]

theorem kernel_below (h : InPages kDram.base 32768 a ∨ InPages kUart0.base 1 a ∨ InPages kClint.base 16 a) :
    a.toNat < 2 ^ 39 := by
  obtain ⟨bdram, buart, bclint⟩ := kernel_bases
  unfold InPages at h
  omega

theorem KernelTable.mapped (h : KernelTable m root) (ha : a.toNat < 2 ^ 39)
    (hmap : kernelMapping a = some (alignDown a, flags)) (hflags : flags.toNat < 2 ^ 10)
    (hleaf : pteLeaf flags = true) :
    virtToPhys m root a = a ∧ entryAt m root a &&& 0x3ff#64 = flags ||| pteV := by
  have hpage : isPageAligned (alignDown a) = true := isPageAligned_iff.mpr (alignDown_aligned a)
  have hent : entryAt m root a = makePte (alignDown a) (flags ||| pteV) := by
    rw [h.entries a ha, hmap]; rfl
  refine ⟨?_, ?_⟩
  · rw [virtToPhys_mapped h.shape (Set.mem_singleton root) h.nonnull hent hpage hflags hleaf, alignDown_add_offset]
  · rw [hent]
    exact makePte_flags (flags_or_lt hflags)

theorem KernelTable.unmapped (h : KernelTable m root) (ha : a.toNat < 2 ^ 39) (hmap : kernelMapping a = none) :
    virtToPhys m root a = 0#64 := by
  rw [virtToPhys_spec h.shape (Set.mem_singleton root) h.nonnull, h.entries a ha, hmap]
  rfl

/-- Every page an allocator of DRAM returns lies in DRAM, whatever its clients did before. -/
theorem granted_in_dram {rs : List ReservedRange} {s₀ s s' : Pmm} {qs : List Word}
    (hs : pmmInit ⟨kDram.base, kDram.size⟩ rs = some s₀) (hg : Grants Pmm.allocPage 0#64 s qs s') :
    ∀ {out : List Word}, Reach Client.step Client.Anything ⟨s₀, []⟩ ⟨s, out⟩ → ∀ p ∈ qs,
      0x80000000 ≤ p.toNat ∧ p.toNat + 4096 ≤ 0x88000000 := by
  induction hg with
  | nil => exact fun _ _ hp => absurd hp List.not_mem_nil
  | @cons s s₁ s₂ q qs halloc hq _ ih =>
      intro out hr p hp
      rcases List.mem_cons.mp hp with rfl | hp
      · obtain ⟨s₀', hs', hrep⟩ := pmmInit_rep ⟨kDram.base, kDram.size⟩ rs
        obtain rfl := Option.some.inj (hs.symm.trans hs')
        obtain ⟨F, h, hbase, htotal, _⟩ := rep_reach hrep hr
        rcases allocPage_rep h with ⟨hnull, _⟩ | ⟨i, s', hlow, halloc', _⟩
        · exact absurd (Prod.mk.inj (Option.some.inj (halloc.symm.trans hnull))).1 hq
        · obtain ⟨rfl, _⟩ := Prod.mk.inj (Option.some.inj (halloc.symm.trans halloc'))
          have hi : i < initTotal ⟨kDram.base, kDram.size⟩ := by
            rw [← initFrames_total _ rs, ← htotal]
            exact hlow.lt_total
          obtain ⟨hlo, hhi⟩ := contains_pageAddr (m := ⟨kDram.base, kDram.size⟩) ⟨by decide, by decide⟩ hi
          rw [hbase]
          exact ⟨hlo, hhi⟩
      · exact ih (Reach.tail hr trivial (Client.step_alloc halloc)) p hp

/-- **The kernel address space.** From every state in which 69 calls of `alloc_page` return different aligned
    pages, exactly these become the tables of the new root; DRAM is mapped to itself with all permissions, the
    UART page and the CLINT without execution, and nothing else below `2 ^ 39` is mapped. So every page that an
    allocator of DRAM can return is mapped to itself. -/
theorem kernel_address_space_contents {k : KernelSpace α} {ps : List Word} {a' : α}
    (hg : Grants allocPage 0#64 k.world.src ps a') (hlen : ps.length = 69) (hnodup : ps.Nodup)
    (hal : ∀ p ∈ ps, isPageAligned p = true) :
    ∃ k', kernelAddressSpaceInit allocPage k = some k' ∧ k'.world.src = a' ∧
      tables k'.world.mem {kernelPageTable k'} = {p | p ∈ ps} ∧
      (∀ a, 0x80000000#64 ≤ a → a < 0x88000000#64 →
        virtToPhys k'.world.mem (kernelPageTable k') a = a ∧
        entryAt k'.world.mem (kernelPageTable k') a &&& 0x3ff#64 = pteV ||| pteR ||| pteW ||| pteX ||| pteA ||| pteD) ∧
      (∀ a, (0x10000000#64 ≤ a ∧ a < 0x10001000#64) ∨ (0x02000000#64 ≤ a ∧ a < 0x02010000#64) →
        virtToPhys k'.world.mem (kernelPageTable k') a = a ∧
        entryAt k'.world.mem (kernelPageTable k') a &&& 0x3ff#64 = pteV ||| pteR ||| pteW ||| pteA ||| pteD) ∧
      (∀ a, a.toNat < 2 ^ 39 → ¬ (0x80000000#64 ≤ a ∧ a < 0x88000000#64) →
        ¬ (0x10000000#64 ≤ a ∧ a < 0x10001000#64) → ¬ (0x02000000#64 ≤ a ∧ a < 0x02010000#64) →
        virtToPhys k'.world.mem (kernelPageTable k') a = 0#64) ∧
      ∀ rs s₀ c qs s', pmmInit ⟨kDram.base, kDram.size⟩ rs = some s₀ →
        Reach Client.step Client.Anything ⟨s₀, []⟩ c → Grants Pmm.allocPage 0#64 c.pmm qs s' →
        ∀ p ∈ qs, ∀ a, InPages p 1 a → virtToPhys k'.world.mem (kernelPageTable k') a = a := by
  have hfresh : FreshPages ∅ ps := ⟨hnodup, fun p hp => ⟨hal p hp, Set.notMem_empty p⟩⟩
  obtain ⟨k', hinit, hsrc, htable, htab⟩ := init_granted hg hlen hfresh
  have hdram : ∀ a, InPages kDram.base 32768 a →
      virtToPhys k'.world.mem (kernelPageTable k') a = a ∧
      entryAt k'.world.mem (kernelPageTable k') a &&& 0x3ff#64 =
        pteR ||| pteW ||| pteX ||| pteA ||| pteD ||| pteV :=
    fun a ha => htable.mapped (kernel_below (Or.inl ha)) (kernelMapping_dram ha) (by decide) (by decide)
  refine ⟨k', hinit, hsrc, htab, fun a hlo hhi => hdram a ⟨hlo, hhi⟩, fun a hin => ?_, fun a ha h₁ h₂ h₃ => ?_, ?_⟩
  · exact htable.mapped (kernel_below (Or.inr hin)) (kernelMapping_device hin) (by decide) (by decide)
  · exact htable.unmapped ha (kernelMapping_none h₁ h₂ h₃)
  · intro rs s₀ c qs s' hs hr hgrants p hp a ha
    obtain ⟨hlo, hhi⟩ := granted_in_dram hs hgrants hr p hp
    obtain ⟨bdram, _, _⟩ := kernel_bases
    unfold InPages at ha
    exact (hdram a (by unfold InPages; omega)).1

/-- An allocator that plays back pages grants them all. -/
theorem playback_grants : ∀ ps : List Word, (∀ p ∈ ps, p ≠ 0#64) → Grants playback 0#64 ps ps [] := by
  intro ps
  induction ps with
  | nil => exact fun _ => Grants.nil []
  | cons p ps ih =>
      intro hall
      exact Grants.cons rfl (hall p List.mem_cons_self) (ih fun q hq => hall q (List.mem_cons_of_mem p hq))

/-- The first 69 pages of DRAM. -/
def firstPages : List Word := (List.range 69).map (pageAddr kDram.base)

theorem firstPages_ok : ∀ p ∈ firstPages, p ≠ 0#64 ∧ isPageAligned p = true := by
  intro p hp
  obtain ⟨i, hi, rfl⟩ := List.mem_map.mp hp
  have hfit : kDram.base.toNat + 69 * 4096 < 2 ^ 64 := by decide
  have hval := FrameSet.pageAddr_toNat_of_le hfit (Nat.le_of_lt (List.mem_range.mp hi))
  refine ⟨fun hzero => ?_, pageAddr_isPageAligned (by decide) i⟩
  rw [hzero, kernel_bases.1, BitVec.toNat_ofNat] at hval
  omega

theorem kernel_address_space_contents_test :
    ∃ k', kernelAddressSpaceInit playback ⟨⟨fun _ _ => 0#64, firstPages⟩, 0#64⟩ = some k' ∧
      virtToPhys k'.world.mem (kernelPageTable k') 0x87ffffff#64 = 0x87ffffff#64 ∧
      virtToPhys k'.world.mem (kernelPageTable k') 0x0c000000#64 = 0#64 := by
  have hg : Grants playback 0#64 (⟨⟨fun _ _ => 0#64, firstPages⟩, 0#64⟩ : KernelSpace (List Word)).world.src
      firstPages [] := playback_grants firstPages fun p hp => (firstPages_ok p hp).1
  have hlen : firstPages.length = 69 := by rw [firstPages, List.length_map, List.length_range]
  obtain ⟨k', hinit, _, _, hdram, _, hother, _⟩ :=
    kernel_address_space_contents hg hlen (by decide +kernel) fun p hp => (firstPages_ok p hp).2
  refine ⟨k', hinit, (hdram 0x87ffffff#64 ?_ ?_).1, hother 0x0c000000#64 ?_ ?_ ?_ ?_⟩ <;> decide

end Mm
end RiscCore
