import RiscCore.Arch.MapRefinement
import RiscCore.Lib.Sv39Mmu

/-!
# `Arch.Mmu` — what the hart makes of the tables (`kernel/arch/riscv/mm/mmu.cpp`)

`make_satp` hands a root to the hart, and from then on the entries are read by the architecture's walk instead of
by `virt_to_phys`. The two do not check the same things: the hart wants canonical addresses, page numbers of 44
bits, no reserved bit and a permission for each access. On tables of the right shape its walk still comes down
to the level-0 entry (`hart_walk`), so what an access reaches is read off the same finite map.

What holds here is seen by an access in S- or U-mode; in M-mode the hart does not translate.
-/

namespace RiscCore
namespace Arch

open Mm Forest Runs
open Sv39Mmu (Privilege Access)

def kSatpModeSv39 : Word := 8#64 <<< 60

def makeSatp (root : Word) : Word := kSatpModeSv39 ||| (root >>> 12)

/-- The memory of the walkers as the hart reads it: a page number for each pointer. -/
def pages (m : Mem) : Sv39Mmu.Pages := fun p i => m (p.setWidth 64 <<< 12) i

def pageNumber (p : Word) : BitVec 44 := p.extractLsb' 12 44

/-- A page of the 56-bit physical address space. -/
structure Physical (p : Word) : Prop where
  aligned : isPageAligned p = true
  bound : p.toNat < 2 ^ 56

/-- **What an access obtains from a value of the map**: the address, where the hart accepts the virtual address and
    the entry that stores the value, and the flags permit the access. -/
def obtains (p : Privilege) (access : Access) : Option (Word × Word) → Word → Option Word
  | some (pa, flags), va =>
    if Sv39Mmu.canonical va = true ∧ pa.toNat < 2 ^ 56 ∧ (flags.getLsbD 2 = true → flags.getLsbD 1 = true) ∧
        Sv39Mmu.permits p access flags = true then
      some (pa + pageOffset va)
    else
      none
  | none, _ => none

variable {α : Type} {allocPage : AllocPage α} {I : Set Word → α → Prop} {m : Mem} {roots : Set Word}
  {root r va pa flags : Word} {c : Space α} {p : Privilege} {access : Access}

/-! ## `satp` -/

theorem makeSatp_mode (root : Word) : (makeSatp root).extractLsb' 60 4 = 8#4 := by
  apply BitVec.eq_of_getLsbD_eq
  intro i hi
  have hhigh : root.getLsbD (12 + (60 + i)) = false := BitVec.getLsbD_of_ge _ _ (by omega)
  have hshift : (8#64 <<< 60).getLsbD (60 + i) = (8#4).getLsbD i := by
    have hbits : ∀ k : Fin 4, (8#64 <<< 60).getLsbD (60 + k) = (8#4).getLsbD k := by decide
    exact hbits ⟨i, hi⟩
  rw [BitVec.getLsbD_extractLsb', makeSatp, BitVec.getLsbD_or, BitVec.getLsbD_ushiftRight, hhigh, kSatpModeSv39, hshift]
  simp [hi]

/-- The page number survives whatever the pointer; the bits above it land in the address-space identifier. -/
theorem makeSatp_root (root : Word) : (makeSatp root).extractLsb' 0 44 = pageNumber root := by
  apply BitVec.eq_of_getLsbD_eq
  intro i hi
  have hmode : kSatpModeSv39.getLsbD i = false := by
    have hbits : ∀ k : Fin 44, kSatpModeSv39.getLsbD k = false := by decide
    exact hbits ⟨i, hi⟩
  rw [BitVec.getLsbD_extractLsb', pageNumber, BitVec.getLsbD_extractLsb', makeSatp, Nat.zero_add, BitVec.getLsbD_or,
    hmode, BitVec.getLsbD_ushiftRight, Bool.false_or]

theorem translate_makeSatp (pgs : Sv39Mmu.Pages) (root va : Word) :
    Sv39Mmu.translate p access pgs (makeSatp root) va = Sv39Mmu.sv39 p access pgs (pageNumber root) va :=
  Sv39Mmu.translate_sv39 (makeSatp_mode root) (makeSatp_root root)

/-! ## Entries as the hart reads them -/

theorem pageNumber_base (h : Physical pa) : (pageNumber pa).setWidth 64 <<< 12 = pa := by
  have hal : pa.toNat % 4096 = 0 := isPageAligned_iff.mp h.aligned
  have hbound := h.bound
  apply BitVec.eq_of_toNat_eq
  rw [BitVec.toNat_shiftLeft, BitVec.toNat_setWidth, pageNumber, BitVec.extractLsb'_toNat, Nat.shiftRight_eq_div_pow,
    Nat.shiftLeft_eq]
  omega

theorem pages_pageNumber (m : Mem) (h : Physical pa) (i : Fin 512) : pages m (pageNumber pa) i = m pa i := by
  rw [pages, pageNumber_base h]

theorem index_eq (va : Word) (level : Nat) : Sv39Mmu.index va level = vpnSlot va level := by
  apply Fin.ext
  show va.toNat / 2 ^ (12 + 9 * level) % 512 = (vpnIndex va level).toNat
  rw [vpnIndex_toNat]

theorem ppn_makePte (hf : flags.toNat < 2 ^ 10) (pa : Word) : Sv39Mmu.ppn (makePte pa flags) = pageNumber pa := by
  apply BitVec.eq_of_getLsbD_eq
  intro i hi
  have hsum : 10 + i + 2 = 12 + i := by omega
  rw [Sv39Mmu.ppn, pageNumber, BitVec.getLsbD_extractLsb', BitVec.getLsbD_extractLsb',
    makePte_getLsbD_high _ _ (by omega) (by omega), getLsbD_of_lt hf (by omega), Bool.or_false, hsum]

/-- The reserved bits of an entry are the address bits from 56 on. -/
theorem reserved_makePte (hf : flags.toNat < 2 ^ 10) (pa : Word) :
    (makePte pa flags).extractLsb' 54 10 = 0#10 ↔ pa.toNat < 2 ^ 56 := by
  have hbit : ∀ i < 10, ((makePte pa flags).extractLsb' 54 10).getLsbD i = pa.getLsbD (56 + i) := by
    intro i hi
    have hsum : 54 + i + 2 = 56 + i := by omega
    rw [BitVec.getLsbD_extractLsb', makePte_getLsbD_high _ _ (by omega) (by omega), getLsbD_of_lt hf (by omega),
      Bool.or_false, hsum]
    simp [hi]
  constructor
  · intro h
    apply Nat.lt_pow_two_of_testBit
    intro i hi
    rw [BitVec.testBit_toNat]
    by_cases hw : i < 64
    · have hback : 56 + (i - 56) = i := by omega
      rw [← hback, ← hbit (i - 56) (by omega), h]
      simp
    · exact BitVec.getLsbD_of_ge _ _ (Nat.le_of_not_lt hw)
  · intro h
    apply BitVec.eq_of_getLsbD_eq
    intro i hi
    rw [hbit i hi, getLsbD_of_lt h (by omega)]
    simp

theorem broken_makePte (hf : flags.toNat < 2 ^ 10) (pa : Word) :
    Sv39Mmu.broken (makePte pa flags) = false ↔ pa.toNat < 2 ^ 56 ∧ pteValid flags = true ∧
      (flags.getLsbD 2 = true → flags.getLsbD 1 = true) := by
  rw [← reserved_makePte hf pa, pteValid_eq, Sv39Mmu.broken, makePte_getLsbD_low _ _ (by decide),
    makePte_getLsbD_low _ _ (by decide), makePte_getLsbD_low _ _ (by decide)]
  cases flags.getLsbD 0 <;> cases flags.getLsbD 1 <;> cases flags.getLsbD 2 <;> simp

theorem broken_of_invalid {pte : Pte} (h : pteValid pte = false) : Sv39Mmu.broken pte = true := by
  rw [pteValid_eq] at h
  rw [Sv39Mmu.broken, h]
  rfl

theorem permits_makePte (pa flags : Word) :
    Sv39Mmu.permits p access (makePte pa (flags ||| pteV)) = Sv39Mmu.permits p access flags := by
  have hbit : ∀ i, 1 ≤ i → i < 10 → (makePte pa (flags ||| pteV)).getLsbD i = flags.getLsbD i := by
    intro i hlo hi
    have hV : pteV.getLsbD i = false := by
      have hbits : ∀ k : Fin 10, 1 ≤ k.1 → pteV.getLsbD k = false := by decide
      exact hbits ⟨i, hi⟩ hlo
    rw [makePte_getLsbD_low _ _ hi, BitVec.getLsbD_or, hV, Bool.or_false]
  simp only [Sv39Mmu.permits, hbit 1 (by decide) (by decide), hbit 2 (by decide) (by decide),
    hbit 3 (by decide) (by decide), hbit 4 (by decide) (by decide), hbit 6 (by decide) (by decide),
    hbit 7 (by decide) (by decide)]

/-- A link of the walkers is a link for the hart, as long as the table is a physical page. -/
theorem link_makePte (h : Physical pa) : Sv39Mmu.broken (makePte pa pteV) = false ∧
    Sv39Mmu.leaf (makePte pa pteV) = false ∧ Sv39Mmu.badLink (makePte pa pteV) = false ∧
    Sv39Mmu.ppn (makePte pa pteV) = pageNumber pa := by
  have hlow : ∀ i, i < 10 → (makePte pa pteV).getLsbD i = pteV.getLsbD i := fun i hi => makePte_getLsbD_low _ _ hi
  refine ⟨(broken_makePte (by decide) pa).mpr ⟨h.bound, by decide, by decide⟩, ?_, ?_, ppn_makePte (by decide) pa⟩
  · rw [Sv39Mmu.leaf, hlow 1 (by decide), hlow 3 (by decide)]; rfl
  · rw [Sv39Mmu.badLink, hlow 4 (by decide), hlow 6 (by decide), hlow 7 (by decide)]; rfl

/-! ## The hart's walk over the tables -/

/-- One level down: the hart follows the links that `child` follows. -/
theorem hart_step (h : Shape m roots) (hphys : ∀ t ∈ tables m roots, Physical t) {t : Word}
    (ht : t ∈ linkTables m roots) (va : Word) (level : Nat) :
    Sv39Mmu.walk (pages m) va (level + 1) (pageNumber t) =
      (child m t (vpnSlot va level)).bind fun u => Sv39Mmu.walk (pages m) va level (pageNumber u) := by
  have hread : pages m (pageNumber t) (Sv39Mmu.index va level) = m t (vpnSlot va level) := by
    rw [index_eq, pages_pageNumber m (hphys t (Inner.inUse ht))]
  cases hv : pteValid (m t (vpnSlot va level)) with
  | false =>
      rw [child_eq_none.mpr hv]
      exact Sv39Mmu.walk_broken (by rw [hread]; exact broken_of_invalid hv)
  | true =>
      obtain ⟨u, hal, hpte⟩ := h.links t ht _ hv
      have hchild : child m t (vpnSlot va level) = some u := child_link hal hpte
      obtain ⟨r, hr, π, hlen, hw⟩ := ht
      have hu : u ∈ tables m roots := ⟨r, hr, vpnSlot va level :: π, hlen, by rw [walk_cons, hw]; exact hchild⟩
      obtain ⟨hb, hl, hbad, hppn⟩ := link_makePte (hphys u hu)
      rw [← hpte, ← hread] at hb hl hbad hppn
      rw [hchild, Option.bind_some, Sv39Mmu.walk_link hb hl hbad, hppn]

/-- **The hart's walk ends at the level-0 entry**, if that is a leaf, and at a fault otherwise. -/
theorem hart_walk (h : Shape m roots) (hphys : ∀ t ∈ tables m roots, Physical t) (hr : r ∈ roots) (va : Word) :
    Sv39Mmu.walk (pages m) va 3 (pageNumber r) =
      if Sv39Mmu.broken (entryAt m r va) = false ∧ Sv39Mmu.leaf (entryAt m r va) = true then
        some (entryAt m r va, 0)
      else
        none := by
  have hempty : Sv39Mmu.broken 0#64 = true := by decide
  rw [hart_step h hphys ⟨r, hr, [], by decide, rfl⟩]
  cases h2 : child m r (vpnSlot va 2) with
  | none =>
      have hleaf : leafTable m r va = none := by
        rw [leafTable, walk_cons, walk_cons, walk_nil, Option.bind_some, h2]
        rfl
      rw [entryAt_none hleaf, hempty]; rfl
  | some t =>
      rw [Option.bind_some, hart_step h hphys ⟨r, hr, [vpnSlot va 2], Nat.one_lt_two, h2⟩]
      have hleaf : leafTable m r va = child m t (vpnSlot va 1) := by
        rw [leafTable, walk_cons, walk_cons, walk_nil, Option.bind_some, h2, Option.bind_some]
      cases h1 : child m t (vpnSlot va 1) with
      | none => rw [entryAt_none (hleaf.trans h1), hempty]; rfl
      | some u =>
          have hu : u ∈ tables m roots := ⟨r, hr, [vpnSlot va 1, vpnSlot va 2], Nat.le_refl 2, hleaf.trans h1⟩
          rw [Option.bind_some, entryAt_some (hleaf.trans h1)]
          exact Sv39Mmu.walk_last _ (by rw [index_eq, pages_pageNumber m (hphys u hu)])

/-- What an access reaches, from the level-0 entry. -/
theorem hart_translate_iff (h : Shape m roots) (hphys : ∀ t ∈ tables m roots, Physical t) (hr : r ∈ roots) :
    Sv39Mmu.translate p access (pages m) (makeSatp r) va = some pa ↔
      Sv39Mmu.canonical va = true ∧ Sv39Mmu.broken (entryAt m r va) = false ∧
        Sv39Mmu.leaf (entryAt m r va) = true ∧ Sv39Mmu.permits p access (entryAt m r va) = true ∧
        Sv39Mmu.physical (entryAt m r va) va 0 = pa := by
  rw [translate_makeSatp, Sv39Mmu.sv39_eq_some_iff, hart_walk h hphys hr]
  constructor
  · rintro ⟨hcan, pte, level, hwalk, hrest⟩
    obtain ⟨⟨hb, hl⟩, he⟩ := Option.ite_none_right_eq_some.mp hwalk
    cases he
    exact ⟨hcan, hb, hl, hrest⟩
  · rintro ⟨hcan, hb, hl, hrest⟩
    exact ⟨hcan, _, 0, if_pos ⟨hb, hl⟩, hrest⟩

/-- The physical address of a leaf at level 0. -/
theorem physical_makePte (h : Physical pa) (hf : flags.toNat < 2 ^ 10) (va : Word) :
    Sv39Mmu.physical (makePte pa flags) va 0 = pa + pageOffset va := by
  have hoff : BitVec.ofNat 64 (va.toNat % 2 ^ (12 + 9 * 0)) = pageOffset va := by
    apply BitVec.eq_of_toNat_eq
    rw [pageOffset_toNat, BitVec.toNat_ofNat]
    omega
  rw [Sv39Mmu.physical, ppn_makePte hf, pageNumber_base h, hoff]

/-- **The hart reads an entry as the map means it.** -/
theorem hart_obtains (h : Shape m roots) (hphys : ∀ t ∈ tables m roots, Physical t) (hr : r ∈ roots)
    {x : Option (Word × Word)} (hx : ∀ y, x = some y → Storable y) (hent : entryAt m r va = encode x) :
    Sv39Mmu.translate p access (pages m) (makeSatp r) va = obtains p access x va := by
  apply Option.ext
  intro pa
  rw [hart_translate_iff h hphys hr, hent]
  cases x with
  | none =>
      have hempty : Sv39Mmu.broken 0#64 = true := by decide
      simp [encode, obtains, hempty]
  | some y =>
      obtain ⟨base, flags⟩ := y
      obtain ⟨hal, hlt, hleaf⟩ := hx _ rfl
      have hV : pteValid (flags ||| pteV) = true := by rw [pteValid_eq, BitVec.getLsbD_or]; simp [pteV]
      have hbit : ∀ i, 1 ≤ i → i < 10 → (flags ||| pteV).getLsbD i = flags.getLsbD i := by
        intro i hlo hi
        have hbits : ∀ k : Fin 10, 1 ≤ k.1 → pteV.getLsbD k = false := by decide
        rw [BitVec.getLsbD_or, hbits ⟨i, hi⟩ hlo, Bool.or_false]
      have hbroken := broken_makePte (flags_or_lt hlt) base
      rw [hbit 1 (by decide) (by decide), hbit 2 (by decide) (by decide)] at hbroken
      simp only [encode, obtains, permits_makePte, hbroken, hV, true_and, Option.ite_none_right_eq_some]
      constructor
      · rintro ⟨hcan, ⟨hbound, hW⟩, _, hp, hpa⟩
        rw [physical_makePte ⟨hal, hbound⟩ (flags_or_lt hlt)] at hpa
        exact ⟨⟨hcan, hbound, hW, hp⟩, congrArg some hpa⟩
      · rintro ⟨⟨hcan, hbound, hW, hp⟩, hpa⟩
        refine ⟨hcan, ⟨hbound, hW⟩, ?_, hp, ?_⟩
        · -- some permission is set, and `W` alone is not one
          rw [Sv39Mmu.leaf, makePte_getLsbD_low _ _ (by decide), makePte_getLsbD_low _ _ (by decide),
            hbit 1 (by decide) (by decide), hbit 3 (by decide) (by decide)]
          cases h1 : flags.getLsbD 1 with
          | true => rfl
          | false =>
              cases h3 : flags.getLsbD 3 with
              | true => rfl
              | false =>
                  have h2 : flags.getLsbD 2 = false :=
                    Bool.eq_false_iff.mpr fun h2 => absurd (h1.symm.trans (hW h2)) Bool.false_ne_true
                  rw [pteLeaf_eq_false.mpr ⟨h1, h2, h3⟩] at hleaf
                  exact absurd hleaf (by decide)
        · rw [physical_makePte ⟨hal, hbound⟩ (flags_or_lt hlt)]
          exact Option.some.inj hpa

/-! ## Over runs of the page-table code -/

/-- The contract, with every table a physical page. -/
abbrev Located (I : Set Word → α → Prop) : Set Word → α → Prop := fun U a => I U a ∧ ∀ q ∈ U, Physical q

/-- An allocator of 56-bit pages meets it. -/
theorem AllocOk.bounded (hok : AllocOk allocPage I)
    (hbound : ∀ U a, I U a → ∀ q a', allocPage a = some (q, a') → q.toNat < 2 ^ 56) :
    AllocOk allocPage (Located I) where
  call := by
    rintro U a ⟨hI, hU⟩
    obtain ⟨q, a', hcall, hcase⟩ := hok.call hI
    refine ⟨q, a', hcall, ?_⟩
    rcases hcase with ⟨hnull, hI'⟩ | ⟨hne, hal, hfresh, hI'⟩
    · exact Or.inl ⟨hnull, hI', hU⟩
    · refine Or.inr ⟨hne, hal, hfresh, hI', fun t ht => ?_⟩
      rcases Set.mem_insert_iff.mp ht with rfl | hold
      · exact ⟨hal, hbound U a hI t a' hcall⟩
      · exact hU t hold

/-- The map, as the hart sees it. -/
theorem Refines.hart (h : Refines I root c) (hphys : ∀ t ∈ tables c.world.mem {root}, Physical t) (p : Privilege)
    (access : Access) (va : Word) :
    Sv39Mmu.translate p access (pages c.world.mem) (makeSatp root) va = obtains p access (mapping c.log (vpn va)) va :=
  hart_obtains h.shape hphys (Set.mem_singleton root) (h.storable _) (h.stored va)

/-- Where an access obtains an address, it is the one that the map prescribes. -/
theorem translate_of_obtains {x : Option (Word × Word)} (h : obtains p access x va = some pa) :
    translate x va = pa := by
  cases x with
  | none => exact absurd h (by simp [obtains])
  | some y =>
      obtain ⟨_, hpa⟩ := Option.ite_none_right_eq_some.mp h
      have hoff : pageOffset va = BitVec.ofNat 64 (va.toNat % 4096) := by
        apply BitVec.eq_of_toNat_eq
        rw [pageOffset_toNat, BitVec.toNat_ofNat]
        omega
      rw [← Option.some.inj hpa, hoff]
      rfl

/-- **The hart refines the same map.** After any permitted calls, with the root in `satp`: an access in S- or U-mode
    reaches exactly what the map and its flags grant, and wherever it reaches anything `virt_to_phys` says the
    same. -/
theorem hart_refines_map (hok : AllocOk allocPage I)
    (hbound : ∀ U a, I U a → ∀ q a', allocPage a = some (q, a') → q.toNat < 2 ^ 56) {w : World α}
    (hzero : ∀ i, w.mem root i = 0#64) (hroot : Physical root) (hI : I {root} w.src)
    (hr : Reach (Space.step allocPage root) (fun _ op => op.Permitted) ⟨w, []⟩ c) (p : Privilege) (access : Access)
    (va : Word) :
    Sv39Mmu.translate p access (pages c.world.mem) (makeSatp root) va =
        obtains p access (mapping c.log (vpn va)) va ∧
      ∀ pa, Sv39Mmu.translate p access (pages c.world.mem) (makeSatp root) va = some pa →
        virtToPhys c.world.mem root va = pa := by
  have hroots : ∀ q ∈ ({root} : Set Word), Physical q := by
    rintro q rfl
    exact hroot
  have h := refines_reach (hok.bounded hbound) hzero ⟨hI, hroots⟩ hr
  have hart := h.hart h.alloc.2 p access va
  refine ⟨hart, fun pa hpa => ?_⟩
  rw [h.virtToPhys]
  exact translate_of_obtains (hart.symm.trans hpa)

/-- The answers still to come lie in the physical address space. -/
def PlayablePages (U : Set Word) (ps : List Word) : Prop :=
  Playable U ps ∧ ∀ p ∈ ps, p.toNat < 2 ^ 56

theorem playback_pages_ok : AllocOk playback PlayablePages where
  call := by
    rintro U ps ⟨hplay, hps⟩
    obtain ⟨p, ps', hcall, hcase⟩ := playback_ok.call hplay
    have htail : ∀ q ∈ ps', q.toNat < 2 ^ 56 := by
      intro q hq
      cases ps with
      | nil => cases hcall; exact absurd hq List.not_mem_nil
      | cons p₀ ps₀ => cases hcall; exact hps q (List.mem_cons_of_mem _ hq)
    refine ⟨p, ps', hcall, ?_⟩
    rcases hcase with ⟨hnull, hI'⟩ | ⟨hne, hal, hfresh, hI'⟩
    · exact Or.inl ⟨hnull, hI', htail⟩
    · exact Or.inr ⟨hne, hal, hfresh, hI', htail⟩

theorem playback_bounded (U : Set Word) (ps : List Word) (h : PlayablePages U ps) (q : Word) (ps' : List Word)
    (hcall : playback ps = some (q, ps')) : q.toNat < 2 ^ 56 := by
  cases ps with
  | nil => cases hcall; decide
  | cons p ps => cases hcall; exact h.2 q List.mem_cons_self

/-- A page that is mapped for reading and writing, and nothing else. -/
theorem hart_refines_map_test : ∃ c : Space (List Word),
    Reach (Space.step playback 0x80000000#64) (fun _ op => op.Permitted)
      ⟨⟨fun _ _ => 0#64, [0x80001000#64, 0x80002000#64]⟩, []⟩ c ∧
    Sv39Mmu.translate ⟨false, false, false⟩ .store (pages c.world.mem) (makeSatp 0x80000000#64) 0x1234#64 =
      some 0x5234#64 := by
  have hlog : (Space.step playback 0x80000000#64 ⟨⟨fun _ _ => 0#64, [0x80001000#64, 0x80002000#64]⟩, []⟩
      (.map 0x1000#64 0x5000#64 (pteR ||| pteW ||| pteA ||| pteD))).map Space.log =
      some [(.map 0x1000#64 0x5000#64 (pteR ||| pteW ||| pteA ||| pteD), true)] := by decide +kernel
  obtain ⟨c, hst, hl⟩ := Option.map_eq_some_iff.mp hlog
  have hperm : (PtOp.map 0x1000#64 0x5000#64 (pteR ||| pteW ||| pteA ||| pteD)).Permitted := ⟨by decide, by decide⟩
  have hr : Reach (Space.step playback 0x80000000#64) (fun _ op => op.Permitted)
      ⟨⟨fun _ _ => 0#64, [0x80001000#64, 0x80002000#64]⟩, []⟩ c := Reach.single hperm hst
  have hplay : PlayablePages {0x80000000#64} [0x80001000#64, 0x80002000#64] := by
    refine ⟨playable_two, fun p hp => ?_⟩
    rcases List.mem_pair.mp hp with rfl | rfl <;> decide
  have h := (hart_refines_map playback_pages_ok playback_bounded (fun _ => rfl) ⟨by decide, by decide⟩ hplay hr
    ⟨false, false, false⟩ .store 0x1234#64).1
  rw [hl] at h
  exact ⟨c, hr, h.trans (by decide)⟩

end Arch
end RiscCore
