import RiscCore.Arch.MapPage
import RiscCore.Lib.Runs

/-!
# `Arch.MapRefinement` — one address space is a finite map

The purpose of `map_page`, `unmap_page` and `virt_to_phys` on one root is a finite map from 27-bit page
numbers to a physical page and its flags. `mapping` is that map, read off the history of calls and their
results alone; `Refines` says that the level-0 entries in memory store it. Every call keeps the relation
(`refines_step`), so every run does, and the answers of the code are the answers of the map.
-/

namespace RiscCore
namespace Arch

open Mm Runs

inductive PtOp where
  | map (va pa flags : Word)
  | unmap (va : Word)
deriving DecidableEq, Repr

/-- Mappings carry ten bits of flags and at least one permission. -/
def PtOp.Permitted : PtOp → Prop
  | .map _ _ flags => flags.toNat < 2 ^ 10 ∧ flags &&& (pteR ||| pteW ||| pteX) ≠ 0#64
  | .unmap _ => True

/-- Calls and their results, the last one first. -/
abbrev PtLog := List (PtOp × Bool)

/-- **The abstract map.** What the last successful call on page `v` left there. -/
def mapping : PtLog → BitVec 27 → Option (Word × Word)
  | [], _ => none
  | (.map va pa flags, true) :: log, v => if v = vpn va then some (pa, flags) else mapping log v
  | (.unmap va, true) :: log, v => if v = vpn va then none else mapping log v
  | (_, false) :: log, v => mapping log v

/-- One address space in use: memory, allocator, and the history so far. -/
structure Space (α : Type) where
  world : World α
  log : PtLog

def Space.step {α : Type} (allocPage : AllocPage α) (root : Word) (c : Space α) : PtOp → Option (Space α)
  | .map va pa flags => do
    let (ok, w') ← mapPage allocPage c.world root va pa flags
    return ⟨w', (.map va pa flags, ok) :: c.log⟩
  | .unmap va =>
    let (ok, m') := unmapPage c.world.mem root va
    some ⟨{ c.world with mem := m' }, (.unmap va, ok) :: c.log⟩

/-- The entry that stores one value of the map. -/
def encode : Option (Word × Word) → Pte
  | some (pa, flags) => makePte pa (flags ||| pteV)
  | none => 0#64

/-- What the map may hold. -/
def Storable (x : Word × Word) : Prop :=
  isPageAligned x.1 = true ∧ x.2.toNat < 2 ^ 10 ∧ pteLeaf x.2 = true

variable {α : Type} {allocPage : AllocPage α} {I : Set Word → α → Prop} {root : Word} {c c' : Space α}

/-- **The refinement relation.** -/
structure Refines (I : Set Word → α → Prop) (root : Word) (c : Space α) : Prop where
  shape : Shape c.world.mem {root}
  alloc : I (tables c.world.mem {root}) c.world.src
  stored : ∀ a, entryAt c.world.mem root a = encode (mapping c.log (vpn a))
  storable : ∀ v x, mapping c.log v = some x → Storable x
  null : root = 0#64 → ∀ v, mapping c.log v = none

theorem refines_init {w : World α} (hzero : ∀ i, w.mem root i = 0#64) (hI : I {root} w.src) :
    Refines I root ⟨w, []⟩ := by
  obtain ⟨hshape, htab, hent, _⟩ := plantRoot (shape_empty w.mem) w.mem
    (p := root) (by rw [tables_empty]; exact Set.notMem_empty _) hzero (fun _ _ _ => rfl)
  rw [tables_empty] at htab
  rw [insert_empty_eq] at hshape htab
  refine ⟨hshape, ?_, hent, fun _ _ hc => absurd hc (by simp [mapping]), fun _ _ => rfl⟩
  show I (tables w.mem {root}) w.src
  rw [htab]; exact hI

/-! ## What an entry says -/

theorem encode_some {pa flags : Word} (h : Storable (pa, flags)) :
    pteValid (encode (some (pa, flags))) = true ∧ pteLeaf (encode (some (pa, flags))) = true ∧
      pteToPa (encode (some (pa, flags))) = pa ∧
      encode (some (pa, flags)) &&& Align.lowMask 64 10 = flags ||| pteV := by
  obtain ⟨hpa, hlt, hleaf⟩ := h
  refine ⟨pteValid_makePte pa flags, ?_, pteToPa_makePte hpa (flags_or_lt hlt), makePte_flags (flags_or_lt hlt)⟩
  rw [encode, pteLeaf_makePte]; exact hleaf

theorem encode_valid {x : Option (Word × Word)} : pteValid (encode x) = true ↔ x ≠ none := by
  cases x with
  | none => simp [encode, pteValid_zero]
  | some x => simp [encode, pteValid_makePte]

theorem Refines.leaf (h : Refines I root c) {v : BitVec 27} (hv : pteValid (encode (mapping c.log v)) = true) :
    pteLeaf (encode (mapping c.log v)) = true := by
  cases hx : mapping c.log v with
  | none => rw [hx] at hv; exact absurd hv (by decide)
  | some x => exact (encode_some (h.storable v x hx)).2.1

/-! ## The step -/

/-- A successful `map_page` puts a storable value into the map. -/
theorem refines_map (hok : AllocOk allocPage I) (h : Refines I root c) {va pa flags : Word}
    (hflags : (PtOp.map va pa flags).Permitted) :
    ∃ ok w', mapPage allocPage c.world root va pa flags = some (ok, w') ∧
      Refines I root ⟨w', (.map va pa flags, ok) :: c.log⟩ := by
  obtain ⟨ok, w', hmap, hshape, hI, hfail, hdone⟩ :=
    mapPage_spec hok h.shape h.alloc (Set.mem_singleton root) va pa flags
  refine ⟨ok, w', hmap, ?_⟩
  cases ok with
  | false =>
      -- intermediate tables may be new, but no level-0 entry is
      refine ⟨hshape, hI, fun a => ?_, h.storable, h.null⟩
      rw [hfail rfl root (Set.mem_singleton root) a]; exact h.stored a
  | true =>
      obtain ⟨hne, _, hpa, _, hent⟩ := hdone rfl
      refine ⟨hshape, hI, fun a => ?_, fun v x hx => ?_, fun hnull => absurd hnull hne⟩
      · rw [hent root (Set.mem_singleton root) a]
        by_cases hv : vpn a = vpn va
        · simp [mapping, hv, encode]
        · simp [mapping, hv, h.stored a]
      · by_cases hv : v = vpn va
        · rw [mapping, if_pos hv] at hx
          cases hx
          exact ⟨hpa, hflags.1, bne_iff_ne.mpr hflags.2⟩
        · rw [mapping, if_neg hv] at hx
          exact h.storable v x hx

/-- Success needs an empty page, whatever the flags. -/
theorem refines_map_fresh (hok : AllocOk allocPage I) (h : Refines I root c) {va pa flags : Word}
    {w' : World α} (hmap : mapPage allocPage c.world root va pa flags = some (true, w')) :
    mapping c.log (vpn va) = none := by
  obtain ⟨ok, w'', hmap', _, _, _, hdone⟩ :=
    mapPage_spec hok h.shape h.alloc (Set.mem_singleton root) va pa flags
  rw [hmap] at hmap'
  cases hmap'
  obtain ⟨_, _, _, hempty, _⟩ := hdone rfl
  rw [h.stored] at hempty
  by_contra hmapped
  rw [encode_valid.mpr hmapped] at hempty
  exact absurd hempty (by simp)

/-- `unmap_page` empties a mapped page, and rejects everything else. -/
theorem refines_unmap (h : Refines I root c) (va : Word) :
    Refines I root ⟨{ c.world with mem := (unmapPage c.world.mem root va).2 },
        (.unmap va, (unmapPage c.world.mem root va).1) :: c.log⟩ ∧
      ((unmapPage c.world.mem root va).1 = true ↔
        isPageAligned va = true ∧ mapping c.log (vpn va) ≠ none) := by
  by_cases hnull : root = 0#64
  · have hrej : unmapPage c.world.mem root va = (false, c.world.mem) := by simp [unmapPage, hnull]
    rw [hrej]
    refine ⟨⟨h.shape, h.alloc, h.stored, h.storable, h.null⟩, ?_⟩
    simp [h.null hnull]
  rcases unmapPage_spec h.shape (Set.mem_singleton root) hnull va with
    ⟨hrej, hno⟩ | ⟨m', hacc, hal, hv, hleaf, hshape, htab, hent⟩
  · rw [hrej]
    refine ⟨⟨h.shape, h.alloc, h.stored, h.storable, h.null⟩, fun hc => absurd hc Bool.false_ne_true, ?_⟩
    rintro ⟨hal, hmapped⟩
    rw [h.stored] at hno
    have hvalid := encode_valid.mpr hmapped
    exact absurd ⟨hal, hvalid, h.leaf hvalid⟩ hno
  · rw [hacc]
    refine ⟨⟨hshape, ?_, fun a => ?_, fun v x hx => ?_, fun hc => absurd hc hnull⟩, ?_⟩
    · show I (tables m' {root}) c.world.src
      rw [htab]; exact h.alloc
    · show entryAt m' root a = _
      rw [hent root (Set.mem_singleton root) a]
      by_cases hva : vpn a = vpn va
      · simp [mapping, hva, encode]
      · simp [mapping, hva, h.stored a]
    · by_cases hva : v = vpn va
      · rw [mapping, if_pos hva] at hx; exact absurd hx (by simp)
      · rw [mapping, if_neg hva] at hx; exact h.storable v x hx
    · rw [h.stored] at hv
      exact ⟨fun _ => ⟨hal, encode_valid.mp hv⟩, fun _ => rfl⟩

/-- **Step lemma.** A permitted call returns and keeps the refinement. -/
theorem refines_step (hok : AllocOk allocPage I) (h : Refines I root c) {op : PtOp} (hop : op.Permitted) :
    ∃ c', c.step allocPage root op = some c' ∧ Refines I root c' := by
  cases op with
  | map va pa flags =>
      obtain ⟨ok, w', hmap, href⟩ := refines_map hok h hop
      exact ⟨_, by rw [Space.step, hmap]; rfl, href⟩
  | unmap va => exact ⟨_, rfl, (refines_unmap h va).1⟩

/-- **Run lemma.** -/
theorem refines_reach (hok : AllocOk allocPage I) {w : World α} (hzero : ∀ i, w.mem root i = 0#64)
    (hI : I {root} w.src)
    (hr : Reach (Space.step allocPage root) (fun _ op => op.Permitted) ⟨w, []⟩ c) : Refines I root c := by
  refine Reach.invariant (refines_init hzero hI) ?_ hr
  intro t op u ht hop hst
  obtain ⟨u', hu', href⟩ := refines_step hok ht hop
  rw [hst] at hu'
  exact Option.some.inj hu' ▸ href

/-- The translation the map prescribes. -/
def translate : Option (Word × Word) → Word → Word
  | some (pa, _), a => pa + BitVec.ofNat 64 (a.toNat % 4096)
  | none, _ => 0#64

theorem Refines.virtToPhys (h : Refines I root c) (a : Word) :
    virtToPhys c.world.mem root a = translate (mapping c.log (vpn a)) a := by
  by_cases hnull : root = 0#64
  · rw [h.null hnull, Arch.virtToPhys, if_pos hnull]; rfl
  rw [virtToPhys_spec h.shape (Set.mem_singleton root) hnull, h.stored]
  cases hx : mapping c.log (vpn a) with
  | none => rfl
  | some x =>
      obtain ⟨hv, hleaf, hpa, _⟩ := encode_some (h.storable _ x hx)
      have hoff : pageOffset a = BitVec.ofNat 64 (a.toNat % 4096) := by
        apply BitVec.eq_of_toNat_eq
        rw [pageOffset_toNat, BitVec.toNat_ofNat]
        omega
      rw [hv, hleaf, Bool.and_self, if_pos rfl, hpa, hoff]; rfl

/-- **The page-table code refines a finite map.** After any permitted calls on a root that started zeroed,
    with any allocator that returns null or a page not in use as a table: translation is the map's, the leaf
    entry of a mapped page decodes to exactly what was mapped, nothing mapped is overwritten, `unmap_page`
    succeeds exactly on mapped pages, and no call faults. -/
theorem pageTable_refines_map (hok : AllocOk allocPage I) {w : World α} (hzero : ∀ i, w.mem root i = 0#64)
    (hI : I {root} w.src)
    (hr : Reach (Space.step allocPage root) (fun _ op => op.Permitted) ⟨w, []⟩ c) :
    (∀ a, virtToPhys c.world.mem root a = translate (mapping c.log (vpn a)) a) ∧
    (∀ va pa flags, mapping c.log (vpn va) = some (pa, flags) →
      ∃ t, leafTable c.world.mem root va = some t ∧ pteToPa (c.world.mem t (vpnSlot va 0)) = pa ∧
        c.world.mem t (vpnSlot va 0) &&& 0x3ff#64 = flags ||| pteV) ∧
    (∀ va pa flags w', mapPage allocPage c.world root va pa flags = some (true, w') →
      mapping c.log (vpn va) = none) ∧
    (∀ va, (unmapPage c.world.mem root va).1 = true ↔
      isPageAligned va = true ∧ mapping c.log (vpn va) ≠ none) ∧
    ∀ op : PtOp, op.Permitted → ∃ c', c.step allocPage root op = some c' := by
  have h := refines_reach hok hzero hI hr
  refine ⟨h.virtToPhys, ?_, fun _ _ _ _ => refines_map_fresh hok h, fun va => (refines_unmap h va).2, ?_⟩
  · intro va pa flags hx
    obtain ⟨hv, _, hpa, hfl⟩ := encode_some (h.storable _ _ hx)
    have hent := h.stored va
    rw [hx] at hent
    cases ht : leafTable c.world.mem root va with
    | none =>
        rw [entryAt_none ht] at hent
        rw [← hent] at hv
        exact absurd hv (by decide)
    | some t =>
        rw [entryAt_some ht] at hent
        rw [← hent] at hpa hfl
        exact ⟨t, rfl, hpa, hfl⟩
  · intro op hop
    obtain ⟨c', hst, _⟩ := refines_step hok h hop
    exact ⟨c', hst⟩

/-! ## An allocator that meets the contract -/

/-- An allocator that plays back a list of answers, then null. -/
def playback : AllocPage (List Word)
  | [] => some (0#64, [])
  | p :: ps => some (p, ps)

/-- The answers still to come: nulls, and aligned pages that are no tables and never repeat. -/
def Playable (U : Set Word) (ps : List Word) : Prop :=
  ps.Pairwise (fun p q => p ≠ 0#64 → q ≠ p) ∧ ∀ p ∈ ps, p ≠ 0#64 → isPageAligned p = true ∧ p ∉ U

/-- The contract asks for no more than that the answers themselves are fresh. -/
theorem playback_ok : AllocOk playback Playable where
  call := by
    intro U ps h
    cases ps with
    | nil => exact ⟨0#64, [], rfl, Or.inl ⟨rfl, h⟩⟩
    | cons p ps =>
        obtain ⟨hpair, hall⟩ := h
        obtain ⟨hhead, htail⟩ := List.pairwise_cons.mp hpair
        have hrest : ∀ q ∈ ps, q ≠ 0#64 → isPageAligned q = true ∧ q ∉ U :=
          fun q hq => hall q (List.mem_cons_of_mem p hq)
        refine ⟨p, ps, rfl, ?_⟩
        by_cases hp : p = 0#64
        · exact Or.inl ⟨hp, htail, hrest⟩
        · obtain ⟨hal, hnew⟩ := hall p List.mem_cons_self hp
          refine Or.inr ⟨hp, hal, hnew, htail, fun q hq hq0 => ⟨(hrest q hq hq0).1, ?_⟩⟩
          intro hmem
          rcases Set.mem_insert_iff.mp hmem with he | hU
          · exact hhead q hq hp he
          · exact (hrest q hq hq0).2 hU

/-- Two pages that may follow a root at `0x80000000`. -/
theorem playable_two : Playable {0x80000000#64} [0x80001000#64, 0x80002000#64] := by
  refine ⟨by simp, fun p hp _ => ?_⟩
  rcases List.mem_pair.mp hp with rfl | rfl
  · exact ⟨by decide, by simp⟩
  · exact ⟨by decide, by simp⟩

/-- Two fresh tables, one mapping: the address is translated. -/
theorem pageTable_refines_map_test : ∃ c : Space (List Word),
    Reach (Space.step playback 0x80000000#64) (fun _ op => op.Permitted)
      ⟨⟨fun _ _ => 0#64, [0x80001000#64, 0x80002000#64]⟩, []⟩ c ∧
    virtToPhys c.world.mem 0x80000000#64 0x1234#64 = 0x5234#64 := by
  have hlog : (Space.step playback 0x80000000#64 ⟨⟨fun _ _ => 0#64, [0x80001000#64, 0x80002000#64]⟩, []⟩
      (.map 0x1000#64 0x5000#64 (pteR ||| pteW))).map Space.log =
      some [(.map 0x1000#64 0x5000#64 (pteR ||| pteW), true)] := by decide +kernel
  obtain ⟨c, hst, hl⟩ := Option.map_eq_some_iff.mp hlog
  have hperm : (PtOp.map 0x1000#64 0x5000#64 (pteR ||| pteW)).Permitted := ⟨by decide, by decide⟩
  have hr : Reach (Space.step playback 0x80000000#64) (fun _ op => op.Permitted)
      ⟨⟨fun _ _ => 0#64, [0x80001000#64, 0x80002000#64]⟩, []⟩ c := Reach.single hperm hst
  have h := (pageTable_refines_map playback_ok (fun _ => rfl) playable_two hr).1 0x1234#64
  rw [hl] at h
  exact ⟨c, hr, h⟩

end Arch
end RiscCore
