import Mathlib.Logic.Function.Basic
import RiscCore.Arch.Mmu
import RiscCore.Arch.PageBalance
import RiscCore.Mm.PmmAlloc

/-!
# `Arch.AddressSpaces` — many address spaces on one allocator

What the page-table code and the allocator are for, as all their callers together see it. `Spaces` knows, for each
root, the map from pages to frames and flags, which pages the clients hold, and which are left. A call on one root
is about the map of that root and no other. Which page `alloc_page` takes is left open, and so is how far
`map_range` gets; but a null, or a failure that the arguments do not explain, means that no page is left.

`Serves` ties the machine to such a state. Every call of the code is then a step of `Spaces` with the same answer
(`Serves.call`), and so is every run (`address_spaces`).
-/

namespace RiscCore
namespace Arch

open Mm Pmm Runs Forest Supply
open Sv39Mmu (Privilege Access)

/-- What a call says to its caller. -/
inductive Answer where
  | done
  | ok (accepted : Bool)
  | page (p : Word)
deriving DecidableEq

/-- The calls of the machine, with their answers. -/
def Machine.call (c : Machine) : MachineOp → Option (Answer × Machine)
  | .newRoot => do
    let (root, w') ← allocPageTable Pmm.allocPage c.world
    return (.page root, { c with world := w', roots := if root = 0#64 then c.roots else root :: c.roots })
  | .map root va pa flags => do
    let (ok, w') ← mapPage Pmm.allocPage c.world root va pa flags
    return (.ok ok, { c with world := w' })
  | .mapRange root va pa size flags => do
    let (ok, w') ← Arch.mapRange Pmm.allocPage c.world root va pa size flags
    return (.ok ok, { c with world := w' })
  | .unmap root va =>
    let (ok, m') := unmapPage c.world.mem root va
    some (.ok ok, { c with world := { c.world with mem := m' } })
  | .alloc => do
    let (page, s') ← c.world.src.allocPage
    return (.page page, { c with
      world := { c.world with src := s' }
      owned := if page = 0#64 then c.owned else page :: c.owned })
  | .free page => do
    let (ok, s') ← c.world.src.freePage page
    return (.ok ok, { c with
      world := { c.world with src := s' }
      owned := if ok then c.owned.erase page else c.owned })
  | .store page i value =>
    some (.done, { c with world := { c.world with mem := c.world.mem.setEntry page i value } })

/-- The machine of `Arch.TablePages` is this one without the answers. -/
theorem Machine.call_step (c : Machine) (op : MachineOp) : (c.call op).map Prod.snd = c.step op := by
  cases op with
  | newRoot => simp [call, step]
  | map root va pa flags => simp [call, step]
  | mapRange root va pa size flags => simp [call, step]
  | unmap root va => rfl
  | alloc => simp [call, step]
  | free page => simp [call, step]
  | store page i value => rfl

/-- The calls of `Machine.Permitted`, with flags that an entry can hold. -/
def Machine.Sensible (c : Machine) : MachineOp → Prop
  | .map root va pa flags => c.Permitted (.map root va pa flags) ∧ (PtOp.map va pa flags).Permitted
  | .mapRange root va pa size flags =>
    c.Permitted (.mapRange root va pa size flags) ∧ (PtOp.map va pa flags).Permitted
  | op => c.Permitted op

instance (c : Machine) : (op : MachineOp) → Decidable (c.Sensible op)
  | .newRoot => inferInstanceAs (Decidable True)
  | .map root _ _ _ => inferInstanceAs (Decidable (root ∈ c.roots ∧ _ ∧ _))
  | .mapRange root _ _ _ _ => inferInstanceAs (Decidable (root ∈ c.roots ∧ _ ∧ _))
  | .unmap root _ => inferInstanceAs (Decidable (root ∈ c.roots))
  | .alloc => inferInstanceAs (Decidable True)
  | .free page => inferInstanceAs (Decidable (page ∈ c.owned))
  | .store page _ _ => inferInstanceAs (Decidable (page ∈ c.owned))

/-! ## The purpose -/

/-- One address space. -/
abbrev AddressMap := BitVec 27 → Option (Word × Word)

/-- **`map_page`**, on an address space and the pages that are left: the page is put, the tables taking two pages at
    most; or it is refused; or the pages that were left did not do. -/
inductive PutPage (va pa flags : Word) : AddressMap × Set Word → Bool → AddressMap × Set Word → Prop where
  | put {f : AddressMap} {left : Set Word} {ps : List Word} : isPageAligned va = true → isPageAligned pa = true →
      f (vpn va) = none → ps.length ≤ 2 → (∀ p ∈ ps, p ∈ left) →
      PutPage va pa flags (f, left) true (Function.update f (vpn va) (some (pa, flags)), left \ {p | p ∈ ps})
  | refused {f : AddressMap} {left : Set Word} :
      isPageAligned va = false ∨ isPageAligned pa = false ∨ f (vpn va) ≠ none →
      PutPage va pa flags (f, left) false (f, left)
  | exhausted {f : AddressMap} {left : Set Word} : left.Subsingleton → PutPage va pa flags (f, left) false (f, ∅)

/-- The first `k` pages of a range are put. -/
inductive PutPages (va pa flags : Word) (x : AddressMap × Set Word) : Nat → AddressMap × Set Word → Prop where
  | zero : PutPages va pa flags x 0 x
  | succ {k : Nat} {y z : AddressMap × Set Word} : PutPages va pa flags x k y →
      PutPage (pageAddr va k) (pageAddr pa k) flags y true z → PutPages va pa flags x (k + 1) z

/-- **`map_range`**: every page of the range is put, or those before the first that fails. -/
inductive PutRange (va pa size flags : Word) (x : AddressMap × Set Word) : Bool → AddressMap × Set Word → Prop where
  | empty : size = 0#64 → PutRange va pa size flags x true x
  | refused : size ≠ 0#64 → isPageAligned va = false ∨ isPageAligned pa = false → PutRange va pa size flags x false x
  | all {y : AddressMap × Set Word} : isPageAligned va = true → isPageAligned pa = true →
      PutPages va pa flags x (visits va size) y → PutRange va pa size flags x true y
  | stopped {k : Nat} {y z : AddressMap × Set Word} : isPageAligned va = true → isPageAligned pa = true →
      k < visits va size → PutPages va pa flags x k y →
      PutPage (pageAddr va k) (pageAddr pa k) flags y false z → PutRange va pa size flags x false z

/-- The address spaces, the clients' pages, and the rest. -/
structure Spaces where
  space : Word → Option AddressMap
  held : Set Word
  left : Set Word

/-- **What the callers rely on.** -/
inductive Spaces.Step (S : Spaces) : MachineOp → Answer → Spaces → Prop where
  | newRoot {root : Word} : root ∈ S.left → S.space root = none → root ∉ S.held →
      S.Step .newRoot (.page root)
        ⟨Function.update S.space root (some fun _ => none), S.held, S.left \ {root}⟩
  | noRoot : S.left = ∅ → S.Step .newRoot (.page 0#64) S
  | map {root va pa flags : Word} {ok : Bool} {f f' : AddressMap} {left' : Set Word} : S.space root = some f →
      PutPage va pa flags (f, S.left) ok (f', left') →
      S.Step (.map root va pa flags) (.ok ok) ⟨Function.update S.space root (some f'), S.held, left'⟩
  | mapRange {root va pa size flags : Word} {ok : Bool} {f f' : AddressMap} {left' : Set Word} :
      S.space root = some f → PutRange va pa size flags (f, S.left) ok (f', left') →
      S.Step (.mapRange root va pa size flags) (.ok ok) ⟨Function.update S.space root (some f'), S.held, left'⟩
  | unmap {root va : Word} {f : AddressMap} : S.space root = some f → isPageAligned va = true → f (vpn va) ≠ none →
      S.Step (.unmap root va) (.ok true)
        { S with space := Function.update S.space root (some (Function.update f (vpn va) none)) }
  | notMapped {root va : Word} {f : AddressMap} : S.space root = some f →
      isPageAligned va = false ∨ f (vpn va) = none → S.Step (.unmap root va) (.ok false) S
  | alloc {p : Word} : p ∈ S.left → S.space p = none → p ∉ S.held →
      S.Step .alloc (.page p) ⟨S.space, insert p S.held, S.left \ {p}⟩
  | noPage : S.left = ∅ → S.Step .alloc (.page 0#64) S
  | free {p : Word} : p ∈ S.held → S.Step (.free p) (.ok true) ⟨S.space, S.held \ {p}, insert p S.left⟩
  | store {p : Word} {i : Fin 512} {value : Word} : p ∈ S.held → S.Step (.store p i value) .done S

variable {F₀ F : FrameSet} {c c' : Machine} {owned : List Word} {s s' : Pmm} {p : Word} {ps : List Word} {m m₀ : Mem}
  {roots : Set Word} {r root va pa size flags a : Word} {w : World Pmm} {f : AddressMap} {x : AddressMap × Set Word}
  {S : Spaces}

/-! ## The pages that are left -/

/-- The pages that `is_page_free` reports free. -/
def freeSet (s : Pmm) : Set Word := {q | s.isPageFree q = some true}

theorem notMem_freeSet (h : Rep s F) (q : Word) : q ∉ freeSet s ↔ s.isPageFree q = some false := by
  obtain ⟨b, hb, _⟩ := isPageFree_rep h q
  show ¬ s.isPageFree q = some true ↔ _
  rw [hb]
  cases b <;> simp

/-- What a call of `alloc_page` takes. -/
theorem allocPage_takes (h : Rep s F) (ha : s.allocPage = some (p, s')) :
    (∃ F', Rep s' F') ∧ freeSet s' = freeSet s \ {p} := by
  have hrep : ∃ F', Rep s' F' := by
    rcases allocPage_rep h with ⟨hnull, _⟩ | ⟨i, t, _, halloc, hrep⟩
    · obtain ⟨_, rfl⟩ := Prod.mk.inj (Option.some.inj (ha.symm.trans hnull))
      exact ⟨F, h⟩
    · obtain ⟨_, rfl⟩ := Prod.mk.inj (Option.some.inj (ha.symm.trans halloc))
      exact ⟨F.reserve i, hrep⟩
  refine ⟨hrep, Set.ext fun q => ?_⟩
  obtain ⟨F', hrep'⟩ := hrep
  rw [Set.mem_sdiff, Set.mem_singleton_iff, ← not_iff_not, not_and_or, not_not, notMem_freeSet h, notMem_freeSet hrep']
  exact allocPage_used_iff h ha q

/-- If page zero is not to be had, null means that nothing is left. -/
theorem allocPage_exhausted (h : Rep s F) (hzero : s.isPageFree 0#64 = some false)
    (ha : s.allocPage = some (0#64, s')) : freeSet s = ∅ := by
  obtain ⟨p', s'', ha', hiff, _⟩ := (nullMeansExhaustion_iff h).mpr hzero
  obtain ⟨rfl, rfl⟩ := Prod.mk.inj (Option.some.inj (ha.symm.trans ha'))
  refine Set.eq_empty_iff_forall_notMem.mpr fun q hq => ?_
  obtain ⟨b, hb, hbiff⟩ := isPageFree_rep h q
  have hfree : s.isPageFree q = some true := hq
  obtain ⟨i, hi, rfl, _⟩ := hbiff.mp (Option.some.inj (hb.symm.trans hfree))
  have hused := hiff.mp rfl _ (isManagedPage_pageAddr h hi)
  rw [hfree] at hused
  cases hused

/-- What a row of granted calls takes. -/
theorem grants_take (hg : Grants Pmm.allocPage 0#64 s ps s') : ∀ {F : FrameSet}, Rep s F →
    (∃ F', Rep s' F') ∧ (∀ p ∈ ps, p ∈ freeSet s) ∧ freeSet s' = freeSet s \ {p | p ∈ ps} := by
  induction hg with
  | nil s => exact fun {F} h => ⟨⟨F, h⟩, fun _ hp => absurd hp List.not_mem_nil, by simp⟩
  | @cons s s₁ s₂ p ps hcall hp _ ih =>
      intro F h
      obtain ⟨⟨F', hrep⟩, htaken⟩ := allocPage_takes h hcall
      obtain ⟨hend, hmem, hrest⟩ := ih hrep
      refine ⟨hend, fun q hq => ?_, ?_⟩
      · rcases List.mem_cons.mp hq with rfl | hq
        · exact allocPage_free h hcall hp
        · have hin := hmem q hq
          rw [htaken] at hin
          exact hin.1
      · rw [hrest, htaken, Set.sdiff_sdiff]
        congr 1
        exact Set.ext fun q => (List.mem_cons (a := q)).symm

/-- What a client gives back is left again. -/
theorem freePage_gives {U : Set Word} (hhome : Homed F₀) (h : Holds F₀ owned U s) (hp : p ∈ owned)
    (hfree : s.freePage p = some (true, s')) : freeSet s' = insert p (freeSet s) := by
  obtain ⟨out, F, hled, _, howned⟩ := h
  obtain ⟨i, t, hmax, hi, rfl, _, hfree', hrep, _⟩ := hled.free_held hhome (howned p hp).1
  obtain ⟨_, rfl⟩ := Prod.mk.inj (Option.some.inj (hfree.symm.trans hfree'))
  refine Set.ext fun q => ?_
  obtain ⟨b, hb, hb'⟩ := isPageFree_release hled.rep (hled.total ▸ hi) hrep q
  show s'.isPageFree q = some true ↔ q = pageAddr F₀.base i ∨ s.isPageFree q = some true
  rw [hb, hb', hled.base, Option.some.injEq, Option.some.injEq, Bool.or_eq_true, beq_iff_eq]
  exact or_comm

/-! ## One address space -/

/-- The level-0 entries of `root` are those of `f`. -/
structure Stores (m : Mem) (root : Word) (f : AddressMap) : Prop where
  entry : ∀ a, entryAt m root a = encode (f (vpn a))
  storable : ∀ v y, f v = some y → Storable y

theorem Stores.congr (h : Stores m root f) (hent : ∀ a, entryAt m₀ root a = entryAt m root a) : Stores m₀ root f :=
  ⟨fun a => (hent a).trans (h.entry a), h.storable⟩

/-- One entry more, or another one. -/
theorem Stores.update (h : Stores m root f) {y : Option (Word × Word)} (hy : ∀ z, y = some z → Storable z)
    (hent : ∀ a, entryAt m₀ root a = if vpn a = vpn va then encode y else entryAt m root a) :
    Stores m₀ root (Function.update f (vpn va) y) where
  entry := by
    intro a
    rw [hent a]
    by_cases hv : vpn a = vpn va
    · rw [if_pos hv, hv, Function.update_self]
    · rw [if_neg hv, Function.update_of_ne hv, h.entry a]
  storable := by
    intro v z hz
    by_cases hv : v = vpn va
    · rw [hv, Function.update_self] at hz
      exact hy z hz
    · rw [Function.update_of_ne hv] at hz
      exact h.storable v z hz

/-- Entries live in tables. -/
theorem entryAt_frame (hr : r ∈ roots) (hsame : ∀ q ∈ tables m roots, ∀ i, m₀ q i = m q i) (a : Word) :
    entryAt m₀ r a = entryAt m r a := by
  have hchild : ∀ q ∈ linkTables m roots, ∀ i, child m₀ q i = child m q i :=
    fun q hq i => child_congr (hsame q (Inner.inUse hq) i)
  have hleaf : leafTable m₀ r a = leafTable m r a := walk_congr hchild hr _ (Nat.le_refl 2)
  cases ht : leafTable m r a with
  | none => rw [entryAt_none ht, entryAt_none (hleaf.trans ht)]
  | some t =>
      have hin : t ∈ tables m roots := ⟨r, hr, [vpnSlot a 1, vpnSlot a 2], Nat.le_refl 2, ht⟩
      rw [entryAt_some ht, entryAt_some (hleaf.trans ht), hsame t hin]

theorem Stores.virtToPhys (h : Stores m root f) (hs : Shape m roots) (hr : root ∈ roots) (hnull : root ≠ 0#64)
    (a : Word) : virtToPhys m root a = translate (f (vpn a)) a := by
  rw [virtToPhys_spec hs hr hnull, h.entry]
  cases hx : f (vpn a) with
  | none => rfl
  | some y =>
      obtain ⟨hv, hleaf, hpa, _⟩ := encode_some (h.storable _ y hx)
      have hoff : pageOffset a = BitVec.ofNat 64 (a.toNat % 4096) := by
        apply BitVec.eq_of_toNat_eq
        rw [pageOffset_toNat, BitVec.toNat_ofNat]
        omega
      rw [hv, hleaf, Bool.and_self, if_pos rfl, hpa, hoff]
      rfl

/-- One root in use beside others: its map is `x.1`, and `x.2` is left. Since `m₀` the other roots have not changed. -/
structure Serving (F₀ : FrameSet) (owned : List Word) (roots : Set Word) (root : Word) (m₀ : Mem) (w : World Pmm)
    (x : AddressMap × Set Word) : Prop where
  shape : Shape w.mem roots
  balance : Balance F₀ {0#64} owned (tables w.mem roots) w.src
  stored : Stores w.mem root x.1
  left : x.2 = freeSet w.src
  frame : ∀ r ∈ roots, r ≠ root → ∀ a, entryAt w.mem r a = entryAt m₀ r a

theorem Balance.root_ne_zero (h : Balance F₀ {0#64} owned (tables m roots) s) (hr : r ∈ roots) : r ≠ 0#64 :=
  fun hz => h.null.1 (hz ▸ InUse.root hr)

theorem Balance.rep {G U : Set Word} (h : Balance F₀ G owned U s) : ∃ F, Rep s F := by
  obtain ⟨_, F, hled, _⟩ := h.holds
  exact ⟨F, hled.rep⟩

/-- A call of `map_page` on that root. -/
theorem Serving.mapPage (h : Serving F₀ owned roots root m₀ w x) (hr : root ∈ roots)
    (hflags : (PtOp.map va pa flags).Permitted) : ∃ ok w' y,
      Arch.mapPage Pmm.allocPage w root va pa flags = some (ok, w') ∧ PutPage va pa flags x ok y ∧
      Serving F₀ owned roots root m₀ w' y := by
  obtain ⟨f, left⟩ := x
  obtain ⟨hshape, hbal, hstored, rfl, hframe⟩ := h
  obtain ⟨F, hrep⟩ := hbal.rep
  have hnull := hbal.root_ne_zero hr
  have hused := (hbal.gone 0#64 (Set.mem_singleton _)).2
  obtain ⟨ok, w', hmap, hout⟩ := mapPage_outcome (balance_allocOk F₀ {0#64} owned) hshape hbal hr hnull va pa flags
  cases hout with
  | rejected hrej =>
      refine ⟨false, w, _, hmap, PutPage.refused ?_, ⟨hshape, hbal, hstored, rfl, hframe⟩⟩
      rw [hstored.entry, encode_valid] at hrej
      exact hrej
  | @starved ps a' w' new hg _ hlt hrefused hgrown _ _ hbal' =>
      -- the tables took what was left, and it was one page at most
      obtain ⟨⟨F', hrep'⟩, hmem, htaken⟩ := grants_take hg hrep
      have hused' : a'.isPageFree 0#64 = some false := by
        rw [← notMem_freeSet hrep', htaken]
        exact fun hz => (notMem_freeSet hrep _).mpr hused hz.1
      have hempty := allocPage_exhausted hrep' hused' hrefused
      obtain ⟨_, hnone⟩ := allocPage_takes hrep' hrefused
      have hlen : ps.length ≤ 1 := by
        have hle := missing_le w.mem va 2 root
        omega
      refine ⟨false, w', (f, ∅), hmap, PutPage.exhausted ?_, hgrown.forest.shape, hbal',
        hstored.congr (hgrown.forest.entries root hr), ?_, fun r hr' hne a => ?_⟩
      · rw [hempty] at htaken
        have hsub : freeSet w.src ⊆ {p | p ∈ ps} := Set.sdiff_eq_empty.mp htaken.symm
        intro p hp q hq
        obtain ⟨i, hi, rfl⟩ := List.mem_iff_getElem.mp (hsub hp)
        obtain ⟨j, hj, rfl⟩ := List.mem_iff_getElem.mp (hsub hq)
        obtain rfl : i = j := by omega
        rfl
      · rw [hnone, hempty, Set.empty_sdiff]
      · exact (hgrown.forest.entries r hr' a).trans (hframe r hr' hne a)
  | @mapped ps w' hva hpa hfree hg hlen hinst hbal' =>
      obtain ⟨_, hmem, htaken⟩ := grants_take hg hrep
      have hnone : f (vpn va) = none := by
        by_contra hmapped
        rw [hstored.entry, encode_valid.mpr hmapped] at hfree
        exact absurd hfree (by decide)
      have hle : ps.length ≤ 2 := hlen ▸ missing_le w.mem va 2 root
      refine ⟨true, w', _, hmap, PutPage.put hva hpa hnone hle hmem, hinst.shape, hbal', ?_, htaken.symm,
        fun r hr' hne a => ?_⟩
      · refine hstored.update (fun z hz => ?_) fun a => ?_
        · cases hz
          exact ⟨hpa, hflags.1, bne_iff_ne.mpr hflags.2⟩
        · rw [hinst.entries root hr a]
          simp [encode]
      · rw [hinst.entries r hr' a, if_neg fun hc => hne hc.1]
        exact hframe r hr' hne a

/-- A call of `map_range` is a row of these. -/
theorem Serving.mapRange (h : Serving F₀ owned roots root m₀ w x) (hr : root ∈ roots)
    (hflags : (PtOp.map va pa flags).Permitted) (size : Word) : ∃ ok w' y,
      Arch.mapRange Pmm.allocPage w root va pa size flags = some (ok, w') ∧ PutRange va pa size flags x ok y ∧
      Serving F₀ owned roots root m₀ w' y := by
  by_cases hsz : size = 0#64
  · exact ⟨true, w, x, by rw [Arch.mapRange, if_pos hsz], PutRange.empty hsz, h⟩
  by_cases hal : isPageAligned va = true ∧ isPageAligned pa = true
  · obtain ⟨hva, hpa⟩ := hal
    have hpage : ∀ k w', (∃ y, PutPages va pa flags x k y ∧ Serving F₀ owned roots root m₀ w' y) → ∃ ok w'' y z,
        Arch.mapPage Pmm.allocPage w' root (pageAddr va k) (pageAddr pa k) flags = some (ok, w'') ∧
        PutPages va pa flags x k y ∧ PutPage (pageAddr va k) (pageAddr pa k) flags y ok z ∧
        Serving F₀ owned roots root m₀ w'' z := by
      rintro k w' ⟨y, hputs, hserv⟩
      have hperm : (PtOp.map (pageAddr va k) (pageAddr pa k) flags).Permitted := hflags
      obtain ⟨ok, w'', z, hmap, hput, hserv'⟩ := hserv.mapPage hr hperm
      exact ⟨ok, w'', y, z, hmap, hputs, hput, hserv'⟩
    have hstep : ∀ k w', k < visits va size → (∃ y, PutPages va pa flags x k y ∧ Serving F₀ owned roots root m₀ w' y) →
        ∃ ok w'', Arch.mapPage Pmm.allocPage w' root (pageAddr va k) (pageAddr pa k) flags = some (ok, w'') ∧
          (ok = true → ∃ y, PutPages va pa flags x (k + 1) y ∧ Serving F₀ owned roots root m₀ w'' y) := by
      intro k w' _ hP
      obtain ⟨ok, w'', y, z, hmap, hputs, hput, hserv⟩ := hpage k w' hP
      exact ⟨ok, w'', hmap, fun hok => ⟨z, PutPages.succ hputs (hok ▸ hput), hserv⟩⟩
    obtain ⟨ok, w', hrange, hall, hsome⟩ := mapRange_rule
      (P := fun k w' => ∃ y, PutPages va pa flags x k y ∧ Serving F₀ owned roots root m₀ w' y) hva hpa flags hstep
      ⟨x, PutPages.zero, h⟩
    refine ⟨ok, w', ?_⟩
    cases ok with
    | true =>
        obtain ⟨y, hputs, hserv⟩ := hall rfl
        exact ⟨y, hrange, PutRange.all hva hpa hputs, hserv⟩
    | false =>
        obtain ⟨k, hk, wk, hP, hfail⟩ := hsome rfl
        obtain ⟨ok, w'', y, z, hmap, hputs, hput, hserv⟩ := hpage k wk hP
        obtain ⟨rfl, rfl⟩ := Prod.mk.inj (Option.some.inj (hfail.symm.trans hmap))
        exact ⟨z, hrange, PutRange.stopped hva hpa hk hputs hput, hserv⟩
  · have hor : isPageAligned va = false ∨ isPageAligned pa = false := by
      rw [not_and_or, Bool.not_eq_true, Bool.not_eq_true] at hal
      exact hal
    refine ⟨false, w, x, ?_, PutRange.refused hsz hor, h⟩
    rw [Arch.mapRange, if_neg hsz]
    rcases hor with hva | hpa
    · simp [hva]
    · simp [hpa]

/-! ## The machine -/

/-- **The machine serves the address spaces.** -/
structure Serves (F₀ : FrameSet) (S : Spaces) (c : Machine) : Prop where
  shape : Shape c.world.mem c.rootSet
  balance : Balance F₀ {0#64} c.owned (tables c.world.mem c.rootSet) c.world.src
  nodup : c.owned.Nodup
  roots : ∀ r, r ∈ c.roots ↔ ∃ f, S.space r = some f
  stored : ∀ r f, S.space r = some f → Stores c.world.mem r f
  held : S.held = {p | p ∈ c.owned}
  left : S.left = freeSet c.world.src

/-- The spaces after one of them has changed, or is new. -/
theorem update_space {g : Word → Option AddressMap} {f' : AddressMap} :
    Function.update g root (some f') r = some f ↔ r = root ∧ f' = f ∨ r ≠ root ∧ g r = some f := by
  by_cases hr : r = root
  · subst hr
    simp
  · simp [hr]

/-- At the start there is no root, and what `pmm_init` left free is left. -/
theorem serves_init (hrep : Rep s F₀) (hzero : s.isPageFree 0#64 = some false) (mem : Mem) :
    Serves F₀ ⟨fun _ => none, ∅, freeSet s⟩ ⟨⟨mem, s⟩, [], []⟩ where
  shape := (apart_init hrep mem).shape
  balance := by
    have hb := balance_start hrep mem
    refine ⟨hb.holds, hb.null, hb.kept, ?_⟩
    rintro q rfl
    exact ⟨List.not_mem_nil, hzero⟩
  nodup := List.nodup_nil
  roots := fun r => by simp
  stored := fun _ _ hf => absurd hf (by simp)
  held := by simp
  left := rfl

/-- A root of the machine, among the others. -/
theorem Serves.serving (h : Serves F₀ S c) (hf : S.space root = some f) :
    root ∈ c.rootSet ∧ Serving F₀ c.owned c.rootSet root c.world.mem c.world (f, S.left) :=
  ⟨(h.roots root).mpr ⟨f, hf⟩, h.shape, h.balance, h.stored root f hf, h.left, fun _ _ _ _ => rfl⟩

/-- What a call on one root leaves is that root with another map. -/
theorem Serves.served (h : Serves F₀ S c) (hf : S.space root = some f) {f' : AddressMap} {left' : Set Word}
    (hserv : Serving F₀ c.owned c.rootSet root c.world.mem w (f', left')) :
    Serves F₀ ⟨Function.update S.space root (some f'), S.held, left'⟩ { c with world := w } where
  shape := hserv.shape
  balance := hserv.balance
  nodup := h.nodup
  roots := by
    intro r
    rw [h.roots r]
    simp only [update_space]
    constructor
    · rintro ⟨f₁, hf₁⟩
      by_cases hr : r = root
      · exact ⟨f', Or.inl ⟨hr, rfl⟩⟩
      · exact ⟨f₁, Or.inr ⟨hr, hf₁⟩⟩
    · rintro ⟨f₁, ⟨rfl, _⟩ | ⟨_, hf₁⟩⟩
      · exact ⟨f, hf⟩
      · exact ⟨f₁, hf₁⟩
  stored := by
    intro r f₁ hf₁
    rcases update_space.mp hf₁ with ⟨rfl, rfl⟩ | ⟨hr, hf₁⟩
    · exact hserv.stored
    · exact (h.stored r f₁ hf₁).congr (hserv.frame r ((h.roots r).mpr ⟨f₁, hf₁⟩) hr)
  held := h.held
  left := hserv.left

/-- A page that is no table is no root. -/
theorem Serves.not_root (h : Serves F₀ S c) (hU : p ∉ tables c.world.mem c.rootSet) : S.space p = none := by
  cases hf : S.space p with
  | none => rfl
  | some f => exact absurd (InUse.root (h.serving hf).1) hU

/-- A null result means that no page is left, and changes nothing here. -/
theorem Serves.refused (h : Serves F₀ S c) (halloc : c.world.src.allocPage = some (0#64, s'))
    (hbal : Balance F₀ {0#64} c.owned (tables c.world.mem c.rootSet) s') :
    S.left = ∅ ∧ Serves F₀ S { c with world := { c.world with src := s' } } := by
  obtain ⟨F, hrep⟩ := h.balance.rep
  obtain ⟨_, htaken⟩ := allocPage_takes hrep halloc
  have hempty := allocPage_exhausted hrep (h.balance.gone 0#64 (Set.mem_singleton _)).2 halloc
  refine ⟨h.left.trans hempty, h.shape, hbal, h.nodup, h.roots, h.stored, h.held, ?_⟩
  rw [h.left, htaken, hempty, Set.empty_sdiff]

theorem Serves.newRoot (h : Serves F₀ S c) : ∃ a c' S', c.call .newRoot = some (a, c') ∧ S.Step .newRoot a S' ∧
    Serves F₀ S' c' := by
  obtain ⟨F, hrep⟩ := h.balance.rep
  obtain ⟨p, s', halloc, hcase⟩ := h.balance.alloc
  obtain ⟨_, htaken⟩ := allocPage_takes hrep halloc
  rcases hcase with ⟨rfl, hbal⟩ | ⟨hp, _, hU, ho, hbal, _⟩
  · obtain ⟨hnone, hserves⟩ := h.refused halloc hbal
    exact ⟨.page 0#64, { c with world := { c.world with src := s' } }, S,
      by simp [Machine.call, allocPageTable, halloc], .noRoot hnone, hserves⟩
  · -- a zeroed page that is no table yet
    have hnone : S.space p = none := h.not_root hU
    have hheld : p ∉ S.held := by rw [h.held]; exact ho
    obtain ⟨hshape, htab, hfresh, hkept⟩ := plantRoot h.shape (zeroPage c.world.mem p) hU
      (fun i => by rw [zeroPage_apply, if_pos rfl]) (fun q hq i => by rw [zeroPage_apply, if_neg hq])
    refine ⟨.page p, { c with world := ⟨zeroPage c.world.mem p, s'⟩, roots := p :: c.roots }, _, ?_,
      .newRoot (h.left ▸ allocPage_free hrep halloc hp) hnone hheld, ?_⟩
    · simp [Machine.call, allocPageTable, halloc, hp]
    · have hroots : ({ c with world := ⟨zeroPage c.world.mem p, s'⟩, roots := p :: c.roots } : Machine).rootSet =
          insert p c.rootSet := Set.ext fun q => List.mem_cons
      generalize zeroPage c.world.mem p = m₁ at hshape htab hfresh hkept hroots
      refine ⟨by rw [hroots]; exact hshape, ?_, h.nodup, fun r => ?_, fun r f hf => ?_, h.held, ?_⟩
      · rw [hroots]
        show Balance F₀ {0#64} c.owned (tables m₁ (insert p c.rootSet)) s'
        rw [htab]
        exact hbal
      · simp only [update_space]
        constructor
        · intro hr
          rcases List.mem_cons.mp hr with rfl | hr
          · exact ⟨_, Or.inl ⟨rfl, rfl⟩⟩
          · obtain ⟨f, hf⟩ := (h.roots r).mp hr
            exact ⟨f, Or.inr ⟨fun he => by simp [← he, hf] at hnone, hf⟩⟩
        · rintro ⟨f, ⟨rfl, _⟩ | ⟨_, hf⟩⟩
          · exact List.mem_cons_self
          · exact List.mem_cons_of_mem p ((h.roots r).mpr ⟨f, hf⟩)
      · rcases update_space.mp hf with ⟨rfl, rfl⟩ | ⟨_, hf⟩
        · exact ⟨hfresh, fun _ _ hc => absurd hc (by simp)⟩
        · exact (h.stored r f hf).congr (hkept r ((h.roots r).mpr ⟨f, hf⟩))
      · rw [h.left]
        exact htaken.symm

theorem Serves.unmapPage (h : Serves F₀ S c) (hr : root ∈ c.roots) (va : Word) : ∃ a c' S',
    c.call (.unmap root va) = some (a, c') ∧ S.Step (.unmap root va) a S' ∧ Serves F₀ S' c' := by
  obtain ⟨f, hf⟩ := (h.roots root).mp hr
  have hroot : root ∈ c.rootSet := hr
  have hstored := h.stored root f hf
  rcases unmapPage_spec h.shape hroot (h.balance.root_ne_zero hroot) va with
    ⟨hrej, hno⟩ | ⟨m', hacc, hal, hv, _, hshape, htab, hent⟩
  · refine ⟨.ok false, c, S, by simp [Machine.call, hrej], .notMapped hf ?_, h⟩
    by_contra hor
    rw [not_or, Bool.not_eq_false] at hor
    obtain ⟨y, hy⟩ := Option.ne_none_iff_exists'.mp hor.2
    obtain ⟨hvalid, hleaf, _⟩ := encode_some (hstored.storable _ y hy)
    rw [hstored.entry, hy] at hno
    exact hno ⟨hor.1, hvalid, hleaf⟩
  · rw [hstored.entry, encode_valid] at hv
    refine ⟨.ok true, { c with world := { c.world with mem := m' } }, _, by simp [Machine.call, hacc],
      .unmap hf hal hv, h.served hf ⟨hshape, ?_, ?_, h.left, fun r hr' hne a => ?_⟩⟩
    · show Balance F₀ {0#64} c.owned (tables m' c.rootSet) c.world.src
      rw [htab]
      exact h.balance
    · refine hstored.update (fun _ hc => absurd hc (by simp)) fun a => ?_
      show entryAt m' root a = _
      rw [hent root hroot a]
      simp [encode]
    · show entryAt m' r a = _
      rw [hent r hr' a, if_neg fun hc => hne hc.1]

theorem Serves.alloc (h : Serves F₀ S c) : ∃ a c' S', c.call .alloc = some (a, c') ∧ S.Step .alloc a S' ∧
    Serves F₀ S' c' := by
  obtain ⟨F, hrep⟩ := h.balance.rep
  obtain ⟨p, s', halloc, hcase⟩ := h.balance.alloc
  obtain ⟨_, htaken⟩ := allocPage_takes hrep halloc
  rcases hcase with ⟨rfl, hbal⟩ | ⟨hp, _, hU, ho, _, hbal⟩
  · obtain ⟨hnone, hserves⟩ := h.refused halloc hbal
    exact ⟨.page 0#64, { c with world := { c.world with src := s' } }, S, by simp [Machine.call, halloc],
      .noPage hnone, hserves⟩
  · have hnone : S.space p = none := h.not_root hU
    have hheld : p ∉ S.held := by rw [h.held]; exact ho
    refine ⟨.page p, { c with world := { c.world with src := s' }, owned := p :: c.owned }, _, ?_,
      .alloc (h.left ▸ allocPage_free hrep halloc hp) hnone hheld, h.shape, hbal,
      List.nodup_cons.mpr ⟨ho, h.nodup⟩, h.roots, h.stored, ?_, ?_⟩
    · simp [Machine.call, halloc, hp]
    · rw [h.held]
      exact Set.ext fun q => List.mem_cons.symm
    · rw [h.left]
      exact htaken.symm

theorem Serves.free (hhome : Homed F₀) (h : Serves F₀ S c) (hp : p ∈ c.owned) : ∃ a c' S',
    c.call (.free p) = some (a, c') ∧ S.Step (.free p) a S' ∧ Serves F₀ S' c' := by
  obtain ⟨s', hfree, hbal⟩ := h.balance.free hhome h.nodup hp
  refine ⟨.ok true, { c with world := { c.world with src := s' }, owned := c.owned.erase p }, _, ?_,
    .free (h.held ▸ hp), h.shape, hbal, h.nodup.erase p, h.roots, h.stored, ?_, ?_⟩
  · simp [Machine.call, hfree]
  · rw [h.held]
    exact Set.ext fun q => (h.nodup.mem_erase_iff.trans and_comm).symm
  · rw [h.left, freePage_gives hhome h.balance.holds hp hfree]

theorem Serves.store (h : Serves F₀ S c) (hp : p ∈ c.owned) (i : Fin 512) (value : Word) : ∃ a c' S',
    c.call (.store p i value) = some (a, c') ∧ S.Step (.store p i value) a S' ∧ Serves F₀ S' c' := by
  have hpU : p ∉ tables c.world.mem c.rootSet := by
    obtain ⟨_, _, _, _, howned⟩ := h.balance.holds
    exact (howned p hp).2
  have hsame : ∀ q ∈ tables c.world.mem c.rootSet, ∀ j, c.world.mem.setEntry p i value q j = c.world.mem q j :=
    fun q hq j => Mem.setEntry_of_ne value fun hc => hpU (hc.1 ▸ hq)
  obtain ⟨hshape, htab⟩ := shape_frame h.shape _ fun q hq => hsame q (Inner.inUse hq)
  refine ⟨.done, _, S, rfl, .store (h.held ▸ hp), hshape, ?_, h.nodup, h.roots, fun r f hf => ?_, h.held, h.left⟩
  · show Balance F₀ {0#64} c.owned (tables (c.world.mem.setEntry p i value) c.rootSet) c.world.src
    rw [htab]
    exact h.balance
  · exact (h.stored r f hf).congr (entryAt_frame (h.serving hf).1 hsame)

/-- **Step lemma.** Every sensible call is a step of the address spaces. -/
theorem Serves.call (hhome : Homed F₀) (h : Serves F₀ S c) {op : MachineOp} (hok : c.Sensible op) : ∃ a c' S',
    c.call op = some (a, c') ∧ S.Step op a S' ∧ Serves F₀ S' c' := by
  cases op with
  | newRoot => exact h.newRoot
  | map root va pa flags =>
      obtain ⟨hroot, hflags⟩ := hok
      obtain ⟨f, hf⟩ := (h.roots root).mp hroot
      obtain ⟨ok, w', ⟨f', left'⟩, hmap, hput, hserv⟩ := (h.serving hf).2.mapPage hroot hflags
      exact ⟨.ok ok, { c with world := w' }, _, by simp [Machine.call, hmap], .map hf hput, h.served hf hserv⟩
  | mapRange root va pa size flags =>
      obtain ⟨hroot, hflags⟩ := hok
      obtain ⟨f, hf⟩ := (h.roots root).mp hroot
      obtain ⟨ok, w', ⟨f', left'⟩, hmap, hput, hserv⟩ := (h.serving hf).2.mapRange hroot hflags size
      exact ⟨.ok ok, { c with world := w' }, _, by simp [Machine.call, hmap], .mapRange hf hput, h.served hf hserv⟩
  | unmap root va => exact h.unmapPage hok va
  | alloc => exact h.alloc
  | free page => exact h.free hhome hok
  | store page i value => exact h.store hok i value

/-! ## Runs -/

/-- What `pmm_init` may hand out of a range below `2 ^ 56` is a physical page. -/
theorem grantable_physical {M : PhysicalRange} {rs : List ReservedRange}
    (hM : M.base.toNat + M.size.toNat ≤ 2 ^ 56) {q : Word} (hq : q ∈ Grantable (initFrames M rs)) : Physical q := by
  obtain ⟨i, hi, rfl, _⟩ := hq
  refine ⟨isPageAligned_iff.mpr ((initFrames M rs).pageAddr_aligned (Nat.le_of_lt hi)), ?_⟩
  rw [FrameSet.pageAddr_toNat _ (Nat.le_of_lt hi)]
  rw [initFrames_total, initTotal_eq] at hi
  have hcount := Nat.lt_of_lt_of_le hi (Nat.min_le_left _ _)
  have hdown : (alignDown (M.base + M.size)).toNat ≤ (M.base + M.size).toNat := by
    rw [alignDown_toNat]
    omega
  have hsum : (M.base + M.size).toNat ≤ 2 ^ 56 := by
    rw [BitVec.toNat_add]
    omega
  rw [initFrames_base]
  omega

/-- **Many address spaces on one allocator.** After `pmm_init`, if the base of the managed range, rounded up, is not
    zero, whatever sensible calls are made on whatever roots, beside clients that allocate, free and write pages: no
    call faults, the answers are those of a run of `Spaces`, and in the end `virt_to_phys` on a root is what the map
    of that root says. If the range lies below `2 ^ 56`, so is what the hart makes of the root. -/
theorem address_spaces (M : PhysicalRange) (rs : List ReservedRange) (hbase : alignUp M.base ≠ 0#64) (mem : Mem) :
    ∃ s, pmmInit M rs = some s ∧ ∀ ops, Always Machine.step Machine.Sensible ⟨⟨mem, s⟩, [], []⟩ ops →
      ∃ answers c S, trace Machine.call ⟨⟨mem, s⟩, [], []⟩ ops = some (answers, c) ∧
        Allows Spaces.Step ⟨fun _ => none, ∅, freeSet s⟩ ops answers S ∧
        (∀ r, r ∈ c.roots ↔ ∃ f, S.space r = some f) ∧ S.held = {p | p ∈ c.owned} ∧ S.left = freeSet c.world.src ∧
        ∀ r f, S.space r = some f →
          (∀ va, virtToPhys c.world.mem r va = translate (f (vpn va)) va) ∧
          (M.base.toNat + M.size.toNat ≤ 2 ^ 56 → ∀ (p : Privilege) (access : Access) (va : Word),
            Sv39Mmu.translate p access (pages c.world.mem) (makeSatp r) va = obtains p access (f (vpn va)) va) := by
  obtain ⟨s, hs, hrep⟩ := pmmInit_rep M rs
  refine ⟨s, hs, fun ops hops => ?_⟩
  have hzero : s.isPageFree 0#64 = some false := isPageFree_zero hrep (Or.inl hbase)
  have hstep : Machine.step = fun c op => (Machine.call c op).map Prod.snd :=
    funext fun c => funext fun op => (Machine.call_step c op).symm
  rw [hstep] at hops
  have hcall : ∀ S c op, Serves (initFrames M rs) S c → c.Sensible op → ∃ a c' S',
      c.call op = some (a, c') ∧ S.Step op a S' ∧ Serves (initFrames M rs) S' c' :=
    fun _ _ _ h hok => h.call (initFrames_homed M rs) hok
  obtain ⟨answers, c, S, htrace, hall, hserves⟩ := trace_refines hcall ops (serves_init hrep hzero mem) hops
  refine ⟨answers, c, S, htrace, hall, hserves.roots, hserves.held, hserves.left, fun r f hf => ?_⟩
  have hr : r ∈ c.rootSet := (hserves.roots r).mpr ⟨f, hf⟩
  have hstored := hserves.stored r f hf
  refine ⟨hstored.virtToPhys hserves.shape hr (hserves.balance.root_ne_zero hr), fun hM p access va => ?_⟩
  exact hart_obtains hserves.shape (fun t ht => grantable_physical hM (hserves.balance.holds.grantable.1 ht)) hr
    (hstored.storable _) (hstored.entry va)

/-- The first root and its first mapping, by what `Spaces` says about them. -/
theorem address_spaces_test : ∃ s c, pmmInit ⟨0x80000000#64, 0x100000#64⟩ [] = some s ∧
    trace Machine.call ⟨⟨fun _ _ => 0#64, s⟩, [], []⟩
      [.newRoot, .map 0x80000000#64 0x1000#64 0x5000#64 (pteR ||| pteW)] =
      some ([.page 0x80000000#64, .ok true], c) ∧
    virtToPhys c.world.mem 0x80000000#64 0x1234#64 = 0x5234#64 := by
  obtain ⟨s, hs, hall⟩ := address_spaces ⟨0x80000000#64, 0x100000#64⟩ [] (by decide) fun _ _ => 0#64
  have hok : (pmmInit ⟨0x80000000#64, 0x100000#64⟩ []).all (fun s => decide (Always Machine.step Machine.Sensible
      ⟨⟨fun _ _ => 0#64, s⟩, [], []⟩ [.newRoot, .map 0x80000000#64 0x1000#64 0x5000#64 (pteR ||| pteW)])) = true := by
    decide +kernel
  have hans : (pmmInit ⟨0x80000000#64, 0x100000#64⟩ []).bind (fun s => results Machine.call
      ⟨⟨fun _ _ => 0#64, s⟩, [], []⟩ [.newRoot, .map 0x80000000#64 0x1000#64 0x5000#64 (pteR ||| pteW)]) =
      some [.page 0x80000000#64, .ok true] := by decide +kernel
  rw [hs] at hok hans
  obtain ⟨answers, c, S, htrace, hallows, _, _, _, hspaces⟩ := hall _ (of_decide_eq_true hok)
  rw [Option.bind_some, results, htrace] at hans
  obtain rfl := Option.some.inj hans
  refine ⟨s, c, hs, htrace, ?_⟩
  -- after these answers the map of the root can only be one
  obtain ⟨f, hf, hpage⟩ : ∃ f, S.space 0x80000000#64 = some f ∧
      f (vpn 0x1000#64) = some (0x5000#64, pteR ||| pteW) := by
    cases hallows with
    | cons _ hrest =>
        cases hrest with
        | cons hmap hend =>
            cases hend
            cases hmap with
            | @map _ _ _ _ _ _ f' left' _ hput =>
                refine ⟨f', by simp, ?_⟩
                cases hput
                simp
  have hsame : vpn 0x1234#64 = vpn 0x1000#64 := by decide
  rw [(hspaces _ f hf).1, hsame, hpage]
  decide

/-! ## Isolation -/

/-- The root that a call is about. -/
def MachineOp.target : MachineOp → Option Word
  | .map root _ _ _ => some root
  | .mapRange root _ _ _ _ => some root
  | .unmap root _ => some root
  | _ => none

/-- `map_page` on one root and the entries of another. -/
theorem mapPage_other (hs : Shape w.mem roots) (hh : Holds F₀ owned (tables w.mem roots) w.src) (hroot : root ∈ roots)
    (hr : r ∈ roots) (hne : r ≠ root) (va pa flags : Word) : ∃ ok w',
      Arch.mapPage Pmm.allocPage w root va pa flags = some (ok, w') ∧ Shape w'.mem roots ∧
      Holds F₀ owned (tables w'.mem roots) w'.src ∧ ∀ a, entryAt w'.mem r a = entryAt w.mem r a := by
  obtain ⟨ok, w', hmap, hs', hh', hfail, hdone⟩ := mapPage_spec (holds_allocOk F₀ owned) hs hh hroot va pa flags
  refine ⟨ok, w', hmap, hs', hh', fun a => ?_⟩
  cases ok with
  | false => exact hfail rfl r hr a
  | true =>
      obtain ⟨_, _, _, _, hent⟩ := hdone rfl
      rw [hent r hr a, if_neg fun hc => hne hc.1]

theorem unmapPage_other (hs : Shape m roots) (hroot : root ∈ roots) (hr : r ∈ roots) (hne : r ≠ root) (va a : Word) :
    entryAt (unmapPage m root va).2 r a = entryAt m r a := by
  by_cases hnull : root = 0#64
  · have hrej : unmapPage m root va = (false, m) := by simp [unmapPage, hnull]
    rw [hrej]
  · rcases unmapPage_spec hs hroot hnull va with ⟨hrej, _⟩ | ⟨m', hacc, _, _, _, _, _, hent⟩
    · rw [hrej]
    · rw [hacc, hent r hr a, if_neg fun hc => hne hc.1]

/-- **Step lemma.** Whatever the flags, a call that is not about `r` leaves the entries of `r`. -/
theorem Apart.isolates (h : Apart F₀ c) (hr : r ∈ c.roots) {op : MachineOp} (hok : c.Permitted op)
    (hop : op.target ≠ some r) (hst : c.step op = some c') :
    r ∈ c'.roots ∧ ∀ a, entryAt c'.world.mem r a = entryAt c.world.mem r a := by
  have hmem : r ∈ c.rootSet := hr
  cases op with
  | newRoot =>
      obtain ⟨p, s', halloc, hcase⟩ := h.holds.alloc
      rcases hcase with ⟨rfl, _⟩ | ⟨hp, _, hU, _⟩
      · have hnull : c.step .newRoot = some { c with world := { c.world with src := s' } } := by
          simp [Machine.step, allocPageTable, halloc]
        obtain rfl := Option.some.inj (hst.symm.trans hnull)
        exact ⟨hr, fun _ => rfl⟩
      · have hnew : c.step .newRoot =
            some { c with world := ⟨zeroPage c.world.mem p, s'⟩, roots := p :: c.roots } := by
          simp [Machine.step, allocPageTable, halloc, hp]
        obtain ⟨_, _, _, hkept⟩ := plantRoot h.shape (zeroPage c.world.mem p) hU
          (fun i => by rw [zeroPage_apply, if_pos rfl]) (fun q hq i => by rw [zeroPage_apply, if_neg hq])
        generalize zeroPage c.world.mem p = m₁ at hnew hkept
        obtain rfl := Option.some.inj (hst.symm.trans hnew)
        exact ⟨List.mem_cons_of_mem p hr, hkept r hmem⟩
  | map root va pa flags =>
      have hne : r ≠ root := fun he => hop (congrArg some he.symm)
      obtain ⟨ok, w', hmap, _, _, hkept⟩ := mapPage_other h.shape h.holds hok hmem hne va pa flags
      simp only [Machine.step, hmap, Option.bind_eq_bind, Option.bind_some] at hst
      cases hst
      exact ⟨hr, hkept⟩
  | mapRange root va pa size flags =>
      have hne : r ≠ root := fun he => hop (congrArg some he.symm)
      have hpage : ∀ (w : World Pmm) (va pa : Word),
          (Shape w.mem c.rootSet ∧ Holds F₀ c.owned (tables w.mem c.rootSet) w.src ∧
            ∀ a, entryAt w.mem r a = entryAt c.world.mem r a) →
          ∃ ok w', Arch.mapPage Pmm.allocPage w root va pa flags = some (ok, w') ∧
            Shape w'.mem c.rootSet ∧ Holds F₀ c.owned (tables w'.mem c.rootSet) w'.src ∧
            ∀ a, entryAt w'.mem r a = entryAt c.world.mem r a := by
        rintro w va pa ⟨hs, hh, hent⟩
        obtain ⟨ok, w', hmap, hs', hh', hkept⟩ := mapPage_other hs hh hok hmem hne va pa flags
        exact ⟨ok, w', hmap, hs', hh', fun a => (hkept a).trans (hent a)⟩
      obtain ⟨ok, w', hmap, _, _, hent⟩ := mapRange_keeps hpage ⟨h.shape, h.holds, fun _ => rfl⟩ va pa size
      simp only [Machine.step, hmap, Option.bind_eq_bind, Option.bind_some] at hst
      cases hst
      exact ⟨hr, hent⟩
  | unmap root va =>
      have hne : r ≠ root := fun he => hop (congrArg some he.symm)
      cases hst
      exact ⟨hr, unmapPage_other h.shape hok hmem hne va⟩
  | alloc =>
      obtain ⟨p, s', halloc, _⟩ := h.holds.alloc
      simp only [Machine.step, halloc, Option.bind_eq_bind, Option.bind_some] at hst
      cases hst
      exact ⟨hr, fun _ => rfl⟩
  | free page =>
      obtain ⟨⟨ok, s'⟩, hfree, hst⟩ := Option.bind_eq_some_iff.mp hst
      cases hst
      exact ⟨hr, fun _ => rfl⟩
  | store page i value =>
      have hpU : page ∉ tables c.world.mem c.rootSet := by
        obtain ⟨_, _, _, _, howned⟩ := h.holds
        exact (howned page hok).2
      cases hst
      exact ⟨hr, entryAt_frame hmem fun q hq j => Mem.setEntry_of_ne value fun hc => hpU (hc.1 ▸ hq)⟩

/-- **Address spaces are isolated.** From any reachable state on, whatever calls are made on other roots, with whatever
    flags, and whatever the allocator's clients do: every address under `r` translates as before, by `virt_to_phys`
    and, if the managed range lies below `2 ^ 56`, for every access by the hart. -/
theorem spaces_isolated (M : PhysicalRange) (rs : List ReservedRange) (mem : Mem) :
    ∃ s, pmmInit M rs = some s ∧ ∀ c, Reach Machine.step Machine.Permitted ⟨⟨mem, s⟩, [], []⟩ c →
      ∀ r ∈ c.roots, ∀ c', Reach Machine.step (fun c op => c.Permitted op ∧ op.target ≠ some r) c c' →
        (∀ va, virtToPhys c'.world.mem r va = virtToPhys c.world.mem r va) ∧
        (M.base.toNat + M.size.toNat ≤ 2 ^ 56 → ∀ (p : Privilege) (access : Access) (va : Word),
          Sv39Mmu.translate p access (pages c'.world.mem) (makeSatp r) va =
            Sv39Mmu.translate p access (pages c.world.mem) (makeSatp r) va) := by
  obtain ⟨s, hs, hrep⟩ := pmmInit_rep M rs
  refine ⟨s, hs, fun c hc r hr c' hc' => ?_⟩
  have hhome := initFrames_homed M rs
  have hap := apart_reach hhome hrep hc
  have hkeep : Apart (initFrames M rs) c' ∧ r ∈ c'.roots ∧
      ∀ a, entryAt c'.world.mem r a = entryAt c.world.mem r a := by
    refine Reach.invariant (I := fun c' => Apart (initFrames M rs) c' ∧ r ∈ c'.roots ∧
      ∀ a, entryAt c'.world.mem r a = entryAt c.world.mem r a) ⟨hap, hr, fun _ => rfl⟩ ?_ hc'
    rintro t op u ⟨ht, hrt, hent⟩ ⟨hok, hop⟩ hst
    obtain ⟨u', hu', hapu⟩ := ht.step hhome hok
    obtain rfl := Option.some.inj (hst.symm.trans hu')
    obtain ⟨hru, hkept⟩ := ht.isolates hrt hok hop hst
    exact ⟨hapu, hru, fun a => (hkept a).trans (hent a)⟩
  obtain ⟨hap', hr', hent⟩ := hkeep
  have hmem : r ∈ c.rootSet := hr
  have hmem' : r ∈ c'.rootSet := hr'
  refine ⟨fun va => ?_, fun hM p access va => Option.ext fun pa => ?_⟩
  · by_cases hnull : r = 0#64
    · rw [virtToPhys, virtToPhys, if_pos hnull, if_pos hnull]
    · rw [virtToPhys_spec hap.shape hmem hnull, virtToPhys_spec hap'.shape hmem' hnull, hent]
  · rw [hart_translate_iff hap.shape (fun t ht => grantable_physical hM (hap.holds.grantable.1 ht)) hmem,
      hart_translate_iff hap'.shape (fun t ht => grantable_physical hM (hap'.holds.grantable.1 ht)) hmem', hent]

/-- Another root maps the same page elsewhere, a range as far as the allocator goes, and unmaps again: the first mapping
    is as it was. -/
theorem spaces_isolated_test : ∃ s c c', pmmInit eightPages [] = some s ∧
    run Machine.step (unclean s) oneMapping = some c ∧
    run Machine.step c [.newRoot, .map 0x80104000#64 0x1000#64 0x9000#64 (pteR ||| pteW),
      .mapRange 0x80104000#64 0x40000000#64 0#64 0x400000#64 pteX, .unmap 0x80104000#64 0x1000#64] = some c' ∧
    c'.world.src.freePages = 0 ∧ virtToPhys c'.world.mem 0x80000000#64 0x1234#64 = 0x5234#64 ∧
    ∀ (p : Privilege) (access : Access), Sv39Mmu.translate p access (pages c'.world.mem) (makeSatp 0x80000000#64)
      0x1234#64 = Sv39Mmu.translate p access (pages c.world.mem) (makeSatp 0x80000000#64) 0x1234#64 := by
  obtain ⟨s, hs, hall⟩ := spaces_isolated eightPages [] fun _ _ => 1#64
  obtain ⟨c, hc, hr, hroots, _⟩ := oneMapping_run hs
  have hafter : ∀ s ∈ pmmInit eightPages [], ∀ c ∈ run Machine.step (unclean s) oneMapping,
      virtToPhys c.world.mem 0x80000000#64 0x1234#64 = 0x5234#64 ∧
      Always Machine.step (fun c op => c.Permitted op ∧ op.target ≠ some 0x80000000#64) c
        [.newRoot, .map 0x80104000#64 0x1000#64 0x9000#64 (pteR ||| pteW),
          .mapRange 0x80104000#64 0x40000000#64 0#64 0x400000#64 pteX, .unmap 0x80104000#64 0x1000#64] ∧
      (run Machine.step c [.newRoot, .map 0x80104000#64 0x1000#64 0x9000#64 (pteR ||| pteW),
        .mapRange 0x80104000#64 0x40000000#64 0#64 0x400000#64 pteX, .unmap 0x80104000#64 0x1000#64]).map
        (fun c' => c'.world.src.freePages) = some 0 := by decide +kernel
  obtain ⟨hphys, hperm, hnone⟩ := hafter s hs c hc
  obtain ⟨c', hc', hnone⟩ := Option.map_eq_some_iff.mp hnone
  obtain ⟨hkeeps, hhart⟩ := hall c hr 0x80000000#64 (by rw [hroots]; exact List.mem_cons_self) c'
    (Reach.of_run _ hperm hc')
  exact ⟨s, c, c', hs, hc, hc', hnone, (hkeeps _).trans hphys, fun p access => hhart (by decide) p access _⟩

end Arch
end RiscCore
