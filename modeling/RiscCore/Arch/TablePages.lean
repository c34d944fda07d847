import RiscCore.Arch.MapRange
import RiscCore.Mm.PmmRuns

/-!
# `Arch.TablePages` — page tables on the real allocator, beside its other clients

`Machine` is the memory, the allocator of `pmm.cpp`, the roots that `alloc_page_table` returned and the
pages a client obtained from `alloc_page`. Its steps are the calls of both parties in any order.

The invariant `Apart` joins the two halves: the tables of all roots form a forest, and the allocator's
ledger holds every table and every client page, no page being both. The walkers need no lemma of their own
here: the ledger is an allocator contract (`holds_allocOk`), so the walker theorems apply as they are.
-/

namespace RiscCore
namespace Arch

open Mm Runs Forest

structure Machine where
  world : World Pmm
  roots : List Word
  owned : List Word

/-- The calls of the kernel, and a store by the client to a page of its own. -/
inductive MachineOp where
  | newRoot
  | map (root va pa flags : Word)
  | mapRange (root va pa size flags : Word)
  | unmap (root va : Word)
  | alloc
  | free (page : Word)
  | store (page : Word) (i : Fin 512) (value : Word)
deriving DecidableEq

namespace Machine

def step (c : Machine) : MachineOp → Option Machine
  | .newRoot => do
    let (root, w') ← allocPageTable Pmm.allocPage c.world
    return { c with world := w', roots := if root = 0#64 then c.roots else root :: c.roots }
  | .map root va pa flags => do
    let (_, w') ← mapPage Pmm.allocPage c.world root va pa flags
    return { c with world := w' }
  | .mapRange root va pa size flags => do
    let (_, w') ← Arch.mapRange Pmm.allocPage c.world root va pa size flags
    return { c with world := w' }
  | .unmap root va =>
    some { c with world := { c.world with mem := (unmapPage c.world.mem root va).2 } }
  | .alloc => do
    let (page, s') ← c.world.src.allocPage
    return { c with
      world := { c.world with src := s' }
      owned := if page = 0#64 then c.owned else page :: c.owned }
  | .free page => do
    let (ok, s') ← c.world.src.freePage page
    return { c with
      world := { c.world with src := s' }
      owned := if ok then c.owned.erase page else c.owned }
  | .store page i value =>
    some { c with world := { c.world with mem := c.world.mem.setEntry page i value } }

/-- Tables are changed through existing roots, pages freed and written by their owner. -/
def Permitted (c : Machine) : MachineOp → Prop
  | .newRoot => True
  | .map root _ _ _ => root ∈ c.roots
  | .mapRange root _ _ _ _ => root ∈ c.roots
  | .unmap root _ => root ∈ c.roots
  | .alloc => True
  | .free page => page ∈ c.owned
  | .store page _ _ => page ∈ c.owned

instance (c : Machine) : DecidablePred c.Permitted
  | .newRoot => isTrue trivial
  | .map root _ _ _ => inferInstanceAs (Decidable (root ∈ c.roots))
  | .mapRange root _ _ _ _ => inferInstanceAs (Decidable (root ∈ c.roots))
  | .unmap root _ => inferInstanceAs (Decidable (root ∈ c.roots))
  | .alloc => isTrue trivial
  | .free page => inferInstanceAs (Decidable (page ∈ c.owned))
  | .store page _ _ => inferInstanceAs (Decidable (page ∈ c.owned))

def rootSet (c : Machine) : Set Word := {r | r ∈ c.roots}

end Machine

variable {F₀ F : FrameSet} {c c' : Machine} {owned : List Word} {s : Pmm} {U : Set Word}

/-- **The allocator's side.** The ledger holds the tables `U` and the client's pages, which are apart. -/
def Holds (F₀ : FrameSet) (owned : List Word) (U : Set Word) (s : Pmm) : Prop :=
  ∃ out F, Ledger F₀ ⟨s, out⟩ F ∧ (∀ p ∈ U, p ∈ out) ∧ ∀ p ∈ owned, p ∈ out ∧ p ∉ U

/-- **The invariant.** -/
structure Apart (F₀ : FrameSet) (c : Machine) : Prop where
  shape : Shape c.world.mem c.rootSet
  holds : Holds F₀ c.owned (tables c.world.mem c.rootSet) c.world.src
  roots_nodup : c.roots.Nodup
  owned_nodup : c.owned.Nodup

/-! ## The ledger as an allocator contract -/

/-- What a call of `alloc_page` returns while the ledger holds: null, or an aligned page of neither party. -/
theorem Holds.alloc (h : Holds F₀ owned U s) : ∃ p s', s.allocPage = some (p, s') ∧
    ((p = 0#64 ∧ Holds F₀ owned U s') ∨ (p ≠ 0#64 ∧ isPageAligned p = true ∧ p ∉ U ∧ p ∉ owned ∧
      Holds F₀ owned (insert p U) s' ∧ Holds F₀ (p :: owned) U s')) := by
  obtain ⟨out, F, hled, hU, howned⟩ := h
  obtain ⟨p, s', F', halloc, hled', hpage⟩ := hled.alloc
  refine ⟨p, s', halloc, ?_⟩
  by_cases hp : p = 0#64
  · rw [if_pos hp] at hled'
    exact Or.inl ⟨hp, out, F', hled', hU, howned⟩
  · rw [if_neg hp] at hled'
    obtain ⟨hnew, i, hi, he, _⟩ := hpage hp
    have hpU : p ∉ U := fun hc => hnew (hU p hc)
    have hpo : p ∉ owned := fun hc => hnew (howned p hc).1
    have hal : isPageAligned p = true := by
      rw [he]; exact isPageAligned_iff.mpr (F₀.pageAddr_aligned (Nat.le_of_lt hi))
    refine Or.inr ⟨hp, hal, hpU, hpo, ?_, ?_⟩
    · refine ⟨p :: out, F', hled', ?_, ?_⟩
      · intro q hq
        rcases Set.mem_insert_iff.mp hq with rfl | hq
        · exact List.mem_cons_self
        · exact List.mem_cons_of_mem p (hU q hq)
      · intro q hq
        obtain ⟨hout, hnU⟩ := howned q hq
        refine ⟨List.mem_cons_of_mem p hout, fun hc => ?_⟩
        rcases Set.mem_insert_iff.mp hc with rfl | hc
        · exact hpo hq
        · exact hnU hc
    · refine ⟨p :: out, F', hled', fun q hq => List.mem_cons_of_mem p (hU q hq), ?_⟩
      intro q hq
      rcases List.mem_cons.mp hq with rfl | hq
      · exact ⟨List.mem_cons_self, hpU⟩
      · exact ⟨List.mem_cons_of_mem p (howned q hq).1, (howned q hq).2⟩

theorem holds_allocOk (F₀ : FrameSet) (owned : List Word) : AllocOk Pmm.allocPage (Holds F₀ owned) where
  call := by
    intro U s h
    obtain ⟨p, s', halloc, hcase⟩ := h.alloc
    refine ⟨p, s', halloc, hcase.imp id ?_⟩
    rintro ⟨hp, hal, hU, _, hins, _⟩
    exact ⟨hp, hal, hU, hins⟩

/-- A client's page can be given back. -/
theorem Holds.free (hhome : Homed F₀) (h : Holds F₀ owned U s) (hnd : owned.Nodup) {p : Word}
    (hp : p ∈ owned) : ∃ s', s.freePage p = some (true, s') ∧ Holds F₀ (owned.erase p) U s' := by
  obtain ⟨out, F, hled, hU, howned⟩ := h
  obtain ⟨hout, hpU⟩ := howned p hp
  obtain ⟨_, s', _, _, _, _, hfree, _, hled'⟩ := hled.free_held hhome hout
  refine ⟨s', hfree, out.erase p, _, hled', ?_, ?_⟩
  · intro q hq
    have hne : q ≠ p := fun he => hpU (he ▸ hq)
    exact (List.mem_erase_of_ne hne).mpr (hU q hq)
  · intro q hq
    obtain ⟨hne, hq⟩ := (List.Nodup.mem_erase_iff hnd).mp hq
    exact ⟨(List.mem_erase_of_ne hne).mpr (howned q hq).1, (howned q hq).2⟩

/-- A page the ledger holds is managed and marked used. -/
theorem Holds.used (h : Holds F₀ owned U s) {p : Word} (hp : p ∈ U ∨ p ∈ owned) :
    s.isManagedPage p = true ∧ s.isPageFree p = some false := by
  obtain ⟨out, F, hled, hU, howned⟩ := h
  have hout : p ∈ out := hp.elim (hU p) (fun hc => (howned p hc).1)
  obtain ⟨i, hi, rfl, _, hnf⟩ := hled.held p hout
  have hiF : i < F.total := by rw [hled.total]; exact hi
  have hfree := isPageFree_pageAddr hled.rep hiF
  have hman := isManagedPage_pageAddr hled.rep hiF
  rw [hled.base, decide_eq_false hnf] at hfree
  rw [hled.base] at hman
  exact ⟨hman, hfree⟩

/-- `map_page` on this allocator. -/
theorem mapPage_holds {roots : Set Word} {w : World Pmm} (hs : Shape w.mem roots)
    (hh : Holds F₀ owned (tables w.mem roots) w.src) {root : Word} (hr : root ∈ roots) (va pa flags : Word) :
    ∃ ok w', Arch.mapPage Pmm.allocPage w root va pa flags = some (ok, w') ∧ Shape w'.mem roots ∧
      Holds F₀ owned (tables w'.mem roots) w'.src := by
  obtain ⟨ok, w', hmap, hs', hh', _⟩ := mapPage_spec (holds_allocOk F₀ owned) hs hh hr va pa flags
  exact ⟨ok, w', hmap, hs', hh'⟩

/-! ## The step -/

theorem apart_init (hrep : Rep s F₀) (mem : Mem) : Apart F₀ ⟨⟨mem, s⟩, [], []⟩ where
  shape := by
    have hroots : (⟨⟨mem, s⟩, [], []⟩ : Machine).rootSet = ∅ := by simp [Machine.rootSet]
    rw [hroots]; exact shape_empty mem
  holds := by
    have hroots : (⟨⟨mem, s⟩, [], []⟩ : Machine).rootSet = ∅ := by simp [Machine.rootSet]
    refine ⟨[], F₀, ledger_init hrep, fun p hp => ?_, fun p hp => absurd hp List.not_mem_nil⟩
    rw [hroots, tables_empty] at hp
    exact absurd hp (Set.notMem_empty p)
  roots_nodup := List.nodup_nil
  owned_nodup := List.nodup_nil

/-- A walker that keeps the forest and its contract keeps the machine's invariant. -/
theorem Apart.walker (h : Apart F₀ c) {w' : World Pmm} (hs : Shape w'.mem c.rootSet)
    (hh : Holds F₀ c.owned (tables w'.mem c.rootSet) w'.src) : Apart F₀ { c with world := w' } :=
  ⟨hs, hh, h.roots_nodup, h.owned_nodup⟩

/-- A zeroed page of neither party becomes a root. -/
theorem Apart.plant (h : Apart F₀ c) {p : Word} {m' : Mem} (hU : p ∉ tables c.world.mem c.rootSet)
    (hh : Holds F₀ c.owned (insert p (tables c.world.mem c.rootSet)) s) (hzero : ∀ i, m' p i = 0#64)
    (hsame : ∀ q, q ≠ p → ∀ i, m' q i = c.world.mem q i) :
    Apart F₀ { c with world := ⟨m', s⟩, roots := p :: c.roots } := by
  have hroots : ({ c with world := ⟨m', s⟩, roots := p :: c.roots } : Machine).rootSet = insert p c.rootSet := by
    apply Set.ext
    intro q
    exact List.mem_cons
  obtain ⟨hshape, htab, _⟩ := plantRoot h.shape m' hU hzero hsame
  refine ⟨by rw [hroots]; exact hshape, ?_, List.nodup_cons.mpr ⟨fun hc => hU (InUse.root hc), h.roots_nodup⟩,
    h.owned_nodup⟩
  rw [hroots]
  show Holds F₀ c.owned (tables m' (insert p c.rootSet)) s
  rw [htab]; exact hh

theorem Apart.newRoot (h : Apart F₀ c) : ∃ c', c.step .newRoot = some c' ∧ Apart F₀ c' := by
  obtain ⟨p, s', halloc, hcase⟩ := h.holds.alloc
  rcases hcase with ⟨rfl, hh⟩ | ⟨hp, _, hU, _, hins, _⟩
  · exact ⟨{ c with world := { c.world with src := s' } }, by simp [Machine.step, allocPageTable, halloc],
      h.walker h.shape hh⟩
  · refine ⟨{ c with world := ⟨zeroPage c.world.mem p, s'⟩, roots := p :: c.roots }, ?_, ?_⟩
    · simp [Machine.step, allocPageTable, halloc, hp]
    · exact h.plant hU hins (fun i => by rw [zeroPage_apply, if_pos rfl])
        (fun q hq i => by rw [zeroPage_apply, if_neg hq])

theorem Apart.mapPage (h : Apart F₀ c) {root : Word} (hr : root ∈ c.roots) (va pa flags : Word) :
    ∃ c', c.step (.map root va pa flags) = some c' ∧ Apart F₀ c' := by
  obtain ⟨ok, w', hmap, hs, hh⟩ := mapPage_holds h.shape h.holds (show root ∈ c.rootSet from hr) va pa flags
  exact ⟨{ c with world := w' }, by simp [Machine.step, hmap], h.walker hs hh⟩

theorem Apart.mapRange (h : Apart F₀ c) {root : Word} (hr : root ∈ c.roots) (va pa size flags : Word) :
    ∃ c', c.step (.mapRange root va pa size flags) = some c' ∧ Apart F₀ c' := by
  have hstep : ∀ (w : World Pmm) (va pa : Word),
      (Shape w.mem c.rootSet ∧ Holds F₀ c.owned (tables w.mem c.rootSet) w.src) →
      ∃ ok w', Arch.mapPage Pmm.allocPage w root va pa flags = some (ok, w') ∧
        Shape w'.mem c.rootSet ∧ Holds F₀ c.owned (tables w'.mem c.rootSet) w'.src := by
    rintro w va pa ⟨hs, hh⟩
    exact mapPage_holds hs hh (show root ∈ c.rootSet from hr) va pa flags
  obtain ⟨ok, w', hmap, hs, hh⟩ := mapRange_keeps hstep ⟨h.shape, h.holds⟩ va pa size
  exact ⟨{ c with world := w' }, by simp [Machine.step, hmap], h.walker hs hh⟩

theorem Apart.unmapPage (h : Apart F₀ c) {root : Word} (hr : root ∈ c.roots) (va : Word) :
    ∃ c', c.step (.unmap root va) = some c' ∧ Apart F₀ c' := by
  obtain ⟨hs, htab⟩ := unmapPage_shape h.shape (show root ∈ c.rootSet from hr) va
  refine ⟨_, rfl, h.walker hs ?_⟩
  show Holds F₀ c.owned (tables (Arch.unmapPage c.world.mem root va).2 c.rootSet) c.world.src
  rw [htab]; exact h.holds

theorem Apart.alloc (h : Apart F₀ c) : ∃ c', c.step .alloc = some c' ∧ Apart F₀ c' := by
  obtain ⟨p, s', halloc, hcase⟩ := h.holds.alloc
  rcases hcase with ⟨rfl, hh⟩ | ⟨hp, _, _, hno, _, hh⟩
  · exact ⟨{ c with world := { c.world with src := s' } }, by simp [Machine.step, halloc],
      h.walker h.shape hh⟩
  · refine ⟨{ c with world := { c.world with src := s' }, owned := p :: c.owned }, ?_, ?_⟩
    · simp [Machine.step, halloc, hp]
    · exact ⟨h.shape, hh, h.roots_nodup, List.nodup_cons.mpr ⟨hno, h.owned_nodup⟩⟩

theorem Apart.free (hhome : Homed F₀) (h : Apart F₀ c) {p : Word} (hp : p ∈ c.owned) :
    ∃ c', c.step (.free p) = some c' ∧ Apart F₀ c' := by
  obtain ⟨s', hfree, hh⟩ := h.holds.free hhome h.owned_nodup hp
  refine ⟨{ c with world := { c.world with src := s' }, owned := c.owned.erase p }, ?_, ?_⟩
  · simp [Machine.step, hfree]
  · exact ⟨h.shape, hh, h.roots_nodup, h.owned_nodup.erase p⟩

/-- A client's store touches no table. -/
theorem Apart.store (h : Apart F₀ c) {p : Word} (hp : p ∈ c.owned) (i : Fin 512) (value : Word) :
    ∃ c', c.step (.store p i value) = some c' ∧ Apart F₀ c' := by
  refine ⟨_, rfl, ?_⟩
  have hpU : p ∉ tables c.world.mem c.rootSet := by
    obtain ⟨_, _, _, _, howned⟩ := h.holds
    exact (howned p hp).2
  obtain ⟨hs, htab⟩ := shape_frame h.shape (c.world.mem.setEntry p i value)
    (fun q hq j => Mem.setEntry_of_ne value (fun hc => hpU (hc.1 ▸ Inner.inUse hq)))
  refine h.walker hs ?_
  show Holds F₀ c.owned (tables (c.world.mem.setEntry p i value) c.rootSet) c.world.src
  rw [htab]; exact h.holds

/-- **Step lemma.** Every permitted call returns and keeps tables and client pages apart. -/
theorem Apart.step (hhome : Homed F₀) (h : Apart F₀ c) {op : MachineOp} (hok : c.Permitted op) :
    ∃ c', c.step op = some c' ∧ Apart F₀ c' := by
  cases op with
  | newRoot => exact h.newRoot
  | map root va pa flags => exact h.mapPage hok va pa flags
  | mapRange root va pa size flags => exact h.mapRange hok va pa size flags
  | unmap root va => exact h.unmapPage hok va
  | alloc => exact h.alloc
  | free page => exact h.free hhome hok
  | store page i value => exact h.store hok i value

/-- **Run lemma.** -/
theorem apart_reach (hhome : Homed F₀) (hrep : Rep s F₀) {mem : Mem}
    (hr : Reach Machine.step Machine.Permitted ⟨⟨mem, s⟩, [], []⟩ c) : Apart F₀ c := by
  refine Reach.invariant (apart_init hrep mem) ?_ hr
  intro t op u ht hok hst
  obtain ⟨u', hu', hap⟩ := ht.step hhome hok
  rw [hst] at hu'
  exact Option.some.inj hu' ▸ hap

/-! ## What the invariant says about tables -/

/-- `t` is a table of `root` at `level`: 2 for the root itself, one less for each link followed. -/
inductive TableAt (m : Mem) (root : Word) : Nat → Word → Prop where
  | root : TableAt m root 2 root
  | link {level : Nat} {t : Word} (i : Fin 512) : TableAt m root (level + 1) t → pteValid (m t i) = true →
      TableAt m root level (pteToTable (m t i))

theorem tableAt_iff {m : Mem} {root t : Word} {level : Nat} : TableAt m root level t ↔
    ∃ π : List (Fin 512), π.length + level = 2 ∧ walk (child m) root π = some t := by
  constructor
  · intro h
    induction h with
    | root => exact ⟨[], rfl, rfl⟩
    | link i _ hv ih =>
        obtain ⟨π, hlen, hw⟩ := ih
        refine ⟨i :: π, by rw [List.length_cons]; omega, ?_⟩
        rw [walk_cons, hw, Option.bind_some, child, if_pos hv]
  · rintro ⟨π, hlen, hw⟩
    induction π generalizing t level with
    | nil =>
        obtain rfl : level = 2 := by simpa using hlen
        exact Option.some.inj hw ▸ TableAt.root
    | cons i π ih =>
        obtain ⟨u, hu, hc⟩ := Option.bind_eq_some_iff.mp hw
        have hlen' : π.length + (level + 1) = 2 := by rw [List.length_cons] at hlen; omega
        have hup := ih hlen' hu
        cases hv : pteValid (m u i) with
        | false => rw [child_eq_none.mpr hv] at hc; exact absurd hc (by simp)
        | true =>
            rw [child, if_pos hv] at hc
            exact Option.some.inj hc ▸ TableAt.link i hup hv

/-- A table has one root and one level. -/
theorem TableAt.unique {m : Mem} {roots : Set Word} (h : Shape m roots) {r r' t : Word} {level level' : Nat}
    (hr : r ∈ roots) (hr' : r' ∈ roots) (ht : TableAt m r level t) (ht' : TableAt m r' level' t) :
    r = r' ∧ level = level' := by
  obtain ⟨π, hlen, hw⟩ := tableAt_iff.mp ht
  obtain ⟨π', hlen', hw'⟩ := tableAt_iff.mp ht'
  -- one node, one path: the levels are what is left of the depth
  obtain ⟨hrr, rfl⟩ := h.disjoint r hr r' hr' π π' (by omega) (by omega) t hw hw'
  exact ⟨hrr, by omega⟩

/-- A table is entered through one entry. -/
theorem TableAt.entry_unique {m : Mem} {roots : Set Word} (h : Shape m roots) {r r' t t' : Word}
    {level level' : Nat} {i i' : Fin 512} (hr : r ∈ roots) (hr' : r' ∈ roots)
    (ht : TableAt m r (level + 1) t) (ht' : TableAt m r' (level' + 1) t') (hv : pteValid (m t i) = true)
    (hv' : pteValid (m t' i') = true) (he : pteToTable (m t' i') = pteToTable (m t i)) :
    r' = r ∧ level' = level ∧ t' = t ∧ i' = i := by
  obtain ⟨π, hlen, hw⟩ := tableAt_iff.mp ht
  obtain ⟨π', hlen', hw'⟩ := tableAt_iff.mp ht'
  have hdown : walk (child m) r (i :: π) = some (pteToTable (m t i)) := by
    rw [walk_cons, hw, Option.bind_some, child, if_pos hv]
  have hdown' : walk (child m) r' (i' :: π') = some (pteToTable (m t i)) := by
    rw [walk_cons, hw', Option.bind_some, child, if_pos hv', he]
  obtain ⟨rfl, hπ⟩ := h.disjoint r' hr' r hr (i' :: π') (i :: π) (by rw [List.length_cons]; omega)
    (by rw [List.length_cons]; omega) _ hdown' hdown
  obtain ⟨rfl, rfl⟩ := List.cons.inj hπ
  exact ⟨rfl, by omega, Option.some.inj (hw'.symm.trans hw), rfl⟩

theorem TableAt.inUse {m : Mem} {roots : Set Word} {r t : Word} {level : Nat} (hr : r ∈ roots)
    (ht : TableAt m r level t) : t ∈ tables m roots := by
  obtain ⟨π, hlen, hw⟩ := tableAt_iff.mp ht
  exact ⟨r, hr, π, by omega, hw⟩

/-- **Page-table pages and client pages never mix.** After `pmm_init` and any permitted calls: the roots are
    distinct; every table is a page the allocator has marked used, of one root and one level, and no client's;
    a table below a root is entered through exactly one entry of exactly one table, one level up; a valid
    entry above level 0 carries only `V`; `alloc_page` returns no table; and no call faults. -/
theorem tables_never_mix (m : PhysicalRange) (rs : List ReservedRange) (mem : Mem) :
    ∃ s, pmmInit m rs = some s ∧ ∀ c, Reach Machine.step Machine.Permitted ⟨⟨mem, s⟩, [], []⟩ c →
      c.roots.Nodup ∧
      (∀ r ∈ c.roots, ∀ level t, TableAt c.world.mem r level t →
        isPageAligned t = true ∧ c.world.src.isManagedPage t = true ∧
        c.world.src.isPageFree t = some false ∧ t ∉ c.owned) ∧
      (∀ r ∈ c.roots, ∀ r' ∈ c.roots, ∀ level level' t, TableAt c.world.mem r level t →
        TableAt c.world.mem r' level' t → r = r' ∧ level = level') ∧
      (∀ r ∈ c.roots, ∀ level p, TableAt c.world.mem r level p → p ≠ r →
        ∃ t i, TableAt c.world.mem r (level + 1) t ∧ pteValid (c.world.mem t i) = true ∧
          pteToTable (c.world.mem t i) = p ∧
          ∀ r' ∈ c.roots, ∀ level' t' i', TableAt c.world.mem r' (level' + 1) t' →
            pteValid (c.world.mem t' i') = true → pteToTable (c.world.mem t' i') = p →
            r' = r ∧ level' = level ∧ t' = t ∧ i' = i) ∧
      (∀ r ∈ c.roots, ∀ level t i, TableAt c.world.mem r (level + 1) t → pteValid (c.world.mem t i) = true →
        c.world.mem t i &&& 0x3ff#64 = pteV) ∧
      (∃ p s', c.world.src.allocPage = some (p, s') ∧
        (p ≠ 0#64 → p ∉ c.owned ∧ ∀ r ∈ c.roots, ∀ level, ¬ TableAt c.world.mem r level p)) ∧
      ∀ op, c.Permitted op → ∃ c', c.step op = some c' := by
  obtain ⟨s, hs, hrep⟩ := pmmInit_rep m rs
  refine ⟨s, hs, fun c hc => ?_⟩
  have hhome := initFrames_homed m rs
  have h := apart_reach hhome hrep hc
  have hmem : ∀ r ∈ c.roots, r ∈ c.rootSet := fun _ hr => hr
  refine ⟨h.roots_nodup, ?_, ?_, ?_, ?_, ?_, ?_⟩
  · intro r hr level t ht
    have hU := TableAt.inUse (hmem r hr) ht
    obtain ⟨hman, hused⟩ := h.holds.used (Or.inl hU)
    refine ⟨?_, hman, hused, fun ho => ?_⟩
    · cases hal : isPageAligned t with
      | true => rfl
      | false => simp [Pmm.isManagedPage, hal] at hman
    · obtain ⟨_, _, _, _, howned⟩ := h.holds
      exact (howned t ho).2 hU
  · intro r hr r' hr' level level' t ht ht'
    exact TableAt.unique h.shape (hmem r hr) (hmem r' hr') ht ht'
  · intro r hr level p hp hne
    cases hp with
    | root => exact absurd rfl hne
    | @link _ t i ht hv =>
        refine ⟨t, i, ht, hv, rfl, ?_⟩
        intro r' hr' level' t' i' ht' hv' he
        exact TableAt.entry_unique h.shape (hmem r hr) (hmem r' hr') ht ht' hv hv' he
  · intro r hr level t i ht hv
    obtain ⟨π, hlen, hw⟩ := tableAt_iff.mp ht
    obtain ⟨p, _, hpte⟩ := h.shape.links t ⟨r, hmem r hr, π, by omega, hw⟩ i hv
    rw [hpte]
    exact makePte_flags (by decide)
  · obtain ⟨p, s', halloc, hcase⟩ := h.holds.alloc
    refine ⟨p, s', halloc, fun hne => ?_⟩
    rcases hcase with ⟨hp, _⟩ | ⟨_, _, hU, ho, _⟩
    · exact absurd hp hne
    · exact ⟨ho, fun r hr level ht => hU (TableAt.inUse (hmem r hr) ht)⟩
  · intro op hok
    obtain ⟨c', hst, _⟩ := h.step hhome hok
    exact ⟨c', hst⟩

/-! ### A root, a mapping and a client -/

/-- Of these pages the numbers 0, 65, 130, 195, 260, 325, 390 and 455 can be handed out. -/
def eightPages : PhysicalRange := ⟨0x80000000#64, 0x1c8000#64⟩

/-- A root, one mapping, which takes two tables, and a client that writes to a page of its own. -/
def oneMapping : List MachineOp :=
  [.newRoot, .map 0x80000000#64 0x1000#64 0x5000#64 (pteR ||| pteW), .alloc,
    .store 0x800c3000#64 (vpnSlot 0x1000#64 0) 7#64]

/-- No page is zero before it is handed out. -/
def unclean (s : Pmm) : Machine := ⟨⟨fun _ _ => 1#64, s⟩, [], []⟩

/-- The state after these calls. -/
theorem oneMapping_run {s : Pmm} (hs : pmmInit eightPages [] = some s) : ∃ c,
    run Machine.step (unclean s) oneMapping = some c ∧ Reach Machine.step Machine.Permitted (unclean s) c ∧
      c.roots = [0x80000000#64] ∧ c.owned = [0x800c3000#64] ∧ TableAt c.world.mem 0x80000000#64 1 0x80041000#64 ∧
      TableAt c.world.mem 0x80000000#64 0 0x80082000#64 := by
  have hok : ∀ s ∈ pmmInit eightPages [], (run Machine.step (unclean s) oneMapping).isSome = true ∧
      Always Machine.step Machine.Permitted (unclean s) oneMapping := by decide +kernel
  have hfacts : ∀ s ∈ pmmInit eightPages [], ∀ c ∈ run Machine.step (unclean s) oneMapping,
      (c.roots = [0x80000000#64] ∧ c.owned = [0x800c3000#64]) ∧
      (pteValid (c.world.mem 0x80000000#64 0) = true ∧ pteToTable (c.world.mem 0x80000000#64 0) = 0x80041000#64) ∧
      pteValid (c.world.mem 0x80041000#64 0) = true ∧ pteToTable (c.world.mem 0x80041000#64 0) = 0x80082000#64 := by
    decide +kernel
  obtain ⟨hsome, hperm⟩ := hok s hs
  obtain ⟨c, hc⟩ := Option.isSome_iff_exists.mp hsome
  obtain ⟨⟨hroots, howned⟩, ⟨hv, hp⟩, hv', hp'⟩ := hfacts s hs c hc
  have hone : TableAt c.world.mem 0x80000000#64 1 0x80041000#64 := hp ▸ TableAt.link 0 TableAt.root hv
  exact ⟨c, hc, Reach.of_run _ hperm hc, hroots, howned, hone, hp' ▸ TableAt.link 0 hone hv'⟩

/-- The table at the bottom is used, no client's, and entered through one entry of one table above it. -/
theorem tables_never_mix_test : ∃ s c, pmmInit eightPages [] = some s ∧
    run Machine.step (unclean s) oneMapping = some c ∧ TableAt c.world.mem 0x80000000#64 0 0x80082000#64 ∧
    c.world.src.isPageFree 0x80082000#64 = some false ∧ 0x80082000#64 ∉ c.owned ∧
    ∃ t i, TableAt c.world.mem 0x80000000#64 1 t ∧ pteToTable (c.world.mem t i) = 0x80082000#64 ∧
      ∀ t' i', TableAt c.world.mem 0x80000000#64 1 t' → pteValid (c.world.mem t' i') = true →
        pteToTable (c.world.mem t' i') = 0x80082000#64 → t' = t ∧ i' = i := by
  obtain ⟨s, hs, hall⟩ := tables_never_mix eightPages [] fun _ _ => 1#64
  obtain ⟨c, hc, hr, hroots, _, _, hbottom⟩ := oneMapping_run hs
  obtain ⟨_, hused, _, hentry, _⟩ := hall c hr
  have hroot : 0x80000000#64 ∈ c.roots := by rw [hroots]; exact List.mem_cons_self
  obtain ⟨_, _, hnotFree, hnotOwned⟩ := hused _ hroot _ _ hbottom
  obtain ⟨t, i, ht, _, he, honly⟩ := hentry _ hroot 0 _ hbottom (by decide)
  refine ⟨s, c, hs, hc, hbottom, hnotFree, hnotOwned, t, i, ht, he, fun t' i' ht' hv' he' => ?_⟩
  obtain ⟨_, _, htt, hii⟩ := honly _ hroot 0 t' i' ht' hv' he'
  exact ⟨htt, hii⟩

end Arch
end RiscCore
