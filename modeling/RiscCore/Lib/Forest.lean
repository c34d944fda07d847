import Mathlib.Data.Set.Insert

/-!
# `Lib.Forest` — pointer trees of bounded depth

Nodes of type `P` have slots of type `I`, and `child p i` is what slot `i` of `p` points to. Nothing about
`child` makes the structure reached from a set of roots a forest; `Disjoint child roots n` says that it is
one down to depth `n`: two different ways down never end at the same node. A path is written with its last
slot first, so that one step further is one `cons`.

There are two ways to grow such a structure, and both keep it a forest: `Linked` hangs a fresh empty node
into an empty slot, `Planted` makes a fresh empty node a root. In each case the paths of the new structure
are those of the old one and exactly one more.
-/

namespace Forest

variable {P I : Type} {child child' : P → I → Option P} {roots : Set P} {n : Nat}

/-- The node at the end of a path. -/
def walk (child : P → I → Option P) (r : P) : List I → Option P
  | [] => some r
  | i :: π => (walk child r π).bind (child · i)

/-- `p` is reached by a path of length at most `n`. -/
def InUse (child : P → I → Option P) (roots : Set P) (n : Nat) : Set P :=
  fun p => ∃ r ∈ roots, ∃ π : List I, π.length ≤ n ∧ walk child r π = some p

/-- `p` is reached with a step to spare: its slots are part of the structure. -/
def Inner (child : P → I → Option P) (roots : Set P) (n : Nat) : Set P :=
  fun p => ∃ r ∈ roots, ∃ π : List I, π.length < n ∧ walk child r π = some p

/-- **The forest property.** A node has one path from one root. -/
def Disjoint (child : P → I → Option P) (roots : Set P) (n : Nat) : Prop :=
  ∀ r ∈ roots, ∀ r' ∈ roots, ∀ π π' : List I, π.length ≤ n → π'.length ≤ n →
    ∀ p, walk child r π = some p → walk child r' π' = some p → r = r' ∧ π = π'

@[simp] theorem walk_nil (r : P) : walk child r [] = some r := rfl

theorem walk_cons (r : P) (i : I) (π : List I) :
    walk child r (i :: π) = (walk child r π).bind (child · i) := rfl

theorem Inner.inUse {p : P} (h : p ∈ Inner child roots n) : p ∈ InUse child roots n := by
  obtain ⟨r, hr, π, hlen, hw⟩ := h
  exact ⟨r, hr, π, Nat.le_of_lt hlen, hw⟩

theorem InUse.root {r : P} (h : r ∈ roots) : r ∈ InUse child roots n :=
  ⟨r, h, [], Nat.zero_le n, rfl⟩

/-- Only a node at full depth is in use without being inner. -/
theorem not_inner_of_depth (hd : Disjoint child roots n) {r p : P} {π : List I} (hr : r ∈ roots)
    (hlen : π.length = n) (hw : walk child r π = some p) : p ∉ Inner child roots n := by
  rintro ⟨r', hr', π', hlt, hw'⟩
  obtain ⟨_, rfl⟩ := hd r hr r' hr' π π' (Nat.le_of_eq hlen) (Nat.le_of_lt hlt) p hw hw'
  omega

/-! ## Writes outside the slots of inner nodes -/

/-- **Frame rule.** If the slots of inner nodes are unchanged, so is every path. -/
theorem walk_congr (h : ∀ p ∈ Inner child roots n, ∀ i, child' p i = child p i) {r : P} (hr : r ∈ roots) :
    ∀ π : List I, π.length ≤ n → walk child' r π = walk child r π := by
  intro π
  induction π with
  | nil => intro _; rfl
  | cons i π ih =>
      intro hlen
      have hlt : π.length < n := hlen
      rw [walk_cons, walk_cons, ih (Nat.le_of_lt hlt)]
      cases hw : walk child r π with
      | none => rfl
      | some p => exact h p ⟨r, hr, π, hlt, hw⟩ i

theorem inUse_congr (h : ∀ p ∈ Inner child roots n, ∀ i, child' p i = child p i) :
    InUse child' roots n = InUse child roots n := by
  apply Set.ext
  intro p
  constructor
  · rintro ⟨r, hr, π, hlen, hw⟩
    exact ⟨r, hr, π, hlen, walk_congr h hr π hlen ▸ hw⟩
  · rintro ⟨r, hr, π, hlen, hw⟩
    exact ⟨r, hr, π, hlen, (walk_congr h hr π hlen).trans hw⟩

theorem inner_congr (h : ∀ p ∈ Inner child roots n, ∀ i, child' p i = child p i) :
    Inner child' roots n = Inner child roots n := by
  apply Set.ext
  intro p
  constructor
  · rintro ⟨r, hr, π, hlt, hw⟩
    exact ⟨r, hr, π, hlt, walk_congr h hr π (Nat.le_of_lt hlt) ▸ hw⟩
  · rintro ⟨r, hr, π, hlt, hw⟩
    exact ⟨r, hr, π, hlt, (walk_congr h hr π (Nat.le_of_lt hlt)).trans hw⟩

theorem Disjoint.congr (h : ∀ p ∈ Inner child roots n, ∀ i, child' p i = child p i)
    (hd : Disjoint child roots n) : Disjoint child' roots n := by
  intro r hr r' hr' π π' hl hl' p hw hw'
  rw [walk_congr h hr π hl] at hw
  rw [walk_congr h hr' π' hl'] at hw'
  exact hd r hr r' hr' π π' hl hl' p hw hw'

/-! ## Hanging a fresh node into an empty slot -/

/-- `child'` is `child` with the fresh, empty node `p` in the empty slot `i₀` of the inner node at the end
    of `π₀`. -/
structure Linked (child child' : P → I → Option P) (roots : Set P) (n : Nat) (r₀ : P) (π₀ : List I) (t : P)
    (i₀ : I) (p : P) : Prop where
  root : r₀ ∈ roots
  depth : π₀.length < n
  path : walk child r₀ π₀ = some t
  free : child t i₀ = none
  fresh : p ∉ InUse child roots n
  link : child' t i₀ = some p
  empty : ∀ i, child' p i = none
  same : ∀ q ∈ Inner child roots n, ∀ i, ¬ (q = t ∧ i = i₀) → child' q i = child q i

section
variable {r₀ t p : P} {π₀ : List I} {i₀ : I}

/-- The new slot's path leads to the new node; every other path is as before. -/
theorem Linked.walk_iff (h : Linked child child' roots n r₀ π₀ t i₀ p) (hd : Disjoint child roots n) {r : P}
    (hr : r ∈ roots) : ∀ (π : List I), π.length ≤ n → ∀ q, walk child' r π = some q ↔
      (r = r₀ ∧ π = i₀ :: π₀ ∧ q = p) ∨ walk child r π = some q := by
  -- induction on the path; its head is the slot taken last
  intro π
  induction π with
  | nil =>
      intro _ q
      exact ⟨Or.inr, fun hq => hq.elim (fun hc => absurd hc.2.1 (by simp)) id⟩
  | cons i π ih =>
      intro hlen q
      have hlt : π.length < n := hlen
      have hstep : ∀ u, walk child r π = some u →
          (child' u i = some q ↔ (r = r₀ ∧ i :: π = i₀ :: π₀ ∧ q = p) ∨ child u i = some q) := by
        intro u hu
        have hin : u ∈ Inner child roots n := ⟨r, hr, π, hlt, hu⟩
        by_cases hslot : u = t ∧ i = i₀
        · -- the slot that was written
          obtain ⟨rfl, rfl⟩ := hslot
          obtain ⟨rfl, rfl⟩ := hd r hr r₀ h.root π π₀ (Nat.le_of_lt hlt) (Nat.le_of_lt h.depth) u hu h.path
          rw [h.link, h.free]
          simp [eq_comm]
        · rw [h.same u hin i hslot]
          refine ⟨Or.inr, fun hq => hq.elim ?_ id⟩
          rintro ⟨rfl, he, _⟩
          obtain ⟨rfl, rfl⟩ := List.cons.inj he
          exact absurd ⟨Option.some.inj (hu.symm.trans h.path), rfl⟩ hslot
      rw [walk_cons, walk_cons, Option.bind_eq_some_iff, Option.bind_eq_some_iff]
      constructor
      · rintro ⟨u, hu, hc⟩
        rcases (ih (Nat.le_of_lt hlt) u).mp hu with ⟨_, _, rfl⟩ | hu
        · -- nothing hangs below the new node
          rw [h.empty i] at hc; exact absurd hc (by simp)
        · rcases (hstep u hu).mp hc with hnew | hold
          · exact Or.inl hnew
          · exact Or.inr ⟨u, hu, hold⟩
      · rintro (hnew | ⟨u, hu, hold⟩)
        · have hu : walk child r π = some t := by
            obtain ⟨rfl, he, _⟩ := hnew
            obtain ⟨_, rfl⟩ := List.cons.inj he
            exact h.path
          exact ⟨t, (ih (Nat.le_of_lt hlt) t).mpr (Or.inr hu), (hstep t hu).mpr (Or.inl hnew)⟩
        · exact ⟨u, (ih (Nat.le_of_lt hlt) u).mpr (Or.inr hu), (hstep u hu).mpr (Or.inr hold)⟩

theorem Linked.inUse (h : Linked child child' roots n r₀ π₀ t i₀ p) (hd : Disjoint child roots n) :
    InUse child' roots n = insert p (InUse child roots n) := by
  apply Set.ext
  intro q
  constructor
  · rintro ⟨r, hr, π, hlen, hw⟩
    rcases (h.walk_iff hd hr π hlen q).mp hw with ⟨_, _, rfl⟩ | hold
    · exact Set.mem_insert _ _
    · exact Set.mem_insert_of_mem _ ⟨r, hr, π, hlen, hold⟩
  · intro hq
    rcases Set.mem_insert_iff.mp hq with rfl | ⟨r, hr, π, hlen, hw⟩
    · have hw := (h.walk_iff hd h.root (i₀ :: π₀) h.depth q).mpr (Or.inl ⟨rfl, rfl, rfl⟩)
      exact ⟨r₀, h.root, i₀ :: π₀, h.depth, hw⟩
    · exact ⟨r, hr, π, hlen, (h.walk_iff hd hr π hlen q).mpr (Or.inr hw)⟩

theorem Linked.inner (h : Linked child child' roots n r₀ π₀ t i₀ p) (hd : Disjoint child roots n) {q : P}
    (hq : q ∈ Inner child' roots n) : q = p ∨ q ∈ Inner child roots n := by
  obtain ⟨r, hr, π, hlt, hw⟩ := hq
  rcases (h.walk_iff hd hr π (Nat.le_of_lt hlt) q).mp hw with ⟨_, _, rfl⟩ | hold
  · exact Or.inl rfl
  · exact Or.inr ⟨r, hr, π, hlt, hold⟩

/-- **Linking keeps the forest.** -/
theorem Linked.disjoint (h : Linked child child' roots n r₀ π₀ t i₀ p) (hd : Disjoint child roots n) :
    Disjoint child' roots n := by
  intro r hr r' hr' π π' hl hl' q hw hw'
  rcases (h.walk_iff hd hr π hl q).mp hw with ⟨rfl, rfl, rfl⟩ | hold
  · rcases (h.walk_iff hd hr' π' hl' q).mp hw' with ⟨rfl, rfl, _⟩ | hold'
    · exact ⟨rfl, rfl⟩
    · exact absurd ⟨r', hr', π', hl', hold'⟩ h.fresh
  · rcases (h.walk_iff hd hr' π' hl' q).mp hw' with ⟨_, _, rfl⟩ | hold'
    · exact absurd ⟨r, hr, π, hl, hold⟩ h.fresh
    · exact hd r hr r' hr' π π' hl hl' q hold hold'

end

/-! ## Making a fresh node a root -/

/-- `child'` has the fresh, empty node `p` beside the old structure. -/
structure Planted (child child' : P → I → Option P) (roots : Set P) (n : Nat) (p : P) : Prop where
  fresh : p ∉ InUse child roots n
  empty : ∀ i, child' p i = none
  same : ∀ q ∈ Inner child roots n, ∀ i, child' q i = child q i

section
variable {p : P}

/-- An empty node reaches only itself. -/
theorem walk_of_empty (h : ∀ i, child' p i = none) {π : List I} {q : P} (hw : walk child' p π = some q) :
    π = [] ∧ q = p := by
  induction π generalizing q with
  | nil => exact ⟨rfl, (Option.some.inj hw).symm⟩
  | cons i π ih =>
      obtain ⟨u, hu, hc⟩ := Option.bind_eq_some_iff.mp hw
      obtain ⟨_, rfl⟩ := ih hu
      rw [h i] at hc
      exact absurd hc (by simp)

theorem Planted.walk_iff (h : Planted child child' roots n p) {r : P} (hr : r ∈ insert p roots)
    {π : List I} (hlen : π.length ≤ n) {q : P} : walk child' r π = some q ↔
      (r = p ∧ π = [] ∧ q = p) ∨ (r ∈ roots ∧ walk child r π = some q) := by
  have hp : p ∉ roots := fun hp => h.fresh (InUse.root hp)
  rcases Set.mem_insert_iff.mp hr with he | hold
  · subst he
    constructor
    · intro hw
      exact Or.inl ⟨rfl, walk_of_empty h.empty hw⟩
    · rintro (⟨_, rfl, rfl⟩ | ⟨hc, _⟩)
      · rfl
      · exact absurd hc hp
  · rw [walk_congr h.same hold π hlen]
    refine ⟨fun hw => Or.inr ⟨hold, hw⟩, ?_⟩
    rintro (⟨he, _, _⟩ | ⟨_, hw⟩)
    · exact absurd (he ▸ hold) hp
    · exact hw

theorem Planted.inUse (h : Planted child child' roots n p) :
    InUse child' (insert p roots) n = insert p (InUse child roots n) := by
  apply Set.ext
  intro q
  constructor
  · rintro ⟨r, hr, π, hlen, hw⟩
    rcases (h.walk_iff hr hlen).mp hw with ⟨_, _, rfl⟩ | ⟨hold, hw⟩
    · exact Set.mem_insert _ _
    · exact Set.mem_insert_of_mem _ ⟨r, hold, π, hlen, hw⟩
  · intro hq
    rcases Set.mem_insert_iff.mp hq with rfl | ⟨r, hr, π, hlen, hw⟩
    · exact InUse.root (Set.mem_insert _ _)
    · have hr' : r ∈ insert p roots := Set.mem_insert_of_mem _ hr
      exact ⟨r, hr', π, hlen, (h.walk_iff hr' hlen).mpr (Or.inr ⟨hr, hw⟩)⟩

theorem Planted.inner (h : Planted child child' roots n p) {q : P}
    (hq : q ∈ Inner child' (insert p roots) n) : q = p ∨ q ∈ Inner child roots n := by
  obtain ⟨r, hr, π, hlt, hw⟩ := hq
  rcases (h.walk_iff hr (Nat.le_of_lt hlt)).mp hw with ⟨_, _, rfl⟩ | ⟨hold, hw⟩
  · exact Or.inl rfl
  · exact Or.inr ⟨r, hold, π, hlt, hw⟩

/-- **Planting keeps the forest.** -/
theorem Planted.disjoint (h : Planted child child' roots n p) (hd : Disjoint child roots n) :
    Disjoint child' (insert p roots) n := by
  intro r hr r' hr' π π' hl hl' q hw hw'
  rcases (h.walk_iff hr hl).mp hw with ⟨rfl, rfl, rfl⟩ | ⟨hmem, hold⟩
  · rcases (h.walk_iff hr' hl').mp hw' with ⟨rfl, rfl, _⟩ | ⟨hmem', hold'⟩
    · exact ⟨rfl, rfl⟩
    · exact absurd ⟨r', hmem', π', hl', hold'⟩ h.fresh
  · rcases (h.walk_iff hr' hl').mp hw' with ⟨_, _, rfl⟩ | ⟨hmem', hold'⟩
    · exact absurd ⟨r, hmem, π, hl, hold⟩ h.fresh
    · exact hd r hmem r' hmem' π π' hl hl' q hold hold'

end
end Forest
