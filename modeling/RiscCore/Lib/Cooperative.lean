import Mathlib.Data.List.Range
import Mathlib.Tactic.Common

/-!
# `Lib.Cooperative` — threads that take turns of their own accord

A thread stands at some `r : ρ`, and `code r` is what it does next. `Pool` is a scheduler with a ready queue that
parks whoever yields while nobody waits: an idle thread, which never gives up its turn, takes over.

Cut at its yields, what a thread emits is a list of pieces, one for each of its turns. `Pool.finish` says what
becomes of a pool of threads that all exit sooner or later: their pieces come out round by round, and the pool ends
with nobody parked unless one thread `Outlives` all others.
-/

namespace Cooperative

variable {γ ρ β : Type}

/-! ## Rounds -/

/-- Round `i` has the piece `i` of every list that is long enough. -/
def round (i : Nat) (ls : List (List γ)) : List γ := ls.filterMap (·[i]?)

/-- The first `m` rounds. -/
def roundsUpTo (m : Nat) (ls : List (List γ)) : List γ := (List.range m).flatMap fun i => round i ls

/-- **All rounds.** -/
def rounds (ls : List (List γ)) : List γ := roundsUpTo ((ls.map List.length).foldr max 0) ls

theorem round_cons (i : Nat) (l : List γ) (ls : List (List γ)) : round i (l :: ls) = l[i]?.toList ++ round i ls := by
  unfold round
  rw [List.filterMap_cons]
  cases l[i]? with
  | none => rfl
  | some x => rfl

theorem round_append (i : Nat) (ls ls' : List (List γ)) : round i (ls ++ ls') = round i ls ++ round i ls' :=
  List.filterMap_append

theorem round_singleton (i : Nat) (l : List γ) : round i [l] = l[i]?.toList :=
  (round_cons i l []).trans (List.append_nil _)

theorem length_le_foldr_max {ls : List (List γ)} {l : List γ} (hl : l ∈ ls) :
    l.length ≤ (ls.map List.length).foldr max 0 := by
  induction ls with
  | nil => exact absurd hl List.not_mem_nil
  | cons x ls ih =>
      rcases List.mem_cons.mp hl with rfl | hl
      · exact Nat.le_max_left _ _
      · exact (ih hl).trans (Nat.le_max_right _ _)

theorem foldr_max_le {ls : List (List γ)} {m : Nat} (hm : ∀ l ∈ ls, l.length ≤ m) :
    (ls.map List.length).foldr max 0 ≤ m := by
  induction ls with
  | nil => exact Nat.zero_le m
  | cons x ls ih =>
      exact Nat.max_le.mpr ⟨hm x List.mem_cons_self, ih fun l hl => hm l (List.mem_cons_of_mem x hl)⟩

theorem roundsUpTo_succ (m : Nat) (ls : List (List γ)) :
    roundsUpTo (m + 1) ls = roundsUpTo m ls ++ round m ls := by
  unfold roundsUpTo
  rw [List.range_succ, List.flatMap_append, List.flatMap_singleton]

/-- Rounds after the last are empty. -/
theorem roundsUpTo_eq {ls : List (List γ)} {m : Nat} (hm : ∀ l ∈ ls, l.length ≤ m) : roundsUpTo m ls = rounds ls := by
  obtain ⟨d, hd⟩ := Nat.exists_eq_add_of_le (foldr_max_le hm)
  rw [hd]
  clear hd
  induction d with
  | zero => rfl
  | succ d ih =>
      have hempty : round ((ls.map List.length).foldr max 0 + d) ls = [] := List.filterMap_eq_nil_iff.mpr
        fun l hl => List.getElem?_eq_none ((length_le_foldr_max hl).trans (Nat.le_add_right _ d))
      rw [← Nat.add_assoc, roundsUpTo_succ, ih, hempty, List.append_nil]

/-- The rounds of two lists that take turns, seen from the one and from the other. -/
theorem flatMap_shift (X L : Nat → List γ) (m : Nat) :
    ((List.range m).flatMap fun i => X i ++ L i) ++ X m =
      X 0 ++ (List.range m).flatMap fun i => L i ++ X (i + 1) := by
  induction m with
  | zero => rw [List.range_zero, List.flatMap_nil, List.flatMap_nil, List.append_nil, List.nil_append]
  | succ m ih =>
      rw [List.range_succ, List.flatMap_append, List.flatMap_append, List.flatMap_singleton, List.flatMap_singleton,
        ← List.append_assoc (X 0), ← ih]
      simp only [List.append_assoc]

/-- **Taking the first piece** puts the rest of that list at the end. -/
theorem rounds_cons (x : γ) (l : List γ) (ls : List (List γ)) : rounds ((x :: l) :: ls) = x :: rounds (ls ++ [l]) := by
  generalize hm : (((x :: l) :: ls).map List.length).foldr max 0 = m
  have hlen : ∀ k ∈ (x :: l) :: ls, k.length ≤ m := fun k hk => hm ▸ length_le_foldr_max hk
  have hx : (x :: l).length ≤ m := hlen _ List.mem_cons_self
  have hlen' : ∀ k ∈ ls ++ [l], k.length ≤ m := by
    intro k hk
    rcases List.mem_append.mp hk with hk | hk
    · exact hlen k (List.mem_cons_of_mem _ hk)
    · rw [List.mem_singleton.mp hk]
      exact (Nat.le_succ _).trans hx
  have hshift := flatMap_shift (fun i => (x :: l)[i]?.toList) (fun i => round i ls) m
  rw [List.getElem?_eq_none hx, Option.toList_none, List.append_nil] at hshift
  rw [← roundsUpTo_eq hlen, ← roundsUpTo_eq hlen']
  calc roundsUpTo m ((x :: l) :: ls)
      = (List.range m).flatMap fun i => (x :: l)[i]?.toList ++ round i ls := by
        simp only [roundsUpTo, round_cons]
    _ = x :: (List.range m).flatMap fun i => round i ls ++ (x :: l)[i + 1]?.toList := hshift
    _ = x :: roundsUpTo m (ls ++ [l]) := by
        simp only [roundsUpTo, round_append, round_singleton, List.getElem?_cons_succ]

/-- A list without pieces takes no turn. -/
theorem rounds_append_nil (ls : List (List γ)) : rounds (ls ++ [[]]) = rounds ls := by
  have hlen : ∀ k ∈ ls ++ [([] : List γ)], k.length ≤ (ls.map List.length).foldr max 0 := by
    intro k hk
    rcases List.mem_append.mp hk with hk | hk
    · exact length_le_foldr_max hk
    · rw [List.mem_singleton.mp hk]
      exact Nat.zero_le _
  rw [← roundsUpTo_eq hlen]
  simp only [rounds, roundsUpTo, round_append, round_singleton, List.getElem?_nil, Option.toList_none, List.append_nil]

theorem rounds_singleton (l : List γ) : rounds [l] = l := by
  induction l with
  | nil => rfl
  | cons x l ih => rw [rounds_cons, List.nil_append, ih]

/-! ## Threads -/

/-- What a thread does next, and where it stands then. -/
inductive Act (ρ β : Type) where
  | emits (out : List β) (next : ρ)
  | yields (next : ρ)
  | exits (out : List β)

/-- **The pool.** In `idle l` the idle thread has the processor, whoever waits in `l`. -/
inductive Pool (ρ : Type) where
  | busy (current : ρ) (waiting : List ρ)
  | idle (waiting : List ρ)

namespace Pool

/-- The turn goes to the first who waits. -/
def next : List ρ → Pool ρ
  | [] => .idle []
  | r :: l => .busy r l

/-- The next turn is given away before `r` is queued. -/
def requeue (r : ρ) : List ρ → Pool ρ
  | [] => .idle [r]
  | x :: l => .busy x (l ++ [r])

def step (code : ρ → Act ρ β) : Pool ρ → List β × Pool ρ
  | .idle l => ([], .idle l)
  | .busy r l =>
    match code r with
    | .emits out r' => (out, .busy r' l)
    | .yields r' => ([], requeue r' l)
    | .exits out => (out, next l)

/-- What `n` steps emit, and where they lead. -/
def steps (code : ρ → Act ρ β) : Nat → Pool ρ → List β × Pool ρ
  | 0, p => ([], p)
  | n + 1, p => ((step code p).1 ++ (steps code n (step code p).2).1, (steps code n (step code p).2).2)

end Pool

/-- **`Pieces code n r ps`.** From `r` a thread exits with its `n`th act; `ps` is what it emits on the way, cut at its
    yields. -/
inductive Pieces (code : ρ → Act ρ β) : Nat → ρ → List (List β) → Prop where
  | exits {r : ρ} {out : List β} : code r = .exits out → Pieces code 1 r [out]
  | yields {n : Nat} {r r' : ρ} {ps : List (List β)} : code r = .yields r' → Pieces code n r' ps →
      Pieces code (n + 1) r ([] :: ps)
  | emits {n : Nat} {r r' : ρ} {out p : List β} {ps : List (List β)} : code r = .emits out r' →
      Pieces code n r' (p :: ps) → Pieces code (n + 1) r ((out ++ p) :: ps)

/-- A thread that exits. -/
structure Plan (code : ρ → Act ρ β) where
  start : ρ
  acts : Nat
  pieces : List (List β)
  ok : Pieces code acts start pieces

variable {code : ρ → Act ρ β}

theorem Pieces.ne_nil {n : Nat} {r : ρ} {ps : List (List β)} (h : Pieces code n r ps) : ps ≠ [] := by
  cases h with
  | exits _ => exact List.cons_ne_nil _ _
  | yields _ _ => exact List.cons_ne_nil _ _
  | emits _ _ => exact List.cons_ne_nil _ _

theorem Pieces.acts_pos {n : Nat} {r : ρ} {ps : List (List β)} (h : Pieces code n r ps) : 0 < n := by
  cases h with
  | exits _ => exact Nat.one_pos
  | yields _ _ => exact Nat.succ_pos _
  | emits _ _ => exact Nat.succ_pos _

/-- A thread has a turn for each piece, so at least one. -/
def Plan.turns (p : Plan code) : Nat := p.pieces.length

/-- How many acts it takes all of them to exit. -/
def allActs : List (Plan code) → Nat
  | [] => 0
  | p :: l => p.acts + allActs l

theorem allActs_cons (p : Plan code) (l : List (Plan code)) : allActs (p :: l) = p.acts + allActs l := rfl

theorem allActs_append (l l' : List (Plan code)) : allActs (l ++ l') = allActs l + allActs l' := by
  induction l with
  | nil => exact (Nat.zero_add _).symm
  | cons p l ih => rw [List.cons_append, allActs_cons, ih, allActs_cons, Nat.add_assoc]

theorem Plan.turns_pos (p : Plan code) : 0 < p.turns := List.length_pos_iff.mpr p.ok.ne_nil

/-! ## Who is left alone -/

variable {ν : Type} {x : ν}

/-- **`x` outlives the others:** it has more turns than everybody before it, at least two more than everybody behind
    it, and at least two. -/
def Outlives (x : ν) (ns : List (ν × Nat)) : Prop :=
  ∃ pre n post, ns = pre ++ (x, n) :: post ∧ 2 ≤ n ∧ (∀ j ∈ pre, j.2 < n) ∧ ∀ j ∈ post, j.2 + 1 < n

theorem outlives_nil : ¬ Outlives x [] := by
  rintro ⟨pre, n, post, hns, _⟩
  exact absurd hns.symm (List.append_ne_nil_of_right_ne_nil pre (List.cons_ne_nil _ _))

theorem outlives_singleton (y : ν) (n : Nat) : Outlives x [(y, n)] ↔ x = y ∧ 2 ≤ n := by
  constructor
  · rintro ⟨pre, m, post, hns, hm, _⟩
    have hmem : (x, m) ∈ [(y, n)] := hns ▸ List.mem_append_right pre List.mem_cons_self
    obtain ⟨rfl, rfl⟩ := Prod.mk.inj (List.mem_singleton.mp hmem)
    exact ⟨rfl, hm⟩
  · rintro ⟨rfl, h⟩
    exact ⟨[], n, [], rfl, h, fun _ hj => absurd hj List.not_mem_nil, fun _ hj => absurd hj List.not_mem_nil⟩

/-- Who has one turn outlives nobody, and prevents nobody from it. -/
theorem outlives_one_cons (y : ν) (ns : List (ν × Nat)) : Outlives x ((y, 1) :: ns) ↔ Outlives x ns := by
  constructor
  · rintro ⟨pre, n, post, hns, hn, hpre, hpost⟩
    cases pre with
    | nil =>
        obtain ⟨hhead, _⟩ := List.cons.inj hns
        obtain ⟨_, rfl⟩ := Prod.mk.inj hhead
        omega
    | cons z pre =>
        obtain ⟨_, rfl⟩ := List.cons.inj hns
        exact ⟨pre, n, post, rfl, hn, fun j hj => hpre j (List.mem_cons_of_mem z hj), hpost⟩
  · rintro ⟨pre, n, post, rfl, hn, hpre, hpost⟩
    refine ⟨(y, 1) :: pre, n, post, rfl, hn, fun j hj => ?_, hpost⟩
    rcases List.mem_cons.mp hj with rfl | hj
    · exact hn
    · exact hpre j hj

/-- **A turn that ends with a yield does not change who outlives whom**, when somebody waits. -/
theorem outlives_rotate {y : ν} {n : Nat} {ns : List (ν × Nat)} (hpos : ∀ j ∈ ns, 0 < j.2) (hne : ns ≠ []) :
    Outlives x ((y, n + 1) :: ns) ↔ Outlives x (ns ++ [(y, n)]) := by
  constructor
  · rintro ⟨pre, m, post, hns, hm, hpre, hpost⟩
    cases pre with
    | nil =>
        obtain ⟨hhead, rfl⟩ := List.cons.inj hns
        obtain ⟨rfl, rfl⟩ := Prod.mk.inj hhead
        -- the head itself: somebody waits, and has a turn
        obtain ⟨j, hj⟩ := List.exists_mem_of_ne_nil ns hne
        have h0 := hpos j hj
        have h1 := hpost j hj
        refine ⟨ns, n, [], rfl, by omega, fun i hi => ?_, fun _ hi => absurd hi List.not_mem_nil⟩
        have hi' := hpost i hi
        omega
    | cons z pre =>
        obtain ⟨rfl, rfl⟩ := List.cons.inj hns
        have hy : n + 1 < m := hpre (y, n + 1) List.mem_cons_self
        refine ⟨pre, m, post ++ [(y, n)], List.append_assoc pre ((x, m) :: post) [(y, n)], hm,
          fun j hj => hpre j (List.mem_cons_of_mem _ hj), fun j hj => ?_⟩
        rcases List.mem_append.mp hj with hj | hj
        · exact hpost j hj
        · rw [List.mem_singleton.mp hj]
          exact hy
  · rintro ⟨pre, m, post, hns, hm, hpre, hpost⟩
    rcases List.eq_nil_or_concat post with rfl | ⟨post, z, rfl⟩
    · obtain ⟨rfl, hlast⟩ := List.append_inj' hns rfl
      obtain ⟨rfl, rfl⟩ := Prod.mk.inj (List.cons.inj hlast).1
      refine ⟨[], n + 1, ns, rfl, by omega, fun _ hj => absurd hj List.not_mem_nil, fun j hj => ?_⟩
      have hj' := hpre j hj
      omega
    · have hsplit : ns ++ [(y, n)] = (pre ++ (x, m) :: post) ++ [z] := by
        rw [hns, List.concat_eq_append, List.append_assoc, List.cons_append]
      obtain ⟨rfl, hlast⟩ := List.append_inj' hsplit rfl
      obtain ⟨rfl, _⟩ := List.cons.inj hlast
      have hpost' : ∀ j ∈ post, j.2 + 1 < m := by
        intro j hj
        exact hpost j (by rw [List.concat_eq_append]; exact List.mem_append_left _ hj)
      have hy : n + 1 < m :=
        hpost (y, n) (by rw [List.concat_eq_append]; exact List.mem_append_right _ List.mem_cons_self)
      refine ⟨(y, n + 1) :: pre, m, post, rfl, hm, fun j hj => ?_, hpost'⟩
      rcases List.mem_cons.mp hj with rfl | hj
      · exact hy
      · exact hpre j hj

/-- Among equals nobody outlives the others. -/
theorem not_outlives_of_equal {n : Nat} {ns : List (ν × Nat)} (h : ∀ j ∈ ns, j.2 = n) (hlen : 2 ≤ ns.length) :
    ¬ Outlives x ns := by
  rintro ⟨pre, m, post, rfl, _, hpre, hpost⟩
  obtain rfl : m = n := h (x, m) (List.mem_append_right pre List.mem_cons_self)
  cases pre with
  | cons y pre =>
      have hlt := hpre y List.mem_cons_self
      rw [h y (List.mem_append_left _ List.mem_cons_self)] at hlt
      exact Nat.lt_irrefl m hlt
  | nil =>
      cases post with
      | nil => exact absurd hlen (by simp)
      | cons y post =>
          have hlt := hpost y List.mem_cons_self
          rw [h y (List.mem_append_right _ (List.mem_cons_of_mem _ List.mem_cons_self))] at hlt
          omega

/-! ## What becomes of a pool -/

namespace Pool

theorem step_emits {r r' : ρ} {l : List ρ} {out : List β} (h : code r = .emits out r') :
    step code (.busy r l) = (out, .busy r' l) := by
  simp only [step, h]

theorem step_yields {r r' : ρ} {l : List ρ} (h : code r = .yields r') :
    step code (.busy r l) = ([], requeue r' l) := by
  simp only [step, h]

theorem step_exits {r : ρ} {l : List ρ} {out : List β} (h : code r = .exits out) :
    step code (.busy r l) = (out, next l) := by
  simp only [step, h]

theorem steps_succ {n : Nat} {p p' q : Pool ρ} {out outs : List β} (h : step code p = (out, p'))
    (hs : steps code n p' = (outs, q)) : steps code (n + 1) p = (out ++ outs, q) := by
  simp only [steps, h, hs]

/-- The idle thread stays. -/
theorem steps_idle (n : Nat) (l : List ρ) : steps code n (.idle l) = ([], .idle l) := by
  induction n with
  | zero => rfl
  | succ n ih => simp only [steps, step, ih, List.append_nil]

theorem steps_add (m n : Nat) (p : Pool ρ) : steps code (m + n) p =
    ((steps code m p).1 ++ (steps code n (steps code m p).2).1, (steps code n (steps code m p).2).2) := by
  induction m generalizing p with
  | zero => simp only [Nat.zero_add, steps, List.nil_append]
  | succ m ih => simp only [Nat.succ_add, steps, ih, List.append_assoc]

/-- A pool that has come to rest stays as it is. -/
theorem steps_of_idle {m n : Nat} {p : Pool ρ} {l : List ρ} {out : List β} (h : steps code m p = (out, .idle l))
    (hmn : m ≤ n) : steps code n p = (out, .idle l) := by
  obtain ⟨d, rfl⟩ := Nat.exists_eq_add_of_le hmn
  rw [steps_add, h]
  simp only [steps_idle, List.append_nil]

/-- A thread keeps its name. -/
structure Named (code : ρ → Act ρ β) (name : ρ → ν) : Prop where
  emits : ∀ r out r', code r = .emits out r' → name r' = name r
  yields : ∀ r r', code r = .yields r' → name r' = name r

/-- Who has how many turns. -/
def turnsOf (name : ρ → ν) (l : List (Plan code)) : List (ν × Nat) := l.map fun p => (name p.start, p.turns)

/-- Where a pool of threads that exit ends: after `m` steps, which emit `out`, nobody is left but `parked`. -/
structure Ends (code : ρ → Act ρ β) (name : ρ → ν) (l : List (Plan code)) (m : Nat) (out : List β)
    (parked : List (Plan code)) : Prop where
  steps : steps code m (next (l.map Plan.start)) = (out, .idle (parked.map Plan.start))
  acts : m + allActs parked = allActs l
  alone : parked.length ≤ 1
  parked_iff : ∀ x, x ∈ parked.map (fun p => name p.start) ↔ Outlives x (turnsOf name l)
  emitted : out ++ (rounds (parked.map Plan.pieces)).flatten = (rounds (l.map Plan.pieces)).flatten

variable {name : ρ → ν} {p : Plan code} {l parked : List (Plan code)} {m : Nat} {out : List β}

/-- The first thread emits something. -/
theorem Ends.emits {q : Plan code} {o piece : List β} {ps : List (List β)} (hname : Named code name)
    (hq : q.pieces = piece :: ps) (hp : p.pieces = (o ++ piece) :: ps) (hacts : p.acts = q.acts + 1)
    (hcode : code p.start = .emits o q.start) (h : Ends code name (q :: l) m out parked) :
    Ends code name (p :: l) (m + 1) (o ++ out) parked where
  steps := steps_succ (step_emits hcode) h.steps
  acts := by
    have hrest := h.acts
    rw [allActs_cons] at hrest ⊢
    omega
  alone := h.alone
  parked_iff := by
    intro x
    have hturns : p.turns = q.turns := by simp only [Plan.turns, hp, hq, List.length_cons]
    have hsame : turnsOf name (p :: l) = turnsOf name (q :: l) := by
      simp only [turnsOf, List.map_cons, hturns, hname.emits _ _ _ hcode]
    rw [hsame]
    exact h.parked_iff x
  emitted := by
    rw [List.append_assoc, h.emitted, List.map_cons, List.map_cons, hp, hq, rounds_cons, rounds_cons, List.flatten_cons,
      List.flatten_cons, List.append_assoc]

/-- The first thread yields to another one. -/
theorem Ends.yields {q y : Plan code} (hname : Named code name) (hp : p.pieces = [] :: q.pieces)
    (hacts : p.acts = q.acts + 1) (hcode : code p.start = .yields q.start)
    (h : Ends code name ((y :: l) ++ [q]) m out parked) : Ends code name (p :: y :: l) (m + 1) out parked where
  steps := by
    have hstep : step code (next ((p :: y :: l).map Plan.start)) = ([], next (((y :: l) ++ [q]).map Plan.start)) := by
      rw [List.map_append]
      exact step_yields hcode
    exact steps_succ hstep h.steps
  acts := by
    have hrest := h.acts
    rw [allActs_append, allActs_cons q] at hrest
    rw [allActs_cons p]
    have hnil : allActs ([] : List (Plan code)) = 0 := rfl
    omega
  alone := h.alone
  parked_iff := by
    intro x
    have hturns : p.turns = q.turns + 1 := congrArg List.length hp
    have hpos : ∀ j ∈ turnsOf name (y :: l), 0 < j.2 := by
      intro j hj
      obtain ⟨z, _, rfl⟩ := List.mem_map.mp hj
      exact z.turns_pos
    have hhead : turnsOf name (p :: y :: l) = (name q.start, q.turns + 1) :: turnsOf name (y :: l) := by
      rw [hname.yields _ _ hcode, ← hturns]
      rfl
    have hlast : turnsOf name ((y :: l) ++ [q]) = turnsOf name (y :: l) ++ [(name q.start, q.turns)] := List.map_append
    rw [hhead, outlives_rotate hpos (List.cons_ne_nil _ _), ← hlast]
    exact h.parked_iff x
  emitted := by
    show _ = (rounds (p.pieces :: (y :: l).map Plan.pieces)).flatten
    rw [h.emitted, List.map_append, hp, rounds_cons, List.flatten_cons, List.nil_append]
    rfl

/-- The first thread exits. -/
theorem Ends.exits {o : List β} (hp : p.pieces = [o]) (hacts : p.acts = 1) (hcode : code p.start = .exits o)
    (h : Ends code name l m out parked) : Ends code name (p :: l) (m + 1) (o ++ out) parked where
  steps := steps_succ (step_exits hcode) h.steps
  acts := by
    have hrest := h.acts
    rw [allActs_cons]
    omega
  alone := h.alone
  parked_iff := by
    intro x
    have hturns : p.turns = 1 := congrArg List.length hp
    have hhead : turnsOf name (p :: l) = (name p.start, 1) :: turnsOf name l := by rw [← hturns]; rfl
    rw [hhead, outlives_one_cons]
    exact h.parked_iff x
  emitted := by
    rw [List.append_assoc, h.emitted, List.map_cons, hp, rounds_cons, rounds_append_nil, List.flatten_cons]

/-- The only thread yields. -/
theorem Ends.park {q : Plan code} (hname : Named code name) (hp : p.pieces = [] :: q.pieces)
    (hacts : p.acts = q.acts + 1) (hcode : code p.start = .yields q.start) : Ends code name [p] 1 [] [q] where
  steps := steps_succ (step_yields hcode) rfl
  acts := by
    rw [allActs_cons, allActs_cons]
    omega
  alone := Nat.le_refl 1
  parked_iff := by
    intro x
    have hturns : p.turns = q.turns + 1 := congrArg List.length hp
    have hpos := q.turns_pos
    have hhead : turnsOf name [p] = [(name q.start, p.turns)] := by rw [hname.yields _ _ hcode]; rfl
    rw [hhead, outlives_singleton, List.map_singleton, List.mem_singleton]
    exact (and_iff_left (by omega)).symm
  emitted := by
    rw [List.map_singleton, List.map_singleton, rounds_singleton, rounds_singleton, hp, List.flatten_cons]

/-- **What becomes of a pool of threads that exit.** -/
theorem finish (hname : Named code name) : ∀ (n : Nat) (l : List (Plan code)), allActs l = n →
    ∃ m out parked, Ends code name l m out parked := by
  intro n
  induction n with
  | zero =>
      intro l hl
      cases l with
      | nil =>
          refine ⟨0, [], [], rfl, rfl, Nat.zero_le 1, fun x => ?_, rfl⟩
          exact iff_of_false List.not_mem_nil outlives_nil
      | cons p l =>
          have hpos := p.ok.acts_pos
          rw [allActs_cons] at hl
          omega
  | succ n ih =>
      intro l hl
      cases l with
      | nil => exact absurd hl (Nat.succ_ne_zero n).symm
      | cons p l =>
          rw [allActs_cons] at hl
          obtain ⟨r, a, ps, hok⟩ := p
          cases hok with
          | @exits _ o hcode =>
              obtain ⟨m, out, parked, h⟩ := ih l (by dsimp only at hl; omega)
              exact ⟨m + 1, o ++ out, parked, h.exits rfl rfl hcode⟩
          | @emits a _ r' o piece ps hcode hrest =>
              obtain ⟨m, out, parked, h⟩ := ih (⟨r', a, piece :: ps, hrest⟩ :: l)
                (by rw [allActs_cons]; dsimp only at hl ⊢; omega)
              exact ⟨m + 1, o ++ out, parked, h.emits hname rfl rfl rfl hcode⟩
          | @yields a _ r' ps hcode hrest =>
              cases l with
              | nil => exact ⟨1, [], [⟨r', a, ps, hrest⟩], Ends.park hname rfl rfl hcode⟩
              | cons y l =>
                  obtain ⟨m, out, parked, h⟩ := ih ((y :: l) ++ [⟨r', a, ps, hrest⟩]) (by
                    rw [allActs_append, allActs_cons ⟨r', a, ps, hrest⟩]
                    have hnil : allActs ([] : List (Plan code)) = 0 := rfl
                    dsimp only at hl ⊢
                    omega)
                  exact ⟨m + 1, out, parked, h.yields hname rfl rfl hcode⟩

end Pool

end Cooperative
