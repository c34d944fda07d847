import Mathlib.Data.List.Rotate
import Mathlib.Tactic.Common

/-!
# `Lib.RoundRobin` — taking turns

The head of the list has the turn. It ends its turn by yielding, which rotates the list by one, or by leaving.
`heads l ts` is who has the turn before, between and after the turn ends `ts`.

Whatever the head does, everybody behind it moves up by one: `heads_getElem?` is the whole theory of positions.
When all yield, the list only rotates, and `heads_window` is the theory of fairness.
-/

namespace RoundRobin

variable {α : Type}

/-- How a turn ends. -/
inductive Turn where
  | yield
  | exit
deriving DecidableEq

/-- **The reference scheduler.** -/
def turn : List α → Turn → List α
  | x :: l, .yield => l ++ [x]
  | _ :: l, .exit => l
  | [], _ => []

def heads (l : List α) : List Turn → List (Option α)
  | [] => [l.head?]
  | t :: ts => l.head? :: heads (turn l t) ts

variable {l : List α} {x : α}

theorem length_heads : ∀ (ts : List Turn) (l : List α), (heads l ts).length = ts.length + 1 := by
  intro ts
  induction ts with
  | nil => exact fun _ => rfl
  | cons t ts ih => exact fun l => congrArg (· + 1) (ih (turn l t))

/-! ## Positions -/

/-- Everybody behind the head moves up by one. -/
theorem turn_getElem? (t : Turn) {i : Nat} (hi : i + 1 < l.length) : (turn l t)[i]? = l[i + 1]? := by
  cases l with
  | nil => exact absurd hi (Nat.not_lt_zero _)
  | cons x l =>
      have hi : i < l.length := Nat.lt_of_succ_lt_succ hi
      rw [List.getElem?_cons_succ]
      cases t with
      | yield => exact List.getElem?_append_left hi
      | exit => rfl

theorem lt_length_turn (t : Turn) {i : Nat} (hi : i + 1 < l.length) : i < (turn l t).length := by
  have hsome : (turn l t)[i]? = some l[i + 1] := (turn_getElem? t hi).trans (List.getElem?_eq_getElem hi)
  exact (List.getElem?_eq_some_iff.mp hsome).1

/-- **Position `j` has the turn after `j` turns**, in whatever way these end. -/
theorem heads_getElem? : ∀ (ts : List Turn) {l : List α} {j : Nat}, j ≤ ts.length → j < l.length →
    (heads l ts)[j]? = some l[j]? := by
  intro ts
  induction ts with
  | nil =>
      intro l j hj _
      obtain rfl : j = 0 := Nat.le_zero.mp hj
      exact congrArg some List.head?_eq_getElem?
  | cons t ts ih =>
      intro l j hj hlen
      cases j with
      | zero => exact congrArg some List.head?_eq_getElem?
      | succ j =>
          show (heads (turn l t) ts)[j]? = some l[j + 1]?
          rw [ih (Nat.le_of_succ_le_succ hj) (lt_length_turn t hlen), turn_getElem? t hlen]

/-- The one at position `k` waits for exactly `k` turns. -/
theorem heads_eq_some_iff (hnd : l.Nodup) {ts : List Turn} {j k : Nat} (hx : l[k]? = some x) (hj : j ≤ ts.length)
    (hjk : j ≤ k) : (heads l ts)[j]? = some (some x) ↔ j = k := by
  obtain ⟨hk, hxk⟩ := List.getElem?_eq_some_iff.mp hx
  rw [heads_getElem? ts hj (by omega), Option.some.injEq]
  constructor
  · intro hjx
    obtain ⟨hj', hxj⟩ := List.getElem?_eq_some_iff.mp hjx
    exact (List.Nodup.getElem_inj_iff hnd).mp (hxj.trans hxk.symm)
  · rintro rfl
    exact hx

/-! ## Fairness -/

theorem turn_yield (l : List α) : turn l .yield = l.rotate 1 := by
  cases l with
  | nil => rfl
  | cons x l => rw [List.rotate_cons_succ, List.rotate_zero]; rfl

theorem heads_yields : ∀ (m : Nat) (l : List α) {j : Nat}, j ≤ m →
    (heads l (List.replicate m .yield))[j]? = some (l.rotate j).head? := by
  intro m
  induction m with
  | zero =>
      intro l j hj
      obtain rfl : j = 0 := Nat.le_zero.mp hj
      rw [List.rotate_zero]
      rfl
  | succ m ih =>
      intro l j hj
      cases j with
      | zero => rw [List.rotate_zero]; rfl
      | succ j =>
          show (heads (turn l .yield) (List.replicate m .yield))[j]? = _
          rw [ih _ (Nat.le_of_succ_le_succ hj), turn_yield, List.rotate_rotate, Nat.add_comm 1 j]

/-- **Every window of `n` turns is the list of all `n`**, up to where it starts. -/
theorem heads_window {m i : Nat} (hi : i + l.length ≤ m + 1) :
    ((heads l (List.replicate m .yield)).drop i).take l.length = (l.rotate i).map some := by
  apply List.ext_getElem?
  intro k
  by_cases hk : k < l.length
  · have hpos : 0 < (l.rotate (i + k)).length := by rw [List.length_rotate]; omega
    rw [List.getElem?_take_of_lt hk, List.getElem?_drop, heads_yields m l (by omega), List.head?_eq_getElem?,
      ← List.rotate_rotate, List.getElem?_rotate (by rw [List.length_rotate]; omega), Nat.zero_add, List.length_rotate,
      Nat.mod_eq_of_lt hk, List.getElem?_map, List.getElem?_eq_getElem (by rw [List.length_rotate]; exact hk)]
    rfl
  · rw [List.getElem?_eq_none, List.getElem?_eq_none]
    · rw [List.length_map, List.length_rotate]; omega
    · rw [List.length_take]; omega

/-- Everybody has exactly one turn in it. -/
theorem count_window [DecidableEq α] (hnd : l.Nodup) (hx : x ∈ l) {m i : Nat} (hi : i + l.length ≤ m + 1) :
    (((heads l (List.replicate m .yield)).drop i).take l.length).count (some x) = 1 := by
  rw [heads_window hi]
  apply List.count_eq_one_of_mem
  · exact (List.nodup_rotate.mpr hnd).map (fun _ _ he => Option.some.inj he)
  · exact List.mem_map.mpr ⟨x, List.mem_rotate.mpr hx, rfl⟩

end RoundRobin
