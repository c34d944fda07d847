import Mathlib.Data.Nat.Digits.Lemmas

/-!
# `Lib.Numeral` — numerals over any alphabet

A numeral is a list of symbols, the most significant first. `read` gives its value in base `b`, where
`digit` says which symbols are digits and what each stands for. A program writes a numeral of `n` in two
ways, and `read` undoes both: `shortest` has the digits that `n` needs and no leading zero, `fixed` has a
given number of digits.
-/

namespace Numeral

variable {α : Type} {b : Nat} {digit : α → Option Nat} {sym : Nat → α}

/-- The value of `s` in base `b`; `none` when some symbol is no digit. -/
def read (digit : α → Option Nat) (b : Nat) (s : List α) : Option Nat :=
  s.foldlM (fun v c => (digit c).map fun d => b * v + d) 0

/-- The numeral of `n` with no leading zero; that of zero is empty. -/
def shortest (sym : Nat → α) (b n : Nat) : List α := (Nat.digits b n).reverse.map sym

/-- The last `width` digits of `n`. -/
def fixed (sym : Nat → α) (b width n : Nat) : List α :=
  (List.range width).reverse.map fun k => sym (n / b ^ k % b)

/-- `sym` writes the digits of base `b` as `digit` reads them. -/
def Writes (sym : Nat → α) (digit : α → Option Nat) (b : Nat) : Prop := ∀ d, d < b → digit (sym d) = some d

/-! ## Reading -/

theorem read_append_singleton (s : List α) (c : α) :
    read digit b (s ++ [c]) = (read digit b s).bind fun v => (digit c).map fun d => b * v + d := by
  unfold read
  rw [List.foldlM_append]
  cases s.foldlM (fun v c => (digit c).map fun d => b * v + d) 0 with
  | none => rfl
  | some v =>
      show (some v).bind _ = _
      rw [Option.bind_some, List.foldlM_cons]
      cases digit c with
      | none => rfl
      | some d => rfl

/-- The digits of a number, least significant first, written and then read. -/
theorem read_reverse_map (h : Writes sym digit b) : ∀ (ds : List Nat), (∀ d ∈ ds, d < b) →
    read digit b (ds.reverse.map sym) = some (Nat.ofDigits b ds) := by
  intro ds
  induction ds with
  | nil => intro _; rfl
  | cons d ds ih =>
      intro hlt
      rw [List.reverse_cons, List.map_append, List.map_singleton, read_append_singleton,
        ih (fun x hx => hlt x (List.mem_cons_of_mem d hx)), h d (hlt d List.mem_cons_self)]
      rw [Option.bind_some, Option.map_some, Nat.ofDigits_cons, Nat.add_comm]

/-! ## The numeral with no leading zero -/

theorem read_shortest (h : Writes sym digit b) (hb : 1 < b) (n : Nat) :
    read digit b (shortest sym b n) = some n := by
  unfold shortest
  rw [read_reverse_map h _ (fun d hd => Nat.digits_lt_base hb hd), Nat.ofDigits_digits]

theorem mem_shortest (hb : 1 < b) {n : Nat} {c : α} (hc : c ∈ shortest sym b n) : ∃ d, d < b ∧ c = sym d := by
  obtain ⟨d, hd, rfl⟩ := List.mem_map.mp hc
  exact ⟨d, Nat.digits_lt_base hb (List.mem_reverse.mp hd), rfl⟩

/-- The first symbol stands for a digit that is not zero. -/
theorem shortest_head {n : Nat} (hb : 1 < b) (hn : n ≠ 0) :
    ∃ d rest, shortest sym b n = sym d :: rest ∧ d ≠ 0 ∧ d < b := by
  have hne : Nat.digits b n ≠ [] := Nat.digits_ne_nil_iff_ne_zero.mpr hn
  refine ⟨(Nat.digits b n).getLast hne, (Nat.digits b n).dropLast.reverse.map sym, ?_,
    Nat.getLast_digit_ne_zero b hn, Nat.digits_lt_base hb (List.getLast_mem hne)⟩
  unfold shortest
  conv_lhs => rw [← List.dropLast_append_getLast hne]
  simp

/-! ## The numeral of a fixed width -/

theorem ofDigits_range (b n : Nat) : ∀ width : Nat,
    Nat.ofDigits b ((List.range width).map fun k => n / b ^ k % b) = n % b ^ width := by
  intro width
  induction width with
  | zero => simp [Nat.mod_one]
  | succ width ih =>
      rw [List.range_succ, List.map_append, List.map_singleton, Nat.ofDigits_append, ih, Nat.ofDigits_singleton,
        List.length_map, List.length_range, Nat.mod_pow_succ]

theorem length_fixed (width n : Nat) : (fixed sym b width n).length = width := by
  simp [fixed]

theorem mem_fixed (hb : 0 < b) {width n : Nat} {c : α} (hc : c ∈ fixed sym b width n) : ∃ d, d < b ∧ c = sym d := by
  obtain ⟨k, _, rfl⟩ := List.mem_map.mp hc
  exact ⟨n / b ^ k % b, Nat.mod_lt _ hb, rfl⟩

/-- A number that fits the width is read back. -/
theorem read_fixed (h : Writes sym digit b) (hb : 0 < b) {width n : Nat} (hn : n < b ^ width) :
    read digit b (fixed sym b width n) = some n := by
  have hds : fixed sym b width n = (((List.range width).map fun k => n / b ^ k % b).reverse).map sym := by
    unfold fixed
    rw [← List.map_reverse, List.map_map]
    rfl
  rw [hds, read_reverse_map h _ (by simpa using fun k _ => Nat.mod_lt _ hb), ofDigits_range,
    Nat.mod_eq_of_lt hn]

/-- One more digit is put in front. -/
theorem fixed_succ (width n : Nat) :
    fixed sym b (width + 1) n = sym (n / b ^ width % b) :: fixed sym b width n := by
  unfold fixed
  rw [List.range_succ, List.reverse_append, List.map_append]
  rfl

end Numeral
