import Mathlib.Data.List.Basic

/-!
# `Lib.Lines` — texts of lines

A line ends in two symbols, `cr` and `lf`. `join` writes lines one after the other, and `lines` reads them back if
none of them holds either symbol. A field is a line that begins with its key.
-/

namespace Lines

variable {α : Type} [DecidableEq α] {cr lf : α}

def join (cr lf : α) (ls : List (List α)) : List α := ls.flatMap (· ++ [cr, lf])

/-- The lines of a text in which `lf` alone ends a line. -/
def split (lf : α) : List α → List (List α)
  | [] => []
  | c :: s =>
    if c = lf then [] :: split lf s
    else match split lf s with
      | [] => [[c]]
      | l :: ls => (c :: l) :: ls

/-- The lines of a text. -/
def lines (cr lf : α) (s : List α) : List (List α) := split lf (s.filter (· ≠ cr))

/-- What stands in a line after its key. -/
def field (key line : List α) : Option (List α) := line.dropPrefix? key

/-- The symbols that end a line are not in it. -/
def Clean (cr lf : α) (l : List α) : Prop := cr ∉ l ∧ lf ∉ l

instance (cr lf : α) (l : List α) : Decidable (Clean cr lf l) := inferInstanceAs (Decidable (_ ∧ _))

omit [DecidableEq α] in
theorem Clean.append {l l' : List α} (h : Clean cr lf l) (h' : Clean cr lf l') : Clean cr lf (l ++ l') :=
  ⟨fun hm => (List.mem_append.mp hm).elim h.1 h'.1, fun hm => (List.mem_append.mp hm).elim h.2 h'.2⟩

theorem split_append : ∀ {l : List α}, lf ∉ l → ∀ s, split lf (l ++ lf :: s) = l :: split lf s := by
  intro l
  induction l with
  | nil => exact fun _ s => if_pos rfl
  | cons c l ih =>
      intro hl s
      have hc : lf ≠ c := List.ne_of_not_mem_cons hl
      rw [List.cons_append, split, if_neg hc.symm, ih (List.not_mem_of_not_mem_cons hl)]

/-- **Lines are read back.** -/
theorem lines_join (hne : cr ≠ lf) : ∀ {ls : List (List α)}, (∀ l ∈ ls, Clean cr lf l) →
    lines cr lf (join cr lf ls) = ls := by
  intro ls
  induction ls with
  | nil => exact fun _ => rfl
  | cons l ls ih =>
      intro hclean
      obtain ⟨⟨hcr, hlf⟩, hrest⟩ := List.forall_mem_cons.mp hclean
      have hkeep : l.filter (· ≠ cr) = l := List.filter_eq_self.mpr fun c hc => by
        exact decide_eq_true fun heq => hcr (heq ▸ hc)
      have hend : [cr, lf].filter (· ≠ cr) = [lf] := by simp [hne.symm]
      have hread : lines cr lf (join cr lf (l :: ls)) = split lf (l ++ lf :: (join cr lf ls).filter (· ≠ cr)) := by
        unfold lines join
        rw [List.flatMap_cons, List.filter_append, List.filter_append, hkeep, hend, List.append_assoc]
        rfl
      rw [hread, split_append hlf]
      exact congrArg (l :: ·) (ih hrest)

theorem field_append (key value : List α) : field key (key ++ value) = some value :=
  List.dropPrefix?_append_of_beq value (beq_self_eq_true key)

end Lines
