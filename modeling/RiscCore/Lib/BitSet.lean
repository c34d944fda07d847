import Mathlib.Data.Finset.Card
import Mathlib.Data.Finset.Max
import Mathlib.Tactic.Common

/-!
# `Lib.BitSet` — a finite set packed into machine words

A vector of `n` words of `w` bits each stores the set of all `i < w * n` whose bit is one: bit `i` lives
in word `i / w` at position `i % w`. The module gives the membership test, the two one-bit updates a
program writes as `word ||| mask` and `word &&& ~~~mask`, and the finite set of *clear* bits that
allocators count.

Nothing here mentions an allocator; the word width and the number of words are parameters.
-/

namespace BitSet

variable {w n : Nat}

/-! ## One word: the single-bit mask -/

/-- The mask with only bit `k` set. -/
def mask (w k : Nat) : BitVec w := 1#w <<< k

theorem mask_getLsbD {k j : Nat} (hj : j < w) : (mask w k).getLsbD j = decide (j = k) := by
  unfold mask
  rw [BitVec.getLsbD_shiftLeft, BitVec.getLsbD_one]
  by_cases h : j = k
  · subst h; simp; omega
  · by_cases hlt : j < k
    · simp [h, hlt]
    · have hne : j - k ≠ 0 := by omega
      simp [h, hlt, hne]

/-- A masked word is zero iff the word is clear wherever the mask is set. -/
theorem and_eq_zero_iff {x m : BitVec w} :
    x &&& m = 0#w ↔ ∀ i, i < w → m.getLsbD i = true → x.getLsbD i = false := by
  constructor
  · intro h i _ hm
    have hb : (x &&& m).getLsbD i = false := by rw [h]; simp
    simpa [hm] using hb
  · intro h
    apply BitVec.eq_of_getLsbD_eq
    intro i hi
    rw [BitVec.getLsbD_and, BitVec.getLsbD_zero]
    cases hm : m.getLsbD i with
    | false => simp
    | true => simp [h i hi hm]

/-- Testing a word against a one-bit mask reads that bit. -/
theorem and_mask_eq_zero {k : Nat} (hk : k < w) (x : BitVec w) :
    x &&& mask w k = 0#w ↔ x.getLsbD k = false := by
  rw [and_eq_zero_iff]
  constructor
  · intro h
    exact h k hk (by simp [mask_getLsbD hk])
  · intro h i hi hm
    rw [mask_getLsbD hi, decide_eq_true_iff] at hm
    exact hm ▸ h

/-! ## Membership and the two one-bit updates -/

/-- Bit `i` of the packed words; positions past the last word read as clear. -/
def mem (v : Vector (BitVec w) n) (i : Nat) : Bool := (v[i / w]?.getD 0#w).getLsbD (i % w)

theorem mem_eq {v : Vector (BitVec w) n} {i : Nat} (h : i / w < n) :
    mem v i = v[i / w].getLsbD (i % w) := by
  simp [mem, Vector.getElem?_eq_getElem h]

/-- The words with bit `i` set, as the program writes it. -/
def insert (v : Vector (BitVec w) n) (i : Nat) : Vector (BitVec w) n :=
  v.setIfInBounds (i / w) (v[i / w]?.getD 0#w ||| mask w (i % w))

/-- The words with bit `i` cleared, as the program writes it. -/
def erase (v : Vector (BitVec w) n) (i : Nat) : Vector (BitVec w) n :=
  v.setIfInBounds (i / w) (v[i / w]?.getD 0#w &&& ~~~(mask w (i % w)))

/-- Two positions are equal iff their word and their offset agree. -/
theorem eq_iff_div_mod {i j : Nat} : i = j ↔ i / w = j / w ∧ i % w = j % w := by
  constructor
  · rintro rfl; exact ⟨rfl, rfl⟩
  · rintro ⟨hd, hm⟩
    rw [← Nat.div_add_mod i w, ← Nat.div_add_mod j w, hd, hm]

theorem getD_setIfInBounds (v : Vector (BitVec w) n) (k k' : Nat) (x : BitVec w) (hk : k < n) :
    (v.setIfInBounds k x)[k']?.getD 0#w = if k = k' then x else v[k']?.getD 0#w := by
  rw [Vector.getElem?_setIfInBounds]
  split <;> simp_all

theorem mem_insert (hw : 0 < w) (v : Vector (BitVec w) n) {i : Nat} (hi : i / w < n) (j : Nat) :
    mem (insert v i) j = (mem v j || decide (i = j)) := by
  have hjw : j % w < w := Nat.mod_lt _ hw
  unfold mem insert
  rw [getD_setIfInBounds _ _ _ _ hi]
  by_cases hd : i / w = j / w
  · -- the word that was written: the mask decides
    rw [if_pos hd, BitVec.getLsbD_or, mask_getLsbD hjw, hd]
    congr 1
    exact decide_eq_decide.mpr ⟨fun h => (eq_iff_div_mod (w := w)).mpr ⟨hd, h.symm⟩, fun h => by rw [h]⟩
  · have hne : i ≠ j := fun h => hd (by rw [h])
    simp [hd, hne]

theorem mem_erase (hw : 0 < w) (v : Vector (BitVec w) n) {i : Nat} (hi : i / w < n) (j : Nat) :
    mem (erase v i) j = (mem v j && decide (i ≠ j)) := by
  have hjw : j % w < w := Nat.mod_lt _ hw
  unfold mem erase
  rw [getD_setIfInBounds _ _ _ _ hi]
  by_cases hd : i / w = j / w
  · rw [if_pos hd, BitVec.getLsbD_and, BitVec.getLsbD_not, mask_getLsbD hjw, hd]
    simp only [hjw, decide_true, Bool.true_and]
    congr 1
    rw [← decide_not]
    exact decide_eq_decide.mpr (not_congr
      ⟨fun h => (eq_iff_div_mod (w := w)).mpr ⟨hd, h.symm⟩, fun h => by rw [h]⟩)
  · have hne : i ≠ j := fun h => hd (by rw [h])
    simp [hd, hne]

/-- Packed words are determined by their bits. -/
theorem ext_mem (hw : 0 < w) {v v' : Vector (BitVec w) n}
    (h : ∀ i, i < w * n → mem v i = mem v' i) : v = v' := by
  apply Vector.ext
  intro k hk
  apply BitVec.eq_of_getLsbD_eq
  intro b hb
  have hdiv : (w * k + b) / w = k := by
    rw [Nat.mul_add_div hw, Nat.div_eq_of_lt hb, Nat.add_zero]
  have hmod : (w * k + b) % w = b := by
    rw [Nat.mul_add_mod, Nat.mod_eq_of_lt hb]
  -- bit `b` of word `k` is position `w * k + b`
  have hlt : w * k + b < w * n := by
    calc w * k + b < w * k + w := by omega
      _ = w * (k + 1) := by rw [Nat.mul_succ]
      _ ≤ w * n := Nat.mul_le_mul_left _ hk
  have hi := h (w * k + b) hlt
  simp only [mem, hdiv, hmod, Vector.getElem?_eq_getElem hk, Option.getD_some] at hi
  exact hi

theorem word_lt_of_lt {i : Nat} (h : i < w * n) : i / w < n :=
  Nat.div_lt_of_lt_mul h

theorem insert_of_mem (hw : 0 < w) {v : Vector (BitVec w) n} {i : Nat} (hi : i < w * n) (hm : mem v i = true) :
    insert v i = v := by
  apply ext_mem hw
  intro j _
  rw [mem_insert hw v (word_lt_of_lt hi)]
  by_cases h : i = j
  · rw [← h, hm, Bool.true_or]
  · rw [decide_eq_false h, Bool.or_false]

theorem erase_of_not_mem (hw : 0 < w) {v : Vector (BitVec w) n} {i : Nat} (hi : i < w * n) (hm : mem v i = false) :
    erase v i = v := by
  apply ext_mem hw
  intro j _
  rw [mem_erase hw v (word_lt_of_lt hi)]
  by_cases h : i = j
  · rw [← h, hm, Bool.false_and]
  · rw [decide_eq_true h, Bool.and_true]

/-- Clearing the wrong bit shows, unless both were clear. -/
theorem erase_eq_erase_iff (hw : 0 < w) {v : Vector (BitVec w) n} {i j : Nat} (hi : i < w * n) (hj : j < w * n) :
    erase v i = erase v j ↔ i = j ∨ (mem v i = false ∧ mem v j = false) := by
  constructor
  · intro h
    by_cases hij : i = j
    · exact Or.inl hij
    · have hi' : mem (erase v i) i = mem (erase v j) i := by rw [h]
      have hj' : mem (erase v i) j = mem (erase v j) j := by rw [h]
      rw [mem_erase hw v (word_lt_of_lt hi), mem_erase hw v (word_lt_of_lt hj)] at hi' hj'
      exact Or.inr ⟨by simpa [Ne.symm hij] using hi'.symm, by simpa [hij] using hj'⟩
  · rintro (rfl | ⟨hm, hm'⟩)
    · rfl
    · rw [erase_of_not_mem hw hi hm, erase_of_not_mem hw hj hm']

/-! ## The set of clear bits -/

/-- All positions whose bit is clear. -/
def clear (v : Vector (BitVec w) n) : Finset Nat :=
  (Finset.range (w * n)).filter (fun i => mem v i = false)

theorem mem_clear {v : Vector (BitVec w) n} {i : Nat} :
    i ∈ clear v ↔ i < w * n ∧ mem v i = false := by
  simp [clear]

theorem clear_insert (hw : 0 < w) (v : Vector (BitVec w) n) {i : Nat} (hi : i < w * n) :
    clear (insert v i) = (clear v).erase i := by
  ext j
  rw [mem_clear, mem_insert hw v (word_lt_of_lt hi), Finset.mem_erase, mem_clear, Bool.or_eq_false_iff,
    decide_eq_false_iff_not]
  constructor
  · rintro ⟨hj, hm, hne⟩; exact ⟨Ne.symm hne, hj, hm⟩
  · rintro ⟨hne, hj, hm⟩; exact ⟨hj, hm, Ne.symm hne⟩

theorem clear_erase (hw : 0 < w) (v : Vector (BitVec w) n) {i : Nat} (hi : i < w * n) :
    clear (erase v i) = Insert.insert i (clear v) := by
  ext j
  rw [mem_clear, mem_erase hw v (word_lt_of_lt hi), Finset.mem_insert, mem_clear, Bool.and_eq_false_iff,
    decide_eq_false_iff_not, not_not]
  constructor
  · rintro ⟨hj, hm | he⟩
    · exact Or.inr ⟨hj, hm⟩
    · exact Or.inl he.symm
  · rintro (he | ⟨hj, hm⟩)
    · subst he; exact ⟨hi, Or.inr rfl⟩
    · exact ⟨hj, Or.inl hm⟩

/-- All-ones words have no clear bit. -/
theorem clear_replicate_allOnes (hw : 0 < w) :
    clear (Vector.replicate n (BitVec.allOnes w)) = ∅ := by
  apply Finset.eq_empty_of_forall_notMem
  intro i hi
  obtain ⟨hlt, hm⟩ := mem_clear.mp hi
  rw [mem_eq (word_lt_of_lt hlt)] at hm
  simp [Nat.mod_lt _ hw] at hm

end BitSet
