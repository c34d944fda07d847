import Mathlib.Algebra.Group.Nat.Defs
import Mathlib.Tactic.Common

/-!
# `Lib.ByteMem` — words in a memory of bytes

A memory maps `w`-bit addresses to bytes. `load mem a n` is the little-endian word of the `n` bytes from `a`
on, `store` writes one; addresses wrap. Two accesses that do not overlap do not see each other, and for
accesses at offsets from one base that is a comparison of the offsets (`slots_apart`).

`storeAll` is a record being written field by field: every field then holds its value.
-/

namespace ByteMem

variable {w n : Nat}

abbrev Bytes (w : Nat) := BitVec w → BitVec 8

/-- The `n` bytes from `a` on, the first one least significant. -/
def load (mem : Bytes w) (a : BitVec w) : (n : Nat) → BitVec (8 * n)
  | 0 => 0#0
  | n + 1 => (mem (a + BitVec.ofNat w n) ++ load mem a n).cast (Nat.add_comm 8 (8 * n))

def store (mem : Bytes w) (a : BitVec w) (v : BitVec (8 * n)) : Bytes w := fun x =>
  if (x - a).toNat < n then v.extractLsb' (8 * (x - a).toNat) 8 else mem x

/-- Two accesses of `n` bytes that do not overlap. -/
def Apart (n : Nat) (a b : BitVec w) : Prop := n ≤ (b - a).toNat ∧ n ≤ (a - b).toNat

variable {mem mem' : Bytes w} {a b base : BitVec w}

/-! ## Addresses that wrap -/

theorem toNat_sub_cases (a b : BitVec w) : (a.toNat ≤ b.toNat ∧ (b - a).toNat = b.toNat - a.toNat) ∨
    (b.toNat < a.toNat ∧ (b - a).toNat = 2 ^ w + b.toNat - a.toNat) := by
  have ha := a.isLt
  have hb := b.isLt
  rw [BitVec.toNat_sub]
  by_cases h : a.toNat ≤ b.toNat
  · refine Or.inl ⟨h, ?_⟩
    rw [show 2 ^ w - a.toNat + b.toNat = 2 ^ w + (b.toNat - a.toNat) by omega, Nat.add_mod_left,
      Nat.mod_eq_of_lt (by omega)]
  · refine Or.inr ⟨Nat.lt_of_not_le h, ?_⟩
    rw [Nat.mod_eq_of_lt (by omega)]
    omega

theorem toNat_add_cases (a : BitVec w) {i : Nat} (hi : i < 2 ^ w) :
    (a.toNat + i < 2 ^ w ∧ (a + BitVec.ofNat w i).toNat = a.toNat + i) ∨
    (2 ^ w ≤ a.toNat + i ∧ (a + BitVec.ofNat w i).toNat = a.toNat + i - 2 ^ w) := by
  have ha := a.isLt
  rw [BitVec.toNat_add, BitVec.toNat_ofNat, Nat.mod_eq_of_lt hi]
  by_cases h : a.toNat + i < 2 ^ w
  · exact Or.inl ⟨h, Nat.mod_eq_of_lt h⟩
  · refine Or.inr ⟨Nat.le_of_not_lt h, ?_⟩
    rw [Nat.mod_eq_sub_mod (Nat.le_of_not_lt h), Nat.mod_eq_of_lt (by omega)]

/-! ## One access -/

theorem load_getLsbD (mem : Bytes w) (a : BitVec w) : ∀ (n : Nat) {i : Nat}, i < 8 * n →
    (load mem a n).getLsbD i = (mem (a + BitVec.ofNat w (i / 8))).getLsbD (i % 8) := by
  intro n
  induction n with
  | zero => exact fun hi => absurd hi (Nat.not_lt_zero _)
  | succ n ih =>
      intro i hi
      unfold load
      rw [BitVec.getLsbD_cast, BitVec.getLsbD_append]
      by_cases hlow : i < 8 * n
      · rw [if_pos hlow, ih hlow]
      · -- the last byte, on top of the others
        have hdiv : i / 8 = n := by omega
        have hmod : i % 8 = i - 8 * n := by omega
        rw [if_neg hlow, hdiv, hmod]

theorem load_congr (h : ∀ i, i < n → mem' (a + BitVec.ofNat w i) = mem (a + BitVec.ofNat w i)) :
    load mem' a n = load mem a n := by
  apply BitVec.eq_of_getLsbD_eq
  intro i hi
  rw [load_getLsbD mem' a n hi, load_getLsbD mem a n hi, h (i / 8) (by omega)]

theorem load_store_self (hn : n ≤ 2 ^ w) (mem : Bytes w) (a : BitVec w) (v : BitVec (8 * n)) :
    load (store mem a v) a n = v := by
  apply BitVec.eq_of_getLsbD_eq
  intro i hi
  have hbyte : (a + BitVec.ofNat w (i / 8) - a).toNat = i / 8 := by
    have ha := a.isLt
    have hadd := toNat_add_cases a (i := i / 8) (by omega)
    have hsub := toNat_sub_cases a (a + BitVec.ofNat w (i / 8))
    omega
  rw [load_getLsbD _ a n hi]
  unfold store
  rw [hbyte, if_pos (by omega), BitVec.getLsbD_extractLsb', decide_eq_true (Nat.mod_lt i (by decide)), Bool.true_and]
  congr 1
  omega

theorem load_store_of_apart (h : Apart n a b) (mem : Bytes w) (v : BitVec (8 * n)) :
    load (store mem a v) b n = load mem b n := by
  apply load_congr
  intro i hi
  obtain ⟨hab, hba⟩ := h
  -- going on from `b` for less than `n` bytes does not come round to `a`
  have hout : ¬ (b + BitVec.ofNat w i - a).toNat < n := by
    have ha := a.isLt
    have hb := b.isLt
    have hcases := toNat_sub_cases a b
    have hcases' := toNat_sub_cases b a
    have hadd := toNat_add_cases b (i := i) (by omega)
    have hsub := toNat_sub_cases a (b + BitVec.ofNat w i)
    omega
  unfold store
  rw [if_neg hout]

/-! ## Records -/

/-- Offsets from one base, far enough from each other. -/
def Clear (w n o o' : Nat) : Prop := o + n ≤ 2 ^ w ∧ o' + n ≤ 2 ^ w ∧ (o + n ≤ o' ∨ o' + n ≤ o)

theorem slots_apart (hn : 0 < n) {o o' : Nat} (h : Clear w n o o') (base : BitVec w) :
    Apart n (base + BitVec.ofNat w o) (base + BitVec.ofNat w o') := by
  obtain ⟨ho, ho', hclear⟩ := h
  have hbase := base.isLt
  have hadd := toNat_add_cases base (i := o) (by omega)
  have hadd' := toNat_add_cases base (i := o') (by omega)
  have hsub := toNat_sub_cases (base + BitVec.ofNat w o) (base + BitVec.ofNat w o')
  have hsub' := toNat_sub_cases (base + BitVec.ofNat w o') (base + BitVec.ofNat w o)
  unfold Apart
  omega

/-- Every value at its offset from `base`, in order. -/
def storeAll (base : BitVec w) : List (Nat × BitVec (8 * n)) → Bytes w → Bytes w
  | [], mem => mem
  | s :: slots, mem => storeAll base slots (store mem (base + BitVec.ofNat w s.1) s.2)

/-- A record of `m` bytes leaves all other bytes alone. -/
theorem storeAll_outside {m : Nat} {x : BitVec w} (hx : ∀ i, i < m → x ≠ base + BitVec.ofNat w i) :
    ∀ (slots : List (Nat × BitVec (8 * n))) (mem : Bytes w), (∀ s ∈ slots, s.1 + n ≤ m) →
      storeAll base slots mem x = mem x := by
  intro slots
  induction slots with
  | nil => exact fun _ _ => rfl
  | cons s slots ih =>
      intro mem hin
      have hs := hin s List.mem_cons_self
      have hout : ¬ (x - (base + BitVec.ofNat w s.1)).toNat < n := by
        intro hlt
        refine hx (s.1 + (x - (base + BitVec.ofNat w s.1)).toNat) (by omega) ?_
        rw [BitVec.ofNat_add, BitVec.ofNat_toNat, BitVec.setWidth_eq, ← BitVec.add_assoc, BitVec.add_comm _ (x - _),
          BitVec.sub_add_cancel]
      unfold storeAll
      rw [ih _ (fun t ht => hin t (List.mem_cons_of_mem s ht)), store, if_neg hout]

theorem load_storeAll_of_clear (hn : 0 < n) {o : Nat} : ∀ (slots : List (Nat × BitVec (8 * n))) (mem : Bytes w),
    (∀ s ∈ slots, Clear w n s.1 o) → load (storeAll base slots mem) (base + BitVec.ofNat w o) n =
      load mem (base + BitVec.ofNat w o) n := by
  intro slots
  induction slots with
  | nil => exact fun _ _ => rfl
  | cons s slots ih =>
      intro mem hclear
      unfold storeAll
      rw [ih _ (fun t ht => hclear t (List.mem_cons_of_mem s ht))]
      exact load_store_of_apart (slots_apart hn (hclear s List.mem_cons_self) base) mem s.2

/-- **A record whose fields do not overlap holds what was stored in it.** -/
theorem load_storeAll (hn : 0 < n) (hfit : n ≤ 2 ^ w) : ∀ (slots : List (Nat × BitVec (8 * n))) (mem : Bytes w),
    slots.Pairwise (fun s t => Clear w n s.1 t.1) → ∀ s ∈ slots,
      load (storeAll base slots mem) (base + BitVec.ofNat w s.1) n = s.2 := by
  intro slots
  induction slots with
  | nil => exact fun _ _ s hs => absurd hs List.not_mem_nil
  | cons t slots ih =>
      intro mem hpair s hs
      obtain ⟨ht, hpair⟩ := List.pairwise_cons.mp hpair
      unfold storeAll
      rcases List.mem_cons.mp hs with rfl | hs
      · -- no later store touches it
        have hlater : ∀ u ∈ slots, Clear w n u.1 s.1 := fun u hu => by
          obtain ⟨h1, h2, h3⟩ := ht u hu
          exact ⟨h2, h1, h3.symm⟩
        rw [load_storeAll_of_clear hn slots _ hlater]
        exact load_store_self hfit mem _ s.2
      · exact ih _ hpair s hs

end ByteMem
