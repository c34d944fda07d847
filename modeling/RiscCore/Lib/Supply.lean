import Mathlib.Data.Set.Insert

/-!
# `Lib.Supply` — what a source hands out

A source is a function of its own state: a call returns a value, or `null` when there is none to give.
`Grants` says which values a number of consecutive calls returned, none of them null, and `Fresh` that such
values are new: good in themselves, different from each other and from those in use already. The dichotomy
`grants_or_null` is how a client uses a contract for single calls: its next `n` calls are all granted, or
some earlier one is the first to be refused.
-/

namespace Supply

variable {σ β : Type} {next : σ → Option (β × σ)} {null : β}

/-- Consecutive calls from `a` return the values `bs`, none of them null, and leave `a'`. -/
inductive Grants (next : σ → Option (β × σ)) (null : β) : σ → List β → σ → Prop where
  | nil (a : σ) : Grants next null a [] a
  | cons {a a' a'' : σ} {b : β} {bs : List β} : next a = some (b, a') → b ≠ null → Grants next null a' bs a'' →
      Grants next null a (b :: bs) a''

variable {a a' a'' : σ} {b : β} {bs cs : List β}

theorem Grants.single (h : next a = some (b, a')) (hb : b ≠ null) : Grants next null a [b] a' :=
  Grants.cons h hb (Grants.nil a')

theorem Grants.append (h : Grants next null a bs a') (h' : Grants next null a' cs a'') :
    Grants next null a (bs ++ cs) a'' := by
  induction h with
  | nil => exact h'
  | cons hcall hb _ ih => exact Grants.cons hcall hb (ih h')

theorem Grants.split : ∀ (bs : List β) {cs : List β} {a : σ}, Grants next null a (bs ++ cs) a'' →
    ∃ a', Grants next null a bs a' ∧ Grants next null a' cs a'' := by
  intro bs
  induction bs with
  | nil =>
      intro cs a h
      exact ⟨a, Grants.nil a, h⟩
  | cons b bs ih =>
      intro cs a h
      cases h with
      | cons hcall hb hrest =>
          obtain ⟨a', hbs, hcs⟩ := ih hrest
          exact ⟨a', Grants.cons hcall hb hbs, hcs⟩

/-- The first `n` of a row of granted calls. -/
theorem Grants.take {n : Nat} (h : Grants next null a bs a'') (hn : n ≤ bs.length) :
    ∃ cs ds a', bs = cs ++ ds ∧ cs.length = n ∧ Grants next null a cs a' ∧ Grants next null a' ds a'' := by
  have hsplit : bs = bs.take n ++ bs.drop n := (List.take_append_drop n bs).symm
  rw [hsplit] at h
  obtain ⟨a', hcs, hds⟩ := Grants.split _ h
  exact ⟨bs.take n, bs.drop n, a', hsplit, List.length_take_of_le hn, hcs, hds⟩

/-- A source is a function: as many calls from one state have one outcome. -/
theorem Grants.unique (h : Grants next null a bs a') (h' : Grants next null a cs a'')
    (hlen : bs.length = cs.length) : bs = cs ∧ a' = a'' := by
  induction h generalizing cs with
  | nil a =>
      obtain rfl : cs = [] := List.length_eq_zero_iff.mp hlen.symm
      cases h' with
      | nil => exact ⟨rfl, rfl⟩
  | cons hcall _ _ ih =>
      cases h' with
      | nil => exact absurd hlen (Nat.succ_ne_zero _)
      | cons hcall' _ hrest' =>
          obtain ⟨rfl, rfl⟩ := Prod.mk.inj (Option.some.inj (hcall.symm.trans hcall'))
          obtain ⟨rfl, rfl⟩ := ih hrest' (Nat.succ.inj hlen)
          exact ⟨rfl, rfl⟩

/-- After a refusal there is no longer row of granted calls. -/
theorem Grants.le_of_null (h : Grants next null a bs a') (hnull : next a' = some (null, a'')) {c : σ}
    (h' : Grants next null a cs c) : cs.length ≤ bs.length := by
  induction h generalizing cs with
  | nil a =>
      cases h' with
      | nil => exact Nat.le_refl _
      | cons hcall hb _ =>
          obtain ⟨rfl, _⟩ := Prod.mk.inj (Option.some.inj (hnull.symm.trans hcall))
          exact absurd rfl hb
  | cons hcall _ _ ih =>
      cases h' with
      | nil => exact Nat.zero_le _
      | cons hcall' _ hrest' =>
          obtain ⟨rfl, rfl⟩ := Prod.mk.inj (Option.some.inj (hcall.symm.trans hcall'))
          exact Nat.succ_le_succ (ih hnull hrest')

/-- The next `n` calls return values. -/
def Supplies (next : σ → Option (β × σ)) (null : β) (n : Nat) (a : σ) : Prop :=
  ∃ bs a', bs.length = n ∧ Grants next null a bs a'

theorem Grants.not_supplies {n : Nat} (h : Grants next null a bs a') (hnull : next a' = some (null, a''))
    (hlt : bs.length < n) : ¬ Supplies next null n a := by
  rintro ⟨cs, c, rfl, hcs⟩
  exact Nat.not_lt_of_le (h.le_of_null hnull hcs) hlt

/-- What is left of a supply after some calls. -/
theorem Supplies.after {m n : Nat} (h : Supplies next null n a) (hg : Grants next null a bs a')
    (hle : m + bs.length ≤ n) : Supplies next null m a' := by
  obtain ⟨cs, c, rfl, hcs⟩ := h
  obtain ⟨ds, es, d, rfl, hlen, hds, hes⟩ := hcs.take (Nat.le_trans (Nat.le_add_left _ m) hle)
  obtain ⟨_, rfl⟩ := hds.unique hg hlen
  rw [List.length_append] at hle
  obtain ⟨fs, _, e, rfl, hm, hfs, _⟩ := hes.take (n := m) (by omega)
  exact ⟨fs, e, hm, hfs⟩

/-! ## New values -/

/-- The values are good, pairwise different, and none is in use. -/
def Fresh (good : β → Prop) (U : Set β) (bs : List β) : Prop :=
  bs.Nodup ∧ ∀ b ∈ bs, good b ∧ b ∉ U

variable {good : β → Prop} {U : Set β}

theorem fresh_nil : Fresh good U [] := ⟨List.nodup_nil, fun _ hb => absurd hb List.not_mem_nil⟩

/-- One value at a time: the first is new, and the others are new when it is in use. -/
theorem fresh_cons : Fresh good U (b :: bs) ↔ (good b ∧ b ∉ U) ∧ Fresh good (insert b U) bs := by
  constructor
  · rintro ⟨hnodup, hall⟩
    obtain ⟨hnotin, hrest⟩ := List.nodup_cons.mp hnodup
    refine ⟨hall b List.mem_cons_self, hrest, fun c hc => ?_⟩
    obtain ⟨hgood, hnew⟩ := hall c (List.mem_cons_of_mem b hc)
    refine ⟨hgood, fun hmem => ?_⟩
    rcases Set.mem_insert_iff.mp hmem with rfl | hU
    · exact hnotin hc
    · exact hnew hU
  · rintro ⟨hb, hnodup, hall⟩
    have hnotin : b ∉ bs := fun hc => (hall b hc).2 (Set.mem_insert b U)
    refine ⟨List.nodup_cons.mpr ⟨hnotin, hnodup⟩, fun c hc => ?_⟩
    rcases List.mem_cons.mp hc with rfl | hc
    · exact hb
    · obtain ⟨hgood, hnew⟩ := hall c hc
      exact ⟨hgood, fun hU => hnew (Set.mem_insert_of_mem b hU)⟩

/-- What is in use once the values are handed out. -/
theorem union_cons (U : Set β) (b : β) (bs : List β) :
    insert b U ∪ {c | c ∈ bs} = U ∪ {c | c ∈ b :: bs} := by
  ext c
  simp only [Set.mem_union, Set.mem_insert_iff, Set.mem_ofPred_eq, List.mem_cons]
  rw [or_assoc, or_left_comm]

theorem union_nil (U : Set β) : U ∪ {c | c ∈ ([] : List β)} = U := by simp

theorem union_append (U : Set β) (bs cs : List β) :
    U ∪ {c | c ∈ bs} ∪ {c | c ∈ cs} = U ∪ {c | c ∈ bs ++ cs} := by
  ext c
  simp only [Set.mem_union, Set.mem_ofPred_eq, List.mem_append, or_assoc]

/-- Values that are new together are new one part after the other. -/
theorem fresh_append : ∀ (bs : List β) {cs : List β} {U : Set β}, Fresh good U (bs ++ cs) →
    Fresh good U bs ∧ Fresh good (U ∪ {c | c ∈ bs}) cs := by
  intro bs
  induction bs with
  | nil =>
      intro cs U h
      rw [union_nil]
      exact ⟨fresh_nil, h⟩
  | cons b bs ih =>
      intro cs U h
      obtain ⟨hb, hrest⟩ := fresh_cons.mp h
      obtain ⟨hbs, hcs⟩ := ih hrest
      rw [union_cons] at hcs
      exact ⟨fresh_cons.mpr ⟨hb, hbs⟩, hcs⟩

/-- **Granted, or refused at some point.** From a contract for one call — null, or a new value that is in use
from then on — to any number of calls. -/
theorem grants_or_null (good : β → Prop) {I : Set β → σ → Prop}
    (hcall : ∀ {U : Set β} {a : σ}, I U a → ∃ b a', next a = some (b, a') ∧
      ((b = null ∧ I U a') ∨ (b ≠ null ∧ good b ∧ b ∉ U ∧ I (insert b U) a'))) :
    ∀ (n : Nat) {U : Set β} {a : σ}, I U a → ∃ bs a', Grants next null a bs a' ∧ Fresh good U bs ∧
      ((bs.length = n ∧ I (U ∪ {c | c ∈ bs}) a') ∨
        (bs.length < n ∧ ∃ a'', next a' = some (null, a'') ∧ I (U ∪ {c | c ∈ bs}) a'')) := by
  intro n
  induction n with
  | zero =>
      intro U a hI
      refine ⟨[], a, Grants.nil a, fresh_nil, Or.inl ⟨rfl, ?_⟩⟩
      rw [union_nil]; exact hI
  | succ n ih =>
      intro U a hI
      obtain ⟨b, a', hnext, hcase⟩ := hcall hI
      rcases hcase with ⟨rfl, hI'⟩ | ⟨hb, hgood, hnew, hI'⟩
      · refine ⟨[], a, Grants.nil a, fresh_nil, Or.inr ⟨Nat.succ_pos n, a', hnext, ?_⟩⟩
        rw [union_nil]; exact hI'
      · obtain ⟨bs, c, hgrants, hfresh, hend⟩ := ih hI'
        rw [union_cons] at hend
        refine ⟨b :: bs, c, Grants.cons hnext hb hgrants, fresh_cons.mpr ⟨⟨hgood, hnew⟩, hfresh⟩, ?_⟩
        exact hend.imp (fun h => ⟨congrArg Nat.succ h.1, h.2⟩) (fun h => ⟨Nat.succ_lt_succ h.1, h.2⟩)

end Supply
