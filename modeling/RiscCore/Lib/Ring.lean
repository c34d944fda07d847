import Mathlib.Data.List.Chain
import Mathlib.Data.List.Nodup

/-!
# `Lib.Ring` — circular doubly linked lists

`σ` gives every node its two pointers. `Ring σ h l` says that following `next` from the sentinel `h` visits
exactly the nodes of `l` and comes back to `h`, that `prev` retraces the way, and that no node occurs twice.

A list operation is pointer surgery at one place of the circle. `insert_between` and `remove_between` do it
there, between the node `p` before the place and the node `q` after it; either may be the sentinel, and for
the empty list both are. Every list operation is an instance.
-/

namespace Circular

variable {N : Type}

/-- The two pointers of a node. -/
structure Links (N : Type) where
  prev : Option N
  next : Option N
deriving DecidableEq

/-- `a` and `b` are neighbours. -/
def Adj (σ : N → Links N) (a b : N) : Prop := (σ a).next = some b ∧ (σ b).prev = some a

/-- **The ring.** -/
structure Ring (σ : N → Links N) (h : N) (l : List N) : Prop where
  chain : List.IsChain (Adj σ) (h :: (l ++ [h]))
  nodup : (h :: l).Nodup

variable {σ σ' : N → Links N} {h n p q x : N} {l l₁ l₂ : List N}

/-- A chain reads the `next` of all nodes but the last and the `prev` of all but the first. -/
theorem isChain_frame {L : List N} (hL : List.IsChain (Adj σ) L)
    (hnext : ∀ a ∈ L.dropLast, (σ' a).next = (σ a).next) (hprev : ∀ b ∈ L.tail, (σ' b).prev = (σ b).prev) :
    List.IsChain (Adj σ') L := by
  rw [List.isChain_iff_forall_rel_of_append_cons_cons] at hL ⊢
  intro a b l₁ l₂ he
  obtain ⟨h1, h2⟩ := hL he
  have ha : a ∈ L.dropLast := by
    rw [he, List.dropLast_append_cons, List.dropLast_cons_cons]; simp
  have hb : b ∈ L.tail := by
    rw [he]
    cases l₁ with
    | nil => simp
    | cons y l₁ => simp
  exact ⟨(hnext a ha).trans h1, (hprev b hb).trans h2⟩

/-- The node before a place: the last one on the way from the sentinel. -/
def IsPred (h : N) (l₁ : List N) (p : N) : Prop := ∃ D, h :: l₁ = D ++ [p]

/-- The node after a place: the first one on the way back to the sentinel. -/
def IsSucc (h : N) (l₂ : List N) (q : N) : Prop := ∃ T, l₂ ++ [h] = q :: T

theorem exists_isPred (h : N) (l₁ : List N) : ∃ p, IsPred h l₁ p := by
  rcases List.eq_nil_or_concat' l₁ with rfl | ⟨D, p, rfl⟩
  · exact ⟨h, [], rfl⟩
  · exact ⟨p, h :: D, rfl⟩

theorem exists_isSucc (h : N) (l₂ : List N) : ∃ q, IsSucc h l₂ q := by
  cases l₂ with
  | nil => exact ⟨h, [], rfl⟩
  | cons q T => exact ⟨q, T ++ [h], rfl⟩

theorem IsPred.mem (hp : IsPred h l₁ p) : p ∈ h :: l₁ := by
  obtain ⟨D, hD⟩ := hp
  rw [hD]; simp

theorem IsPred.mem_of_ne (hp : IsPred h (l₁ ++ n :: l₂) p) (hne : p ≠ n) : p ∈ l₂ := by
  obtain ⟨D, hD⟩ := hp
  have hlast := congrArg List.getLast? hD
  rcases List.eq_nil_or_concat' l₂ with rfl | ⟨E, x, rfl⟩
  · rw [List.getLast?_concat, ← List.cons_append, List.getLast?_concat] at hlast
    exact absurd (Option.some.inj hlast).symm hne
  · rw [List.getLast?_concat, ← List.cons_append, ← List.cons_append, ← List.append_assoc,
      List.getLast?_concat] at hlast
    rw [Option.some.inj hlast]
    exact List.mem_append_right E List.mem_cons_self

theorem IsSucc.mem (hq : IsSucc h l₂ q) : q ∈ h :: l₂ := by
  obtain ⟨T, hT⟩ := hq
  have hmem : q ∈ l₂ ++ [h] := by rw [hT]; exact List.mem_cons_self
  rcases List.mem_append.mp hmem with hm | hm
  · exact List.mem_cons_of_mem h hm
  · exact List.mem_singleton.mp hm ▸ List.mem_cons_self

/-- The two halves of a ring at a place, and the pair of pointers across it. -/
theorem Ring.split (hr : Ring σ h (l₁ ++ l₂)) (hp : IsPred h l₁ p) (hq : IsSucc h l₂ q) :
    List.IsChain (Adj σ) (h :: l₁) ∧ Adj σ p q ∧ List.IsChain (Adj σ) (l₂ ++ [h]) := by
  obtain ⟨D, hD⟩ := hp
  obtain ⟨T, hT⟩ := hq
  have hc := hr.chain
  have he : h :: (l₁ ++ l₂ ++ [h]) = D ++ p :: q :: T := by
    rw [List.append_assoc, hT, ← List.cons_append, hD, List.append_assoc]; rfl
  rw [he, List.isChain_append_cons_cons] at hc
  rw [hD, hT]
  exact hc

/-- The same around a node. -/
theorem Ring.split_at (hr : Ring σ h (l₁ ++ x :: l₂)) (hp : IsPred h l₁ p) (hq : IsSucc h l₂ q) :
    List.IsChain (Adj σ) (h :: l₁) ∧ Adj σ p x ∧ Adj σ x q ∧ List.IsChain (Adj σ) (l₂ ++ [h]) := by
  obtain ⟨hc₁, hpx, hc⟩ := hr.split hp (q := x) ⟨l₂ ++ [h], rfl⟩
  obtain ⟨T, hT⟩ := hq
  rw [List.cons_append, hT, List.isChain_cons_cons] at hc
  rw [hT]
  exact ⟨hc₁, hpx, hc.1, hc.2⟩

/-- What `σ'` may change around a place: the `next` of `p`, the `prev` of `q`, and the node `n`. -/
structure Surgery (σ σ' : N → Links N) (p q n : N) : Prop where
  next : ∀ a, a ≠ p → a ≠ n → (σ' a).next = (σ a).next
  prev : ∀ b, b ≠ q → b ≠ n → (σ' b).prev = (σ b).prev

/-- The halves survive the surgery. -/
theorem Surgery.halves (hs : Surgery σ σ' p q n) (hc₁ : List.IsChain (Adj σ) (h :: l₁))
    (hc₂ : List.IsChain (Adj σ) (l₂ ++ [h])) (hnd : (h :: (l₁ ++ l₂)).Nodup) (hp : IsPred h l₁ p)
    (hq : IsSucc h l₂ q) (hn : n ∉ h :: (l₁ ++ l₂)) :
    List.IsChain (Adj σ') (h :: l₁) ∧ List.IsChain (Adj σ') (l₂ ++ [h]) := by
  rw [List.nodup_cons, List.nodup_append'] at hnd
  obtain ⟨hh, hnd₁, hnd₂, hdis⟩ := hnd
  have hpm := hp.mem
  have hqm := hq.mem
  have hh₁ : h ∉ l₁ := fun hc => hh (List.mem_append_left l₂ hc)
  have hh₂ : h ∉ l₂ := fun hc => hh (List.mem_append_right l₁ hc)
  have hne : ∀ a ∈ h :: (l₁ ++ l₂), a ≠ n := fun a ha he => hn (he ▸ ha)
  constructor
  · refine isChain_frame hc₁ (fun a ha => ?_) (fun b hb => ?_)
    · -- `p` is the last node of this half, so `a` is not `p`
      have hmem : a ∈ h :: l₁ := List.dropLast_subset _ ha
      refine hs.next a (fun he => ?_) (hne a (by rw [← List.cons_append]; exact List.mem_append_left l₂ hmem))
      obtain ⟨D, hD⟩ := hp
      have hnd' : (h :: l₁).Nodup := List.nodup_cons.mpr ⟨hh₁, hnd₁⟩
      rw [hD, List.dropLast_concat] at ha
      rw [hD] at hnd'
      exact (List.nodup_append'.mp hnd').2.2 (he ▸ ha) List.mem_cons_self
    · have hb : b ∈ l₁ := hb
      refine hs.prev b (fun he => ?_) (hne b (List.mem_cons_of_mem h (List.mem_append_left l₂ hb)))
      rcases List.mem_cons.mp hqm with hqh | hq₂
      · exact hh₁ (hqh ▸ he ▸ hb)
      · exact hdis hb (he ▸ hq₂)
  · refine isChain_frame hc₂ (fun a ha => ?_) (fun b hb => ?_)
    · rw [List.dropLast_concat] at ha
      refine hs.next a (fun he => ?_) (hne a (List.mem_cons_of_mem h (List.mem_append_right l₁ ha)))
      rcases List.mem_cons.mp hpm with hph | hp₁
      · exact hh₂ (hph ▸ he ▸ ha)
      · exact hdis (he ▸ hp₁) ha
    · -- `q` is the first node of this half, so `b` is not `q`
      have hmem : b ∈ h :: l₂ := by
        rcases List.mem_append.mp (List.mem_of_mem_tail hb) with hm | hm
        · exact List.mem_cons_of_mem h hm
        · exact List.mem_singleton.mp hm ▸ List.mem_cons_self
      have hall : b ∈ h :: (l₁ ++ l₂) := by
        rcases List.mem_cons.mp hmem with rfl | hm
        · exact List.mem_cons_self
        · exact List.mem_cons_of_mem h (List.mem_append_right l₁ hm)
      refine hs.prev b (fun he => ?_) (hne b hall)
      obtain ⟨T, hT⟩ := hq
      have hnd' : (l₂ ++ [h]).Nodup := by
        rw [← List.concat_eq_append]
        exact List.Nodup.concat hh₂ hnd₂
      rw [hT] at hb hnd'
      exact (List.nodup_cons.mp hnd').1 (he ▸ hb)

/-- A node in the middle can be moved to the front of the list. -/
theorem middle_perm (h n : N) (l₁ l₂ : List N) : (h :: (l₁ ++ n :: l₂)).Perm (n :: h :: (l₁ ++ l₂)) :=
  (List.perm_middle.cons h).trans (List.Perm.swap n h (l₁ ++ l₂))

/-- **Insertion** of a new node between `p` and `q`. -/
theorem Ring.insert_between (hr : Ring σ h (l₁ ++ l₂)) (hp : IsPred h l₁ p) (hq : IsSucc h l₂ q)
    (hn : n ∉ h :: (l₁ ++ l₂)) (hs : Surgery σ σ' p q n) (hpn : Adj σ' p n) (hnq : Adj σ' n q) :
    Ring σ' h (l₁ ++ n :: l₂) := by
  obtain ⟨hc₁, _, hc₂⟩ := hr.split hp hq
  obtain ⟨hc₁', hc₂'⟩ := hs.halves hc₁ hc₂ hr.nodup hp hq hn
  refine ⟨?_, (middle_perm h n l₁ l₂).nodup_iff.mpr (List.nodup_cons.mpr ⟨hn, hr.nodup⟩)⟩
  obtain ⟨D, hD⟩ := hp
  obtain ⟨T, hT⟩ := hq
  -- the new circle: the first half up to `p`, then `n`, then the second half from `q`
  have he : h :: (l₁ ++ n :: l₂ ++ [h]) = D ++ p :: n :: (q :: T) := by
    rw [List.append_assoc, List.cons_append, hT, ← List.cons_append, hD, List.append_assoc]; rfl
  rw [he, List.isChain_append_cons_cons, List.isChain_cons_cons]
  rw [hD] at hc₁'
  rw [hT] at hc₂'
  exact ⟨hc₁', hpn, hnq, hc₂'⟩

/-- **Removal** of the node between `p` and `q`. -/
theorem Ring.remove_between (hr : Ring σ h (l₁ ++ x :: l₂)) (hp : IsPred h l₁ p) (hq : IsSucc h l₂ q)
    (hs : Surgery σ σ' p q x) (hpq : Adj σ' p q) : Ring σ' h (l₁ ++ l₂) := by
  obtain ⟨hx, hnd⟩ := List.nodup_cons.mp ((middle_perm h x l₁ l₂).nodup_iff.mp hr.nodup)
  obtain ⟨hc₁, _, _, hc₂⟩ := hr.split_at hp hq
  -- `x` keeps its own pointers, but it is no longer on the circle
  obtain ⟨hc₁', hc₂'⟩ := hs.halves hc₁ hc₂ hnd hp hq hx
  refine ⟨?_, hnd⟩
  obtain ⟨D, hD⟩ := hp
  obtain ⟨T, hT⟩ := hq
  have he : h :: (l₁ ++ l₂ ++ [h]) = D ++ p :: q :: T := by
    rw [List.append_assoc, hT, ← List.cons_append, hD, List.append_assoc]; rfl
  rw [he, List.isChain_append_cons_cons]
  rw [hD] at hc₁'
  rw [hT] at hc₂'
  exact ⟨hc₁', hpq, hc₂'⟩

/-- A ring depends only on its own nodes. -/
theorem Ring.frame (hr : Ring σ h l) (hsame : ∀ a ∈ h :: l, σ' a = σ a) : Ring σ' h l := by
  have hmem : ∀ a ∈ h :: (l ++ [h]), a ∈ h :: l := by
    intro a ha
    rcases List.mem_cons.mp ha with rfl | ha
    · exact List.mem_cons_self
    · rcases List.mem_append.mp ha with ha | ha
      · exact List.mem_cons_of_mem h ha
      · exact List.mem_singleton.mp ha ▸ List.mem_cons_self
  refine ⟨isChain_frame hr.chain (fun a ha => ?_) (fun b hb => ?_), hr.nodup⟩
  · rw [hsame a (hmem a (List.dropLast_subset _ ha))]
  · rw [hsame b (hmem b (List.mem_of_mem_tail hb))]

/-! ## The way from the sentinel -/

/-- `b` is the node after `a`, whatever `b` says. -/
def Follows (σ : N → Links N) (a b : N) : Prop := (σ a).next = some b

theorem Adj.follows {a b : N} (h : Adj σ a b) : Follows σ a b := h.1

/-- The way to the sentinel is determined by the `next` pointers. -/
theorem follows_unique : ∀ {l l' : List N} {a : N}, List.IsChain (Follows σ) (a :: (l ++ [h])) →
    List.IsChain (Follows σ) (a :: (l' ++ [h])) → h ∉ l → h ∉ l' → l = l' := by
  intro l
  induction l with
  | nil =>
      intro l' a hc hc' _ hh'
      cases l' with
      | nil => rfl
      | cons b l' =>
          rw [List.nil_append, List.isChain_cons_cons] at hc
          rw [List.cons_append, List.isChain_cons_cons] at hc'
          have hb : some h = some b := hc.1.symm.trans hc'.1
          exact absurd (Option.some.inj hb ▸ List.mem_cons_self) hh'
  | cons b l ih =>
      intro l' a hc hc' hh hh'
      rw [List.cons_append, List.isChain_cons_cons] at hc
      cases l' with
      | nil =>
          rw [List.nil_append, List.isChain_cons_cons] at hc'
          have hb : some b = some h := hc.1.symm.trans hc'.1
          exact absurd (Option.some.inj hb ▸ List.mem_cons_self) hh
      | cons b' l' =>
          rw [List.cons_append, List.isChain_cons_cons] at hc'
          obtain rfl : b = b' := Option.some.inj (hc.1.symm.trans hc'.1)
          rw [ih hc.2 hc'.2 (fun hm => hh (List.mem_cons_of_mem b hm)) (fun hm => hh' (List.mem_cons_of_mem b hm))]

/-- **A ring has one list.** -/
theorem Ring.unique (hr : Ring σ h l) (hr' : Ring σ h l₁) : l = l₁ :=
  follows_unique (hr.chain.imp fun _ _ => Adj.follows) (hr'.chain.imp fun _ _ => Adj.follows)
    (List.nodup_cons.mp hr.nodup).1 (List.nodup_cons.mp hr'.nodup).1

/-- Where the way of an old ring is cut short after `n`, a new ring has the nodes up to `n`. -/
theorem Ring.cut (hr : Ring σ h (l₁ ++ n :: l₂)) (hsame : ∀ a ∈ h :: l₁, (σ' a).next = (σ a).next)
    (hn : Follows σ' n h) (hr' : Ring σ' h l) : l = l₁ ++ [n] := by
  obtain ⟨q, hq⟩ := exists_isPred h l₁
  obtain ⟨s, hs⟩ := exists_isSucc h l₂
  obtain ⟨hc₁, ⟨hqn, _⟩, _⟩ := hr.split_at hq hs
  have hqn' : Follows σ' q n := (hsame q hq.mem).trans hqn
  have hc₁' : List.IsChain (Follows σ') (h :: l₁) :=
    hc₁.imp_of_mem_imp fun a b ha _ hab => (hsame a ha).trans hab.1
  have hnd := (List.nodup_cons.mp hr.nodup).1
  have hcut : h ∉ l₁ ++ [n] := by
    intro hm
    rcases List.mem_append.mp hm with hm | hm
    · exact hnd (List.mem_append_left _ hm)
    · exact hnd (List.mem_append_right _ (List.mem_singleton.mp hm ▸ List.mem_cons_self))
  obtain ⟨D, hD⟩ := hq
  have he : h :: (l₁ ++ [n] ++ [h]) = D ++ q :: n :: [h] := by
    rw [List.append_assoc, ← List.cons_append, hD, List.append_assoc]; rfl
  have hc : List.IsChain (Follows σ') (h :: (l₁ ++ [n] ++ [h])) := by
    rw [he, List.isChain_append_cons_cons, List.isChain_cons_cons]
    rw [hD] at hc₁'
    exact ⟨hc₁', hqn', hn, List.isChain_singleton h⟩
  exact follows_unique (hr'.chain.imp fun _ _ => Adj.follows) hc (List.nodup_cons.mp hr'.nodup).1 hcut

/-- The last node of a ring. -/
theorem Ring.last (hr : Ring σ h l) : ∃ p, IsPred h l p ∧ Adj σ p h := by
  obtain ⟨p, hp⟩ := exists_isPred h l
  have hr' : Ring σ h (l ++ []) := (List.append_nil l).symm ▸ hr
  exact ⟨p, hp, (hr'.split hp ⟨[], rfl⟩).2.1⟩

end Circular
