import Mathlib.Logic.Function.Basic
import RiscCore.Lib.Ring

/-!
# `Ds.List` — intrusive lists and queues (`kernel/lib/ds/list.cpp`, `queue.cpp`)

A list is its sentinel `m_head`, named by the address `h`; the nodes belong to whoever embeds them. `Nodes`
is the memory holding all of them, `none` in a pointer field is `nullptr`, and a function returns `none` when
it goes through one. Assignments happen in the order of the source, each reading the memory left by the
one before.

Over a `Ring` every operation is the list operation it is named after, and nodes outside are not touched.
-/

namespace RiscCore
namespace Ds

open Circular

/-- `ListNode`: the fields `prev` and `next`. -/
abbrev ListNode (N : Type) := Links N

abbrev Nodes (N : Type) := N → ListNode N

variable {N : Type} [DecidableEq N]

/-- `n->next = v`. -/
def Nodes.setNext (σ : Nodes N) (n : N) (v : Option N) : Nodes N := Function.update σ n { σ n with next := v }

/-- `n->prev = v`. -/
def Nodes.setPrev (σ : Nodes N) (n : N) (v : Option N) : Nodes N := Function.update σ n { σ n with prev := v }

/-- The sentinel points to itself both ways. -/
def listInit (h : N) (σ : Nodes N) : Nodes N := (σ.setNext h (some h)).setPrev h (some h)

/-- Looks at the sentinel's `next` only. -/
def listEmpty (h : N) (σ : Nodes N) : Bool := if (σ h).next = some h then true else false

/-- A null node is ignored. Nobody looks whether the node is in a list already. -/
def listPushFront (h : N) (node : Option N) (σ : Nodes N) : Option (Nodes N) :=
  match node with
  | none => some σ
  | some n => do
    let σ := σ.setPrev n (some h)
    let σ := σ.setNext n (σ h).next
    -- in an empty list the first node is the sentinel itself
    let first ← (σ h).next
    let σ := σ.setPrev first (some n)
    return σ.setNext h (some n)

def listPushBack (h : N) (node : Option N) (σ : Nodes N) : Option (Nodes N) :=
  match node with
  | none => some σ
  | some n => do
    let σ := σ.setNext n (some h)
    let σ := σ.setPrev n (σ h).prev
    -- in an empty list the last node is the sentinel itself
    let last ← (σ h).prev
    let σ := σ.setNext last (some n)
    return σ.setPrev h (some n)

/-- The node keeps its own two pointers. -/
def listRemove (node : Option N) (σ : Nodes N) : Option (Nodes N) := do
  let n ← node
  let before ← (σ n).prev
  let σ := σ.setNext before (σ n).next
  let after ← (σ n).next
  return σ.setPrev after (σ n).prev

/-- Null when the list is empty. -/
def listPopFront (h : N) (σ : Nodes N) : Option (Option N × Nodes N) :=
  if listEmpty h σ then
    some (none, σ)
  else do
    let nodeTmp := (σ h).next
    let σ' ← listRemove nodeTmp σ
    return (nodeTmp, σ')

def listPopBack (h : N) (σ : Nodes N) : Option (Option N × Nodes N) :=
  if listEmpty h σ then
    some (none, σ)
  else do
    let nodeTmp := (σ h).prev
    let σ' ← listRemove nodeTmp σ
    return (nodeTmp, σ')

def queueInit (h : N) (σ : Nodes N) : Nodes N := listInit h σ

def queueEmpty (h : N) (σ : Nodes N) : Bool := listEmpty h σ

def queuePush (h : N) (node : Option N) (σ : Nodes N) : Option (Nodes N) := listPushBack h node σ

/-- Asks twice whether the queue is empty, as the source does. -/
def queuePop (h : N) (σ : Nodes N) : Option (Option N × Nodes N) :=
  if listEmpty h σ then some (none, σ) else listPopFront h σ

/-! ## Fields after an assignment -/

variable {σ : Nodes N} {h n m : N} {l l₁ l₂ : List N}

@[simp] theorem setNext_next (σ : Nodes N) (n m : N) (v : Option N) :
    (σ.setNext n v m).next = if m = n then v else (σ m).next := by
  by_cases hm : m = n
  · subst hm; simp [Nodes.setNext]
  · simp [Nodes.setNext, hm]

@[simp] theorem setNext_prev (σ : Nodes N) (n m : N) (v : Option N) : (σ.setNext n v m).prev = (σ m).prev := by
  by_cases hm : m = n
  · subst hm; simp [Nodes.setNext]
  · simp [Nodes.setNext, hm]

@[simp] theorem setPrev_prev (σ : Nodes N) (n m : N) (v : Option N) :
    (σ.setPrev n v m).prev = if m = n then v else (σ m).prev := by
  by_cases hm : m = n
  · subst hm; simp [Nodes.setPrev]
  · simp [Nodes.setPrev, hm]

@[simp] theorem setPrev_next (σ : Nodes N) (n m : N) (v : Option N) : (σ.setPrev n v m).next = (σ m).next := by
  by_cases hm : m = n
  · subst hm; simp [Nodes.setPrev]
  · simp [Nodes.setPrev, hm]

theorem setNext_of_ne (σ : Nodes N) (v : Option N) (hm : m ≠ n) : σ.setNext n v m = σ m := by
  simp [Nodes.setNext, hm]

theorem setPrev_of_ne (σ : Nodes N) (v : Option N) (hm : m ≠ n) : σ.setPrev n v m = σ m := by
  simp [Nodes.setPrev, hm]

/-! ## The operations on a ring -/

theorem listInit_ring (h : N) (σ : Nodes N) : Ring (listInit h σ) h [] := by
  refine ⟨?_, List.nodup_singleton h⟩
  rw [List.nil_append, List.isChain_cons_cons]
  exact ⟨⟨by simp [listInit], by simp [listInit]⟩, List.isChain_singleton h⟩

theorem listEmpty_ring (hr : Ring σ h l) : listEmpty h σ = true ↔ l = [] := by
  have hc := hr.chain
  cases l with
  | nil =>
      rw [List.nil_append, List.isChain_cons_cons] at hc
      simp [listEmpty, hc.1.1]
  | cons x l =>
      rw [List.cons_append, List.isChain_cons_cons] at hc
      have hne : x ≠ h := fun he => (List.nodup_cons.mp hr.nodup).1 (he ▸ List.mem_cons_self)
      simp [listEmpty, hc.1.1, hne]

/-- **`push_front`** puts a node that is not in the list before all others. -/
theorem listPushFront_ring (hr : Ring σ h l) (hn : n ∉ h :: l) :
    ∃ σ', listPushFront h (some n) σ = some σ' ∧ Ring σ' h (n :: l) ∧ ∀ m, m ∉ n :: h :: l → σ' m = σ m := by
  obtain ⟨q, hq⟩ := exists_isSucc h l
  have hr' : Ring σ h ([] ++ l) := hr
  have hp : IsPred h ([] : List N) h := ⟨[], rfl⟩
  obtain ⟨_, ⟨hfirst, _⟩, _⟩ := hr'.split hp hq
  have hnh : n ≠ h := fun he => hn (he ▸ List.mem_cons_self)
  have hqn : q ≠ n := fun he => hn (he ▸ hq.mem)
  refine ⟨(((σ.setPrev n (some h)).setNext n (some q)).setPrev q (some n)).setNext h (some n), ?_, ?_, ?_⟩
  · simp [listPushFront, hfirst, hnh.symm]
  · -- between the sentinel and the first node `q`
    refine hr'.insert_between hp hq hn ⟨fun a hah han => ?_, fun b hbq hbn => ?_⟩ ?_ ?_
    · simp [hah, han]
    · simp [hbq, hbn]
    · exact ⟨by simp, by simp [hqn.symm]⟩
    · exact ⟨by simp [hnh], by simp⟩
  · intro m hm
    have hmn : m ≠ n := fun he => hm (he ▸ List.mem_cons_self)
    have hmh : m ≠ h := fun he => hm (he ▸ List.mem_cons_of_mem n List.mem_cons_self)
    have hmq : m ≠ q := fun he => hm (he ▸ List.mem_cons_of_mem n hq.mem)
    rw [setNext_of_ne _ _ hmh, setPrev_of_ne _ _ hmq, setNext_of_ne _ _ hmn, setPrev_of_ne _ _ hmn]

/-- **`push_back`** appends a node that is not in the list. -/
theorem listPushBack_ring (hr : Ring σ h l) (hn : n ∉ h :: l) :
    ∃ σ', listPushBack h (some n) σ = some σ' ∧ Ring σ' h (l ++ [n]) ∧ ∀ m, m ∉ n :: h :: l → σ' m = σ m := by
  obtain ⟨p, hp, _, hlast⟩ := hr.last
  have hr' : Ring σ h (l ++ []) := (List.append_nil l).symm ▸ hr
  have hq : IsSucc h ([] : List N) h := ⟨[], rfl⟩
  have hnh : n ≠ h := fun he => hn (he ▸ List.mem_cons_self)
  have hpn : p ≠ n := fun he => hn (he ▸ hp.mem)
  have hn' : n ∉ h :: (l ++ []) := (List.append_nil l).symm ▸ hn
  refine ⟨(((σ.setNext n (some h)).setPrev n (some p)).setNext p (some n)).setPrev h (some n), ?_, ?_, ?_⟩
  · simp [listPushBack, hlast, hnh.symm]
  · -- between the last node `p` and the sentinel
    refine hr'.insert_between hp hq hn' ⟨fun a hap han => ?_, fun b hbh hbn => ?_⟩ ?_ ?_
    · simp [hap, han]
    · simp [hbh, hbn]
    · exact ⟨by simp, by simp [hnh]⟩
    · exact ⟨by simp [hpn.symm], by simp⟩
  · intro m hm
    have hmn : m ≠ n := fun he => hm (he ▸ List.mem_cons_self)
    have hmh : m ≠ h := fun he => hm (he ▸ List.mem_cons_of_mem n List.mem_cons_self)
    have hmp : m ≠ p := fun he => hm (he ▸ List.mem_cons_of_mem n hp.mem)
    rw [setPrev_of_ne _ _ hmh, setNext_of_ne _ _ hmp, setPrev_of_ne _ _ hmn, setNext_of_ne _ _ hmn]

/-- **`push_back` of a node that is in the list already** leaves no list. The way from the sentinel now ends at the
    node, while the node's `prev` is the old last node, which is not on that way. -/
theorem listPushBack_linked (hr : Ring σ h l) (hn : n ∈ l) :
    ∃ σ', listPushBack h (some n) σ = some σ' ∧ ∀ l', ¬ Ring σ' h l' := by
  obtain ⟨p, hp, _, hlast⟩ := hr.last
  have hnh : n ≠ h := fun he => (List.nodup_cons.mp hr.nodup).1 (he ▸ hn)
  refine ⟨(((σ.setNext n (some h)).setPrev n (some p)).setNext p (some n)).setPrev h (some n), ?_, fun l' hr' => ?_⟩
  · simp [listPushBack, hlast, hnh.symm]
  · -- a ring of the new pointers would end at `n`
    obtain ⟨p', hp', hback, hlast'⟩ := hr'.last
    obtain rfl : n = p' := by simpa using hlast'
    by_cases hpn : n = p
    · -- the last node points to itself
      rw [setPrev_next, setNext_next, if_pos hpn] at hback
      exact hnh (Option.some.inj hback)
    · -- the way up to `n` is as before, and `p` is not on it
      obtain ⟨l₁, l₂, rfl⟩ := List.append_of_mem hn
      have hpl : p ∈ l₂ := hp.mem_of_ne (Ne.symm hpn)
      obtain ⟨hn', hnd⟩ := List.nodup_cons.mp ((middle_perm h n l₁ l₂).nodup_iff.mp hr.nodup)
      rw [← List.cons_append, List.nodup_append'] at hnd
      have hout : ∀ a ∈ h :: l₁, a ≠ p ∧ a ≠ n := fun a ha =>
        ⟨fun he => hnd.2.2 (he ▸ ha) hpl, fun he => hn' (List.mem_append_left l₂ (he ▸ ha))⟩
      obtain rfl := hr.cut (fun a ha => by simp [hout a ha]) hback hr'
      obtain ⟨q, hq⟩ := exists_isPred h l₁
      obtain ⟨_, ⟨_, hprev⟩, _⟩ := hr'.split_at hq ⟨[], rfl⟩
      obtain rfl : p = q := by simpa [hnh] using hprev
      exact (hout p hq.mem).1 rfl

/-- **`remove`** takes a node out of the list, wherever it stands. -/
theorem listRemove_ring (hr : Ring σ h (l₁ ++ n :: l₂)) :
    ∃ σ', listRemove (some n) σ = some σ' ∧ Ring σ' h (l₁ ++ l₂) ∧
      ∀ m, m ∉ h :: (l₁ ++ l₂) → σ' m = σ m := by
  obtain ⟨p, hp⟩ := exists_isPred h l₁
  obtain ⟨q, hq⟩ := exists_isSucc h l₂
  obtain ⟨_, ⟨_, hprev⟩, ⟨hnext, _⟩, _⟩ := hr.split_at hp hq
  have hpm : p ∈ h :: (l₁ ++ l₂) := by
    rw [← List.cons_append]; exact List.mem_append_left l₂ hp.mem
  have hqm : q ∈ h :: (l₁ ++ l₂) := by
    rcases List.mem_cons.mp hq.mem with rfl | hm
    · exact List.mem_cons_self
    · exact List.mem_cons_of_mem h (List.mem_append_right l₁ hm)
  refine ⟨(σ.setNext p (some q)).setPrev q (some p), ?_, ?_, ?_⟩
  · simp [listRemove, hprev, hnext]
  · refine hr.remove_between hp hq ⟨fun a hap _ => ?_, fun b hbq _ => ?_⟩ ⟨by simp, by simp⟩
    · simp [hap]
    · simp [hbq]
  · intro m hm
    have hmp : m ≠ p := fun he => hm (he ▸ hpm)
    have hmq : m ≠ q := fun he => hm (he ▸ hqm)
    rw [setPrev_of_ne _ _ hmq, setNext_of_ne _ _ hmp]

/-- **`pop_front`** returns the first node, or null. -/
theorem listPopFront_ring (hr : Ring σ h l) : ∃ σ', listPopFront h σ = some (l.head?, σ') ∧
    Ring σ' h l.tail ∧ ∀ m, m ∉ h :: l.tail → σ' m = σ m := by
  have hempty := listEmpty_ring hr
  cases l with
  | nil => exact ⟨σ, by simp [listPopFront, hempty.mpr rfl], hr, fun _ _ => rfl⟩
  | cons x l =>
      have hfalse : listEmpty h σ = false := by
        cases he : listEmpty h σ with
        | false => rfl
        | true => exact absurd (hempty.mp he) (by simp)
      have hc := hr.chain
      rw [List.cons_append, List.isChain_cons_cons] at hc
      have hr' : Ring σ h ([] ++ x :: l) := hr
      obtain ⟨σ', hrem, hring, hsame⟩ := listRemove_ring hr'
      exact ⟨σ', by simp [listPopFront, hfalse, hc.1.1, hrem], hring, hsame⟩

/-- **`pop_back`** returns the last node, or null. -/
theorem listPopBack_ring (hr : Ring σ h l) : ∃ σ', listPopBack h σ = some (l.getLast?, σ') ∧
    Ring σ' h l.dropLast ∧ ∀ m, m ∉ h :: l.dropLast → σ' m = σ m := by
  have hempty := listEmpty_ring hr
  rcases List.eq_nil_or_concat' l with rfl | ⟨D, x, rfl⟩
  · exact ⟨σ, by simp [listPopBack, hempty.mpr rfl], hr, fun _ _ => rfl⟩
  · have hfalse : listEmpty h σ = false := by
      cases he : listEmpty h σ with
      | false => rfl
      | true => exact absurd (hempty.mp he) (by simp)
    obtain ⟨p, hp⟩ := exists_isPred h D
    obtain ⟨_, _, ⟨_, hlast⟩, _⟩ := hr.split_at hp ⟨[], rfl⟩
    obtain ⟨σ', hrem, hring, hsame⟩ := listRemove_ring hr
    rw [List.append_nil] at hring hsame
    refine ⟨σ', ?_, ?_, ?_⟩
    · simp [listPopBack, hfalse, hlast, hrem]
    · rw [List.dropLast_concat]; exact hring
    · rw [List.dropLast_concat]; exact hsame

theorem queuePop_ring (hr : Ring σ h l) : ∃ σ', queuePop h σ = some (l.head?, σ') ∧
    Ring σ' h l.tail ∧ ∀ m, m ∉ h :: l.tail → σ' m = σ m := by
  obtain ⟨σ', hpop, hrest⟩ := listPopFront_ring hr
  cases he : listEmpty h σ with
  | false => exact ⟨σ', by simp [queuePop, he, hpop], hrest⟩
  | true =>
      obtain rfl := (listEmpty_ring hr).mp he
      exact ⟨σ, by simp [queuePop, he], hr, fun _ _ => rfl⟩

end Ds
end RiscCore
