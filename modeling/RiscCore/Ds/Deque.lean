import Mathlib.Data.List.ReduceOption
import RiscCore.Ds.List
import RiscCore.Lib.Runs

/-!
# `Ds.Deque` — what a list and a queue are for

`Deque.step` is the purpose of a list: a sequence of nodes, changed at its ends and, by `remove`, in the
middle. It refuses the calls the callers of a list never make. `listCall_ring` is one call of the list against
one step of the deque, and `Runs.trace_simulation` carries it along a run, so a run of the list returns what
the deque returns and leaves a ring over the deque's sequence.

A queue is a list used at one end for pushing and at the other for popping; `Deque.fifo` is about the deque
alone.
-/

namespace RiscCore
namespace Ds

open Circular Runs

/-- The calls on one list. -/
inductive ListOp (N : Type) where
  | init
  | pushFront (node : Option N)
  | pushBack (node : Option N)
  | popFront
  | popBack
  | remove (n : N)
deriving DecidableEq

/-- The calls on one queue, after its `init`. -/
inductive QueueOp (N : Type) where
  | push (node : Option N)
  | pop
deriving DecidableEq

/-- The node a call hands to the list. -/
def ListOp.pushed {N : Type} : ListOp N → Option N
  | .pushFront node => node
  | .pushBack node => node
  | _ => none

def QueueOp.pushed {N : Type} : QueueOp N → Option N
  | .push node => node
  | .pop => none

variable {N : Type} [DecidableEq N]

/-- A call on the list whose sentinel is `h`, with the pointer it returns; null where the source returns
nothing. -/
def listCall (h : N) (σ : Nodes N) : ListOp N → Option (Option N × Nodes N)
  | .init => some (none, listInit h σ)
  | .pushFront node => (listPushFront h node σ).map fun σ' => (none, σ')
  | .pushBack node => (listPushBack h node σ).map fun σ' => (none, σ')
  | .popFront => listPopFront h σ
  | .popBack => listPopBack h σ
  | .remove n => (listRemove (some n) σ).map fun σ' => (none, σ')

def queueCall (h : N) (σ : Nodes N) : QueueOp N → Option (Option N × Nodes N)
  | .push node => (queuePush h node σ).map fun σ' => (none, σ')
  | .pop => queuePop h σ

/-! ## The deque -/

/-- What callers do: they push null or a node that is not in the list (nor the sentinel, which is private to
it), and they remove a node that is. -/
def Deque.Permitted (h : N) (l : List N) : ListOp N → Prop
  | .pushFront (some n) => n ∉ h :: l
  | .pushBack (some n) => n ∉ h :: l
  | .remove n => n ∈ l
  | _ => True

instance Deque.decidablePermitted (h : N) (l : List N) : DecidablePred (Deque.Permitted h l)
  | .init => isTrue trivial
  | .pushFront none => isTrue trivial
  | .pushFront (some n) => inferInstanceAs (Decidable (n ∉ h :: l))
  | .pushBack none => isTrue trivial
  | .pushBack (some n) => inferInstanceAs (Decidable (n ∉ h :: l))
  | .popFront => isTrue trivial
  | .popBack => isTrue trivial
  | .remove n => inferInstanceAs (Decidable (n ∈ l))

def Deque.result (l : List N) : ListOp N → Option N
  | .popFront => l.head?
  | .popBack => l.getLast?
  | _ => none

def Deque.next (l : List N) : ListOp N → List N
  | .init => []
  | .pushFront node => node.toList ++ l
  | .pushBack node => l ++ node.toList
  | .popFront => l.tail
  | .popBack => l.dropLast
  | .remove n => l.erase n

/-- One call on the sequence `l`. -/
def Deque.step (h : N) (l : List N) (op : ListOp N) : Option (Option N × List N) :=
  if Deque.Permitted h l op then some (Deque.result l op, Deque.next l op) else none

variable {σ σ' : Nodes N} {h n : N} {l : List N}

theorem Deque.step_eq_some {op : ListOp N} {r : Option N} {l' : List N} (hs : Deque.step h l op = some (r, l')) :
    Deque.Permitted h l op ∧ r = Deque.result l op ∧ l' = Deque.next l op := by
  unfold Deque.step at hs
  split at hs
  · rename_i hok
    obtain ⟨rfl, rfl⟩ := Prod.mk.inj (Option.some.inj hs)
    exact ⟨hok, rfl, rfl⟩
  · cases hs

/-! ## One call -/

/-- What a call on a ring over `l` leaves alone: every node but the sentinel, those of `l`, and the one it was
given; and it leaves everything alone when it was given null to push. -/
structure Untouched (h : N) (l : List N) (op : ListOp N) (σ σ' : Nodes N) : Prop where
  outside : ∀ m, m ∉ h :: l → op.pushed ≠ some m → σ' m = σ m
  null : op = .pushFront none ∨ op = .pushBack none → σ' = σ

theorem listPush_call {op : ListOp N} {l' : List N} (hpushed : op.pushed = some n)
    (hcall : ∃ σ', (listCall h σ op = some (none, σ')) ∧ Ring σ' h l' ∧ ∀ m, m ∉ n :: h :: l → σ' m = σ m) :
    ∃ σ', listCall h σ op = some (none, σ') ∧ Ring σ' h l' ∧ Untouched h l op σ σ' := by
  obtain ⟨σ', hc, hring, hsame⟩ := hcall
  refine ⟨σ', hc, hring, fun m hm hmn => hsame m ?_, ?_⟩
  · rw [List.mem_cons, not_or]
    exact ⟨fun he => hmn (he ▸ hpushed), hm⟩
  · rintro (rfl | rfl) <;> cases hpushed

/-- **One call of the list is one step of the deque.** -/
theorem listCall_ring (hr : Ring σ h l) {op : ListOp N} (hok : Deque.Permitted h l op) :
    ∃ σ', listCall h σ op = some (Deque.result l op, σ') ∧ Ring σ' h (Deque.next l op) ∧
      Untouched h l op σ σ' := by
  cases op with
  | init =>
      refine ⟨listInit h σ, rfl, listInit_ring h σ, fun m hm _ => ?_, by rintro (he | he) <;> cases he⟩
      have hmh : m ≠ h := fun he => hm (he ▸ List.mem_cons_self)
      show (σ.setNext h (some h)).setPrev h (some h) m = σ m
      rw [setPrev_of_ne _ _ hmh, setNext_of_ne _ _ hmh]
  | pushFront node =>
      cases node with
      | none => exact ⟨σ, rfl, hr, fun _ _ _ => rfl, fun _ => rfl⟩
      | some n =>
          obtain ⟨σ', hpush, hring, hsame⟩ := listPushFront_ring hr hok
          refine listPush_call rfl ⟨σ', ?_, hring, hsame⟩
          show (listPushFront h (some n) σ).map _ = _
          rw [hpush]; rfl
  | pushBack node =>
      cases node with
      | none =>
          have hring : Ring σ h (l ++ []) := (List.append_nil l).symm ▸ hr
          exact ⟨σ, rfl, hring, fun _ _ _ => rfl, fun _ => rfl⟩
      | some n =>
          obtain ⟨σ', hpush, hring, hsame⟩ := listPushBack_ring hr hok
          refine listPush_call rfl ⟨σ', ?_, hring, hsame⟩
          show (listPushBack h (some n) σ).map _ = _
          rw [hpush]; rfl
  | popFront =>
      obtain ⟨σ', hpop, hring, hsame⟩ := listPopFront_ring hr
      refine ⟨σ', hpop, hring, fun m hm _ => hsame m fun hc => hm ?_, by rintro (he | he) <;> cases he⟩
      exact List.cons_subset_cons h (fun _ => List.mem_of_mem_tail) hc
  | popBack =>
      obtain ⟨σ', hpop, hring, hsame⟩ := listPopBack_ring hr
      refine ⟨σ', hpop, hring, fun m hm _ => hsame m fun hc => hm ?_, by rintro (he | he) <;> cases he⟩
      exact List.cons_subset_cons h (List.dropLast_subset l) hc
  | remove n =>
      -- the first occurrence of `n` is the only one
      obtain ⟨l₁, l₂, _, rfl, herase⟩ := List.exists_erase_eq hok
      obtain ⟨σ', hrem, hring, hsame⟩ := listRemove_ring hr
      refine ⟨σ', ?_, ?_, fun m hm _ => hsame m fun hc => hm ?_, by rintro (he | he) <;> cases he⟩
      · show (listRemove (some n) σ).map _ = _
        rw [hrem]; rfl
      · show Ring σ' h ((l₁ ++ n :: l₂).erase n)
        rw [herase]; exact hring
      · exact List.cons_subset_cons h (fun a ha => List.mem_append.mpr
          ((List.mem_append.mp ha).imp id (List.mem_cons_of_mem n))) hc

/-! ## Following the pointers -/

/-- Following `next` from the sentinel visits `l` and comes back. -/
def Forward (σ : Nodes N) (h : N) (l : List N) : Prop :=
  List.IsChain (fun a b => (σ a).next = some b) (h :: (l ++ [h]))

/-- Following `prev` from the sentinel visits `l` and comes back. -/
def Backward (σ : Nodes N) (h : N) (l : List N) : Prop :=
  List.IsChain (fun a b => (σ a).prev = some b) (h :: (l ++ [h]))

omit [DecidableEq N] in
theorem Ring.forward (hr : Ring σ h l) : Forward σ h l := hr.chain.imp fun _ _ hab => hab.1

omit [DecidableEq N] in
theorem Ring.backward (hr : Ring σ h l) : Backward σ h l.reverse := by
  have hc : List.IsChain (fun a b => (σ b).prev = some a) (h :: (l ++ [h])) := hr.chain.imp fun _ _ hab => hab.2
  have he : h :: (l.reverse ++ [h]) = (h :: (l ++ [h])).reverse := by simp
  unfold Backward
  rw [he, List.isChain_reverse]
  exact hc

/-! ## Runs -/

theorem listCall_simulates (h : N) : ∀ (l : List N) (σ : Nodes N) (op : ListOp N) (r : Option N) (l' : List N),
    Ring σ h l → Deque.step h l op = some (r, l') → ∃ σ', listCall h σ op = some (r, σ') ∧ Ring σ' h l' := by
  intro l σ op r l' hr hs
  obtain ⟨hok, rfl, rfl⟩ := Deque.step_eq_some hs
  obtain ⟨σ', hcall, hring, _⟩ := listCall_ring hr hok
  exact ⟨σ', hcall, hring⟩

/-- A queue pushes at the back and pops at the front. -/
def QueueOp.asList : QueueOp N → ListOp N
  | .push node => .pushBack node
  | .pop => .popFront

theorem queueCall_eq (h : N) (σ : Nodes N) (op : QueueOp N) : queueCall h σ op = listCall h σ op.asList := by
  cases op with
  | push node => rfl
  | pop =>
      show queuePop h σ = listPopFront h σ
      unfold queuePop listPopFront
      cases he : listEmpty h σ with
      | true => rfl
      | false => rfl

/-- The purpose of a queue, as calls on the deque. -/
def Fifo.step (h : N) (l : List N) (op : QueueOp N) : Option (Option N × List N) := Deque.step h l op.asList

theorem queueCall_simulates (h : N) : ∀ (l : List N) (σ : Nodes N) (op : QueueOp N) (r : Option N) (l' : List N),
    Ring σ h l → Fifo.step h l op = some (r, l') → ∃ σ', queueCall h σ op = some (r, σ') ∧ Ring σ' h l' := by
  intro l σ op r l' hr hs
  rw [queueCall_eq]
  exact listCall_simulates h l σ op.asList r l' hr hs

/-- What has been pushed is what has been popped and then what is still there. -/
theorem Fifo.pushed_eq : ∀ (ops : List (QueueOp N)) {l l' : List N} {rs : List (Option N)},
    trace (Fifo.step h) l ops = some (rs, l') → l ++ ops.filterMap QueueOp.pushed = rs.reduceOption ++ l' := by
  intro ops
  induction ops with
  | nil =>
      intro l l' rs hrun
      obtain ⟨rfl, rfl⟩ := Prod.mk.inj (Option.some.inj hrun)
      exact List.append_nil l
  | cons op ops ih =>
      intro l l' rs hrun
      obtain ⟨r, m, rs', hop, hrest, rfl⟩ := trace_cons_eq_some.mp hrun
      obtain ⟨_, rfl, rfl⟩ := Deque.step_eq_some hop
      have hrest := ih hrest
      cases op with
      | push node =>
          rw [show Deque.result l (QueueOp.push node).asList = none from rfl, List.reduceOption_cons_of_none, ← hrest]
          cases node with
          | none =>
              rw [List.filterMap_cons_none (by rfl)]
              simp [Deque.next, QueueOp.asList]
          | some n =>
              rw [List.filterMap_cons_some (by rfl)]
              simp [Deque.next, QueueOp.asList]
      | pop =>
          cases l with
          | nil => exact hrest
          | cons x l =>
              show x :: (l ++ ops.filterMap QueueOp.pushed) = x :: (rs'.reduceOption ++ l')
              exact congrArg (x :: ·) hrest

/-- **A list is a deque, and a queue is first-in first-out.** The run starts from `init` on any memory. -/
theorem list_faithful_deque (h : N) (σ₀ : Nodes N) :
    (∀ ops rs l, trace (Deque.step h) [] ops = some (rs, l) →
      ∃ σ, trace (listCall h) (listInit h σ₀) ops = some (rs, σ) ∧
        Forward σ h l ∧ Backward σ h l.reverse ∧ (h :: l).Nodup ∧ (listEmpty h σ = true ↔ l = []) ∧
        ∀ op, Deque.Permitted h l op →
          ∃ σ', listCall h σ op = some (Deque.result l op, σ') ∧ Untouched h l op σ σ') ∧
    ∀ ops rs l, trace (Fifo.step h) [] ops = some (rs, l) →
      ∃ σ, trace (queueCall h) (queueInit h σ₀) ops = some (rs, σ) ∧
        Forward σ h l ∧ (queueEmpty h σ = true ↔ l = []) ∧
        ops.filterMap QueueOp.pushed = rs.reduceOption ++ l := by
  constructor
  · intro ops rs l hrun
    obtain ⟨σ, hσ, hring⟩ := trace_simulation (listCall_simulates h) ops (listInit_ring h σ₀) hrun
    refine ⟨σ, hσ, Ring.forward hring, Ring.backward hring, hring.nodup, listEmpty_ring hring, fun op hok => ?_⟩
    obtain ⟨σ', hcall, _, hsame⟩ := listCall_ring hring hok
    exact ⟨σ', hcall, hsame⟩
  · intro ops rs l hrun
    obtain ⟨σ, hσ, hring⟩ := trace_simulation (queueCall_simulates h) ops (listInit_ring h σ₀) hrun
    exact ⟨σ, hσ, Ring.forward hring, listEmpty_ring hring, Fifo.pushed_eq ops hrun⟩

theorem list_faithful_deque_test :
    (∃ σ, trace (listCall 0) (listInit 0 fun _ => ⟨none, none⟩)
      [.pushBack (some 1), .pushFront (some 2), .pushBack none, .remove 1, .pushBack (some 1), .popFront, .popBack,
        .popBack] = some ([none, none, none, none, none, some 2, some 1, none], σ) ∧ Forward σ 0 []) ∧
    ∃ σ, trace (queueCall 0) (queueInit 0 fun _ => ⟨none, none⟩)
      [.push (some 5), .push (some 3), .pop, .push (some 5), .pop] = some ([none, none, some 5, none, some 3], σ) ∧
        Forward σ 0 [5] := by
  obtain ⟨hlist, hqueue⟩ := list_faithful_deque 0 fun _ => ⟨none, none⟩
  obtain ⟨σ, hσ, hf, _⟩ := hlist [.pushBack (some 1), .pushFront (some 2), .pushBack none, .remove 1,
    .pushBack (some 1), .popFront, .popBack, .popBack] [none, none, none, none, none, some 2, some 1, none] []
    (by decide)
  obtain ⟨τ, hτ, hg, _⟩ := hqueue [.push (some 5), .push (some 3), .pop, .push (some 5), .pop]
    [none, none, some 5, none, some 3] [5] (by decide)
  exact ⟨⟨σ, hσ, hf⟩, τ, hτ, hg⟩

end Ds
end RiscCore
