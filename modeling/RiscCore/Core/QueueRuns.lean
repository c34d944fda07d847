import RiscCore.Core.SchedSafety

/-!
# `Core.QueueRuns` — any run of `push` and `next`

`push` links the task's `run_node` behind the last one and never asks whether it is linked already. Over any run of
calls, the ready queue stays a queue exactly as long as nobody is pushed who waits in it; then `next` has returned as
many tasks as were pushed and no longer wait. A task that is pushed again while it waits leaves no queue behind.
-/

namespace RiscCore
namespace Core

open Ds Circular Runs

/-- The kernel, the pushes that returned `true`, and the tasks that `next` has returned. -/
structure QueueUse where
  k : Kernel
  pushes : Nat
  served : Nat

inductive QueueOp where
  | push (task : Option TaskRef)
  | next

namespace QueueUse

def start (k : Kernel) : QueueUse := ⟨RunQueue.init k, 0, 0⟩

def step (u : QueueUse) : QueueOp → Option QueueUse
  | .push task => do
    let (ok, k) ← RunQueue.push task u.k
    return ⟨k, if ok then u.pushes + 1 else u.pushes, u.served⟩
  | .next => do
    let (task, k) ← RunQueue.next u.k
    return ⟨k, u.pushes, if task = none then u.served else u.served + 1⟩

end QueueUse

/-- The queued tasks that a call is not about. -/
def QueueOp.others : QueueOp → List TaskRef → List TaskRef
  | .push none, l => l
  | .push (some t), l => l.filter (· ≠ t)
  | .next, l => l.tail

/-- **The queue survives a call**: it is a queue before and after, all other tasks are still in it, and no more tasks
    have been returned than pushed. -/
def Survives (u : QueueUse) (op : QueueOp) : Prop := ∃ (l l' : List TaskRef) (u' : QueueUse),
  Ring u.k.nodes .head (l.map .runNode) ∧ u.step op = some u' ∧ Ring u'.k.nodes .head (l'.map .runNode) ∧
    (∀ t ∈ op.others l, t ∈ l') ∧ u'.served ≤ u'.pushes

/-- `t` waits in the ready queue. -/
def Queued (k : Kernel) (t : TaskRef) : Prop := ∃ l : List TaskRef, Ring k.nodes .head (l.map .runNode) ∧ t ∈ l

/-- Nobody is pushed who waits already. -/
def Fresh (u : QueueUse) : QueueOp → Prop
  | .push (some t) => ¬ Queued u.k t
  | .push none => True
  | .next => True

/-- **The invariant**: `l` waits, and everybody else who was pushed has been returned. -/
structure Waiting (u : QueueUse) (l : List TaskRef) : Prop where
  ring : Ring u.k.nodes .head (l.map .runNode)
  count : u.served + l.length = u.pushes

variable {u u' : QueueUse} {l : List TaskRef} {op : QueueOp}

theorem Waiting.queued_iff (h : Waiting u l) (t : TaskRef) : Queued u.k t ↔ t ∈ l :=
  ⟨fun ⟨_, hr, ht⟩ => queue_unique h.ring hr ▸ ht, fun ht => ⟨l, h.ring, ht⟩⟩

/-- **Step lemma.** -/
theorem Waiting.step (h : Waiting u l) (hf : Fresh u op) :
    ∃ u' l', u.step op = some u' ∧ Waiting u' l' ∧ ∀ t ∈ op.others l, t ∈ l' := by
  cases op with
  | push task =>
      cases task with
      | none => exact ⟨u, l, rfl, h, fun _ ht => ht⟩
      | some t =>
          have ht : t ∉ l := fun hc => hf ((h.queued_iff t).mpr hc)
          obtain ⟨nodes, hpush, hring⟩ := push_ring h.ring ht
          refine ⟨_, l ++ [t], by simp [QueueUse.step, hpush]; rfl, ⟨hring, ?_⟩, fun v hv => ?_⟩
          · have hcount := h.count
            rw [List.length_append, List.length_singleton]
            show u.served + (l.length + 1) = u.pushes + 1
            omega
          · exact List.mem_append_left [t] (List.mem_of_mem_filter hv)
  | next =>
      obtain ⟨nodes, hnext, hring⟩ := next_ring h.ring
      refine ⟨_, l.tail, by simp [QueueUse.step, hnext]; rfl, ⟨hring, ?_⟩, fun v hv => hv⟩
      have hcount := h.count
      cases l with
      | nil => exact hcount
      | cons t l =>
          show u.served + 1 + l.length = u.pushes
          rw [List.length_cons] at hcount
          omega

/-- **A task that is pushed while it waits** leaves no queue behind. -/
theorem Waiting.broken (h : Waiting u l) {t : TaskRef} (ht : t ∈ l) :
    ∃ u', u.step (.push (some t)) = some u' ∧ ∀ l' : List TaskRef, ¬ Ring u'.k.nodes .head (l'.map .runNode) := by
  obtain ⟨nodes, hpush, hno⟩ := push_linked h.ring ht
  exact ⟨⟨{ u.k.setState t .ready with nodes := nodes }, u.pushes + 1, u.served⟩, by simp [QueueUse.step, hpush], hno⟩

theorem Waiting.survives_iff (h : Waiting u l) (op : QueueOp) : Survives u op ↔ Fresh u op := by
  constructor
  · rintro ⟨_, l', u', _, hst, hring, _⟩
    cases op with
    | push task =>
        cases task with
        | none => trivial
        | some t =>
            intro hq
            obtain ⟨u'', hst', hno⟩ := h.broken ((h.queued_iff t).mp hq)
            obtain rfl := Option.some.inj (hst.symm.trans hst')
            exact hno l' hring
    | next => trivial
  · intro hf
    obtain ⟨u', l', hst, h', hkeep⟩ := h.step hf
    have hcount := h'.count
    exact ⟨l, l', u', h.ring, hst, h'.ring, hkeep, by omega⟩

/-- Before the first call nobody waits. -/
theorem waiting_start (k : Kernel) : Waiting (QueueUse.start k) [] := ⟨listInit_ring NodeRef.head k.nodes, rfl⟩

/-- The invariant goes on over a step, whoever waits then. -/
theorem exists_waiting_step (h : ∃ l, Waiting u l) (hf : Fresh u op) (hst : u.step op = some u') :
    ∃ l, Waiting u' l := by
  obtain ⟨l, h⟩ := h
  obtain ⟨u'', l', hst', h', _⟩ := h.step hf
  exact ⟨l', Option.some.inj (hst'.symm.trans hst) ▸ h'⟩

/-- **When the run queue survives:** as long as nobody is pushed who waits in it. -/
theorem queue_survives_iff (k : Kernel) :
    (∀ u, Reach QueueUse.step Fresh (QueueUse.start k) u →
      ∃ l : List TaskRef, Ring u.k.nodes .head (l.map .runNode) ∧ u.served + l.length = u.pushes) ∧
    ∀ ops : List QueueOp, Always QueueUse.step Survives (QueueUse.start k) ops ↔
      Always QueueUse.step Fresh (QueueUse.start k) ops := by
  constructor
  · intro u hr
    obtain ⟨l, h⟩ := hr.invariant (I := fun u => ∃ l, Waiting u l) ⟨[], waiting_start k⟩
      fun _ _ _ h hf hst => exists_waiting_step h hf hst
    exact ⟨l, h.ring, h.count⟩
  · intro ops
    refine Always.iff_of_invariant (I := fun u => ∃ l, Waiting u l) (fun u op h => ?_)
      (fun u op h hf u' hst => exists_waiting_step h hf hst) ops ⟨[], waiting_start k⟩
    obtain ⟨l, h⟩ := h
    exact h.survives_iff op

/-- A ready task is pushed twice and `next` called three times: it returns the task every time. -/
theorem repeated_push_served : ∃ c u,
    run (Sys.step testSymbols) testBoot [.create 0x80000300#64 0x80010000#64 0x400#64] = some c ∧
    (c.k.tasks 1).state = .ready ∧
    run QueueUse.step (QueueUse.start c.k) [.push (some 1), .push (some 1), .next, .next, .next] = some u ∧
    u.pushes = 2 ∧ u.served = 3 := by
  have hrun : ((run (Sys.step testSymbols) testBoot [.create 0x80000300#64 0x80010000#64 0x400#64]).bind fun c =>
      (run QueueUse.step (QueueUse.start c.k) [.push (some 1), .push (some 1), .next, .next, .next]).map fun u =>
        ((c.k.tasks 1).state, u.pushes, u.served)) = some (.ready, 2, 3) := by decide +kernel
  obtain ⟨c, hc, hrest⟩ := Option.bind_eq_some_iff.mp hrun
  obtain ⟨u, hu, hfacts⟩ := Option.map_eq_some_iff.mp hrest
  obtain ⟨hstate, hpushes, hserved⟩ : (c.k.tasks 1).state = .ready ∧ u.pushes = 2 ∧ u.served = 3 := by
    simpa only [Prod.mk.injEq] using hfacts
  exact ⟨c, u, hc, hstate, hu, hpushes, hserved⟩

end Core
end RiscCore
