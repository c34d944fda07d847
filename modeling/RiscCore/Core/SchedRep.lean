import RiscCore.Core.Sched

/-!
# `Core.SchedRep` — the scheduler as a queue of tasks

`Sched` is the abstract scheduler: who runs, who waits in which order, and every task's state. Its
`reschedule` is the round-robin step in one expression. `Stores k a` says that the kernel's pointers and
fields store `a`; each function of the run queue and the scheduler then takes one abstract step, and what
it does to contexts and registers stands beside.
-/

namespace RiscCore
namespace Core

open Ds Circular

/-- **The abstract scheduler.** Slot 0 is the idle task. -/
structure Sched where
  current : Option TaskRef
  ready : List TaskRef
  state : TaskRef → State

namespace Sched

/-- The task that `reschedule` makes current. -/
def pick (a : Sched) : TaskRef := a.ready.head?.getD 0

/-- The outgoing task goes back to the queue: it still runs, and it is not the idle task. -/
def Requeues (a : Sched) (prev : TaskRef) : Prop := prev ≠ 0 ∧ a.state prev = .running

instance (a : Sched) (prev : TaskRef) : Decidable (a.Requeues prev) := inferInstanceAs (Decidable (_ ∧ _))

def pop (a : Sched) : Sched := { a with ready := a.ready.tail }

def push (a : Sched) (t : TaskRef) : Sched :=
  { a with ready := a.ready ++ [t], state := Function.update a.state t .ready }

def run (a : Sched) (t : TaskRef) : Sched :=
  { a with current := some t, state := Function.update a.state t .running }

def mark (a : Sched) (t : TaskRef) (s : State) : Sched := { a with state := Function.update a.state t s }

theorem push_state (a : Sched) (t u : TaskRef) :
    (a.push t).state u = if u = t then .ready else a.state u := Function.update_apply ..

theorem run_state (a : Sched) (t u : TaskRef) :
    (a.run t).state u = if u = t then .running else a.state u := Function.update_apply ..

theorem mark_state (a : Sched) (t : TaskRef) (s : State) (u : TaskRef) :
    (a.mark t s).state u = if u = t then s else a.state u := Function.update_apply ..

theorem mem_push {a : Sched} {t u : TaskRef} : u ∈ (a.push t).ready ↔ u ∈ a.ready ∨ u = t :=
  List.mem_append.trans (or_congr_right List.mem_singleton)

theorem push_nodup {a : Sched} {t : TaskRef} (h : a.ready.Nodup) (ht : t ∉ a.ready) : (a.push t).ready.Nodup := by
  show (a.ready ++ [t]).Nodup
  rw [← List.concat_eq_append]
  exact List.Nodup.concat ht h

/-- The round-robin step. The next task is chosen before the outgoing one is put back. -/
def reschedule (a : Sched) (prev : TaskRef) : Sched :=
  (if a.Requeues prev then a.pop.push prev else a.pop).run a.pick

end Sched

/-- **`k` stores `a`.** -/
structure Stores (k : Kernel) (a : Sched) : Prop where
  ring : Ring k.nodes .head (a.ready.map .runNode)
  current : k.sCurrent = a.current
  state : ∀ t, (k.tasks t).state = a.state t
  idle : k.sIdleTask = some 0

/-- Contexts, entries and registers are as before. -/
structure SameContexts (k k' : Kernel) : Prop where
  context : ∀ u, (k'.tasks u).context = (k.tasks u).context
  entry : ∀ u, (k'.tasks u).entry = (k.tasks u).entry
  regs : k'.regs = k.regs

theorem SameContexts.trans {k k' k'' : Kernel} (h : SameContexts k k') (h' : SameContexts k' k'') :
    SameContexts k k'' where
  context := fun u => (h'.context u).trans (h.context u)
  entry := fun u => (h'.entry u).trans (h.entry u)
  regs := h'.regs.trans h.regs

theorem sameContexts_setState (k : Kernel) (t : TaskRef) (s : State) : SameContexts k (k.setState t s) where
  context := fun _ => setState_context ..
  entry := fun _ => setState_entry ..
  regs := rfl

/-- The scheduler's part of two kernels is the same: who runs, who waits in which order, and all states. -/
structure SameSchedule (k k' : Kernel) : Prop where
  current : RunQueue.current k = RunQueue.current k'
  ready : ∀ q : List TaskRef, Ring k.nodes .head (q.map .runNode) ↔ Ring k'.nodes .head (q.map .runNode)
  state : ∀ t, (k.tasks t).state = (k'.tasks t).state

variable {k : Kernel} {a : Sched} {t p n : TaskRef}

theorem runNode_not_mem {l : List TaskRef} (ht : t ∉ l) : NodeRef.runNode t ∉ NodeRef.head :: l.map .runNode := by
  intro hm
  rcases List.mem_cons.mp hm with he | hm
  · exact absurd he (by simp)
  · obtain ⟨u, hu, he⟩ := List.mem_map.mp hm
    cases he
    exact ht hu

/-- The pointers of the ready queue determine the tasks in it. -/
theorem queue_unique {σ : Nodes NodeRef} {l l' : List TaskRef} (hr : Ring σ .head (l.map .runNode))
    (hr' : Ring σ .head (l'.map .runNode)) : l = l' :=
  List.map_injective_iff.mpr (fun _ _ => NodeRef.runNode.inj) (hr.unique hr')

theorem Stores.empty_iff (h : Stores k a) : queueEmpty .head k.nodes = true ↔ a.ready = [] :=
  (listEmpty_ring h.ring).trans List.map_eq_nil_iff

theorem SameSchedule.of_rings {k' : Kernel} {l : List TaskRef} (hr : Ring k.nodes .head (l.map .runNode))
    (hr' : Ring k'.nodes .head (l.map .runNode)) (hcur : RunQueue.current k = RunQueue.current k')
    (hstate : ∀ t, (k.tasks t).state = (k'.tasks t).state) : SameSchedule k k' where
  current := hcur
  ready := fun _ => ⟨fun h => queue_unique hr h ▸ hr', fun h => queue_unique hr' h ▸ hr⟩
  state := hstate

/-! ## Writing a state or the current task -/

theorem Stores.setState (h : Stores k a) (t : TaskRef) (s : State) : Stores (k.setState t s) (a.mark t s) where
  ring := h.ring
  current := h.current
  idle := h.idle
  state := by
    intro u
    rw [setState_state, Sched.mark_state, h.state u]

theorem setCurrent_some (k : Kernel) (t : TaskRef) :
    RunQueue.setCurrent (some t) k = (true, { k with sCurrent := some t }) := by
  simp [RunQueue.setCurrent]

theorem Stores.setRunning (h : Stores k a) (t : TaskRef) :
    Stores { k.setState t .running with sCurrent := some t } (a.run t) := by
  have hs := h.setState t .running
  exact ⟨hs.ring, rfl, hs.state, hs.idle⟩

theorem sameContexts_setRunning (k : Kernel) (t : TaskRef) :
    SameContexts k { k.setState t .running with sCurrent := some t } := by
  have hs := sameContexts_setState k t .running
  exact ⟨hs.context, hs.entry, hs.regs⟩

/-! ## The run queue -/

theorem runQueue_init (hidle : k.sIdleTask = some 0) :
    Stores (RunQueue.init k) ⟨none, [], fun t => (k.tasks t).state⟩ :=
  ⟨listInit_ring NodeRef.head k.nodes, rfl, fun _ => rfl, hidle⟩

/-- **`push`** appends a task that is not queued. -/
theorem push_ring {l : List TaskRef} (hr : Ring k.nodes .head (l.map .runNode)) (ht : t ∉ l) :
    ∃ nodes, RunQueue.push (some t) k = some (true, { k.setState t .ready with nodes := nodes }) ∧
      Ring nodes .head ((l ++ [t]).map .runNode) := by
  obtain ⟨nodes, hpush, hring, _⟩ := listPushBack_ring hr (runNode_not_mem ht)
  refine ⟨nodes, by simp [RunQueue.push, queuePush, hpush], ?_⟩
  rw [List.map_append]
  exact hring

/-- **`push`** of a task that is queued returns all the same, and leaves no queue behind. -/
theorem push_linked {l : List TaskRef} (hr : Ring k.nodes .head (l.map .runNode)) (ht : t ∈ l) :
    ∃ nodes, RunQueue.push (some t) k = some (true, { k.setState t .ready with nodes := nodes }) ∧
      ∀ l' : List TaskRef, ¬ Ring nodes .head (l'.map .runNode) := by
  obtain ⟨nodes, hpush, hno⟩ := listPushBack_linked hr (List.mem_map_of_mem ht)
  exact ⟨nodes, by simp [RunQueue.push, queuePush, hpush], fun l' => hno (l'.map .runNode)⟩

/-- **`next`** takes the first waiting task, or returns null. -/
theorem next_ring {l : List TaskRef} (hr : Ring k.nodes .head (l.map .runNode)) :
    ∃ nodes, RunQueue.next k = some (l.head?, { k with nodes := nodes }) ∧
      Ring nodes .head (l.tail.map .runNode) := by
  obtain ⟨nodes, hpop, hring, _⟩ := queuePop_ring hr
  refine ⟨nodes, ?_, by rw [List.map_tail]; exact hring⟩
  rw [List.head?_map] at hpop
  cases hhead : l.head? with
  | none =>
      rw [hhead] at hpop
      simp [RunQueue.next, hpop]
  | some t =>
      rw [hhead] at hpop
      simp [RunQueue.next, hpop, containerOf]

theorem runQueue_push (h : Stores k a) (ht : t ∉ a.ready) :
    ∃ k', RunQueue.push (some t) k = some (true, k') ∧ Stores k' (a.push t) ∧ SameContexts k k' := by
  obtain ⟨nodes, hpush, hring⟩ := push_ring h.ring ht
  have hs := h.setState t .ready
  have hc := sameContexts_setState k t .ready
  exact ⟨_, hpush, ⟨hring, hs.current, hs.state, hs.idle⟩, ⟨hc.context, hc.entry, hc.regs⟩⟩

theorem runQueue_next (h : Stores k a) :
    ∃ k', RunQueue.next k = some (a.ready.head?, k') ∧ Stores k' a.pop ∧ SameContexts k k' := by
  obtain ⟨nodes, hnext, hring⟩ := next_ring h.ring
  exact ⟨_, hnext, ⟨hring, h.current, h.state, h.idle⟩, ⟨fun _ => rfl, fun _ => rfl, rfl⟩⟩

/-- `next` with its fallback to the idle task. -/
theorem next_or_idle (h : Stores k a) :
    (if a.ready.head? = none then TaskManager.idleTask k else a.ready.head?) = some a.pick := by
  rw [idleTask_eq, h.idle, Sched.pick]
  cases a.ready.head? with
  | none => rfl
  | some t => rfl

/-! ## The switch -/

/-- What a switch from `p` to `n` does to contexts and registers. -/
structure Switched (k k' : Kernel) (prev : Option TaskRef) (n : TaskRef) : Prop where
  saved : ∀ p, prev = some p → (k'.tasks p).context = Context.ofRegs k.regs
  others : ∀ u, prev ≠ some u → (k'.tasks u).context = (k.tasks u).context
  entry : ∀ u, (k'.tasks u).entry = (k.tasks u).entry
  loaded : k'.regs = (k'.tasks n).context.regs

theorem switchContext_stores (h : Stores k a) (prev : Option TaskRef) (n : TaskRef) :
    ∃ k', switchContext prev (some n) k = some k' ∧ Stores k' a ∧ Switched k k' prev n := by
  refine ⟨{ k with
    tasks := fun t => { k.tasks t with
      context := Function.update (contextAt k) prev (Context.ofRegs k.regs) (some t) }
    regs := (Function.update (contextAt k) prev (Context.ofRegs k.regs) (some n)).regs },
    ?_, ⟨h.ring, h.current, h.state, h.idle⟩, ?_⟩
  · rw [switchContext, contextSwitch_eq]; rfl
  · refine ⟨?_, ?_, fun _ => rfl, rfl⟩
    · rintro p rfl
      exact Function.update_self (some p) _ (contextAt k)
    · intro u hu
      exact Function.update_of_ne (Ne.symm hu) _ (contextAt k)

theorem Switched.of_same {k k₁ k' : Kernel} {prev : Option TaskRef} (hs : SameContexts k k₁)
    (h : Switched k₁ k' prev n) : Switched k k' prev n where
  saved := fun p hp => hs.regs ▸ h.saved p hp
  others := fun u hu => (h.others u hu).trans (hs.context u)
  entry := fun u => (h.entry u).trans (hs.entry u)
  loaded := h.loaded

/-! ## The scheduler -/

/-- **`start`** runs the first waiting task, or idle. -/
theorem start_stores (h : Stores k a) :
    ∃ k', Scheduler.start k = some k' ∧ Stores k' (a.pop.run a.pick) ∧ Switched k k' none a.pick := by
  obtain ⟨k₁, hnext, h₁, hs₁⟩ := runQueue_next h
  have hpick := next_or_idle h
  rw [idleTask_eq, h.idle, ← h₁.idle, ← idleTask_eq] at hpick
  obtain ⟨k', hsw, h', hswitched⟩ := switchContext_stores (h₁.setRunning a.pick) none a.pick
  refine ⟨k', ?_, h', hswitched.of_same (hs₁.trans (sameContexts_setRunning k₁ a.pick))⟩
  simp only [Scheduler.start, hnext, hpick, setCurrent_some, Option.bind_eq_bind, Option.bind_some]
  exact hsw

/-- **`reschedule`** is the round-robin step, and the switch that goes with it. A task that is put back must not
    be in the queue. -/
theorem reschedule_stores (h : Stores k a) (hcur : a.current = some p) (hp : a.Requeues p → p ∉ a.ready) :
    ∃ k', Scheduler.reschedule k = some k' ∧ Stores k' (a.reschedule p) ∧
      Switched k k' (some p) a.pick := by
  obtain ⟨k₁, hnext, h₁, hs₁⟩ := runQueue_next h
  have hpick := next_or_idle h
  rw [idleTask_eq, h.idle, ← h₁.idle, ← idleTask_eq] at hpick
  have hprev : RunQueue.current k = some p := h.current.trans hcur
  have hcond : (some p ≠ TaskManager.idleTask k₁ ∧ (k₁.tasks p).state = .running) ↔ a.Requeues p := by
    rw [idleTask_eq, h₁.idle, h₁.state, Sched.Requeues, Ne, Option.some.injEq]
    exact Iff.rfl
  by_cases hreq : a.Requeues p
  · have hmark := h₁.setState p .ready
    have hp' : p ∉ (a.pop.mark p .ready).ready := fun hm => hp hreq (List.mem_of_mem_tail hm)
    obtain ⟨k₂, hpush, h₂, hs₂⟩ := runQueue_push hmark hp'
    have hsched : (a.pop.mark p .ready).push p = a.pop.push p := by
      simp [Sched.mark, Sched.push, Function.update_idem]
    -- `push` sets the state that `reschedule` has just set
    rw [hsched] at h₂
    obtain ⟨k', hsw, h', hswitched⟩ := switchContext_stores (h₂.setRunning a.pick) (some p) a.pick
    have hsame := (hs₁.trans (sameContexts_setState k₁ p .ready)).trans hs₂
    refine ⟨k', ?_, ?_, hswitched.of_same (hsame.trans ?_)⟩
    · simp only [Scheduler.reschedule, hnext, hpick, hprev, Option.bind_eq_bind, Option.bind_some,
        if_pos (hcond.mpr hreq), hpush, setCurrent_some]
      exact hsw
    · rw [Sched.reschedule, if_pos hreq]; exact h'
    · exact sameContexts_setRunning k₂ a.pick
  · -- idle, or a task that exited, is not put back
    obtain ⟨k', hsw, h', hswitched⟩ := switchContext_stores (h₁.setRunning a.pick) (some p) a.pick
    refine ⟨k', ?_, ?_, hswitched.of_same (hs₁.trans (sameContexts_setRunning k₁ a.pick))⟩
    · simp only [Scheduler.reschedule, hnext, hpick, hprev, Option.bind_eq_bind, Option.bind_some,
        if_neg (hcond.not.mpr hreq), setCurrent_some]
      exact hsw
    · rw [Sched.reschedule, if_neg hreq]; exact h'

/-- **`create_kernel_task`** puts its task into no queue, and takes none out of it. -/
theorem Stores.create {sym : Symbols} {k' : Kernel} {entry stackBase stackSize : Word} (h : Stores k a)
    (hc : CreatedTask sym k k' t entry stackBase stackSize) (ht : t ∉ a.ready) : Stores k' (a.mark t .ready) := by
  refine ⟨h.ring.frame (fun m hm => hc.nodes m ?_), hc.current.trans h.current, fun u => ?_, hc.idle.trans h.idle⟩
  · -- the new task's node was in no list
    rintro rfl
    exact runNode_not_mem ht hm
  · rw [Sched.mark_state]
    by_cases hu : u = t
    · rw [if_pos hu, hu, hc.task]
    · rw [if_neg hu, hc.others u hu, h.state u]

/-- **`sys_exit`** marks the current task dead before it calls `reschedule`. -/
theorem markExit_stores (h : Stores k a) (hcur : a.current = some p) (code : Word) :
    ∃ k', markExit code k = some k' ∧ Stores k' (a.mark p .dead) ∧ SameContexts k k' := by
  obtain ⟨out, hout⟩ := Drivers.Uart.putDec_some (k.uart.puts (Drivers.literal "sys_exit, code = ")) code
  have hprev : k.sCurrent = some p := h.current.trans hcur
  refine ⟨{ k with uart := out.putc 10#8 }.setState p .dead, ?_, ?_, ?_⟩
  · simp [markExit, hout, RunQueue.current, hprev]
  · have hs := h.setState p .dead
    exact ⟨hs.ring, hs.current, hs.state, hs.idle⟩
  · have hs := sameContexts_setState k p .dead
    exact ⟨hs.context, hs.entry, hs.regs⟩

end Core
end RiscCore
