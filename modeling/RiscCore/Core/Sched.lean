import RiscCore.Core.Task

/-!
# `Core.Sched` — run queue, scheduler, `sys_exit` (`kernel/core/sched`, `sys_exit.cpp`, `bootstrap.cpp`)

Each function takes the kernel state and returns the new one; `none` is a null dereference, or a list node
that is inside no task. `context_switch` hands the processor to another flow of control, so a function that
reaches it ends there: the state is the one the incoming task continues with.
-/

namespace RiscCore
namespace Core

open Ds Drivers

/-- `KERNEL_CONTAINER_OF(node, Task, run_node)`. The queue's own sentinel is in no task. -/
def containerOf : NodeRef → Option TaskRef
  | .head => none
  | .runNode t => some t

namespace RunQueue

def init (k : Kernel) : Kernel := { k with nodes := queueInit .head k.nodes, sCurrent := none }

/-- A null task is refused. The task's state is set before it is linked. -/
def push (task : Option TaskRef) (k : Kernel) : Option (Bool × Kernel) :=
  match task with
  | none => some (false, k)
  | some t => do
    let k := k.setState t .ready
    let nodes ← queuePush .head (some (.runNode t)) k.nodes
    return (true, { k with nodes := nodes })

def current (k : Kernel) : Option TaskRef := k.sCurrent

/-- A null task is refused and leaves the current one. -/
def setCurrent (task : Option TaskRef) (k : Kernel) : Bool × Kernel :=
  if task = none then (false, k) else (true, { k with sCurrent := task })

/-- Takes the first task out of the queue, null if there is none. -/
def next (k : Kernel) : Option (Option TaskRef × Kernel) := do
  let (node, nodes) ← queuePop .head k.nodes
  let k := { k with nodes := nodes }
  match node with
  | none => return (none, k)
  | some n =>
    let task ← containerOf n
    return (some task, k)

end RunQueue

/-- `Context boot_ctx{}`. -/
def bootCtx : Context := Context.ofRegs fun _ => 0#64

/-- What a `Context*` of the scheduler points to: a task's context, or (`none`) `boot_ctx`. -/
def contextAt (k : Kernel) : Option TaskRef → Context
  | none => bootCtx
  | some t => (k.tasks t).context

/-- `context_switch` on the kernel state. `boot_ctx` is on the stack of `start`; nobody loads it again. -/
def switchContext (current next : Option TaskRef) (k : Kernel) : Option Kernel := do
  let s ← contextSwitch current next ⟨contextAt k, k.regs⟩
  return { k with
    tasks := fun t => { k.tasks t with context := s.mem (some t) }
    regs := s.regs }

namespace Scheduler

def init (k : Kernel) : Kernel := RunQueue.init k

def start (k : Kernel) : Option Kernel := do
  let (next, k) ← RunQueue.next k
  let next := if next = none then TaskManager.idleTask k else next
  let (_, k) := RunQueue.setCurrent next k
  let n ← next
  let k := k.setState n .running
  switchContext none (some n) k

/-- The next task is taken out before the outgoing one is queued. -/
def reschedule (k : Kernel) : Option Kernel := do
  let prev := RunQueue.current k
  let (next, k) ← RunQueue.next k
  let next := if next = none then TaskManager.idleTask k else next
  match prev, next with
  | some p, some n =>
    let k ←
      -- the outgoing task goes back to the queue, unless it is idle or has stopped running
      if some p ≠ TaskManager.idleTask k ∧ (k.tasks p).state = .running then do
        let k := k.setState p .ready
        let (_, k) ← RunQueue.push (some p) k
        pure k
      else
        pure k
    let k := k.setState n .running
    let (_, k) := RunQueue.setCurrent (some n) k
    switchContext (some p) (some n) k
  -- no current task, or nobody to switch to
  | _, _ => return k

def yield (k : Kernel) : Option Kernel := reschedule k

end Scheduler

/-- `sys_exit` up to its call of `reschedule`. -/
def markExit (code : Word) (k : Kernel) : Option Kernel := do
  let out ← (k.uart.puts (literal "sys_exit, code = ")).putDec code
  let k := { k with uart := out.putc 10#8 }
  match RunQueue.current k with
  | some t => return k.setState t .dead
  | none => return k

/-- Ends in the context switch of `reschedule`, if there is one. -/
def sysExit (code : Word) (k : Kernel) : Option Kernel := do
  let k ← markExit code k
  Scheduler.reschedule k

/-- The function `task_bootstrap_entry` calls first. -/
def bootstrapCallee (k : Kernel) : Option Word := do
  let current ← RunQueue.current k
  return (k.tasks current).entry

end Core
end RiscCore
