import Mathlib.Algebra.GroupWithZero.Nat
import RiscCore.Core.Switch
import RiscCore.Drivers.Uart
import RiscCore.Ds.List

/-!
# `Core.Task` — the kernel state and the task table (`kernel/core/task`)

`Kernel` collects the globals of the task manager and the run queue, the registers that `context_switch`
moves, and the serial output. A `Task*` is the index of its slot; the `run_node`s and the sentinel of the
ready queue live in one memory `nodes`, so that links between them are plain pointers.
-/

namespace RiscCore
namespace Core

open Ds Drivers

inductive State where
  | empty | ready | running | blocked | dead
deriving DecidableEq, Repr

abbrev kMaxTasks : Nat := 32

instance : NeZero kMaxTasks := ⟨by decide⟩

/-- A non-null `Task*`: a slot of `s_tasks`. -/
abbrev TaskRef := Fin kMaxTasks

/-- `Task`; its `run_node` is in `Kernel.nodes`. -/
structure Task where
  id : BitVec 32
  state : State
  context : Context
  entry : Word
  stackBase : Word
  stackSize : Word
deriving DecidableEq

/-- The addresses of list nodes: the ready queue's `m_head`, and each task's `run_node`. -/
inductive NodeRef where
  | head
  | runNode (task : TaskRef)
deriving DecidableEq

/-- What the linker fixes. -/
structure Symbols where
  taskEntryTrampoline : Word
  idleTaskEntry : Word
  idleStack : Word
  idleStack_ne : idleStack ≠ 0#64

/-- The globals of the task manager and of the run queue, the processor and the output. -/
structure Kernel where
  tasks : TaskRef → Task
  sIdleTask : Option TaskRef
  sNextId : BitVec 32
  sCurrent : Option TaskRef
  nodes : Nodes NodeRef
  regs : Regs
  uart : Uart

namespace Kernel

def setTask (k : Kernel) (t : TaskRef) (x : Task) : Kernel := { k with tasks := Function.update k.tasks t x }

/-- `task->state = s`. -/
def setState (k : Kernel) (t : TaskRef) (s : State) : Kernel := k.setTask t { k.tasks t with state := s }

end Kernel

/-- The context of a task that has not run: the first switch returns into the trampoline. -/
def initialContext (sym : Symbols) (stackBase stackSize : Word) : Context where
  ra := sym.taskEntryTrampoline
  sp := (stackBase + stackSize) &&& ~~~0xF#64
  s0 := 0#64
  s1 := 0#64
  s2 := 0#64
  s3 := 0#64
  s4 := 0#64
  s5 := 0#64
  s6 := 0#64
  s7 := 0#64
  s8 := 0#64
  s9 := 0#64
  s10 := 0#64
  s11 := 0#64

namespace TaskManager

/-- The first empty slot. -/
def findEmpty (k : Kernel) : Option TaskRef :=
  (List.finRange kMaxTasks).find? fun i => (k.tasks i).state = .empty

/-- Null without a stack or without an empty slot; nothing is written then. -/
def createKernelTask (sym : Symbols) (k : Kernel) (entry stackBase stackSize : Word) : Option TaskRef × Kernel :=
  if stackBase = 0#64 ∨ stackSize = 0#64 then
    (none, k)
  else
    match findEmpty k with
    | none => (none, k)
    | some task =>
      (some task,
        { k.setTask task
            { id := k.sNextId
              state := .ready
              context := initialContext sym stackBase stackSize
              entry := entry
              stackBase := stackBase
              stackSize := stackSize } with
          sNextId := k.sNextId + 1
          nodes := (k.nodes.setPrev (.runNode task) none).setNext (.runNode task) none })

def kIdleStackSize : Word := 256#64

/-- Clears the table and makes the idle task, which takes the first slot. -/
def init (sym : Symbols) (k : Kernel) : Kernel :=
  -- `init` resets these fields only; `context`, `id` and `run_node` keep what they held
  let cleared : Kernel :=
    { k with
      sNextId := 1#32
      tasks := fun i =>
        { k.tasks i with state := .empty, stackBase := 0#64, stackSize := 0#64, entry := 0#64 } }
  let (idle, k') := createKernelTask sym cleared sym.idleTaskEntry sym.idleStack kIdleStackSize
  { k' with sIdleTask := idle }

def idleTask (k : Kernel) : Option TaskRef :=
  if k.sIdleTask ≠ none then k.sIdleTask else none

end TaskManager

/-! ## Reading after a write -/

@[simp] theorem setTask_self (k : Kernel) (t : TaskRef) (x : Task) : (k.setTask t x).tasks t = x := by
  simp [Kernel.setTask]

theorem setTask_of_ne (k : Kernel) {t u : TaskRef} (x : Task) (h : u ≠ t) :
    (k.setTask t x).tasks u = k.tasks u := by
  simp [Kernel.setTask, h]

theorem setState_tasks (k : Kernel) (t u : TaskRef) (s : State) :
    (k.setState t s).tasks u = if u = t then { k.tasks t with state := s } else k.tasks u := by
  by_cases h : u = t
  · subst h; simp [Kernel.setState]
  · rw [if_neg h]; exact setTask_of_ne k _ h

@[simp] theorem setState_context (k : Kernel) (t u : TaskRef) (s : State) :
    ((k.setState t s).tasks u).context = (k.tasks u).context := by
  rw [setState_tasks]
  split
  · rename_i h; rw [h]
  · rfl

@[simp] theorem setState_entry (k : Kernel) (t u : TaskRef) (s : State) :
    ((k.setState t s).tasks u).entry = (k.tasks u).entry := by
  rw [setState_tasks]
  split
  · rename_i h; rw [h]
  · rfl

theorem setState_state (k : Kernel) (t u : TaskRef) (s : State) :
    ((k.setState t s).tasks u).state = if u = t then s else (k.tasks u).state := by
  rw [setState_tasks]
  split
  · rfl
  · rfl

@[simp] theorem setState_nodes (k : Kernel) (t : TaskRef) (s : State) : (k.setState t s).nodes = k.nodes := rfl
@[simp] theorem setState_sCurrent (k : Kernel) (t : TaskRef) (s : State) :
    (k.setState t s).sCurrent = k.sCurrent := rfl
@[simp] theorem setState_sIdleTask (k : Kernel) (t : TaskRef) (s : State) :
    (k.setState t s).sIdleTask = k.sIdleTask := rfl
@[simp] theorem setState_regs (k : Kernel) (t : TaskRef) (s : State) : (k.setState t s).regs = k.regs := rfl

theorem idleTask_eq (k : Kernel) : TaskManager.idleTask k = k.sIdleTask := by
  unfold TaskManager.idleTask
  split
  · rfl
  · rename_i h; exact (not_not.mp h).symm

/-! ## `create_kernel_task` -/

variable {sym : Symbols} {k : Kernel} {entry stackBase stackSize : Word}

/-- **What a successful `create_kernel_task` does:** an empty slot is a ready task with the next id, and nothing else
changes but the id counter and the links of that slot. -/
structure CreatedTask (sym : Symbols) (k k' : Kernel) (t : TaskRef) (entry stackBase stackSize : Word) : Prop where
  before : (k.tasks t).state = .empty
  task : k'.tasks t = ⟨k.sNextId, .ready, initialContext sym stackBase stackSize, entry, stackBase, stackSize⟩
  others : ∀ u, u ≠ t → k'.tasks u = k.tasks u
  nextId : k'.sNextId = k.sNextId + 1
  idle : k'.sIdleTask = k.sIdleTask
  current : k'.sCurrent = k.sCurrent
  nodes : ∀ n, n ≠ .runNode t → k'.nodes n = k.nodes n

theorem createKernelTask_some {k' : Kernel} {t : TaskRef}
    (h : TaskManager.createKernelTask sym k entry stackBase stackSize = (some t, k')) :
    CreatedTask sym k k' t entry stackBase stackSize := by
  unfold TaskManager.createKernelTask at h
  split at h
  · cases h
  · split at h
    · cases h
    · rename_i slot hfind
      obtain ⟨ht, rfl⟩ := Prod.mk.inj h
      obtain rfl := Option.some.inj ht
      have hempty : (k.tasks slot).state = .empty := by simpa using List.find?_some hfind
      refine ⟨hempty, setTask_self k slot _, fun u hu => setTask_of_ne k _ hu, rfl, rfl, rfl, fun n hn => ?_⟩
      show (k.nodes.setPrev (.runNode slot) none).setNext (.runNode slot) none n = k.nodes n
      rw [setNext_of_ne _ _ hn, setPrev_of_ne _ _ hn]

/-- A call that returns null writes nothing. -/
theorem createKernelTask_none {k' : Kernel}
    (h : TaskManager.createKernelTask sym k entry stackBase stackSize = (none, k')) : k' = k := by
  unfold TaskManager.createKernelTask at h
  split at h
  · exact (Prod.mk.inj h).2.symm
  · split at h
    · exact (Prod.mk.inj h).2.symm
    · cases h

/-- After `TaskManager::init` slot 0 is the idle task and all other slots are empty. -/
theorem init_spec (sym : Symbols) (k : Kernel) :
    (TaskManager.init sym k).sIdleTask = some 0 ∧
    ((TaskManager.init sym k).tasks 0).state = .ready ∧
    ((TaskManager.init sym k).tasks 0).entry = sym.idleTaskEntry ∧
    ((TaskManager.init sym k).tasks 0).context = initialContext sym sym.idleStack TaskManager.kIdleStackSize ∧
    ∀ u, u ≠ 0 → ((TaskManager.init sym k).tasks u).state = .empty := by
  have hfind : ∀ k' : Kernel, (k'.tasks 0).state = .empty → TaskManager.findEmpty k' = some 0 := by
    intro k' h
    have hrange : List.finRange kMaxTasks = 0 :: (List.finRange kMaxTasks).tail := by decide
    rw [TaskManager.findEmpty, hrange, List.find?_cons, h]
    simp
  have hguard : ¬ (sym.idleStack = 0#64 ∨ TaskManager.kIdleStackSize = 0#64) := by
    rintro (h | h)
    · exact sym.idleStack_ne h
    · exact absurd h (by decide)
  unfold TaskManager.init TaskManager.createKernelTask
  simp only [if_neg hguard]
  rw [hfind _ rfl]
  refine ⟨rfl, ?_, ?_, ?_, ?_⟩
  · simp [Kernel.setTask]
  · simp [Kernel.setTask]
  · simp [Kernel.setTask]
  · intro u hu
    simp [Kernel.setTask, hu]

end Core
end RiscCore
