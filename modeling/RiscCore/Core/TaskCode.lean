import RiscCore.Core.RoundRobin
import RiscCore.Core.TaskTable
import RiscCore.Core.TrapRuns
import RiscCore.Core.WriteAbi
import RiscCore.Lib.Cooperative

/-!
# `Core.TaskCode` — what the tasks run (`kernel.cpp`, `bootstrap.cpp`, `idle_task_entry`)

The code of a task is a function of its registers: what it does next, and what is in the registers then. Its
stack is its own, so nothing else of it matters to the rest of the system. `Image` is the code at every entry
address; `TrapSys.code` runs the next statement of whoever is current, and `Moment` mixes these with timer
interrupts.

A `Thread` is a task as seen from outside, with the registers it goes on with. `Thread.act` is its next
statement as an act of `Lib.Cooperative`.
-/

namespace RiscCore
namespace Core

open Ds Circular Runs Drivers Cooperative

/-! ## Code -/

/-- The next thing a task does. `regs` is what it has in the registers after it, or when it makes the call. -/
inductive Stmt where
  | puts (s : List Byte) (regs : Regs)
  | wfi (regs : Regs)
  | yield (regs : Regs)
  | exit (code : Word) (regs : Regs)
  /-- The entry function returns, to `task_bootstrap_entry`. -/
  | ret (regs : Regs)

abbrev Image := Word → Regs → Stmt

/-- `r` with the place in the code. Which register holds it is up to the compiler. -/
def Regs.goto (r : Regs) (line : Word) : Regs := Function.update r .s0 line

/-- `idle_task_entry`. Its call of `reschedule` is commented out. -/
def idleTaskEntry (r : Regs) : Stmt :=
  if r .s0 = 0#64 then .puts (literal "enter idle task\n") (r.goto 1#64)
  else if r .s0 = 1#64 then .puts (literal "idle task\n") (r.goto 2#64)
  else .wfi (r.goto 1#64)

/-- It never calls the scheduler. -/
theorem idleTaskEntry_cases (r : Regs) :
    (∃ out regs, idleTaskEntry r = .puts out regs) ∨ ∃ regs, idleTaskEntry r = .wfi regs := by
  unfold idleTaskEntry
  split
  · exact Or.inl ⟨_, _, rfl⟩
  · split
    · exact Or.inl ⟨_, _, rfl⟩
    · exact Or.inr ⟨_, rfl⟩

/-- `task_A` and `task_B`. The loop variable is in `s1`. -/
def greeter (name : String) (code : Word) (r : Regs) : Stmt :=
  if r .s0 = 0#64 then .puts (literal ("task " ++ name ++ " init.\n")) (Regs.goto (Function.update r .s1 0#64) 1#64)
  else if r .s0 = 1#64 then
    if (r .s1).slt 5#64 then .puts (literal ("Hello from task_" ++ name ++ "\n")) (r.goto 2#64)
    else .exit code (Function.update r .s1 0#64)
  else .yield (Regs.goto (Function.update r .s1 (r .s1 + 1#64)) 1#64)

def taskA : Regs → Stmt := greeter "A" 233#64

def taskB : Regs → Stmt := greeter "B" 137#64

/-- The kernel image: the idle task is where the linker put it. -/
def image (sym : Symbols) (text : Image) : Image := Function.update text sym.idleTaskEntry idleTaskEntry

/-! ## The machine -/

variable {sym : Symbols} {text : Image} {k k' k₀ : Kernel} {s s' : TrapSys} {a : Sched} {c : Sys} {t p : TaskRef}

/-- The current task executes a statement. -/
def Stmt.exec (sym : Symbols) (s : TrapSys) : Stmt → Option TrapSys
  | .puts out regs => some { s with sys := ⟨{ s.sys.k with regs := regs, uart := s.sys.k.uart.puts out }, s.sys.h⟩ }
  | .wfi regs => s.step sym (.call (.work regs))
  | .yield regs => do
    let s ← s.step sym (.call (.work regs))
    s.step sym (.call .yield)
  | .exit code regs => do
    let s ← s.step sym (.call (.work regs))
    s.step sym (.call (.exit code))
  -- `task_bootstrap_entry` goes on with `sys_exit(255)`
  | .ret regs => do
    let s ← s.step sym (.call (.work regs))
    s.step sym (.call (.exit 255#64))

/-- The next statement of the current task, whose entry `task_bootstrap_entry` has called. -/
def TrapSys.code (sym : Symbols) (text : Image) (s : TrapSys) : Option TrapSys := do
  let entry ← bootstrapCallee s.sys.k
  (image sym text entry s.sys.k.regs).exec sym s

/-- A moment of the machine: code runs, or the timer interrupts it. -/
inductive Moment where
  | code
  | timer (tf : TrapFrame) (is : Cause.timer.Is tf.mcause) (bus : Bus) (regs : Regs)

def Moment.step (sym : Symbols) (text : Image) (s : TrapSys) : Moment → Option TrapSys
  | .code => s.code sym text
  | .timer tf _ bus regs => s.step sym (.trap tf bus regs)

/-- What a task other than idle has sent in this moment. The handler's text is not a task's. -/
def Moment.said (s s' : TrapSys) : Moment → List Byte
  | .code =>
    if RunQueue.current s.sys.k = TaskManager.idleTask s.sys.k then []
    else s'.sys.k.uart.drop s.sys.k.uart.length
  | .timer _ _ _ _ => []

def Moment.call (sym : Symbols) (text : Image) (s : TrapSys) (m : Moment) : Option (List Byte × TrapSys) := do
  let s' ← m.step sym text s
  return (m.said s s', s')

/-- How many statements a run executes. -/
def Moment.statements : List Moment → Nat
  | [] => 0
  | .code :: ms => statements ms + 1
  | .timer _ _ _ _ :: ms => statements ms

/-! ## Threads -/

/-- A task, its entry, and the registers it goes on with. -/
structure Thread where
  task : TaskRef
  entry : Word
  regs : Regs

/-- Where a task stands: the current one has the registers of the processor, the others those of their context. -/
def standing (k : Kernel) (t : TaskRef) : Thread where
  task := t
  entry := (k.tasks t).entry
  regs := if k.sCurrent = some t then k.regs else (k.tasks t).context.regs

/-- What `sys_exit` prints. -/
def exitText (code : Word) : List Byte :=
  (literal "sys_exit, code = ").flatMap expandNewline ++ Uart.decimal code ++ expandNewline 10#8

/-- A statement as an act. -/
def Stmt.act (th : Thread) : Stmt → Act Thread Byte
  | .puts out regs => .emits (out.flatMap expandNewline) { th with regs := regs }
  | .wfi regs => .emits [] { th with regs := regs }
  | .yield regs => .yields { th with regs := regs }
  | .exit code _ => .exits (exitText code)
  | .ret _ => .exits (exitText 255#64)

/-- The next act of a task. -/
def Thread.act (text : Image) (th : Thread) : Act Thread Byte := (text th.entry th.regs).act th

/-- **What the kernel shows of a pool**: who runs and where it stands, and who waits in which order. -/
def Shows (k : Kernel) : Pool Thread → Prop
  | .busy th l => ∃ (p : TaskRef) (q : List TaskRef), RunQueue.current k = some p ∧
      RunQueue.current k ≠ TaskManager.idleTask k ∧ Ring k.nodes .head (q.map .runNode) ∧ standing k p = th ∧
      q.map (standing k) = l
  | .idle l => ∃ q : List TaskRef, RunQueue.current k = TaskManager.idleTask k ∧
      Ring k.nodes .head (q.map .runNode) ∧ q.map (standing k) = l

/-! ## Output -/

theorem puts_eq (out : Uart) (s : List Byte) : out.puts s = out ++ s.flatMap expandNewline := by
  induction s generalizing out with
  | nil => exact (List.append_nil out).symm
  | cons ch s ih =>
      show (out.putc ch).puts s = _
      rw [ih, putc_eq, List.flatMap_cons, List.append_assoc]

theorem next_uart {next : Option TaskRef} (h : RunQueue.next k = some (next, k')) : k'.uart = k.uart := by
  obtain ⟨⟨node, nodes⟩, _, h⟩ := Option.bind_eq_some_iff.mp h
  cases node with
  | none =>
      obtain ⟨_, rfl⟩ := Prod.mk.inj (Option.some.inj h)
      rfl
  | some n =>
      obtain ⟨task, _, h⟩ := Option.bind_eq_some_iff.mp h
      obtain ⟨_, rfl⟩ := Prod.mk.inj (Option.some.inj h)
      rfl

theorem push_uart {b : Bool} (h : RunQueue.push (some t) k = some (b, k')) : k'.uart = k.uart := by
  obtain ⟨nodes, _, h⟩ := Option.bind_eq_some_iff.mp h
  obtain ⟨_, rfl⟩ := Prod.mk.inj (Option.some.inj h)
  rfl

theorem switchTo_uart {prev : Option TaskRef} {n : TaskRef}
    (h : switchContext prev (some n) (RunQueue.setCurrent (some n) (k.setState n .running)).2 = some k') :
    k'.uart = k.uart := by
  unfold switchContext at h
  obtain ⟨s, _, h⟩ := Option.bind_eq_some_iff.mp h
  obtain rfl := Option.some.inj h
  rw [setCurrent_some]
  rfl

/-- The scheduler prints nothing. -/
theorem reschedule_uart (h : Scheduler.reschedule k = some k') : k'.uart = k.uart := by
  obtain ⟨⟨next, k₁⟩, hnext, h⟩ := Option.bind_eq_some_iff.mp h
  have h₁ := next_uart hnext
  dsimp only at h
  split at h
  · split at h
    · obtain ⟨⟨b, k₂⟩, hpush, h⟩ := Option.bind_eq_some_iff.mp h
      exact (switchTo_uart h).trans ((push_uart hpush).trans h₁)
    · exact (switchTo_uart h).trans h₁
  · obtain rfl := Option.some.inj h
    exact h₁

theorem markExit_uart {code : Word} (h : markExit code k = some k') : k'.uart = k.uart ++ exitText code := by
  obtain ⟨out, hout, h⟩ := Option.bind_eq_some_iff.mp h
  rw [Uart.putDec_eq, puts_eq] at hout
  obtain rfl := Option.some.inj hout
  have htext : (k.uart ++ (literal "sys_exit, code = ").flatMap expandNewline ++ Uart.decimal code).putc 10#8 =
      k.uart ++ exitText code := by
    rw [putc_eq, exitText, List.append_assoc, List.append_assoc, List.append_assoc]
  dsimp only at h
  rw [htext] at h
  split at h
  · obtain rfl := Option.some.inj h
    rfl
  · obtain rfl := Option.some.inj h
    rfl

theorem sysExit_uart {code : Word} (h : sysExit code k = some k') : k'.uart = k.uart ++ exitText code := by
  obtain ⟨k₁, hmark, h⟩ := Option.bind_eq_some_iff.mp h
  rw [reschedule_uart h, markExit_uart hmark]

end Core
end RiscCore
