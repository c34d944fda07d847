import RiscCore.Core.SchedRuns

/-!
# `Core.SchedSafety` — what holds over whole runs of the scheduler

The run theorems, read off `Good`: no task is lost or queued twice, nobody but the current task runs (idle
keeps the state it was switched out with), registers survive any schedule, and when `reschedule` is work
conserving.
-/

namespace RiscCore
namespace Core

open Ds Circular Runs

variable {sym : Symbols} {k₀ : Kernel} {c : Sys} {a : Sched}

/-! ## A system to try things on -/

def testSymbols : Symbols where
  taskEntryTrampoline := 0x80000100#64
  idleTaskEntry := 0x80000200#64
  idleStack := 0x80001000#64
  idleStack_ne := by decide

/-- Zeroed memory. -/
def blankKernel : Kernel where
  tasks := fun _ => ⟨0#32, .empty, bootCtx, 0#64, 0#64, 0#64⟩
  sIdleTask := none
  sNextId := 0#32
  sCurrent := none
  nodes := fun _ => ⟨none, none⟩
  regs := fun _ => 0#64
  uart := []

abbrev testBoot : Sys := Sys.boot testSymbols blankKernel

/-- One task, created and queued. -/
def oneTask : List SchedOp := [.create 0x80000300#64 0x80010000#64 0x400#64, .push 1]

/-- Two tasks, created and queued. -/
def twoTasks : List SchedOp := oneTask ++ [.create 0x80000400#64 0x80011000#64 0x400#64, .push 2]

/-! ## No task is lost or duplicated -/

/-- **No task is lost or duplicated.** In every state after `start` the ready queue is a well-formed ring of
    distinct tasks that are ready, not current and not idle; a task that was pushed and has not exited is
    queued or current, not both; a task that exited is dead, not queued and not current; no call faults. -/
theorem no_task_lost (hr : Reach (Sys.step sym) Sys.Permitted (Sys.boot sym k₀) c)
    (hst : c.h.started = true) : ∃ q : List TaskRef,
    Ring c.k.nodes .head (q.map .runNode) ∧ q.Nodup ∧
    (∀ t ∈ q, (c.k.tasks t).state = .ready ∧ RunQueue.current c.k ≠ some t ∧
      TaskManager.idleTask c.k ≠ some t ∧ (c.k.tasks t).state ≠ .dead) ∧
    (∀ t, c.h.pushed t = true → c.h.exited t = false → (t ∈ q ↔ RunQueue.current c.k ≠ some t)) ∧
    (∀ t, c.h.exited t = true → (c.k.tasks t).state = .dead ∧ t ∉ q ∧ RunQueue.current c.k ≠ some t) ∧
    (∃ p, RunQueue.current c.k = some p) ∧
    ∀ op, c.Permitted op → ∃ c', c.step sym op = some c' := by
  obtain ⟨a, hg⟩ := good_reach hr
  have hcur : RunQueue.current c.k = a.current := hg.stores.current
  have hidle : TaskManager.idleTask c.k = some 0 := (idleTask_eq c.k).trans hg.stores.idle
  rw [hcur, hidle]
  refine ⟨a.ready, hg.stores.ring, hg.sane.nodup, fun t ht => ?_, fun t hp hex => ?_, fun t hex => ?_, ?_, ?_⟩
  · obtain ⟨_, _, hready, hc⟩ := hg.sane.queued t ht
    have hstate : (c.k.tasks t).state = .ready := (hg.stores.state t).trans hready
    refine ⟨hstate, hc, fun he => hg.sane.queued_ne_zero ht (Option.some.inj he).symm, ?_⟩
    rw [hstate]; decide
  · refine ⟨fun ht => (hg.sane.queued t ht).2.2.2, fun hc => ?_⟩
    exact (hg.sane.live t hp hex).resolve_right hc
  · obtain ⟨_, hdead⟩ := hg.sane.dead t hex
    refine ⟨(hg.stores.state t).trans hdead, fun ht => ?_, fun hc => ?_⟩
    · rw [(hg.sane.queued t ht).2.1] at hex; exact absurd hex (by decide)
    · rw [hg.alive t hc] at hex; exact absurd hex (by decide)
  · exact Option.ne_none_iff_exists'.mp (hg.sane.started.mp hst)
  · intro op hok
    obtain ⟨c', _, hstep, _⟩ := hg.step hok
    exact ⟨c', hstep⟩

/-- Two tasks, and the first exits: it is dead and out of every list. -/
theorem no_task_lost_test : ∃ c, run (Sys.step testSymbols) testBoot (twoTasks ++ [.start, .exit 0#64]) = some c ∧
    (c.k.tasks 1).state = .dead ∧ RunQueue.current c.k ≠ some 1 := by
  have hrun : (run (Sys.step testSymbols) testBoot (twoTasks ++ [.start, .exit 0#64])).map
      (fun c => (c.h.started, c.h.exited 1)) = some (true, true) := by decide +kernel
  obtain ⟨c, hc, hfacts⟩ := Option.map_eq_some_iff.mp hrun
  have hok : Always (Sys.step testSymbols) Sys.Permitted testBoot (twoTasks ++ [.start, .exit 0#64]) := by
    decide +kernel
  obtain ⟨q, _, _, _, _, hdead, _⟩ := no_task_lost (Reach.of_run _ hok hc) (congrArg Prod.fst hfacts)
  obtain ⟨hstate, _, hcur⟩ := hdead 1 (congrArg Prod.snd hfacts)
  exact ⟨c, hc, hstate, hcur⟩

/-! ## Who runs -/

/-- **Only the current task and idle can be in state `Running`**, and the current task is. -/
theorem only_current_running (hr : Reach (Sys.step sym) Sys.Permitted (Sys.boot sym k₀) c)
    (hst : c.h.started = true) : ∃ t, RunQueue.current c.k = some t ∧ (c.k.tasks t).state = .running ∧
    ∀ u, u ≠ t → TaskManager.idleTask c.k ≠ some u → (c.k.tasks u).state ≠ .running := by
  obtain ⟨a, hg⟩ := good_reach hr
  obtain ⟨t, hat, hcur⟩ := hg.running hst
  refine ⟨t, hcur, ?_, fun u hne hidle hrun => ?_⟩
  · obtain ⟨_, hstate⟩ := hg.sane.current t hat
    rw [hg.alive t hat] at hstate
    exact (hg.stores.state t).trans hstate
  · -- slot 0 is the idle task, which the statement leaves out
    have hu0 : u ≠ 0 := by
      rintro rfl
      exact hidle ((idleTask_eq c.k).trans hg.stores.idle)
    have hau := hg.sane.only u hu0 ((hg.stores.state u).symm.trans hrun)
    exact hne (Option.some.inj (hau.symm.trans hat))

/-- With two tasks, after `start` and a `yield` the first task does not run. -/
theorem only_current_running_test : ∃ c, run (Sys.step testSymbols) testBoot (twoTasks ++ [.start, .yield]) = some c ∧
    (c.k.tasks 1).state ≠ .running := by
  have hrun : (run (Sys.step testSymbols) testBoot (twoTasks ++ [.start, .yield])).map
      (fun c => (c.h.started, RunQueue.current c.k, TaskManager.idleTask c.k)) = some (true, some 2, some 0) := by
    decide +kernel
  obtain ⟨c, hc, hfacts⟩ := Option.map_eq_some_iff.mp hrun
  obtain ⟨hst, hfacts⟩ := Prod.mk.inj hfacts
  obtain ⟨hcur, hidle⟩ := Prod.mk.inj hfacts
  have hok : Always (Sys.step testSymbols) Sys.Permitted testBoot (twoTasks ++ [.start, .yield]) := by
    decide +kernel
  obtain ⟨t, ht, _, honly⟩ := only_current_running (Reach.of_run _ hok hc) hst
  obtain rfl : (2 : TaskRef) = t := Option.some.inj (hcur.symm.trans ht)
  exact ⟨c, hc, honly 1 (by decide) (by rw [hidle]; decide)⟩

/-- Idle keeps the state `Running` when it hands over: two slots are in it at once. -/
theorem idle_stays_running : ∃ c, Reach (Sys.step testSymbols) Sys.Permitted testBoot c ∧ c.h.started = true ∧
    RunQueue.current c.k = some 1 ∧ (c.k.tasks 1).state = .running ∧ (c.k.tasks 0).state = .running := by
  have hrun : (run (Sys.step testSymbols) testBoot ([.start] ++ oneTask ++ [.yield])).map
      (fun c => (c.h.started, RunQueue.current c.k, (c.k.tasks 1).state, (c.k.tasks 0).state)) =
      some (true, some 1, .running, .running) := by decide +kernel
  obtain ⟨c, hc, hfacts⟩ := Option.map_eq_some_iff.mp hrun
  have hok : Always (Sys.step testSymbols) Sys.Permitted testBoot ([.start] ++ oneTask ++ [.yield]) := by
    decide +kernel
  obtain ⟨hst, hfacts⟩ := Prod.mk.inj hfacts
  obtain ⟨hcur, hfacts⟩ := Prod.mk.inj hfacts
  obtain ⟨h1, h0⟩ := Prod.mk.inj hfacts
  exact ⟨c, Reach.of_run _ hok hc, hst, hcur, h1, h0⟩

/-! ## Registers -/

/-- The operations that end in `context_switch`. -/
def Switches : SchedOp → Prop
  | .start => True
  | .yield => True
  | .exit _ => True
  | _ => False

/-- **Registers survive any schedule.** A permitted `start`, `yield` or `exit` returns, records the outgoing
    registers, and resumes some task: one that was switched out before has exactly the registers it had then;
    one that runs for the first time is in the trampoline on its own stack, with `s0` to `s11` zero, and the
    function the bootstrap code will call is its own. No other context is written. -/
theorem registers_isolated (hr : Reach (Sys.step sym) Sys.Permitted (Sys.boot sym k₀) c) {op : SchedOp}
    (hop : Switches op) (hok : c.Permitted op) : ∃ c', c.step sym op = some c' ∧ Resumes sym c c' ∧
    ∀ p, RunQueue.current c.k = some p → c'.h.saved p = some c.k.regs := by
  obtain ⟨a, hg⟩ := good_reach hr
  cases op with
  | create entry stackBase stackSize => exact hop.elim
  | push t => exact hop.elim
  | work regs => exact hop.elim
  | start =>
      obtain ⟨c', hstep, _, hres⟩ := hg.start hok
      -- `start` saves into `boot_ctx`: nobody was current
      refine ⟨c', hstep, hres, fun p hp => ?_⟩
      have hcur : a.current = some p := hg.stores.current.symm.trans hp
      have hstarted : c.h.started = true := hg.sane.started.mpr (by rw [hcur]; simp)
      rw [show c.h.started = false from hok] at hstarted
      exact absurd hstarted (by decide)
  | yield =>
      obtain ⟨c', p, hp, hstep, _, hres⟩ := hg.yield hok
      refine ⟨c', hstep, hres, fun p' hp' => ?_⟩
      obtain ⟨k', _, rfl⟩ : ∃ k', Scheduler.yield c.k = some k' ∧ ⟨k', c.h.save p' c.k.regs⟩ = c' := by
        simpa [Sys.step, hp', Option.bind_eq_some_iff] using hstep
      exact Function.update_self ..
  | exit code =>
      obtain ⟨c', p, hp, hstep, _, hres⟩ := hg.exit hok.1 hok.2 code
      refine ⟨c', hstep, hres, fun p' hp' => ?_⟩
      obtain ⟨k', _, rfl⟩ : ∃ k', sysExit code c.k = some k' ∧ ⟨k', (c.h.exit p').save p' c.k.regs⟩ = c' := by
        simpa [Sys.step, hp', Option.bind_eq_some_iff] using hstep
      exact Function.update_self ..

/-- The first switch enters the first of two tasks; when both have yielded it goes on with its own registers, not with
    what the second one left in them. -/
theorem registers_isolated_test :
    (∃ c c', run (Sys.step testSymbols) testBoot twoTasks = some c ∧ c.step testSymbols .start = some c' ∧
      c'.k.regs .ra = 0x80000100#64 ∧ c'.k.regs .sp = 0x80010400#64 ∧ bootstrapCallee c'.k = some 0x80000300#64) ∧
    ∃ c c', run (Sys.step testSymbols) testBoot
        (twoTasks ++ [.start, .work fun r => if r = .s5 then 5#64 else 7#64, .yield, .work fun _ => 9#64]) = some c ∧
      c.step testSymbols .yield = some c' ∧ c'.k.regs .s5 = 5#64 ∧ c'.k.regs .sp = 7#64 ∧
      c'.h.saved 2 = some c.k.regs := by
  constructor
  · have hrun : ((run (Sys.step testSymbols) testBoot twoTasks).bind fun c => (c.step testSymbols .start).map fun c' =>
        (c.h.started, RunQueue.current c'.k, (c'.h.saved 1).isNone, c'.h.made 1)) =
        some (false, some 1, true, some ⟨0x80000300#64, 0x80010000#64, 0x400#64⟩) := by decide +kernel
    obtain ⟨c, hc, hmap⟩ := Option.bind_eq_some_iff.mp hrun
    obtain ⟨c', hc', hfacts⟩ := Option.map_eq_some_iff.mp hmap
    obtain ⟨hst, hfacts⟩ := Prod.mk.inj hfacts
    obtain ⟨hcur, hfacts⟩ := Prod.mk.inj hfacts
    obtain ⟨hsaved, hmade⟩ := Prod.mk.inj hfacts
    have hok : Always (Sys.step testSymbols) Sys.Permitted testBoot twoTasks := by decide +kernel
    obtain ⟨c'', hstep, ⟨t, ht, _, hfirst, _⟩, _⟩ :=
      registers_isolated (Reach.of_run _ hok hc) (show Switches .start from trivial) hst
    obtain rfl : c' = c'' := Option.some.inj (hc'.symm.trans hstep)
    obtain rfl : (1 : TaskRef) = t := Option.some.inj (hcur.symm.trans ht)
    obtain ⟨m, hm, hra, hsp, _, hcallee⟩ := hfirst (Option.isNone_iff_eq_none.mp hsaved)
    obtain rfl := Option.some.inj (hmade.symm.trans hm)
    exact ⟨c, c', hc, hc', hra, hsp, hcallee⟩
  · have hrun : ((run (Sys.step testSymbols) testBoot (twoTasks ++
        [.start, .work fun r => if r = .s5 then 5#64 else 7#64, .yield, .work fun _ => 9#64])).bind fun c =>
        (c.step testSymbols .yield).map fun c' =>
          (c.h.started, RunQueue.current c.k, RunQueue.current c'.k, (c'.h.saved 1).map fun r => (r .s5, r .sp))) =
        some (true, some 2, some 1, some (5#64, 7#64)) := by decide +kernel
    obtain ⟨c, hc, hmap⟩ := Option.bind_eq_some_iff.mp hrun
    obtain ⟨c', hc', hfacts⟩ := Option.map_eq_some_iff.mp hmap
    obtain ⟨hst, hfacts⟩ := Prod.mk.inj hfacts
    obtain ⟨hleaves, hfacts⟩ := Prod.mk.inj hfacts
    obtain ⟨hcur, hsaved⟩ := Prod.mk.inj hfacts
    obtain ⟨r, hr, hvals⟩ := Option.map_eq_some_iff.mp hsaved
    obtain ⟨hs5, hsp⟩ := Prod.mk.inj hvals
    have hok : Always (Sys.step testSymbols) Sys.Permitted testBoot (twoTasks ++
        [.start, .work fun r => if r = .s5 then 5#64 else 7#64, .yield, .work fun _ => 9#64]) := by decide +kernel
    obtain ⟨c'', hstep, ⟨t, ht, hresume, _, _⟩, hleft⟩ :=
      registers_isolated (Reach.of_run _ hok hc) (show Switches .yield from trivial) hst
    obtain rfl : c' = c'' := Option.some.inj (hc'.symm.trans hstep)
    obtain rfl : (1 : TaskRef) = t := Option.some.inj (hcur.symm.trans ht)
    have hregs := hresume r hr
    exact ⟨c, c', hc, hc', by rw [hregs]; exact hs5, by rw [hregs]; exact hsp, hleft 2 hleaves⟩

/-! ## Work conservation -/

/-- The kernel on entry to `reschedule`, for the operations that call it. -/
def rescheduleEntry (c : Sys) : SchedOp → Option Kernel
  | .yield => some c.k
  | .exit code => markExit code c.k
  | _ => none

/-- The caller of `reschedule` is in state `Running`. -/
def callerRuns (e : Kernel) : Bool :=
  match RunQueue.current e with
  | some p => (e.tasks p).state = .running
  | none => false

/-- **Work conservation of one step.** `reschedule` makes idle current only when the ready queue is empty and
    the caller is idle or no longer running. -/
def WorkConserving (c : Sys) (op : SchedOp) : Prop :=
  ∀ e ∈ rescheduleEntry c op, ∀ k' ∈ Scheduler.reschedule e, RunQueue.current k' = TaskManager.idleTask k' →
    queueEmpty .head e.nodes = true ∧ (RunQueue.current e = TaskManager.idleTask e ∨ callerRuns e = false)

/-- Whoever enters `reschedule` while it runs, idle apart, leaves somebody in the queue to take over. -/
def Relieved (c : Sys) (op : SchedOp) : Prop :=
  ∀ e ∈ rescheduleEntry c op,
    queueEmpty .head e.nodes = false ∨ RunQueue.current e = TaskManager.idleTask e ∨ callerRuns e = false

instance (c : Sys) (op : SchedOp) : Decidable (WorkConserving c op) :=
  inferInstanceAs (Decidable (∀ e ∈ rescheduleEntry c op, ∀ k' ∈ Scheduler.reschedule e,
    RunQueue.current k' = TaskManager.idleTask k' → _ ∧ (_ ∨ _)))

instance (c : Sys) (op : SchedOp) : Decidable (Relieved c op) :=
  inferInstanceAs (Decidable (∀ e ∈ rescheduleEntry c op, _ ∨ _ ∨ _))

/-- The kernel on entry stores a sane scheduler with a current task. -/
theorem Good.entry (hg : Good sym c a) {op : SchedOp} (hok : c.Permitted op) {e : Kernel}
    (he : e ∈ rescheduleEntry c op) : ∃ h a' p, Stores e a' ∧ Sane h a' ∧ a'.current = some p := by
  cases op with
  | yield =>
      obtain ⟨p, hp, _⟩ := hg.running hok
      obtain rfl : c.k = e := Option.some.inj he
      exact ⟨c.h, a, p, hg.stores, hg.sane, hp⟩
  | exit code =>
      obtain ⟨p, hp, hcur⟩ := hg.running hok.1
      have hp0 : p ≠ 0 := by
        rintro rfl
        exact hok.2 (hcur.trans ((idleTask_eq c.k).trans hg.stores.idle).symm)
      obtain ⟨k₁, hmark, h₁, _⟩ := markExit_stores hg.stores hp code
      obtain rfl : k₁ = e := Option.some.inj (hmark.symm.trans he)
      exact ⟨_, _, p, h₁, sane_exit hg.sane hp hp0, hp⟩
  | create entry stackBase stackSize => exact absurd he (by simp [rescheduleEntry])
  | push t => exact absurd he (by simp [rescheduleEntry])
  | start => exact absurd he (by simp [rescheduleEntry])
  | work regs => exact absurd he (by simp [rescheduleEntry])

/-- At every reachable state the two step properties agree. -/
theorem workConserving_iff_relieved (hr : Reach (Sys.step sym) Sys.Permitted (Sys.boot sym k₀) c) {op : SchedOp}
    (hok : c.Permitted op) : WorkConserving c op ↔ Relieved c op := by
  obtain ⟨a, hg⟩ := good_reach hr
  have hentry : ∀ e ∈ rescheduleEntry c op, ∃ k' ∈ Scheduler.reschedule e,
      (RunQueue.current k' = TaskManager.idleTask k' ↔ queueEmpty .head e.nodes = true) := by
    intro e he
    obtain ⟨h, a', p, hst, hsane, hp⟩ := hg.entry hok he
    obtain ⟨k', hre, hst', _⟩ := reschedule_stores hst hp (fun _ => hsane.current_not_queued hp)
    refine ⟨k', hre, ?_⟩
    have hcur : RunQueue.current k' = some a'.pick := hst'.current
    rw [hcur, idleTask_eq, hst'.idle, hst.empty_iff, Option.some.injEq]
    -- the idle task is never in the queue, so it is picked exactly from an empty one
    rcases pick_cases a' with ⟨hnil, hzero⟩ | hcons
    · exact ⟨fun _ => hnil, fun _ => hzero⟩
    · have hne : a'.pick ≠ 0 := hsane.queued_ne_zero (by rw [hcons]; exact List.mem_cons_self)
      exact ⟨fun hc => absurd hc hne, fun hc => absurd (hcons.symm.trans hc) (by simp)⟩
  constructor
  · intro hw e he
    obtain ⟨k', hre, hiff⟩ := hentry e he
    cases hq : queueEmpty .head e.nodes with
    | false => exact Or.inl rfl
    | true => exact Or.inr (hw e he k' hre (hiff.mpr hq)).2
  · intro hrel e he k' hre hidle
    obtain ⟨k'', hre', hiff⟩ := hentry e he
    obtain rfl : k' = k'' := Option.some.inj (hre.symm.trans hre')
    have hq := hiff.mp hidle
    refine ⟨hq, (hrel e he).resolve_left (fun hf => ?_)⟩
    rw [hq] at hf; exact absurd hf (by decide)

/-- **When the scheduler is work conserving.** A run is work conserving at every step iff nobody enters
    `reschedule` running, alone and not idle. -/
theorem workConserving_run_iff (ops : List SchedOp)
    (hok : Always (Sys.step sym) Sys.Permitted (Sys.boot sym k₀) ops) :
    Always (Sys.step sym) WorkConserving (Sys.boot sym k₀) ops ↔
      Always (Sys.step sym) Relieved (Sys.boot sym k₀) ops :=
  Always.congr (fun _ _ hr hop => workConserving_iff_relieved hr hop) ops Reach.refl hok

/-- Two tasks that relieve each other. -/
theorem workConserving_run_iff_test :
    Always (Sys.step testSymbols) WorkConserving testBoot (twoTasks ++ [.start, .yield, .yield]) :=
  (workConserving_run_iff (twoTasks ++ [.start, .yield, .yield]) (by decide +kernel)).mpr (by decide +kernel)

/-- A task that yields alone: idle takes over, and the task waits in the queue behind it. -/
theorem sole_task_loses_processor :
    Always (Sys.step testSymbols) Sys.Permitted testBoot (oneTask ++ [.start, .yield]) ∧
    ¬ Always (Sys.step testSymbols) WorkConserving testBoot (oneTask ++ [.start, .yield]) ∧
    (run (Sys.step testSymbols) testBoot (oneTask ++ [.start, .yield])).map (fun c =>
      (RunQueue.current c.k, (c.k.tasks 1).state, queueEmpty .head c.k.nodes)) = some (some 0, .ready, false) :=
  ⟨by decide +kernel, by decide +kernel, by decide +kernel⟩

end Core
end RiscCore
