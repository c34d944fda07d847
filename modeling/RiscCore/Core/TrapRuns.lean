import RiscCore.Core.SchedSafety
import RiscCore.Core.TrapEntry

/-!
# `Core.TrapRuns` — runs with traps

Between two calls of the scheduler a task may trap. A trap that comes back leaves the scheduler alone and ends
with `mret`; an `ecall` of `sys_exit` leaves the handler through `context_switch` and never sees its `mret`.
`TrapSys` is the system of `Core.SchedRuns` with the timer and `mstatus`; its runs mix calls and traps in any
order.

`Good` carries over (`trap_step`), and what a step does to `MIE` depends on that one distinction. The system call
`sys_yield` never gets as far as the scheduler.
-/

namespace RiscCore
namespace Core

open Ds Circular Runs

/-! ## `MIE` across a trap -/

theorem mie_takeTrap (m : Word) : mie (takeTrap m) = false := by
  unfold mie takeTrap
  rw [BitVec.getLsbD_or, BitVec.getLsbD_or, BitVec.getLsbD_and, BitVec.getLsbD_not]
  cases mie m with
  | true => simp [kMstatusMie, kMstatusMpie, kMstatusMpp]
  | false => simp [kMstatusMie, kMstatusMpie, kMstatusMpp]

theorem mpie_takeTrap (m : Word) : mpie (takeTrap m) = mie m := by
  unfold mpie takeTrap
  rw [BitVec.getLsbD_or, BitVec.getLsbD_or, BitVec.getLsbD_and, BitVec.getLsbD_not]
  cases mie m with
  | true => simp [kMstatusMie, kMstatusMpie, kMstatusMpp]
  | false => simp [kMstatusMie, kMstatusMpie, kMstatusMpp]

theorem mie_mretStatus (m : Word) : mie (mretStatus m) = mpie m := by
  unfold mie mretStatus
  rw [BitVec.getLsbD_or, BitVec.getLsbD_or, BitVec.getLsbD_and, BitVec.getLsbD_not]
  cases mpie m with
  | true => simp [kMstatusMie, kMstatusMpie, kMstatusMpp]
  | false => simp [kMstatusMie, kMstatusMpie, kMstatusMpp]

/-! ## The system -/

structure TrapSys where
  sys : Sys
  timer : KernelTimer
  mstatus : Word

/-- A call made in task code, or a trap taken there. `tf` holds the registers and the CSRs at the trap, `regs` is
what the handler has in the callee-saved registers should it get to `context_switch`. -/
inductive TrapOp where
  | call (op : SchedOp)
  | trap (tf : TrapFrame) (bus : Bus) (regs : Regs)

/-- An `ecall` whose number is that of `sys_exit`. -/
def TrapOp.ExitsByEcall : TrapOp → Prop
  | .call _ => False
  | .trap tf _ _ => Cause.ecall.Is tf.mcause ∧ tf.a7 = Syscall.Number.exit.value

instance (cause : Cause) (mcause : Word) : Decidable (cause.Is mcause) := by
  cases cause with
  | timer => exact inferInstanceAs (Decidable (_ ∧ _))
  | breakpoint => exact inferInstanceAs (Decidable (_ ∧ _))
  | ecall => exact inferInstanceAs (Decidable (_ ∧ _))

instance : DecidablePred TrapOp.ExitsByEcall
  | .call _ => isFalse id
  | .trap _ _ _ => inferInstanceAs (Decidable (_ ∧ _))

namespace TrapSys

/-- After `KernelTimer::init` and the bootstrap of the scheduler. -/
def boot (sym : Symbols) (k : Kernel) (timer : KernelTimer) (mstatus : Word) : TrapSys where
  sys := Sys.boot sym k
  timer := timer
  mstatus := mstatus ||| kMstatusMie

/-- What `trap_entry` makes of the handler's end. After `sys_exit` there is no `mret`, and the processor belongs to
the task that `reschedule` has picked. -/
def finish (s : TrapSys) (regs : Regs) : Outcome → Option TrapSys
  | .returns _ p => some
      { sys := ⟨{ p.k with regs := s.sys.k.regs }, s.sys.h⟩
        timer := p.timer
        mstatus := mretStatus (takeTrap s.mstatus) }
  | .exits p => do
    let t ← RunQueue.current s.sys.k
    return {
      sys := ⟨p.k, (s.sys.h.exit t).save t regs⟩
      timer := p.timer
      mstatus := takeTrap s.mstatus }
  | .waits _ => none

def step (sym : Symbols) (s : TrapSys) : TrapOp → Option TrapSys
  | .call op => (s.sys.step sym op).map fun c => { s with sys := c }
  | .trap tf bus regs => do
    let outcome ← trapHandle bus { tf with mstatus := takeTrap s.mstatus } ⟨{ s.sys.k with regs := regs }, s.timer⟩
    s.finish regs outcome

/-- Interrupts wait for `MIE`; a task that exits runs and is not idle. -/
def Permitted (s : TrapSys) : TrapOp → Prop
  | .call op => s.sys.Permitted op
  | .trap tf _ _ =>
    (Cause.timer.Is tf.mcause ∧ mie s.mstatus = true) ∨ Cause.breakpoint.Is tf.mcause ∨
    (Cause.ecall.Is tf.mcause ∧ (tf.a7 = Syscall.Number.exit.value →
      s.sys.h.started = true ∧ RunQueue.current s.sys.k ≠ TaskManager.idleTask s.sys.k))

instance (s : TrapSys) : ∀ op, Decidable (s.Permitted op)
  | .call op => inferInstanceAs (Decidable (s.sys.Permitted op))
  | .trap _ _ _ => inferInstanceAs (Decidable (_ ∨ _ ∨ _))

end TrapSys

variable {sym : Symbols} {k₀ : Kernel} {timer₀ : KernelTimer} {mstatus₀ : Word} {s : TrapSys} {a : Sched}

/-! ## One step -/

theorem Good.print {c : Sys} (hg : Good sym c a) (out : Drivers.Uart) : Good sym ⟨c.k.print out, c.h⟩ a :=
  hg.same_tasks c.k.regs out

/-- A trap that comes back has printed something, and its `mret` restores `MIE`. -/
theorem finish_returns (s : TrapSys) (regs : Regs) (tf : TrapFrame) (out : Drivers.Uart) (timer : KernelTimer) :
    (some (Outcome.returns tf ⟨({ s.sys.k with regs := regs } : Kernel).print out, timer⟩)).bind (s.finish regs) =
      some ⟨⟨s.sys.k.print out, s.sys.h⟩, timer, mretStatus (takeTrap s.mstatus)⟩ := rfl

theorem mie_mretStatus_takeTrap (m : Word) : mie (mretStatus (takeTrap m)) = mie m :=
  (mie_mretStatus (takeTrap m)).trans (mpie_takeTrap m)

/-- What a step leads to: a good system, with `MIE` as it was or, after an exit through `ecall`, cleared. -/
def Lands (sym : Symbols) (s : TrapSys) (op : TrapOp) (s' : TrapSys) : Prop :=
  (∃ a', Good sym s'.sys a') ∧ mie s'.mstatus = if op.ExitsByEcall then false else mie s.mstatus

theorem Lands.print (hg : Good sym s.sys a) {op : TrapOp} (hop : ¬ op.ExitsByEcall) (out : Drivers.Uart)
    (timer : KernelTimer) :
    Lands sym s op ⟨⟨s.sys.k.print out, s.sys.h⟩, timer, mretStatus (takeTrap s.mstatus)⟩ :=
  ⟨⟨a, hg.print out⟩, by rw [if_neg hop]; exact mie_mretStatus_takeTrap s.mstatus⟩

theorem not_exits_of_interrupt {tf : TrapFrame} {bus : Bus} {regs : Regs} (h : Cause.timer.Is tf.mcause) :
    ¬ (TrapOp.trap tf bus regs).ExitsByEcall := by
  rintro ⟨⟨hint, _⟩, _⟩
  rw [h.1] at hint
  cases hint

theorem not_exits_of_breakpoint {tf : TrapFrame} {bus : Bus} {regs : Regs} (h : Cause.breakpoint.Is tf.mcause) :
    ¬ (TrapOp.trap tf bus regs).ExitsByEcall := by
  rintro ⟨⟨_, hcode⟩, _⟩
  rw [h.2] at hcode
  exact absurd hcode (by decide)

/-- `sys_exit` inside the handler: the system takes its `exit` step, with what the handler has in the registers. -/
theorem exit_step (hg : Good sym s.sys a) (hst : s.sys.h.started = true)
    (hidle : RunQueue.current s.sys.k ≠ TaskManager.idleTask s.sys.k) (regs : Regs) (out : Drivers.Uart)
    (timer : KernelTimer) (code : Word) :
    ∃ k' s', sysExit code (({ s.sys.k with regs := regs } : Kernel).print out) = some k' ∧
      s.finish regs (.exits ⟨k', timer⟩) = some s' ∧ s'.mstatus = takeTrap s.mstatus ∧ ∃ a', Good sym s'.sys a' := by
  have hg' := (hg.work regs).print out
  obtain ⟨c', p, hp, hstep, hgood, _⟩ := hg'.exit hst hidle code
  have hcur : RunQueue.current s.sys.k = some p := hg.stores.current.trans hp
  obtain ⟨t, ht, hrest⟩ := Option.bind_eq_some_iff.mp hstep
  obtain ⟨k', hexit, hc'⟩ := Option.bind_eq_some_iff.mp hrest
  obtain rfl : p = t := Option.some.inj (hcur.symm.trans ht)
  obtain rfl := Option.some.inj hc'
  refine ⟨k', ⟨⟨k', (s.sys.h.exit p).save p regs⟩, timer, takeTrap s.mstatus⟩, hexit, ?_, rfl, _, hgood⟩
  unfold TrapSys.finish
  rw [hcur]
  rfl

/-- **One trap.** -/
theorem trap_step (hg : Good sym s.sys a) {tf : TrapFrame} {bus : Bus} {regs : Regs}
    (hok : s.Permitted (.trap tf bus regs)) :
    ∃ s', s.step sym (.trap tf bus regs) = some s' ∧ Lands sym s (.trap tf bus regs) s' := by
  have hstep : s.step sym (.trap tf bus regs) = (trapHandle bus { tf with mstatus := takeTrap s.mstatus }
      ⟨{ s.sys.k with regs := regs }, s.timer⟩).bind (s.finish regs) := rfl
  generalize htf : { tf with mstatus := takeTrap s.mstatus } = tf' at hstep
  have hmcause : tf'.mcause = tf.mcause := by rw [← htf]
  have ha7 : tf'.a7 = tf.a7 := by rw [← htf]
  rcases hok with ⟨htimer, _⟩ | hbreak | ⟨hecall, hexit⟩
  · obtain ⟨out, timer, htrap⟩ := trapHandle_timer (hmcause ▸ htimer) bus ⟨{ s.sys.k with regs := regs }, s.timer⟩
    rw [hstep, htrap]
    exact ⟨_, finish_returns s regs tf' out timer, Lands.print hg (not_exits_of_interrupt htimer) out timer⟩
  · obtain ⟨_, ⟨out, rfl⟩, htrap⟩ :=
      trapHandle_breakpoint (hmcause ▸ hbreak) bus ⟨{ s.sys.k with regs := regs }, s.timer⟩
    rw [hstep, htrap]
    exact ⟨_, finish_returns s regs _ out s.timer, Lands.print hg (not_exits_of_breakpoint hbreak) out s.timer⟩
  · obtain ⟨_, ⟨out, rfl⟩, htrap⟩ := trapHandle_ecall (hmcause ▸ hecall) bus ⟨{ s.sys.k with regs := regs }, s.timer⟩
    by_cases hnum : tf.a7 = Syscall.Number.exit.value
    · -- out of the handler through `context_switch`
      obtain ⟨hst, hidle⟩ := hexit hnum
      obtain ⟨k', s', hsys, hfinish, hmstatus, hgood⟩ := exit_step hg hst hidle regs out s.timer tf'.a0
      refine ⟨s', ?_, hgood, ?_⟩
      · rw [hstep, htrap, ecall_exit (ha7.trans hnum)]
        show ((sysExit tf'.a0 (({ s.sys.k with regs := regs } : Kernel).print out)).map _).bind _ = _
        rw [hsys]
        exact hfinish
      · rw [if_pos ⟨hecall, hnum⟩, hmstatus]
        exact mie_takeTrap s.mstatus
    · have hnum' : tf'.a7 ≠ Syscall.Number.exit.value := fun hc => hnum (ha7.symm.trans hc)
      obtain ⟨ret, _, ⟨out', rfl⟩, _, hreturn⟩ := ecall_returns hnum' bus
        ⟨({ s.sys.k with regs := regs } : Kernel).print out, s.timer⟩
      have hno : ¬ (TrapOp.trap tf bus regs).ExitsByEcall := fun hc => hnum hc.2
      rw [hstep, htrap, hreturn]
      exact ⟨_, finish_returns s regs _ out' s.timer, Lands.print hg hno out' s.timer⟩

/-- **One step**, call or trap. -/
theorem trapSys_step (hg : Good sym s.sys a) {op : TrapOp} (hok : s.Permitted op) :
    ∃ s', s.step sym op = some s' ∧ Lands sym s op s' := by
  cases op with
  | trap tf bus regs => exact trap_step hg hok
  | call op =>
      obtain ⟨c', a', hstep, hgood⟩ := hg.step hok
      refine ⟨{ s with sys := c' }, ?_, ⟨a', hgood⟩, (if_neg id).symm⟩
      show (s.sys.step sym op).map _ = _
      rw [hstep]
      rfl

/-! ## Runs -/

/-- **The scheduler survives traps.** -/
theorem trapSys_good (hr : Reach (TrapSys.step sym) TrapSys.Permitted (TrapSys.boot sym k₀ timer₀ mstatus₀) s) :
    ∃ a, Good sym s.sys a := by
  refine Reach.invariant (I := fun s : TrapSys => ∃ a, Good sym s.sys a) (good_reach Reach.refl) ?_ hr
  rintro t op u ⟨a, hg⟩ hok hstep
  obtain ⟨u', hstep', hgood, _⟩ := trapSys_step hg hok
  obtain rfl : u = u' := Option.some.inj (hstep.symm.trans hstep')
  exact hgood

theorem mie_boot (sym : Symbols) (k : Kernel) (timer : KernelTimer) (mstatus : Word) :
    mie (TrapSys.boot sym k timer mstatus).mstatus = true := by
  unfold mie TrapSys.boot
  rw [BitVec.getLsbD_or]
  simp [kMstatusMie]

/-- A permitted run does not get stuck. -/
theorem trapSys_run : ∀ (ops : List TrapOp) {s : TrapSys}, (∃ a, Good sym s.sys a) →
    Always (TrapSys.step sym) TrapSys.Permitted s ops → ∃ s', run (TrapSys.step sym) s ops = some s' := by
  intro ops
  induction ops with
  | nil => exact fun {s} _ _ => ⟨s, rfl⟩
  | cons op ops ih =>
      rintro s ⟨a, hg⟩ ⟨hok, hrest⟩
      obtain ⟨t, hstep, hgood, _⟩ := trapSys_step hg hok
      obtain ⟨s', hrun⟩ := ih hgood (hrest t hstep)
      refine ⟨s', ?_⟩
      unfold run
      rw [hstep]
      exact hrun

/-- `MIE` at the end of a run. -/
theorem mie_run : ∀ (ops : List TrapOp) {s s' : TrapSys}, (∃ a, Good sym s.sys a) → mie s.mstatus = true →
    Always (TrapSys.step sym) TrapSys.Permitted s ops → run (TrapSys.step sym) s ops = some s' →
      (mie s'.mstatus = true ↔ ∀ op ∈ ops, ¬ op.ExitsByEcall) := by
  have hcleared : ∀ (ops : List TrapOp) {s s' : TrapSys}, (∃ a, Good sym s.sys a) → mie s.mstatus = false →
      Always (TrapSys.step sym) TrapSys.Permitted s ops → run (TrapSys.step sym) s ops = some s' →
        mie s'.mstatus = false := by
    intro ops
    induction ops with
    | nil =>
        intro s s' _ hmie _ hrun
        exact Option.some.inj hrun ▸ hmie
    | cons op ops ih =>
        rintro s s' ⟨a, hg⟩ hmie ⟨hok, hrest⟩ hrun
        obtain ⟨t, hstep, hgood, hmie'⟩ := trapSys_step hg hok
        unfold run at hrun
        rw [hstep] at hrun
        refine ih hgood ?_ (hrest t hstep) hrun
        rw [hmie', hmie]
        exact ite_self false
  intro ops
  induction ops with
  | nil =>
      intro s s' _ hmie _ hrun
      obtain rfl := Option.some.inj hrun
      exact ⟨fun _ op hop => absurd hop List.not_mem_nil, fun _ => hmie⟩
  | cons op ops ih =>
      rintro s s' ⟨a, hg⟩ hmie ⟨hok, hrest⟩ hrun
      obtain ⟨t, hstep, hgood, hmie'⟩ := trapSys_step hg hok
      unfold run at hrun
      rw [hstep] at hrun
      rw [List.forall_mem_cons]
      by_cases hop : op.ExitsByEcall
      · -- from here on it stays cleared
        rw [if_pos hop] at hmie'
        rw [hcleared ops hgood hmie' (hrest t hstep) hrun]
        exact ⟨fun hc => absurd hc Bool.false_ne_true, fun hc => absurd hop hc.1⟩
      · rw [if_neg hop, hmie] at hmie'
        rw [ih hgood hmie' (hrest t hstep) hrun]
        exact (and_iff_right hop).symm

/-- **When interrupts stay enabled.** In every state of a run `MIE` is set iff nobody exits by `ecall`. -/
theorem interrupts_stay_enabled_iff (ops : List TrapOp)
    (hok : Always (TrapSys.step sym) TrapSys.Permitted (TrapSys.boot sym k₀ timer₀ mstatus₀) ops) :
    (∀ pre, pre <+: ops → ∀ s, run (TrapSys.step sym) (TrapSys.boot sym k₀ timer₀ mstatus₀) pre = some s →
      mie s.mstatus = true) ↔ ∀ op ∈ ops, ¬ op.ExitsByEcall := by
  have hgood : ∃ a, Good sym (TrapSys.boot sym k₀ timer₀ mstatus₀).sys a := good_reach Reach.refl
  have hmie := mie_boot sym k₀ timer₀ mstatus₀
  constructor
  · intro hall
    obtain ⟨s, hrun⟩ := trapSys_run ops hgood hok
    exact (mie_run ops hgood hmie hok hrun).mp (hall ops List.prefix_rfl s hrun)
  · rintro hno pre ⟨post, rfl⟩ s hrun
    exact (mie_run pre hgood hmie (Always.of_append pre hok) hrun).mpr
      fun op hop => hno op (List.mem_append_left post hop)

/-- A frame with this cause and this system call number. -/
def testFrame (mcause a7 : Word) : TrapFrame :=
  TrapFrame.ofHart ⟨fun r => if r = .a7 then a7 else 0#64, fun c => if c = .mcause then mcause else 0#64, 0#64,
    fun _ => 0#8⟩

/-- A trap of the test system. -/
def testTrap (mcause a7 : Word) : TrapOp := .trap (testFrame mcause a7) testBus fun _ => 0#64

abbrev testTrapBoot : TrapSys := TrapSys.boot testSymbols blankKernel ⟨0#64, 0#64, 0#64⟩ 0#64

/-- Two tasks, started; the first is at a breakpoint, is interrupted, and yields. -/
theorem interrupts_stay_enabled_iff_test : ∃ s, run (TrapSys.step testSymbols) testTrapBoot
    (twoTasks.map .call ++ [.call .start, testTrap 3#64 0#64, testTrap 0x8000000000000007#64 0#64, .call .yield]) =
      some s ∧ mie s.mstatus = true := by
  have hok : Always (TrapSys.step testSymbols) TrapSys.Permitted testTrapBoot (twoTasks.map .call ++
    [.call .start, testTrap 3#64 0#64, testTrap 0x8000000000000007#64 0#64, .call .yield]) := by decide +kernel
  have hno : ∀ op ∈ twoTasks.map TrapOp.call ++
      [.call .start, testTrap 3#64 0#64, testTrap 0x8000000000000007#64 0#64, .call .yield], ¬ op.ExitsByEcall := by
    decide +kernel
  obtain ⟨s, hrun⟩ := trapSys_run _ (good_reach Reach.refl) hok
  exact ⟨s, hrun, (interrupts_stay_enabled_iff _ hok).mpr hno _ List.prefix_rfl s hrun⟩

/-- Two tasks, and the first exits by `ecall`: the second runs with interrupts off. -/
theorem ecall_exit_disables_interrupts : ∃ s,
    Reach (TrapSys.step testSymbols) TrapSys.Permitted testTrapBoot s ∧ s.sys.h.started = true ∧
    RunQueue.current s.sys.k = some 2 ∧ mie s.mstatus = false := by
  have hrun : (run (TrapSys.step testSymbols) testTrapBoot
      (twoTasks.map .call ++ [.call .start, testTrap 11#64 2#64])).map (fun s =>
        (s.sys.h.started, RunQueue.current s.sys.k, mie s.mstatus)) = some (true, some 2, false) := by decide +kernel
  obtain ⟨s, hs, hfacts⟩ := Option.map_eq_some_iff.mp hrun
  obtain ⟨hst, hfacts⟩ := Prod.mk.inj hfacts
  obtain ⟨hcur, hmie⟩ := Prod.mk.inj hfacts
  have hok : Always (TrapSys.step testSymbols) TrapSys.Permitted testTrapBoot
    (twoTasks.map .call ++ [.call .start, testTrap 11#64 2#64]) := by decide +kernel
  exact ⟨s, Reach.of_run _ hok hs, hst, hcur, hmie⟩

/-! ## Two ways to yield -/

/-- **`sys_yield` does not yield.** The `ecall` comes back with the scheduler as it was; a direct call would have
made another task current. -/
theorem yield_paths_differ (hr : Reach (TrapSys.step sym) TrapSys.Permitted (TrapSys.boot sym k₀ timer₀ mstatus₀) s)
    (hst : s.sys.h.started = true) (hidle : RunQueue.current s.sys.k ≠ TaskManager.idleTask s.sys.k)
    (bus : Bus) {tf : TrapFrame} (hcause : Cause.ecall.Is tf.mcause) (ha7 : tf.a7 = Syscall.Number.yield.value) :
    ∃ tf' p k', trapHandle bus tf ⟨s.sys.k, s.timer⟩ = some (.returns tf' p) ∧ Scheduler.yield s.sys.k = some k' ∧
      SameSchedule p.k s.sys.k ∧ ¬ SameSchedule p.k k' := by
  obtain ⟨a, hg⟩ := trapSys_good hr
  obtain ⟨t, hcur, ht⟩ := hg.running hst
  obtain ⟨_, ⟨out, rfl⟩, htrap⟩ := trapHandle_ecall hcause bus ⟨s.sys.k, s.timer⟩
  obtain ⟨k', hyield, hstores, _⟩ := reschedule_stores hg.stores hcur (fun _ => hg.sane.current_not_queued hcur)
  have hreturn : handleEcallMmode bus tf ⟨s.sys.k.print out, s.timer⟩ =
      some (.returns { tf with a0 := 0#64, mepc := tf.mepc + 4#64 } ⟨s.sys.k.print out, s.timer⟩) := by
    unfold handleEcallMmode
    rw [dispatch_yield bus.ram ha7]
    rfl
  refine ⟨_, _, k', htrap.trans hreturn, hyield, ⟨rfl, fun _ => Iff.rfl, fun _ => rfl⟩, fun hsame => ?_⟩
  -- the picked task is idle or was waiting, and the current task is neither
  have hpicked : RunQueue.current k' = some a.pick := by
    refine hstores.current.trans ?_
    unfold Sched.reschedule
    split <;> rfl
  have hpick : a.pick = t := Option.some.inj (hpicked.symm.trans (hsame.current.symm.trans ht))
  rcases pick_cases a with ⟨_, hzero⟩ | hcons
  · refine hidle ?_
    rw [ht, ← hpick, hzero, idleTask_eq, hg.stores.idle]
  · refine hg.sane.current_not_queued hcur ?_
    rw [hcons, hpick]
    exact List.mem_cons_self

/-- Two tasks, the first at an `ecall` of `sys_yield`. -/
theorem yield_paths_differ_test : ∃ s, Reach (TrapSys.step testSymbols) TrapSys.Permitted testTrapBoot s ∧
    ∃ tf' p k', trapHandle testBus (testFrame 11#64 3#64) ⟨s.sys.k, s.timer⟩ = some (.returns tf' p) ∧
      Scheduler.yield s.sys.k = some k' ∧ ¬ SameSchedule p.k k' := by
  have hrun : (run (TrapSys.step testSymbols) testTrapBoot (twoTasks.map .call ++ [.call .start])).map (fun s =>
      (s.sys.h.started, RunQueue.current s.sys.k, TaskManager.idleTask s.sys.k)) = some (true, some 1, some 0) := by
    decide +kernel
  obtain ⟨s, hs, hfacts⟩ := Option.map_eq_some_iff.mp hrun
  obtain ⟨hst, hfacts⟩ := Prod.mk.inj hfacts
  obtain ⟨hcur, hidle⟩ := Prod.mk.inj hfacts
  have hok : Always (TrapSys.step testSymbols) TrapSys.Permitted testTrapBoot
    (twoTasks.map .call ++ [.call .start]) := by decide +kernel
  have hr := Reach.of_run _ hok hs
  have hcause : Cause.ecall.Is (testFrame 11#64 3#64).mcause := ⟨by decide, by decide⟩
  obtain ⟨tf', p, k', htrap, hyield, _, hdiff⟩ :=
    yield_paths_differ hr hst (by rw [hcur, hidle]; decide) testBus hcause (by decide)
  exact ⟨s, hr, tf', p, k', htrap, hyield, hdiff⟩

/-- The two paths do not agree: after the `ecall` task 1 is current still, after `yield` task 2 is. -/
theorem ecall_yield_keeps_running : ∃ s, Reach (TrapSys.step testSymbols) TrapSys.Permitted testTrapBoot s ∧
    s.sys.h.started = true ∧ RunQueue.current s.sys.k = some 1 ∧
    (s.step testSymbols (testTrap 11#64 3#64)).map (fun s' => RunQueue.current s'.sys.k) = some (some 1) ∧
    (s.step testSymbols (.call .yield)).map (fun s' => RunQueue.current s'.sys.k) = some (some 2) := by
  have hrun : (run (TrapSys.step testSymbols) testTrapBoot (twoTasks.map .call ++ [.call .start])).map (fun s =>
      (s.sys.h.started, RunQueue.current s.sys.k,
        (s.step testSymbols (testTrap 11#64 3#64)).map (fun s' => RunQueue.current s'.sys.k),
        (s.step testSymbols (.call .yield)).map (fun s' => RunQueue.current s'.sys.k))) =
      some (true, some 1, some (some 1), some (some 2)) := by decide +kernel
  obtain ⟨s, hs, hfacts⟩ := Option.map_eq_some_iff.mp hrun
  obtain ⟨hst, hfacts⟩ := Prod.mk.inj hfacts
  obtain ⟨hcur, hfacts⟩ := Prod.mk.inj hfacts
  obtain ⟨hecall, hyield⟩ := Prod.mk.inj hfacts
  have hok : Always (TrapSys.step testSymbols) TrapSys.Permitted testTrapBoot
    (twoTasks.map .call ++ [.call .start]) := by decide +kernel
  exact ⟨s, Reach.of_run _ hok hs, hst, hcur, hecall, hyield⟩

end Core
end RiscCore
