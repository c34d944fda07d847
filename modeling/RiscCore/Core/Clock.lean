import RiscCore.Core.TrapRuns
import RiscCore.Lib.Alarm

/-!
# `Core.Clock` — the tick beside the clock (`kernel/time/timer.cpp`, `clint_timer.h`)

`mtime` counts while the system of `Core.TrapRuns` runs, and `CLINT` raises the timer interrupt from the moment it
reaches `mtimecmp`. `on_interrupt` sets `mtimecmp` one interval after what it reads, not after the old value, so what
the handler comes late is added to every later tick: the timer is an alarm of `Lib.Alarm` (`Reads.step`).

The tick needs `MIE`. Whoever exits through `ecall` leaves it off, and then there is no other tick
(`tick_goes_on_iff`).
-/

namespace RiscCore
namespace Core

open Drivers Runs Alarms

/-- The system and the clock. -/
structure ClockSys where
  s : TrapSys
  mtime : Word

/-- Cycles pass, in task code or in the handler: `entry` before it first reads `mtime`, `shown` between the two
    readings, `after` until it is over. -/
inductive ClockOp where
  | pass (cycles : Nat)
  | call (op : SchedOp)
  | trap (tf : TrapFrame) (ram : Word → Byte) (regs : Regs) (entry shown after : Nat)

namespace ClockSys

/-- What the handler reads. -/
def bus (c : ClockSys) (ram : Word → Byte) (entry shown : Nat) : Bus where
  ram := ram
  shown := c.mtime + BitVec.ofNat 64 entry
  now := c.mtime + BitVec.ofNat 64 (entry + shown)

/-- After `KernelTimer::init`, which has read `now`. -/
def boot (sym : Symbols) (k : Kernel) (timer : KernelTimer) (mstatus interval now : Word) : ClockSys where
  s := TrapSys.boot sym k (timer.init interval now) mstatus
  mtime := now

def step (sym : Symbols) (c : ClockSys) : ClockOp → Option ClockSys
  | .pass cycles => some { c with mtime := c.mtime + BitVec.ofNat 64 cycles }
  | .call op => (c.s.step sym (.call op)).map fun s => { c with s := s }
  | .trap tf ram regs entry shown after => (c.s.step sym (.trap tf (c.bus ram entry shown) regs)).map fun s =>
      ⟨s, c.mtime + BitVec.ofNat 64 (entry + shown + after)⟩

/-- The timer interrupts from `mtimecmp` on. -/
def Permitted (c : ClockSys) : ClockOp → Prop
  | .pass _ => True
  | .call op => c.s.Permitted (.call op)
  | .trap tf ram regs entry shown _ => c.s.Permitted (.trap tf (c.bus ram entry shown) regs) ∧
      (Cause.timer.Is tf.mcause → c.s.timer.mtimecmp0 ≤ c.mtime)

instance (c : ClockSys) : ∀ op, Decidable (c.Permitted op)
  | .pass _ => isTrue trivial
  | .call op => inferInstanceAs (Decidable (c.s.Permitted (.call op)))
  | .trap _ _ _ _ _ _ => inferInstanceAs (Decidable (_ ∧ (_ → _)))

/-- The handler of a timer interrupt reads `mtime` at most `bound` cycles after `mtimecmp`. -/
def Within (bound : Nat) (c : ClockSys) : ClockOp → Prop
  | .pass _ => True
  | .call _ => True
  | .trap tf _ _ entry shown _ => Cause.timer.Is tf.mcause →
      c.mtime.toNat + (entry + shown) ≤ c.s.timer.mtimecmp0.toNat + bound

/-- How long after `mtimecmp` the handler of a timer interrupt reads the `mtime` it adds the interval to. -/
def readingLate (c : ClockSys) : ClockOp → Nat
  | .pass _ => 0
  | .call _ => 0
  | .trap tf _ _ entry shown _ =>
    if Cause.timer.Is tf.mcause then c.mtime.toNat + (entry + shown) - c.s.timer.mtimecmp0.toNat else 0

/-- What all the readings of a run come late. -/
def lateness (sym : Symbols) : ClockSys → List ClockOp → Nat
  | _, [] => 0
  | c, op :: ops => c.readingLate op + ((c.step sym op).map fun c' => lateness sym c' ops).getD 0

end ClockSys

/-- What the alarm sees. -/
def ClockOp.event : ClockOp → Event
  | .pass cycles => .pass cycles
  | .call _ => .pass 0
  | .trap tf _ _ entry shown after =>
    if Cause.timer.Is tf.mcause then .ring (entry + shown) after else .pass (entry + shown + after)

/-- A task that exits through `ecall`. -/
def ClockOp.ExitsByEcall : ClockOp → Prop
  | .pass _ => False
  | .call _ => False
  | .trap tf _ _ _ _ _ => Cause.ecall.Is tf.mcause ∧ tf.a7 = Syscall.Number.exit.value

instance : DecidablePred ClockOp.ExitsByEcall
  | .pass _ => isFalse id
  | .call _ => isFalse id
  | .trap _ _ _ _ _ _ => inferInstanceAs (Decidable (_ ∧ _))

variable {sym : Symbols} {k : Kernel} {timer₀ : KernelTimer} {mstatus interval now : Word} {c c' : ClockSys}
  {a : Sched} {s s' : TrapSys}

section Events

variable {tf : TrapFrame} {ram : Word → Byte} {regs : Regs} {entry shown after : Nat}

theorem event_timer (h : Cause.timer.Is tf.mcause) :
    (ClockOp.trap tf ram regs entry shown after).event = .ring (entry + shown) after := if_pos h

theorem event_other (h : ¬ Cause.timer.Is tf.mcause) :
    (ClockOp.trap tf ram regs entry shown after).event = .pass (entry + shown + after) := if_neg h

end Events

/-! ## What a step does to the timer -/

/-- `trap_handle` of a timer interrupt. -/
theorem trapHandle_tick {tf : TrapFrame} (h : Cause.timer.Is tf.mcause) (bus : Bus) (p : Platform) :
    ∃ out, trapHandle bus tf p = some (.returns tf ⟨p.k.print out,
      { p.timer with sTicks := p.timer.sTicks + 1, mtimecmp0 := bus.now + p.timer.sInterval }⟩) := by
  obtain ⟨hint, hcode⟩ := h
  obtain ⟨out, hbanner⟩ := (prints_banner p "type = interrupt: " (interruptName InterruptCode.machineTimer.value)).trans
    (prints_puts _ "catch a timer interrupt\n")
  obtain ⟨out', htick⟩ := KernelTimer.onInterrupt_spec p.timer out bus.shown bus.now
  refine ⟨out', ?_⟩
  unfold trapHandle
  rw [if_pos hint, hcode, if_pos rfl]
  dsimp only
  rw [hbanner]
  show (p.timer.onInterrupt out bus.shown bus.now).bind _ = _
  rw [htick]
  rfl

/-- The timer after a call or a trap. -/
def TrapOp.tick (t : KernelTimer) : TrapOp → KernelTimer
  | .call _ => t
  | .trap tf bus _ =>
    if Cause.timer.Is tf.mcause then { t with sTicks := t.sTicks + 1, mtimecmp0 := bus.now + t.sInterval } else t

theorem finish_timer {regs : Regs} {p : Platform} {o : Outcome} (ho : (∃ tf, o = .returns tf p) ∨ o = .exits p)
    (h : s.finish regs o = some s') : s'.timer = p.timer := by
  rcases ho with ⟨tf, rfl⟩ | rfl
  · exact Option.some.inj h ▸ rfl
  · obtain ⟨t, _, h⟩ := Option.bind_eq_some_iff.mp h
    exact Option.some.inj h ▸ rfl

theorem not_timer_of_exception {cause : Cause} {mcause : Word} (hne : cause ≠ .timer) (h : cause.Is mcause) :
    ¬ Cause.timer.Is mcause := by
  rintro ⟨hint, _⟩
  have hexc : mcauseIsInterrupt mcause = false := by
    cases cause with
    | timer => exact absurd rfl hne
    | breakpoint => exact h.1
    | ecall => exact h.1
  rw [hexc] at hint
  cases hint

theorem step_timer {op : TrapOp} (hok : s.Permitted op) (h : s.step sym op = some s') :
    s'.timer = op.tick s.timer := by
  cases op with
  | call op =>
      obtain ⟨_, _, rfl⟩ := Option.map_eq_some_iff.mp h
      rfl
  | trap tf bus regs =>
      obtain ⟨o, ho, hfinish⟩ := Option.bind_eq_some_iff.mp h
      generalize hp : (⟨{ s.sys.k with regs := regs }, s.timer⟩ : Platform) = p at ho
      have hpt : p.timer = s.timer := by rw [← hp]
      show s'.timer = if Cause.timer.Is tf.mcause then
        { s.timer with sTicks := s.timer.sTicks + 1, mtimecmp0 := bus.now + s.timer.sInterval } else s.timer
      rcases hok with ⟨htimer, _⟩ | hbreak | ⟨hecall, _⟩
      · have htimer' : Cause.timer.Is ({ tf with mstatus := takeTrap s.mstatus } : TrapFrame).mcause := htimer
        obtain ⟨out, heq⟩ := trapHandle_tick htimer' bus p
        rw [heq] at ho
        rw [if_pos htimer, finish_timer (Or.inl ⟨_, (Option.some.inj ho).symm⟩) hfinish, hpt]
      · have hbreak' : Cause.breakpoint.Is ({ tf with mstatus := takeTrap s.mstatus } : TrapFrame).mcause := hbreak
        obtain ⟨_, ⟨out, rfl⟩, heq⟩ := trapHandle_breakpoint hbreak' bus p
        rw [heq] at ho
        rw [if_neg (not_timer_of_exception (by decide) hbreak),
          finish_timer (Or.inl ⟨_, (Option.some.inj ho).symm⟩) hfinish]
        exact hpt
      · have hecall' : Cause.ecall.Is ({ tf with mstatus := takeTrap s.mstatus } : TrapFrame).mcause := hecall
        rw [if_neg (not_timer_of_exception (by decide) hecall)]
        obtain ⟨_, ⟨out, rfl⟩, heq⟩ := trapHandle_ecall hecall' bus p
        by_cases hnum : ({ tf with mstatus := takeTrap s.mstatus } : TrapFrame).a7 = Syscall.Number.exit.value
        · rw [heq, ecall_exit hnum] at ho
          obtain ⟨k', _, rfl⟩ := Option.map_eq_some_iff.mp ho
          rw [finish_timer (Or.inr rfl) hfinish]
          exact hpt
        · obtain ⟨ret, _, ⟨out', rfl⟩, _, hret⟩ := ecall_returns hnum bus ⟨p.k.print out, p.timer⟩
          rw [heq, hret] at ho
          rw [finish_timer (Or.inl ⟨_, (Option.some.inj ho).symm⟩) hfinish]
          exact hpt

/-! ## The alarm -/

/-- **The kernel reads as the alarm.** -/
structure Reads (sym : Symbols) (ticks₀ interval : Word) (c : ClockSys) (al : Alarm) : Prop where
  good : ∃ a, Good sym c.s.sys a
  mtime : c.mtime.toNat = al.now
  mtimecmp : c.s.timer.mtimecmp0.toNat = al.deadline
  ticks : c.s.timer.sTicks = ticks₀ + BitVec.ofNat 64 al.rung
  interval : c.s.timer.sInterval = interval

variable {ticks₀ : Word} {al : Alarm} {op : ClockOp}

theorem add_cycles {t : Word} {n d : Nat} (ht : t.toNat = n) (hfit : n + d < 2 ^ 64) :
    (t + BitVec.ofNat 64 d).toNat = n + d := by
  rw [BitVec.toNat_add, BitVec.toNat_ofNat, ht, Nat.mod_eq_of_lt (show d < 2 ^ 64 by omega), Nat.mod_eq_of_lt hfit]

theorem reads_boot (sym : Symbols) (k : Kernel) (timer : KernelTimer) (mstatus : Word)
    (hfit : now.toNat + interval.toNat < 2 ^ 64) :
    Reads sym timer.ticks interval (ClockSys.boot sym k timer mstatus interval now)
      (armed interval.toNat now.toNat) where
  good := good_reach Reach.refl
  mtime := rfl
  mtimecmp := (BitVec.toNat_add now interval).trans (Nat.mod_eq_of_lt hfit)
  ticks := (BitVec.add_zero _).symm
  interval := rfl

/-- The timer interrupt rings the alarm. -/
theorem Reads.ring (h : Reads sym ticks₀ interval c al) {read after : Nat} (hgood : ∃ a, Good sym s'.sys a)
    (htimer : s'.timer = { c.s.timer with
      sTicks := c.s.timer.sTicks + 1, mtimecmp0 := c.mtime + BitVec.ofNat 64 read + c.s.timer.sInterval })
    (hfit : al.now + (read + after) + interval.toNat < 2 ^ 64) :
    Reads sym ticks₀ interval ⟨s', c.mtime + BitVec.ofNat 64 (read + after)⟩
      (Alarms.step interval.toNat al (.ring read after)) := by
  have hreading : (c.mtime + BitVec.ofNat 64 read).toNat = al.now + read := add_cycles h.mtime (by omega)
  refine ⟨hgood, ?_, ?_, ?_, ?_⟩
  · show (c.mtime + BitVec.ofNat 64 (read + after)).toNat = al.now + read + after
    rw [add_cycles h.mtime (by omega), ← Nat.add_assoc]
  · show s'.timer.mtimecmp0.toNat = al.now + read + interval.toNat
    rw [htimer]
    show (c.mtime + BitVec.ofNat 64 read + c.s.timer.sInterval).toNat = _
    rw [BitVec.toNat_add, hreading, h.interval, Nat.mod_eq_of_lt (by omega)]
  · show s'.timer.sTicks = ticks₀ + BitVec.ofNat 64 (al.rung + 1)
    rw [htimer, BitVec.ofNat_add, ← BitVec.add_assoc, ← h.ticks]
    rfl
  · show s'.timer.sInterval = interval
    rw [htimer]
    exact h.interval

/-- Whatever leaves the timer alone only takes time. -/
theorem Reads.pass (h : Reads sym ticks₀ interval c al) {mtime : Word} {cycles : Nat}
    (hgood : ∃ a, Good sym s'.sys a) (htimer : s'.timer = c.s.timer) (hmtime : mtime.toNat = al.now + cycles) :
    Reads sym ticks₀ interval ⟨s', mtime⟩ (Alarms.step interval.toNat al (.pass cycles)) where
  good := hgood
  mtime := hmtime
  mtimecmp := (congrArg (·.mtimecmp0.toNat) htimer).trans h.mtimecmp
  ticks := (congrArg (·.sTicks) htimer).trans h.ticks
  interval := (congrArg (·.sInterval) htimer).trans h.interval

/-- **One step** of the kernel is one event of the alarm. -/
theorem Reads.step (h : Reads sym ticks₀ interval c al) (hok : c.Permitted op)
    (hfit : al.now + op.event.duration + interval.toNat < 2 ^ 64) :
    ∃ c', c.step sym op = some c' ∧ Reads sym ticks₀ interval c' (Alarms.step interval.toNat al op.event) ∧
      Due al op.event := by
  obtain ⟨a, hg⟩ := h.good
  cases op with
  | pass cycles =>
      have hnow : al.now + cycles < 2 ^ 64 := Nat.lt_of_le_of_lt (Nat.le_add_right _ _) hfit
      exact ⟨_, rfl, h.pass h.good rfl (add_cycles h.mtime hnow), trivial⟩
  | call op =>
      have hpermitted : c.s.Permitted (.call op) := hok
      obtain ⟨s', hstep, hgood, _⟩ := trapSys_step hg hpermitted
      exact ⟨{ c with s := s' }, Option.map_eq_some_iff.mpr ⟨s', hstep, rfl⟩,
        h.pass hgood (step_timer hpermitted hstep) h.mtime, trivial⟩
  | trap tf ram regs entry shown after =>
      obtain ⟨hpermitted, hpending⟩ := hok
      obtain ⟨s', hstep, hgood, _⟩ := trapSys_step hg hpermitted
      have htick := step_timer hpermitted hstep
      have hrun : c.step sym (.trap tf ram regs entry shown after) =
          some ⟨s', c.mtime + BitVec.ofNat 64 (entry + shown + after)⟩ :=
        Option.map_eq_some_iff.mpr ⟨s', hstep, rfl⟩
      refine ⟨_, hrun, ?_⟩
      by_cases htimer : Cause.timer.Is tf.mcause
      · rw [event_timer htimer] at hfit ⊢
        refine ⟨h.ring hgood (htick.trans (if_pos htimer)) hfit, ?_⟩
        show al.deadline ≤ al.now
        rw [← h.mtimecmp, ← h.mtime]
        exact hpending htimer
      · rw [event_other htimer] at hfit ⊢
        have hend : al.now + (entry + shown + after) + interval.toNat < 2 ^ 64 := hfit
        exact ⟨h.pass hgood (htick.trans (if_neg htimer)) (add_cycles h.mtime (by omega)), trivial⟩

/-- A prompt step is a prompt event. -/
theorem Reads.prompt (h : Reads sym ticks₀ interval c al) {bound : Nat} (hwithin : c.Within bound op) :
    Prompt bound al op.event := by
  cases op with
  | pass cycles => exact trivial
  | call op => exact trivial
  | trap tf ram regs entry shown after =>
      by_cases htimer : Cause.timer.Is tf.mcause
      · rw [event_timer htimer]
        show al.now + (entry + shown) ≤ al.deadline + bound
        rw [← h.mtimecmp, ← h.mtime]
        exact hwithin htimer
      · rw [event_other htimer]
        exact trivial

/-- The kernel's readings come as late as the alarm's. -/
theorem Reads.readingLate (h : Reads sym ticks₀ interval c al) :
    (Alarms.step interval.toNat al op.event).late = al.late + c.readingLate op := by
  cases op with
  | pass cycles => rfl
  | call op => rfl
  | trap tf ram regs entry shown after =>
      by_cases htimer : Cause.timer.Is tf.mcause
      · have hlate : c.readingLate (.trap tf ram regs entry shown after) =
            c.mtime.toNat + (entry + shown) - c.s.timer.mtimecmp0.toNat := if_pos htimer
        rw [event_timer htimer, hlate, h.mtime, h.mtimecmp]
        rfl
      · have hlate : c.readingLate (.trap tf ram regs entry shown after) = 0 := if_neg htimer
        rw [event_other htimer, hlate]
        rfl

/-- What has happened, as the alarm sees it. -/
def events (ops : List ClockOp) : List Event := ops.map ClockOp.event

/-- **The run lemma.** -/
theorem Reads.run : ∀ (ops : List ClockOp) {c : ClockSys} {al : Alarm}, Reads sym ticks₀ interval c al →
    Always (ClockSys.step sym) ClockSys.Permitted c ops →
    al.now + elapsed (events ops) + interval.toNat < 2 ^ 64 →
    ∃ c', Runs.run (ClockSys.step sym) c ops = some c' ∧
      Reads sym ticks₀ interval c' (runs interval.toNat al (events ops)) ∧
      (runs interval.toNat al (events ops)).late = al.late + c.lateness sym ops ∧
      AlwaysOn interval.toNat Due al (events ops) ∧
      ∀ bound, Always (ClockSys.step sym) (ClockSys.Within bound) c ops →
        AlwaysOn interval.toNat (Prompt bound) al (events ops) := by
  intro ops
  induction ops with
  | nil => exact fun {c al} h _ _ => ⟨c, rfl, h, rfl, trivial, fun _ _ => trivial⟩
  | cons op ops ih =>
      rintro c al h ⟨hok, hrest⟩ hfit
      have hfit' : al.now + (op.event.duration + elapsed (events ops)) + interval.toNat < 2 ^ 64 := hfit
      obtain ⟨c₁, hstep, h₁, hdue⟩ := h.step hok (by omega)
      have hnow : (Alarms.step interval.toNat al op.event).now = al.now + op.event.duration :=
        runs_now interval.toNat [op.event] al
      obtain ⟨c', hrun, h', hlate, hdues, hprompts⟩ := ih h₁ (hrest c₁ hstep) (by rw [hnow]; omega)
      refine ⟨c', ?_, h', ?_, ⟨hdue, hdues⟩, fun bound hwithin => ⟨h.prompt hwithin.1, hprompts bound ?_⟩⟩
      · show (c.step sym op).bind _ = _
        rw [hstep]
        exact hrun
      · have hsum : c.lateness sym (op :: ops) = c.readingLate op + c₁.lateness sym ops := by
          rw [ClockSys.lateness, hstep]
          rfl
        rw [hsum, ← Nat.add_assoc, ← h.readingLate]
        exact hlate
      · exact hwithin.2 c₁ hstep

/-! ## Ticks and time -/

/-- **Ticks and time.** In every run after `KernelTimer::init`, as long as `mtime` does not wrap: `ticks` counts the
    timer interrupts, and the next one comes when so many intervals and one more have passed and as many cycles as the
    handler's readings of the clock came late, all of them together. So the ticks are never ahead of the clock; and if
    the handler always reads it within `bound` cycles and no tick is overdue, they are behind it by no more than
    `bound` each. -/
theorem tick_keeps_time (sym : Symbols) (k : Kernel) (timer : KernelTimer) (mstatus : Word) {interval now : Word}
    {ops : List ClockOp} (hfit : now.toNat + elapsed (events ops) + interval.toNat < 2 ^ 64)
    (hok : Always (ClockSys.step sym) ClockSys.Permitted (ClockSys.boot sym k timer mstatus interval now) ops) :
    ∃ c late, run (ClockSys.step sym) (ClockSys.boot sym k timer mstatus interval now) ops = some c ∧
      late = (ClockSys.boot sym k timer mstatus interval now).lateness sym ops ∧
      c.mtime.toNat = now.toNat + elapsed (events ops) ∧
      c.s.timer.ticks = timer.ticks + BitVec.ofNat 64 (rings (events ops)) ∧
      c.s.timer.mtimecmp0.toNat = now.toNat + (rings (events ops) + 1) * interval.toNat + late ∧
      rings (events ops) * interval.toNat + late ≤ elapsed (events ops) ∧
      ∀ bound, Always (ClockSys.step sym) (ClockSys.Within bound) (ClockSys.boot sym k timer mstatus interval now) ops →
        late ≤ rings (events ops) * bound ∧ (c.mtime.toNat ≤ c.s.timer.mtimecmp0.toNat + bound →
          elapsed (events ops) ≤ (rings (events ops) + 1) * (interval.toNat + bound)) := by
  have hboot : Reads sym timer.ticks interval (ClockSys.boot sym k timer mstatus interval now)
      (armed interval.toNat now.toNat) := reads_boot sym k timer mstatus (by omega)
  obtain ⟨c, hrun, h, hsum, hdue, hprompt⟩ := hboot.run ops hok hfit
  have hkept := (kept_armed interval.toNat now.toNat).runs (events ops) hdue
  have hnow : (runs interval.toNat (armed interval.toNat now.toNat) (events ops)).now =
      now.toNat + elapsed (events ops) := runs_now interval.toNat (events ops) _
  have hrung : (runs interval.toNat (armed interval.toNat now.toNat) (events ops)).rung = rings (events ops) :=
    (runs_rung interval.toNat (events ops) _).trans (Nat.zero_add _)
  have hlate : ∀ bound, AlwaysOn interval.toNat (Prompt bound) (armed interval.toNat now.toNat) (events ops) →
      (runs interval.toNat (armed interval.toNat now.toNat) (events ops)).late ≤ rings (events ops) * bound :=
    fun bound hbound => Nat.le_trans (late_le (events ops) hbound) (Nat.le_of_eq (Nat.zero_add _))
  generalize runs interval.toNat (armed interval.toNat now.toNat) (events ops) = al at h hsum hkept hnow hrung hlate
  refine ⟨c, al.late, hrun, hsum.trans (Nat.zero_add _), h.mtime.trans hnow, ?_, ?_, ?_, fun bound hwithin => ?_⟩
  · rw [← hrung]
    exact h.ticks
  · rw [h.mtimecmp, ← hrung]
    exact hkept.schedule
  · have hle := hkept.rung_le
    rw [hnow, hrung] at hle
    omega
  · have hle := hlate bound (hprompt bound hwithin)
    refine ⟨hle, fun hnone => ?_⟩
    rw [h.mtime, h.mtimecmp] at hnone
    have hbehind := hkept.le_rung (hrung.symm ▸ hle) hnone
    rw [hnow, hrung] at hbehind
    omega

/-- Two tasks, started; after ten cycles the timer interrupts, and the handler reads the clock three cycles later. The
    next interrupt comes two cycles late and is read two cycles after that. -/
def testClockOps : List ClockOp :=
  (twoTasks ++ [SchedOp.start]).map .call ++
    [.pass 10, .trap (testFrame 0x8000000000000007#64 0#64) (fun _ => 0#8) (fun _ => 0#64) 2 1 4,
      .pass 8, .trap (testFrame 0x8000000000000007#64 0#64) (fun _ => 0#8) (fun _ => 0#64) 1 1 0]

/-- The third tick is due at thirty-seven: three intervals of ten, and three and four cycles late. -/
theorem tick_keeps_time_test : ∃ c, run (ClockSys.step testSymbols)
    (ClockSys.boot testSymbols blankKernel ⟨0#64, 0#64, 0#64⟩ 0#64 10#64 0#64) testClockOps = some c ∧
      c.s.timer.ticks = 2#64 ∧ c.s.timer.mtimecmp0.toNat = 0 + (2 + 1) * 10 + 7 := by
  have hfit : (0#64).toNat + elapsed (events testClockOps) + (10#64).toNat < 2 ^ 64 := by decide +kernel
  have hok : Always (ClockSys.step testSymbols) ClockSys.Permitted
      (ClockSys.boot testSymbols blankKernel ⟨0#64, 0#64, 0#64⟩ 0#64 10#64 0#64) testClockOps := by decide +kernel
  have hseven : (ClockSys.boot testSymbols blankKernel ⟨0#64, 0#64, 0#64⟩ 0#64 10#64 0#64).lateness testSymbols
      testClockOps = 7 := by decide +kernel
  have htwo : rings (events testClockOps) = 2 := by decide +kernel
  obtain ⟨c, late, hrun, hlate, _, hticks, hcmp, _⟩ :=
    tick_keeps_time testSymbols blankKernel ⟨0#64, 0#64, 0#64⟩ 0#64 hfit hok
  rw [htwo] at hticks hcmp
  rw [hlate, hseven] at hcmp
  exact ⟨c, hrun, hticks, hcmp⟩

/-! ## Whether there is another tick -/

/-- `MIE` after a step, and the system is as good as before. -/
theorem clock_step (hg : ∃ a, Good sym c.s.sys a) (hok : c.Permitted op) : ∃ c', c.step sym op = some c' ∧
    (∃ a, Good sym c'.s.sys a) ∧ (op.ExitsByEcall → mie c'.s.mstatus = false) ∧
    (¬ op.ExitsByEcall → mie c'.s.mstatus = mie c.s.mstatus) ∧
    (mie c.s.mstatus = false → op.event.isRing = 0 ∧ mie c'.s.mstatus = false ∧ c'.s.timer = c.s.timer) := by
  obtain ⟨a, hg⟩ := hg
  cases op with
  | pass cycles => exact ⟨_, rfl, ⟨a, hg⟩, False.elim, fun _ => rfl, fun hmie => ⟨rfl, hmie, rfl⟩⟩
  | call op =>
      have hpermitted : c.s.Permitted (.call op) := hok
      obtain ⟨s', hstep, hgood, hmie⟩ := trapSys_step hg hpermitted
      have hsame : mie s'.mstatus = mie c.s.mstatus := hmie.trans (if_neg id)
      exact ⟨{ c with s := s' }, Option.map_eq_some_iff.mpr ⟨s', hstep, rfl⟩, hgood, False.elim, fun _ => hsame,
        fun hoff => ⟨rfl, hsame.trans hoff, step_timer hpermitted hstep⟩⟩
  | trap tf ram regs entry shown after =>
      obtain ⟨hpermitted, _⟩ := hok
      obtain ⟨s', hstep, hgood, hmie⟩ := trapSys_step hg hpermitted
      refine ⟨⟨s', _⟩, Option.map_eq_some_iff.mpr ⟨s', hstep, rfl⟩, hgood, fun hexit => hmie.trans (if_pos hexit),
        fun hno => hmie.trans (if_neg hno), fun hoff => ?_⟩
      -- a timer interrupt waits for `MIE`
      have hno : ¬ Cause.timer.Is tf.mcause := by
        intro htimer
        rcases hpermitted with ⟨_, hon⟩ | hbreak | ⟨hecall, _⟩
        · rw [hoff] at hon
          cases hon
        · exact not_timer_of_exception (by decide) hbreak htimer
        · exact not_timer_of_exception (by decide) hecall htimer
      refine ⟨?_, ?_, (step_timer hpermitted hstep).trans (if_neg hno)⟩
      · rw [event_other hno]
        rfl
      · show mie s'.mstatus = false
        rw [hmie, hoff]
        exact ite_self false

/-- Without `MIE` nothing ticks. -/
theorem clock_off : ∀ (ops : List ClockOp) {c : ClockSys}, (∃ a, Good sym c.s.sys a) → mie c.s.mstatus = false →
    Always (ClockSys.step sym) ClockSys.Permitted c ops → rings (events ops) = 0 ∧ ∃ c',
      run (ClockSys.step sym) c ops = some c' ∧ (∃ a, Good sym c'.s.sys a) ∧ mie c'.s.mstatus = false ∧
      c'.s.timer = c.s.timer := by
  intro ops
  induction ops with
  | nil => exact fun {c} hg hoff _ => ⟨rfl, c, rfl, hg, hoff, rfl⟩
  | cons op ops ih =>
      rintro c hg hoff ⟨hok, hrest⟩
      obtain ⟨c₁, hstep, hg₁, _, _, hstays⟩ := clock_step hg hok
      obtain ⟨hring, hoff₁, htimer⟩ := hstays hoff
      obtain ⟨hrings, c', hrun, hg', hoff', htimer'⟩ := ih hg₁ hoff₁ (hrest c₁ hstep)
      refine ⟨?_, c', ?_, hg', hoff', htimer'.trans htimer⟩
      · show op.event.isRing + rings (events ops) = 0
        rw [hring, hrings]
      · show (c.step sym op).bind _ = _
        rw [hstep]
        exact hrun

/-- `MIE` at the end of a run that began with it. -/
theorem clock_run : ∀ (ops : List ClockOp) {c : ClockSys}, (∃ a, Good sym c.s.sys a) → mie c.s.mstatus = true →
    Always (ClockSys.step sym) ClockSys.Permitted c ops → ∃ c', run (ClockSys.step sym) c ops = some c' ∧
      (∃ a, Good sym c'.s.sys a) ∧ (mie c'.s.mstatus = true ↔ ∀ op ∈ ops, ¬ op.ExitsByEcall) := by
  intro ops
  induction ops with
  | nil => exact fun {c} hg hon _ => ⟨c, rfl, hg, iff_of_true hon fun op hop => absurd hop List.not_mem_nil⟩
  | cons op ops ih =>
      rintro c hg hon ⟨hok, hrest⟩
      obtain ⟨c₁, hstep, hg₁, hexits, hkeeps, _⟩ := clock_step hg hok
      have hrun : ∀ c', run (ClockSys.step sym) c₁ ops = some c' → run (ClockSys.step sym) c (op :: ops) = some c' := by
        intro c' hc'
        show (c.step sym op).bind _ = _
        rw [hstep]
        exact hc'
      rw [List.forall_mem_cons]
      by_cases hop : op.ExitsByEcall
      · obtain ⟨_, c', hc', hg', hoff, _⟩ := clock_off ops hg₁ (hexits hop) (hrest c₁ hstep)
        refine ⟨c', hrun c' hc', hg', iff_of_false ?_ fun hall => hall.1 hop⟩
        rw [hoff]
        exact Bool.false_ne_true
      · obtain ⟨c', hc', hg', hiff⟩ := ih hg₁ ((hkeeps hop).trans hon) (hrest c₁ hstep)
        exact ⟨c', hrun c' hc', hg', hiff.trans (and_iff_right hop).symm⟩

/-- The timer interrupts as soon as it may. -/
def untilTick (c : ClockSys) (tf : TrapFrame) : List ClockOp :=
  [.pass (c.s.timer.mtimecmp0 - c.mtime).toNat, .trap tf (fun _ => 0#8) (fun _ => 0#64) 0 0 0]

theorem untilTick_permitted (sym : Symbols) (hon : mie c.s.mstatus = true) {tf : TrapFrame}
    (htimer : Cause.timer.Is tf.mcause) : Always (ClockSys.step sym) ClockSys.Permitted c (untilTick c tf) := by
  refine ⟨trivial, fun c₁ h₁ => ⟨⟨Or.inl ⟨htimer, ?_⟩, fun _ => ?_⟩, fun _ _ => trivial⟩⟩
  · obtain rfl := Option.some.inj h₁
    exact hon
  · obtain rfl := Option.some.inj h₁
    show c.s.timer.mtimecmp0 ≤ c.mtime + BitVec.ofNat 64 (c.s.timer.mtimecmp0 - c.mtime).toNat
    rw [BitVec.ofNat_toNat, BitVec.setWidth_eq, BitVec.add_comm, BitVec.sub_add_cancel]
    exact BitVec.le_refl _

theorem untilTick_rings {tf : TrapFrame} (htimer : Cause.timer.Is tf.mcause) :
    rings (events (untilTick c tf)) = 1 := by
  show 0 + ((ClockOp.trap tf _ _ 0 0 0).event.isRing + 0) = 1
  rw [event_timer htimer]
  rfl

/-- **Whether there is another tick.** After any run there can be one if and only if no task has exited through
    `ecall`: then the handler never came to its `mret`, whoever runs next runs with `MIE` clear, and so it stays in all
    that follows, where `ticks` stands still. -/
theorem tick_goes_on_iff (sym : Symbols) (k : Kernel) (timer : KernelTimer) (mstatus interval now : Word)
    {ops : List ClockOp}
    (hok : Always (ClockSys.step sym) ClockSys.Permitted (ClockSys.boot sym k timer mstatus interval now) ops) :
    ((∃ more, 0 < rings (events more) ∧ Always (ClockSys.step sym) ClockSys.Permitted
      (ClockSys.boot sym k timer mstatus interval now) (ops ++ more)) ↔ ∀ op ∈ ops, ¬ op.ExitsByEcall) ∧
    ((∃ op ∈ ops, op.ExitsByEcall) → ∃ c,
      run (ClockSys.step sym) (ClockSys.boot sym k timer mstatus interval now) ops = some c ∧
      mie c.s.mstatus = false ∧ ∀ more, Always (ClockSys.step sym) ClockSys.Permitted c more →
        ∃ c', run (ClockSys.step sym) c more = some c' ∧ mie c'.s.mstatus = false ∧
          c'.s.timer.ticks = c.s.timer.ticks) := by
  have hgood : ∃ a, Good sym (ClockSys.boot sym k timer mstatus interval now).s.sys a := good_reach Reach.refl
  have hon : mie (ClockSys.boot sym k timer mstatus interval now).s.mstatus = true :=
    mie_boot sym k (timer.init interval now) mstatus
  obtain ⟨c, hrun, hg, hmie⟩ := clock_run ops hgood hon hok
  refine ⟨?_, ?_⟩
  · rw [← hmie]
    constructor
    · rintro ⟨more, hpos, hmore⟩
      obtain ⟨_, hrest⟩ := (Always.append_iff ops more _).mp hmore
      by_contra hoff
      obtain ⟨hnone, _⟩ := clock_off more hg (Bool.not_eq_true _ ▸ hoff) (hrest c hrun)
      omega
    · intro hstill
      have htimer : Cause.timer.Is (testFrame 0x8000000000000007#64 0#64).mcause := by decide +kernel
      have hone := untilTick_rings (c := c) htimer
      refine ⟨untilTick c (testFrame 0x8000000000000007#64 0#64), Nat.lt_of_lt_of_eq Nat.one_pos hone.symm,
        (Always.append_iff ops _ _).mpr ⟨hok, fun t ht => ?_⟩⟩
      obtain rfl : c = t := Option.some.inj (hrun.symm.trans ht)
      exact untilTick_permitted sym hstill htimer
  · rintro ⟨op, hop, hexit⟩
    have hoff : mie c.s.mstatus = false := by
      by_contra hstill
      exact hmie.mp (Bool.eq_true_of_not_eq_false hstill) op hop hexit
    refine ⟨c, hrun, hoff, fun more hmore => ?_⟩
    obtain ⟨_, c', hrun', _, hoff', htimer⟩ := clock_off more hg hoff hmore
    exact ⟨c', hrun', hoff', congrArg KernelTimer.ticks htimer⟩

/-- Nobody has exited: the timer ticks again. Once the first task has exited through `ecall`, it does not. -/
theorem tick_goes_on_iff_test :
    (∃ more, 0 < rings (events more) ∧ Always (ClockSys.step testSymbols) ClockSys.Permitted
      (ClockSys.boot testSymbols blankKernel ⟨0#64, 0#64, 0#64⟩ 0#64 10#64 0#64) (testClockOps ++ more)) ∧
    ∃ c, run (ClockSys.step testSymbols) (ClockSys.boot testSymbols blankKernel ⟨0#64, 0#64, 0#64⟩ 0#64 10#64 0#64)
      (testClockOps ++ [.trap (testFrame 11#64 2#64) (fun _ => 0#8) (fun _ => 0#64) 2 1 4]) = some c ∧
      mie c.s.mstatus = false ∧ c.s.timer.ticks = 2#64 := by
  have hok : Always (ClockSys.step testSymbols) ClockSys.Permitted
      (ClockSys.boot testSymbols blankKernel ⟨0#64, 0#64, 0#64⟩ 0#64 10#64 0#64) testClockOps := by decide +kernel
  have hno : ∀ op ∈ testClockOps, ¬ op.ExitsByEcall := by decide +kernel
  have hok' : Always (ClockSys.step testSymbols) ClockSys.Permitted
      (ClockSys.boot testSymbols blankKernel ⟨0#64, 0#64, 0#64⟩ 0#64 10#64 0#64)
      (testClockOps ++ [.trap (testFrame 11#64 2#64) (fun _ => 0#8) (fun _ => 0#64) 2 1 4]) := by decide +kernel
  have hticks : ∀ c ∈ run (ClockSys.step testSymbols)
      (ClockSys.boot testSymbols blankKernel ⟨0#64, 0#64, 0#64⟩ 0#64 10#64 0#64)
      (testClockOps ++ [.trap (testFrame 11#64 2#64) (fun _ => 0#8) (fun _ => 0#64) 2 1 4]),
      c.s.timer.ticks = 2#64 := by decide +kernel
  obtain ⟨c, hrun, hoff, _⟩ := (tick_goes_on_iff testSymbols blankKernel ⟨0#64, 0#64, 0#64⟩ 0#64 10#64 0#64 hok').2
    ⟨_, List.mem_append_right _ List.mem_cons_self, by decide +kernel⟩
  exact ⟨(tick_goes_on_iff testSymbols blankKernel ⟨0#64, 0#64, 0#64⟩ 0#64 10#64 0#64 hok).1.mpr hno,
    c, hrun, hoff, hticks c hrun⟩

end Core
end RiscCore
