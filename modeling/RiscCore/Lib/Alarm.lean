import Mathlib.Tactic.Common

/-!
# `Lib.Alarm` — an alarm that is re-armed by reading a clock

Time only grows. Once its deadline is past, the alarm may ring; whoever answers it reads the clock, and the next
deadline is one period after that reading. No period is too short, then, and what a reading comes late is late for
ever: the deadlines are those of a perfect clock plus all the lateness so far (`Kept`). `rung_le` and `le_rung` say
what the number of rings tells about the time that has passed, and the second of them needs answers that are prompt.
-/

namespace Alarms

structure Alarm where
  now : Nat
  deadline : Nat
  rung : Nat
  /-- The sum of what the readings came late. -/
  late : Nat

inductive Event where
  | pass (d : Nat)
  /-- A ring: `wait` until the reading, `rest` after it. -/
  | ring (wait rest : Nat)

def Event.duration : Event → Nat
  | .pass d => d
  | .ring wait rest => wait + rest

def Event.isRing : Event → Nat
  | .pass _ => 0
  | .ring _ _ => 1

/-- The time that events take. -/
def elapsed : List Event → Nat
  | [] => 0
  | e :: es => e.duration + elapsed es

def rings : List Event → Nat
  | [] => 0
  | e :: es => e.isRing + rings es

variable {period bound start : Nat} {a : Alarm} {e : Event}

def step (period : Nat) (a : Alarm) : Event → Alarm
  | .pass d => { a with now := a.now + d }
  | .ring wait rest =>
    { now := a.now + wait + rest
      deadline := a.now + wait + period
      rung := a.rung + 1
      late := a.late + (a.now + wait - a.deadline) }

/-- It does not ring before its time. -/
def Due (a : Alarm) : Event → Prop
  | .pass _ => True
  | .ring _ _ => a.deadline ≤ a.now

/-- The reading comes at most `bound` after the deadline. -/
def Prompt (bound : Nat) (a : Alarm) : Event → Prop
  | .pass _ => True
  | .ring wait _ => a.now + wait ≤ a.deadline + bound

/-- `Q` holds of every event of a run. -/
def AlwaysOn (period : Nat) (Q : Alarm → Event → Prop) : Alarm → List Event → Prop
  | _, [] => True
  | a, e :: es => Q a e ∧ AlwaysOn period Q (step period a e) es

def runs (period : Nat) (a : Alarm) (es : List Event) : Alarm := es.foldl (step period) a

/-- Armed for one period from now. -/
def armed (period now : Nat) : Alarm := ⟨now, now + period, 0, 0⟩

/-! ## What a run counts -/

theorem runs_now (period : Nat) : ∀ (es : List Event) (a : Alarm), (runs period a es).now = a.now + elapsed es := by
  intro es
  induction es with
  | nil => exact fun _ => rfl
  | cons e es ih =>
      intro a
      show (runs period (step period a e) es).now = a.now + (e.duration + elapsed es)
      rw [ih]
      cases e with
      | pass d => exact Nat.add_assoc _ _ _
      | ring wait rest =>
          show a.now + wait + rest + elapsed es = a.now + (wait + rest + elapsed es)
          omega

theorem runs_rung (period : Nat) : ∀ (es : List Event) (a : Alarm), (runs period a es).rung = a.rung + rings es := by
  intro es
  induction es with
  | nil => exact fun _ => rfl
  | cons e es ih =>
      intro a
      show (runs period (step period a e) es).rung = a.rung + (e.isRing + rings es)
      rw [ih]
      cases e with
      | pass d => exact congrArg (a.rung + ·) (Nat.zero_add _).symm
      | ring wait rest => exact Nat.add_assoc _ _ _

/-! ## The invariant -/

/-- **What every run keeps.** `start` is when the alarm was first armed. -/
structure Kept (period start : Nat) (a : Alarm) : Prop where
  schedule : a.deadline = start + (a.rung + 1) * period + a.late
  /-- The last reading is past. -/
  reading : a.deadline ≤ a.now + period

theorem kept_armed (period now : Nat) : Kept period now (armed period now) :=
  ⟨by show now + period = now + (0 + 1) * period + 0; omega, Nat.le_refl _⟩

theorem Kept.step (h : Kept period start a) (hdue : Due a e) : Kept period start (step period a e) := by
  obtain ⟨hschedule, hreading⟩ := h
  cases e with
  | pass d => exact ⟨hschedule, Nat.le_trans hreading (Nat.add_le_add_right (Nat.le_add_right _ _) _)⟩
  | ring wait rest =>
      have hle : a.deadline ≤ a.now := hdue
      constructor
      · show a.now + wait + period = start + (a.rung + 1 + 1) * period + (a.late + (a.now + wait - a.deadline))
        have hmore : (a.rung + 1 + 1) * period = (a.rung + 1) * period + period := Nat.succ_mul _ _
        omega
      · exact Nat.add_le_add_right (Nat.le_add_right _ _) _

theorem Kept.runs : ∀ (es : List Event) {a : Alarm}, Kept period start a → AlwaysOn period Due a es →
    Kept period start (runs period a es) := by
  intro es
  induction es with
  | nil => exact fun h _ => h
  | cons e es ih => exact fun h hdue => ih (h.step hdue.1) hdue.2

/-- Prompt answers bound the lateness. -/
theorem late_le : ∀ (es : List Event) {a : Alarm}, AlwaysOn period (Prompt bound) a es →
    (runs period a es).late ≤ a.late + rings es * bound := by
  intro es
  induction es with
  | nil => exact fun _ => Nat.le_add_right _ _
  | cons e es ih =>
      rintro a ⟨hprompt, hrest⟩
      refine Nat.le_trans (ih hrest) ?_
      cases e with
      | pass d => exact Nat.add_le_add_left (Nat.mul_le_mul_right _ (Nat.le_add_left _ _)) _
      | ring wait rest =>
          have hle : a.now + wait ≤ a.deadline + bound := hprompt
          show a.late + (a.now + wait - a.deadline) + rings es * bound ≤ a.late + (1 + rings es) * bound
          rw [Nat.add_mul, Nat.one_mul]
          omega

/-! ## Rings and time -/

/-- **The rings are never ahead of the clock.** -/
theorem Kept.rung_le (h : Kept period start a) : start + a.rung * period + a.late ≤ a.now := by
  obtain ⟨hschedule, hreading⟩ := h
  rw [Nat.succ_mul] at hschedule
  omega

/-- **Nor far behind it**, if they are answered promptly and none is overdue. -/
theorem Kept.le_rung (h : Kept period start a) (hlate : a.late ≤ a.rung * bound) (hnone : a.now ≤ a.deadline + bound) :
    a.now ≤ start + (a.rung + 1) * (period + bound) := by
  have hschedule := h.schedule
  have hsplit : (a.rung + 1) * (period + bound) = (a.rung + 1) * period + (a.rung * bound + bound) := by
    rw [Nat.mul_add, Nat.succ_mul a.rung bound]
  omega

end Alarms
