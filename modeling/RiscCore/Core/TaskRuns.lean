import RiscCore.Core.TaskCode

/-!
# `Core.TaskRuns` — what the tasks say

The running kernel refines the pool of `Lib.Cooperative`: whatever the tasks' code is, and wherever the timer
interrupts it, what they send and who runs is what the pool says (`tasks_run_as_pool`). The one fact behind it is
that a switch changes where nobody stands (`standing_switch`).

From the theory of the pool: tasks that exit come out round by round, and one of them may be left behind in the
ready queue for ever, because the idle task does not give up the processor (`tasks_finish`).
-/

namespace RiscCore
namespace Core

open Ds Circular Runs Drivers Cooperative

variable {sym : Symbols} {text : Image} {k k' k₀ : Kernel} {s s' : TrapSys} {a : Sched} {c c' : Sys} {n p t : TaskRef}

/-! ## Where the tasks stand -/

theorem standing_current (h : k.sCurrent = some t) : standing k t = ⟨t, (k.tasks t).entry, k.regs⟩ := by
  rw [standing, if_pos h]

theorem standing_other (h : k.sCurrent ≠ some t) :
    standing k t = ⟨t, (k.tasks t).entry, (k.tasks t).context.regs⟩ := by
  rw [standing, if_neg h]

/-- **A switch changes where nobody stands**, be it the first one. -/
theorem standing_switch {prev : Option TaskRef} (hsw : Switched k k' prev n) (hp : k.sCurrent = prev)
    (hn : k'.sCurrent = some n) : standing k' = standing k := by
  funext t
  have hregs : (k'.tasks t).context.regs = (standing k t).regs := by
    by_cases ht : prev = some t
    · rw [hsw.saved t ht, Context.regs_ofRegs, standing_current (hp.trans ht)]
    · rw [hsw.others t ht, standing_other (hp ▸ ht)]
  have hentry : (k'.tasks t).entry = (standing k t).entry := hsw.entry t
  by_cases ht : k'.sCurrent = some t
  · obtain rfl : n = t := Option.some.inj (hn.symm.trans ht)
    rw [standing_current ht, hsw.loaded, hentry, hregs]
    rfl
  · rw [standing_other ht, hentry, hregs]
    rfl

/-- Work moves the current task, and nobody else. -/
theorem standing_work (hp : k.sCurrent = some p) (regs : Regs) (out : Uart) {l : List TaskRef} (hl : p ∉ l) :
    standing { k with regs := regs, uart := out } p = { standing k p with regs := regs } ∧
      l.map (standing { k with regs := regs, uart := out }) = l.map (standing k) := by
  constructor
  · exact standing_current hp
  · refine List.map_congr_left fun t ht => ?_
    have hne : k.sCurrent ≠ some t := by
      rw [hp]
      rintro he
      exact hl (Option.some.inj he ▸ ht)
    rw [standing_other hne, standing_other (k := { k with regs := regs, uart := out }) hne]

/-- The pool that the scheduler `a` keeps, with `p` current. -/
def poolOf (k : Kernel) (a : Sched) (p : TaskRef) : Pool Thread :=
  if p = 0 then .idle (a.ready.map (standing k)) else .busy (standing k p) (a.ready.map (standing k))

/-- **The kernel stands where the pool stands.** -/
def Stands (sym : Symbols) (c : Sys) (pool : Pool Thread) : Prop :=
  ∃ a p, Good sym c a ∧ a.current = some p ∧ (c.k.tasks 0).entry = sym.idleTaskEntry ∧ pool = poolOf c.k a p

theorem Good.idle_iff (hg : Good sym c a) (hcur : a.current = some p) :
    RunQueue.current c.k = TaskManager.idleTask c.k ↔ p = 0 := by
  rw [idleTask_eq, hg.stores.idle]
  show c.k.sCurrent = some 0 ↔ p = 0
  rw [hg.stores.current, hcur, Option.some.injEq]

theorem Stands.shows {pool : Pool Thread} (h : Stands sym c pool) : Shows c.k pool := by
  obtain ⟨a, p, hg, hcur, _, rfl⟩ := h
  by_cases hp : p = 0
  · rw [poolOf, if_pos hp]
    exact ⟨a.ready, (hg.idle_iff hcur).mpr hp, hg.stores.ring, rfl⟩
  · rw [poolOf, if_neg hp]
    exact ⟨p, a.ready, hg.stores.current.trans hcur, mt (hg.idle_iff hcur).mp hp, hg.stores.ring, rfl, rfl⟩

/-! ## The calls -/

theorem Good.started (hg : Good sym c a) (hcur : a.current = some p) : c.h.started = true :=
  hg.sane.started.mpr (by rw [hcur]; exact Option.some_ne_none p)

theorem Good.yield_to (hg : Good sym c a) (hcur : a.current = some p) :
    ∃ c', c.step sym .yield = some c' ∧ Good sym c' (a.reschedule p) ∧ Switched c.k c'.k (some p) a.pick ∧
      c'.k.uart = c.k.uart := by
  obtain ⟨c', p', hp', hstep, hg', _⟩ := hg.yield (hg.started hcur)
  obtain rfl : p = p' := Option.some.inj (hcur.symm.trans hp')
  obtain ⟨k', hre, _, hsw⟩ := reschedule_stores hg.stores hcur (fun _ => hg.sane.current_not_queued hcur)
  have hk : RunQueue.current c.k = some p := hg.stores.current.trans hcur
  have hc' : c' = ⟨k', c.h.save p c.k.regs⟩ := by
    have hsame : c.step sym .yield = some ⟨k', c.h.save p c.k.regs⟩ := by simp [Sys.step, hk, Scheduler.yield, hre]
    exact Option.some.inj (hstep.symm.trans hsame)
  rw [hc'] at hg' hstep
  exact ⟨_, hstep, hg', hsw, reschedule_uart hre⟩

theorem Good.exit_to (hg : Good sym c a) (hcur : a.current = some p) (hp : p ≠ 0) (code : Word) :
    ∃ c', c.step sym (.exit code) = some c' ∧ Good sym c' ((a.mark p .dead).reschedule p) ∧
      Switched c.k c'.k (some p) a.pick ∧ c'.k.uart = c.k.uart ++ exitText code := by
  obtain ⟨c', p', hp', hstep, hg', _⟩ := hg.exit (hg.started hcur) (mt (hg.idle_iff hcur).mp hp) code
  obtain rfl : p = p' := Option.some.inj (hcur.symm.trans hp')
  obtain ⟨k₁, hmark, h₁, hs₁⟩ := markExit_stores hg.stores hcur code
  obtain ⟨k', hre, _, hsw⟩ := reschedule_stores h₁ hcur (fun _ => hg.sane.current_not_queued hcur)
  have hk : RunQueue.current c.k = some p := hg.stores.current.trans hcur
  have hexit : sysExit code c.k = some k' := by simp [sysExit, hmark, hre]
  have hc' : c' = ⟨k', (c.h.exit p).save p c.k.regs⟩ := by
    have hsame : c.step sym (.exit code) = some ⟨k', (c.h.exit p).save p c.k.regs⟩ := by
      simp [Sys.step, hk, hexit]
    exact Option.some.inj (hstep.symm.trans hsame)
  rw [hc'] at hg' hstep
  exact ⟨_, hstep, hg', hsw.of_same hs₁, sysExit_uart hexit⟩

/-- The current task was put back, and the picked one runs. -/
theorem poolOf_requeue (k : Kernel) {b : Sched} (hb : b.ready = a.ready.tail ++ [p]) (hne : ∀ t ∈ a.ready, t ≠ 0) :
    poolOf k b a.pick = Pool.requeue (standing k p) (a.ready.map (standing k)) := by
  unfold poolOf
  rcases pick_cases a with ⟨hnil, hzero⟩ | hcons
  · rw [if_pos hzero, hb, hnil]
    rfl
  · have hpick : a.pick ≠ 0 := hne a.pick (by rw [hcons]; exact List.mem_cons_self)
    rw [if_neg hpick, hb, List.map_append]
    conv_rhs => rw [hcons]
    rfl

/-- The current task is gone, and the picked one runs. -/
theorem poolOf_next (k : Kernel) {b : Sched} (hb : b.ready = a.ready.tail) (hne : ∀ t ∈ a.ready, t ≠ 0) :
    poolOf k b a.pick = Pool.next (a.ready.map (standing k)) := by
  unfold poolOf
  rcases pick_cases a with ⟨hnil, hzero⟩ | hcons
  · rw [if_pos hzero, hb, hnil]
    rfl
  · have hpick : a.pick ≠ 0 := hne a.pick (by rw [hcons]; exact List.mem_cons_self)
    rw [if_neg hpick, hb]
    conv_rhs => rw [hcons]
    rfl

/-- Who is current after `reschedule`. -/
theorem reschedule_current (a : Sched) (p : TaskRef) : (a.reschedule p).current = some a.pick := rfl

theorem Good.requeues (hg : Good sym c a) (hcur : a.current = some p) (hp : p ≠ 0) : a.Requeues p := by
  obtain ⟨_, hstate⟩ := hg.sane.current p hcur
  rw [hg.alive p hcur] at hstate
  exact ⟨hp, hstate⟩

/-- **`yield` of a task.** -/
theorem Good.yield_pool (hg : Good sym c a) (hcur : a.current = some p) (hp : p ≠ 0)
    (hentry : (c.k.tasks 0).entry = sym.idleTaskEntry) : ∃ c', c.step sym .yield = some c' ∧ c'.k.uart = c.k.uart ∧
      Stands sym c' (Pool.requeue (standing c.k p) (a.ready.map (standing c.k))) := by
  obtain ⟨c', hstep, hg', hsw, huart⟩ := hg.yield_to hcur
  have hcur' : c'.k.sCurrent = some a.pick := hg'.stores.current.trans (reschedule_current a p)
  have hready : (a.reschedule p).ready = a.ready.tail ++ [p] := by
    rw [Sched.reschedule, if_pos (hg.requeues hcur hp)]
    rfl
  refine ⟨c', hstep, huart, a.reschedule p, a.pick, hg', reschedule_current a p, (hsw.entry 0).trans hentry, ?_⟩
  rw [poolOf_requeue c'.k hready fun t ht => hg.sane.queued_ne_zero ht,
    standing_switch hsw (hg.stores.current.trans hcur) hcur']

/-- **`sys_exit` of a task.** -/
theorem Good.exit_pool (hg : Good sym c a) (hcur : a.current = some p) (hp : p ≠ 0)
    (hentry : (c.k.tasks 0).entry = sym.idleTaskEntry) (code : Word) : ∃ c', c.step sym (.exit code) = some c' ∧
      c'.k.uart = c.k.uart ++ exitText code ∧ Stands sym c' (Pool.next (a.ready.map (standing c.k))) := by
  obtain ⟨c', hstep, hg', hsw, huart⟩ := hg.exit_to hcur hp code
  have hcur' : c'.k.sCurrent = some a.pick := hg'.stores.current.trans (reschedule_current (a.mark p .dead) p)
  have hdead : ¬ (a.mark p .dead).Requeues p := by
    rintro ⟨_, hrun⟩
    rw [Sched.mark_state, if_pos rfl] at hrun
    cases hrun
  have hready : ((a.mark p .dead).reschedule p).ready = a.ready.tail := by
    rw [Sched.reschedule, if_neg hdead]
    rfl
  refine ⟨c', hstep, huart, (a.mark p .dead).reschedule p, a.pick, hg', reschedule_current (a.mark p .dead) p,
    (hsw.entry 0).trans hentry, ?_⟩
  rw [poolOf_next c'.k hready fun t ht => hg.sane.queued_ne_zero ht,
    standing_switch hsw (hg.stores.current.trans hcur) hcur']

/-! ## One moment -/

variable {pool : Pool Thread}

/-- The statement that the current task executes. -/
theorem Good.code_eq (hg : Good sym s.sys a) (hcur : a.current = some p) :
    s.code sym text = (image sym text (s.sys.k.tasks p).entry s.sys.k.regs).exec sym s := by
  have hk : RunQueue.current s.sys.k = some p := hg.stores.current.trans hcur
  rw [TrapSys.code, bootstrapCallee, hk]
  rfl

/-- The idle task prints or waits, and stays. -/
theorem Good.idle_code (hg : Good sym s.sys a) (hcur : a.current = some 0)
    (hentry : (s.sys.k.tasks 0).entry = sym.idleTaskEntry) : ∃ regs out,
      s.code sym text = some { s with sys := ⟨{ s.sys.k with regs := regs, uart := out }, s.sys.h⟩ } := by
  rw [hg.code_eq hcur, hentry, image, Function.update_self]
  rcases idleTaskEntry_cases s.sys.k.regs with ⟨out, regs, h⟩ | ⟨regs, h⟩
  · rw [h]
    exact ⟨regs, s.sys.k.uart.puts out, rfl⟩
  · rw [h]
    exact ⟨regs, s.sys.k.uart, rfl⟩

/-- A task prints, or waits. -/
theorem Good.emits (hg : Good sym s.sys a) (hcur : a.current = some p) (hp : p ≠ 0)
    (hentry : (s.sys.k.tasks 0).entry = sym.idleTaskEntry) (regs : Regs) (out : Uart) :
    Stands sym ⟨{ s.sys.k with regs := regs, uart := out }, s.sys.h⟩
      (.busy { standing s.sys.k p with regs := regs } (a.ready.map (standing s.sys.k))) := by
  obtain ⟨hself, hothers⟩ := standing_work (hg.stores.current.trans hcur) regs out (hg.sane.current_not_queued hcur)
  refine ⟨a, p, hg.same_tasks regs out, hcur, hentry, ?_⟩
  rw [poolOf, if_neg hp, hself, hothers]

/-- What a moment of code has sent. -/
theorem call_code {said : List Byte} (hcode : s.code sym text = some s')
    (hne : RunQueue.current s.sys.k ≠ TaskManager.idleTask s.sys.k) (hsaid : s'.sys.k.uart = s.sys.k.uart ++ said) :
    Moment.call sym text s .code = some (said, s') := by
  show (s.code sym text).bind _ = _
  rw [hcode]
  show some (ite _ _ _, s') = _
  rw [if_neg hne, hsaid, List.drop_left]

/-- **One statement of a task is one step of the pool.** -/
theorem Good.code_pool (hg : Good sym s.sys a) (hcur : a.current = some p) (hp : p ≠ 0)
    (hentry : (s.sys.k.tasks 0).entry = sym.idleTaskEntry) : ∃ s', Moment.call sym text s .code =
        some ((Pool.step (Thread.act (image sym text)) (poolOf s.sys.k a p)).1, s') ∧
      Stands sym s'.sys (Pool.step (Thread.act (image sym text)) (poolOf s.sys.k a p)).2 := by
  have hk : s.sys.k.sCurrent = some p := hg.stores.current.trans hcur
  have hne := mt (hg.idle_iff hcur).mp hp
  have hcode := @Good.code_eq sym text s a p hg hcur
  have hact : Thread.act (image sym text) (standing s.sys.k p) =
      (image sym text (s.sys.k.tasks p).entry s.sys.k.regs).act (standing s.sys.k p) := by
    rw [standing_current hk]
    rfl
  -- the registers at the call, and what stands then
  have hwork : ∀ regs, Good sym ⟨{ s.sys.k with regs := regs }, s.sys.h⟩ a := hg.work
  have hstands : ∀ regs, standing { s.sys.k with regs := regs } p = { standing s.sys.k p with regs := regs } ∧
      a.ready.map (standing { s.sys.k with regs := regs }) = a.ready.map (standing s.sys.k) := by
    intro regs
    exact standing_work hk regs s.sys.k.uart (hg.sane.current_not_queued hcur)
  rw [poolOf, if_neg hp]
  have hexit : ∀ code regs, s.code sym text = ((s.step sym (.call (.work regs))).bind
      fun s => s.step sym (.call (.exit code))) → ∃ s', Moment.call sym text s .code = some (exitText code, s') ∧
        Stands sym s'.sys (Pool.next (a.ready.map (standing s.sys.k))) := by
    intro code regs hcode
    obtain ⟨c', hstep, huart, hst⟩ := (hwork regs).exit_pool hcur hp hentry code
    rw [(hstands regs).2] at hst
    refine ⟨{ s with sys := c' }, call_code ?_ hne huart, hst⟩
    rw [hcode]
    show (Sys.step sym _ _).map _ = _
    rw [hstep]
    rfl
  cases hst : image sym text (s.sys.k.tasks p).entry s.sys.k.regs with
  | puts out regs =>
      rw [hst] at hact hcode
      rw [Pool.step_emits hact]
      refine ⟨_, call_code hcode hne (puts_eq _ out), ?_⟩
      exact hg.emits hcur hp hentry regs (s.sys.k.uart.puts out)
  | wfi regs =>
      rw [hst] at hact hcode
      rw [Pool.step_emits hact]
      refine ⟨_, call_code hcode hne (List.append_nil _).symm, ?_⟩
      exact hg.emits hcur hp hentry regs s.sys.k.uart
  | yield regs =>
      rw [hst] at hact hcode
      rw [Pool.step_yields hact]
      obtain ⟨c', hstep, huart, hst⟩ := (hwork regs).yield_pool hcur hp hentry
      rw [(hstands regs).1, (hstands regs).2] at hst
      refine ⟨{ s with sys := c' }, call_code ?_ hne (huart.trans (List.append_nil _).symm), hst⟩
      rw [hcode]
      show (Sys.step sym _ _).map _ = _
      rw [hstep]
      rfl
  | exit code regs =>
      rw [hst] at hact hcode
      rw [Pool.step_exits hact]
      exact hexit code regs hcode
  | ret regs =>
      rw [hst] at hact hcode
      rw [Pool.step_exits hact]
      exact hexit 255#64 regs hcode

theorem Stands.code (h : Stands sym s.sys pool) : ∃ s',
    Moment.call sym text s .code = some ((Pool.step (Thread.act (image sym text)) pool).1, s') ∧
      Stands sym s'.sys (Pool.step (Thread.act (image sym text)) pool).2 := by
  obtain ⟨a, p, hg, hcur, hentry, rfl⟩ := h
  by_cases hp : p = 0
  · subst hp
    obtain ⟨regs, out, hcode⟩ := @Good.idle_code sym text s a hg hcur hentry
    have hk : s.sys.k.sCurrent = some 0 := hg.stores.current.trans hcur
    obtain ⟨_, hothers⟩ := standing_work hk regs out (hg.sane.current_not_queued hcur)
    rw [poolOf, if_pos rfl]
    refine ⟨{ s with sys := ⟨{ s.sys.k with regs := regs, uart := out }, s.sys.h⟩ }, ?_, a, 0, hg.same_tasks regs out,
      hcur, hentry, ?_⟩
    · show (s.code sym text).bind _ = _
      rw [hcode]
      show some (ite _ _ _, _) = _
      rw [if_pos ((hg.idle_iff hcur).mpr rfl)]
      rfl
    · rw [poolOf, if_pos rfl, hothers]
      rfl
  · exact hg.code_pool hcur hp hentry

/-- **The timer interrupt** is no step of the pool. -/
theorem Stands.timer (h : Stands sym s.sys pool) (tf : TrapFrame) (is : Cause.timer.Is tf.mcause) (bus : Bus)
    (regs : Regs) : ∃ s', Moment.call sym text s (.timer tf is bus regs) = some ([], s') ∧ Stands sym s'.sys pool := by
  obtain ⟨a, p, hg, hcur, hentry, rfl⟩ := h
  obtain ⟨out, timer, htrap⟩ := @trapHandle_timer { tf with mstatus := takeTrap s.mstatus } is bus
    ⟨{ s.sys.k with regs := regs }, s.timer⟩
  refine ⟨⟨⟨s.sys.k.print out, s.sys.h⟩, timer, mretStatus (takeTrap s.mstatus)⟩, ?_, a, p, hg.print out, hcur, hentry,
    rfl⟩
  show ((trapHandle bus _ _).bind (s.finish regs)).bind _ = _
  rw [htrap, finish_returns]
  rfl

/-! ## `task_A` and `task_B` -/

/-- What one of them says in a turn. -/
def helloText (name : String) : List Byte := (literal ("Hello from task_" ++ name ++ "\n")).flatMap expandNewline

def initText (name : String) : List Byte := (literal ("task " ++ name ++ " init.\n")).flatMap expandNewline

variable {name : String} {code : Word} {th : Thread}

/-- The loop, with `i` rounds to go. -/
theorem greeter_loop (htext : text th.entry = greeter name code) : ∀ (i : Nat), i ≤ 5 → ∀ regs : Regs,
    regs .s0 = 1#64 → regs .s1 = BitVec.ofNat 64 (5 - i) →
      Pieces (Thread.act text) (2 * i + 1) { th with regs := regs }
        (List.replicate i (helloText name) ++ [exitText code]) := by
  have hact : ∀ regs,
      Thread.act text { th with regs := regs } = (greeter name code regs).act { th with regs := regs } :=
    fun regs => congrArg (fun f => (f regs).act { th with regs := regs }) htext
  have hless : ∀ i < 5, (BitVec.ofNat 64 (5 - (i + 1))).slt 5#64 = true := by decide
  have hnext : ∀ i < 5, BitVec.ofNat 64 (5 - (i + 1)) + 1#64 = BitVec.ofNat 64 (5 - i) := by decide
  intro i
  induction i with
  | zero =>
      intro _ regs h0 h1
      refine Pieces.exits ?_
      have h0' : regs .s0 ≠ 0#64 := by rw [h0]; decide
      have h1' : (regs .s1).slt 5#64 = false := by rw [h1]; decide
      rw [hact, greeter, if_neg h0', if_pos h0, h1', if_neg Bool.false_ne_true]
      rfl
  | succ i ih =>
      intro hi regs h0 h1
      have h0' : regs .s0 ≠ 0#64 := by rw [h0]; decide
      have hlt : (regs .s1).slt 5#64 = true := by rw [h1]; exact hless i hi
      have hsay : Thread.act text { th with regs := regs } =
          .emits (helloText name) { th with regs := regs.goto 2#64 } := by
        rw [hact, greeter, if_neg h0', if_pos h0, if_pos hlt]
        rfl
      obtain ⟨after, hyield, h0'', h1''⟩ : ∃ after : Regs, Thread.act text { th with regs := regs.goto 2#64 } =
          .yields { th with regs := after } ∧ after .s0 = 1#64 ∧ after .s1 = regs .s1 + 1#64 := by
        refine ⟨Regs.goto (Function.update (regs.goto 2#64) .s1 (regs .s1 + 1#64)) 1#64, ?_, rfl, rfl⟩
        have h2 : (regs.goto 2#64) .s0 = 2#64 := rfl
        rw [hact, greeter, h2, if_neg (by decide), if_neg (by decide)]
        rfl
      have hrest := ih (Nat.le_of_succ_le hi) after h0'' (by rw [h1'', h1, hnext i hi])
      have hturn := Pieces.emits hsay (Pieces.yields hyield hrest)
      rw [List.append_nil] at hturn
      exact hturn

/-- **`task_A` and `task_B`** say hello in five turns, and exit in the sixth. -/
theorem greeter_pieces (htext : text th.entry = greeter name code) (h0 : th.regs .s0 = 0#64) :
    Pieces (Thread.act text) 12 th
      ((initText name ++ helloText name) :: (List.replicate 4 (helloText name) ++ [exitText code])) := by
  have hinit : Thread.act text th =
      .emits (initText name) { th with regs := Regs.goto (Function.update th.regs .s1 0#64) 1#64 } := by
    have hact : Thread.act text th = (greeter name code th.regs).act th := congrArg (fun f => (f th.regs).act th) htext
    rw [hact, greeter, if_pos h0]
    rfl
  exact Pieces.emits hinit (greeter_loop htext 5 (Nat.le_refl 5) _ rfl rfl)

def greeterPlan (htext : text th.entry = greeter name code) (h0 : th.regs .s0 = 0#64) : Plan (Thread.act text) where
  start := th
  acts := 12
  pieces := (initText name ++ helloText name) :: (List.replicate 4 (helloText name) ++ [exitText code])
  ok := greeter_pieces htext h0

/-- The two entries of the test system. -/
def testText (entry : Word) : Regs → Stmt := if entry = 0x80000300#64 then taskA else taskB

/-! ## Runs -/

/-- **The run lemma.** -/
theorem Stands.run : ∀ (ms : List Moment) {s : TrapSys} {pool : Pool Thread}, Stands sym s.sys pool → ∃ said s',
    trace (Moment.call sym text) s ms = some (said, s') ∧
      said.flatten = (Pool.steps (Thread.act (image sym text)) (Moment.statements ms) pool).1 ∧
      Stands sym s'.sys (Pool.steps (Thread.act (image sym text)) (Moment.statements ms) pool).2 := by
  intro ms
  induction ms with
  | nil => exact fun {s pool} h => ⟨[], s, rfl, rfl, h⟩
  | cons m ms ih =>
      intro s pool h
      cases m with
      | code =>
          obtain ⟨s₁, hcall, h₁⟩ := @Stands.code sym text s pool h
          obtain ⟨said, s', htrace, hsaid, h'⟩ := ih h₁
          exact ⟨_ :: said, s', trace_cons_eq_some.mpr ⟨_, s₁, said, hcall, htrace, rfl⟩,
            (List.flatten_cons).trans (congrArg _ hsaid), h'⟩
      | timer tf is bus regs =>
          obtain ⟨s₁, hcall, h₁⟩ := @Stands.timer sym text s pool h tf is bus regs
          obtain ⟨said, s', htrace, hsaid, h'⟩ := ih h₁
          exact ⟨[] :: said, s', trace_cons_eq_some.mpr ⟨_, s₁, said, hcall, htrace, rfl⟩, hsaid, h'⟩

/-- No call gives slot 0 to another task. -/
theorem idle_entry_reach (hr : Reach (Sys.step sym) Sys.Permitted (Sys.boot sym k₀) c) :
    (c.k.tasks 0).entry = sym.idleTaskEntry := by
  refine (Reach.invariant (I := fun c : Sys => (∃ a, Good sym c a) ∧ (c.k.tasks 0).entry = sym.idleTaskEntry)
    ⟨good_boot sym k₀, (init_spec sym k₀).2.2.1⟩ ?_ hr).2
  rintro c op c' ⟨⟨a, hg⟩, hentry⟩ hok hstep
  obtain ⟨c'', a', hstep', hg'⟩ := hg.step hok
  obtain rfl : c' = c'' := Option.some.inj (hstep.symm.trans hstep')
  refine ⟨⟨a', hg'⟩, ?_⟩
  have hsame : ∀ {k' : Kernel}, SameIdentity c.k k' → (k'.tasks 0).entry = sym.idleTaskEntry :=
    fun h => (congrArg Identity.entry (h.identity 0)).trans hentry
  cases op with
  | create entry stackBase stackSize =>
      rcases hcall : TaskManager.createKernelTask sym c.k entry stackBase stackSize with ⟨_ | t, k'⟩
      · obtain rfl := createKernelTask_none hcall
        simp only [Sys.step, hcall] at hstep
        exact Option.some.inj hstep ▸ hentry
      · have hc := createKernelTask_some hcall
        -- slot 0 is not empty
        have ht : (0 : TaskRef) ≠ t := by
          rintro rfl
          exact hg.sane.idle_made ((hg.sane.empty_iff 0).mp ((hg.stores.state 0).symm.trans hc.before))
        simp only [Sys.step, hcall] at hstep
        obtain rfl := Option.some.inj hstep
        show (k'.tasks 0).entry = _
        rw [hc.others 0 ht, hentry]
  | push t =>
      obtain ⟨⟨b, k'⟩, hpush, h⟩ := Option.bind_eq_some_iff.mp hstep
      obtain rfl := Option.some.inj h
      exact hsame (push_identity hpush)
  | start =>
      obtain ⟨k', hstart, h⟩ := Option.bind_eq_some_iff.mp hstep
      obtain rfl := Option.some.inj h
      exact hsame (start_identity hstart)
  | work regs =>
      obtain rfl := Option.some.inj hstep
      exact hentry
  | yield =>
      obtain ⟨p, _, h⟩ := Option.bind_eq_some_iff.mp hstep
      obtain ⟨k', hre, h⟩ := Option.bind_eq_some_iff.mp h
      obtain rfl := Option.some.inj h
      exact hsame (reschedule_identity hre)
  | exit code =>
      obtain ⟨p, _, h⟩ := Option.bind_eq_some_iff.mp hstep
      obtain ⟨k', hexit, h⟩ := Option.bind_eq_some_iff.mp h
      obtain ⟨k₁, hmark, hre⟩ := Option.bind_eq_some_iff.mp hexit
      obtain rfl := Option.some.inj h
      exact hsame ((markExit_identity hmark).trans (reschedule_identity hre))

/-- A started system stands where some pool stands. -/
theorem stands_reach (hr : Reach (Sys.step sym) Sys.Permitted (Sys.boot sym k₀) c) (hst : c.h.started = true) :
    ∃ a p, Good sym c a ∧ a.current = some p ∧ Stands sym c (poolOf c.k a p) := by
  obtain ⟨a, hg⟩ := good_reach hr
  obtain ⟨p, hcur, _⟩ := hg.running hst
  exact ⟨a, p, hg, hcur, a, p, hg, hcur, idle_entry_reach hr, rfl⟩

/-- **The kernel runs the tasks as the pool does.** From any state after `start`, whatever the code of the tasks is
    and wherever the timer interrupts it: no call faults, and after every moment what the tasks have sent, who runs
    and who waits in which order are as in the pool, whose ready queue is a plain list and which knows neither links
    nor contexts nor interrupts. -/
theorem tasks_run_as_pool (hr : Reach (Sys.step sym) Sys.Permitted (Sys.boot sym k₀) c) (hst : c.h.started = true)
    (text : Image) (timer : KernelTimer) (mstatus : Word) : ∃ pool, Shows c.k pool ∧
      ∀ ms, ∃ said s', trace (Moment.call sym text) ⟨c, timer, mstatus⟩ ms = some (said, s') ∧
        said.flatten = (Pool.steps (Thread.act (image sym text)) (Moment.statements ms) pool).1 ∧
        Shows s'.sys.k (Pool.steps (Thread.act (image sym text)) (Moment.statements ms) pool).2 := by
  obtain ⟨a, p, _, _, hstands⟩ := stands_reach hr hst
  refine ⟨poolOf c.k a p, hstands.shows, fun ms => ?_⟩
  obtain ⟨said, s', htrace, hsaid, h'⟩ := @Stands.run sym text ms ⟨c, timer, mstatus⟩ _ hstands
  exact ⟨said, s', htrace, hsaid, h'.shows⟩

/-- Two tasks, started: the first says that it is there and hello, the timer interrupts it in between, it yields, and
    the second says that it is there. -/
theorem tasks_run_as_pool_test : ∃ c pool said s',
    run (Sys.step testSymbols) testBoot (twoTasks ++ [.start]) = some c ∧ Shows c.k pool ∧
    trace (Moment.call testSymbols testText) ⟨c, ⟨0#64, 0#64, 0#64⟩, 0x8#64⟩
      [.code, .timer (testFrame 0x8000000000000007#64 0#64) (by decide +kernel) testBus fun _ => 0#64, .code, .code,
        .code] = some (said, s') ∧
    (Pool.steps (Thread.act (image testSymbols testText)) 4 pool).1 = initText "A" ++ helloText "A" ++ initText "B" ∧
    Shows s'.sys.k (Pool.steps (Thread.act (image testSymbols testText)) 4 pool).2 ∧
    RunQueue.current s'.sys.k = some 2 := by
  have hrun : (run (Sys.step testSymbols) testBoot (twoTasks ++ [.start])).map (fun c => c.h.started) = some true := by
    decide +kernel
  have hout : ∀ c ∈ run (Sys.step testSymbols) testBoot (twoTasks ++ [.start]),
      ∀ p ∈ trace (Moment.call testSymbols testText) ⟨c, ⟨0#64, 0#64, 0#64⟩, 0x8#64⟩
        [.code, .timer (testFrame 0x8000000000000007#64 0#64) (by decide +kernel) testBus fun _ => 0#64, .code, .code,
          .code],
        p.1.flatten = initText "A" ++ helloText "A" ++ initText "B" ∧ RunQueue.current p.2.sys.k = some 2 := by
    decide +kernel
  obtain ⟨c, hc, hst⟩ := Option.map_eq_some_iff.mp hrun
  have hok : Always (Sys.step testSymbols) Sys.Permitted testBoot (twoTasks ++ [.start]) := by decide +kernel
  obtain ⟨pool, hshows, hms⟩ := tasks_run_as_pool (Reach.of_run _ hok hc) hst testText ⟨0#64, 0#64, 0#64⟩ 0x8#64
  obtain ⟨said, s', htrace, hsaid, hafter⟩ := hms [.code,
    .timer (testFrame 0x8000000000000007#64 0#64) (by decide +kernel) testBus fun _ => 0#64, .code, .code, .code]
  obtain ⟨htext, hcur⟩ := hout c hc _ htrace
  exact ⟨c, pool, said, s', hc, hshows, htrace, hsaid.symm.trans htext, hafter, hcur⟩

/-! ## Tasks that exit -/

/-- The calls that a statement makes. -/
theorem call_pushed {op : SchedOp} (hop : ∀ t, op ≠ .push t) (h : s.step sym (.call op) = some s') :
    s'.sys.h.pushed = s.sys.h.pushed := by
  have h : (s.sys.step sym op).map (fun c => { s with sys := c }) = some s' := h
  obtain ⟨c, hc, rfl⟩ := Option.map_eq_some_iff.mp h
  cases op with
  | create entry stackBase stackSize =>
      rcases hcall : TaskManager.createKernelTask sym s.sys.k entry stackBase stackSize with ⟨_ | t, k'⟩
      all_goals
        simp only [Sys.step, hcall] at hc
        obtain rfl := Option.some.inj hc
        rfl
  | push t => exact absurd rfl (hop t)
  | start =>
      obtain ⟨k', _, hc⟩ := Option.bind_eq_some_iff.mp hc
      obtain rfl := Option.some.inj hc
      rfl
  | work regs =>
      obtain rfl := Option.some.inj hc
      rfl
  | yield =>
      obtain ⟨p, _, hc⟩ := Option.bind_eq_some_iff.mp hc
      obtain ⟨k', _, hc⟩ := Option.bind_eq_some_iff.mp hc
      obtain rfl := Option.some.inj hc
      rfl
  | exit code =>
      obtain ⟨p, _, hc⟩ := Option.bind_eq_some_iff.mp hc
      obtain ⟨k', _, hc⟩ := Option.bind_eq_some_iff.mp hc
      obtain rfl := Option.some.inj hc
      rfl

theorem exec_pushed {st : Stmt} (h : st.exec sym s = some s') : s'.sys.h.pushed = s.sys.h.pushed := by
  have hcall : ∀ {regs : Regs} {op : SchedOp}, (∀ t, op ≠ .push t) →
      ((s.step sym (.call (.work regs))).bind fun s => s.step sym (.call op)) = some s' →
        s'.sys.h.pushed = s.sys.h.pushed := by
    intro regs op hop h
    obtain ⟨s₁, h₁, h₂⟩ := Option.bind_eq_some_iff.mp h
    exact (call_pushed hop h₂).trans (call_pushed (fun _ => SchedOp.noConfusion) h₁)
  cases st with
  | puts out regs =>
      obtain rfl := Option.some.inj h
      rfl
  | wfi regs =>
      have h : s.step sym (.call (.work regs)) = some s' := h
      exact call_pushed (fun _ => SchedOp.noConfusion) h
  | yield regs => exact hcall (fun _ => SchedOp.noConfusion) h
  | exit code regs => exact hcall (fun _ => SchedOp.noConfusion) h
  | ret regs => exact hcall (fun _ => SchedOp.noConfusion) h

theorem finish_pushed {regs : Regs} {o : Outcome} (h : s.finish regs o = some s') :
    s'.sys.h.pushed = s.sys.h.pushed := by
  cases o with
  | returns tf p =>
      obtain rfl := Option.some.inj h
      rfl
  | exits p =>
      obtain ⟨t, _, h⟩ := Option.bind_eq_some_iff.mp h
      obtain rfl := Option.some.inj h
      rfl
  | waits p => cases h

/-- No moment of task code pushes a task. -/
theorem trace_pushed : ∀ (ms : List Moment) {s s' : TrapSys} {said : List (List Byte)},
    trace (Moment.call sym text) s ms = some (said, s') → s'.sys.h.pushed = s.sys.h.pushed := by
  intro ms
  induction ms with
  | nil =>
      intro s s' said h
      obtain ⟨_, rfl⟩ := Prod.mk.inj (Option.some.inj h)
      rfl
  | cons m ms ih =>
      intro s s' said h
      obtain ⟨out, s₁, said', hcall, hrest, _⟩ := trace_cons_eq_some.mp h
      obtain ⟨s₂, hstep, hcall⟩ := Option.bind_eq_some_iff.mp hcall
      obtain ⟨_, rfl⟩ := Prod.mk.inj (Option.some.inj hcall)
      refine (ih hrest).trans ?_
      cases m with
      | code =>
          obtain ⟨entry, _, hexec⟩ := Option.bind_eq_some_iff.mp hstep
          exact exec_pushed hexec
      | timer tf is bus regs =>
          obtain ⟨outcome, _, hfinish⟩ := Option.bind_eq_some_iff.mp hstep
          exact finish_pushed hfinish

/-- The last thing a task says is that it exits. -/
theorem pieces_said {n : Nat} {th : Thread} {ps : List (List Byte)} (h : Pieces (Thread.act text) n th ps) :
    ps.flatten ≠ [] := by
  have hexit : ∀ code, exitText code ≠ [] := by
    intro code
    unfold exitText
    exact List.append_ne_nil_of_right_ne_nil _ (by decide)
  induction h with
  | @exits th out hcode =>
      rw [List.flatten_cons, List.flatten_nil, List.append_nil]
      unfold Thread.act at hcode
      cases hst : text th.entry th.regs with
      | exit code regs =>
          rw [hst] at hcode
          exact Act.exits.inj hcode ▸ hexit code
      | ret regs =>
          rw [hst] at hcode
          exact Act.exits.inj hcode ▸ hexit 255#64
      | puts _ _ => rw [hst] at hcode; cases hcode
      | wfi _ => rw [hst] at hcode; cases hcode
      | yield _ => rw [hst] at hcode; cases hcode
  | yields _ _ ih => exact ih
  | emits _ _ ih =>
      rw [List.flatten_cons, List.append_assoc, ← List.flatten_cons]
      exact List.append_ne_nil_of_right_ne_nil _ ih

/-- Code does not change which task runs it. -/
theorem act_named (text : Image) : Pool.Named (Thread.act text) Thread.task where
  emits := by
    intro th out th' h
    unfold Thread.act at h
    cases hst : text th.entry th.regs with
    | puts _ _ =>
        rw [hst] at h
        exact (congrArg Thread.task (Act.emits.inj h).2).symm
    | wfi _ =>
        rw [hst] at h
        exact (congrArg Thread.task (Act.emits.inj h).2).symm
    | yield _ => rw [hst] at h; cases h
    | exit _ _ => rw [hst] at h; cases h
    | ret _ => rw [hst] at h; cases h
  yields := by
    intro th th' h
    unfold Thread.act at h
    cases hst : text th.entry th.regs with
    | yield _ =>
        rw [hst] at h
        exact (congrArg Thread.task (Act.yields.inj h)).symm
    | puts _ _ => rw [hst] at h; cases h
    | wfi _ => rw [hst] at h; cases h
    | exit _ _ => rw [hst] at h; cases h
    | ret _ => rw [hst] at h; cases h

/-- Who stands in a list of tasks. -/
theorem map_standing_task (k : Kernel) (l : List TaskRef) : (l.map (standing k)).map Thread.task = l := by
  rw [List.map_map]
  exact List.map_id l

/-- A kernel at rest: whoever was pushed and is not queued has exited. -/
theorem Stands.rest {l : List Thread} (h : Stands sym c (.idle l)) :
    RunQueue.current c.k = TaskManager.idleTask c.k ∧ Ring c.k.nodes .head ((l.map Thread.task).map .runNode) ∧
      ∀ t, c.h.pushed t = true → t ∉ l.map Thread.task → (c.k.tasks t).state = .dead := by
  obtain ⟨a, p, hg, hcur, _, hpool⟩ := h
  have hp : p = 0 := by
    by_contra hne
    rw [poolOf, if_neg hne] at hpool
    cases hpool
  rw [poolOf, if_pos hp] at hpool
  obtain rfl := Pool.idle.inj hpool
  rw [map_standing_task]
  refine ⟨(hg.idle_iff hcur).mpr hp, hg.stores.ring, fun t hpush ht => ?_⟩
  have hexited : c.h.exited t = true := by
    by_contra hlive
    rcases hg.sane.live t hpush (Bool.not_eq_true _ ▸ hlive) with hm | hc
    · exact ht hm
    · -- the current task is the idle task, which nobody pushed
      obtain rfl : p = t := Option.some.inj (hcur.symm.trans hc)
      exact (hg.sane.pushed_made p hpush).1 hp
  exact (hg.stores.state t).trans (hg.sane.dead t hexited).2

/-- **What becomes of tasks that exit.** From any state after `start`, with any timer interrupts: after finitely many
    statements the idle task runs for good. All others have exited by then, unless one of them outlives the others:
    that one is left in the ready queue for ever. What the tasks have sent is their pieces, round by round, but for
    what the one left behind had still to say. -/
theorem tasks_finish (hr : Reach (Sys.step sym) Sys.Permitted (Sys.boot sym k₀) c) (hst : c.h.started = true)
    {q : List TaskRef} (hp : RunQueue.current c.k = some p) (hidle : RunQueue.current c.k ≠ TaskManager.idleTask c.k)
    (hq : Ring c.k.nodes .head (q.map .runNode)) (plans : List (Plan (Thread.act (image sym text))))
    (hplans : plans.map Plan.start = (p :: q).map (standing c.k)) :
    ∃ (m : Nat) (parked : List TaskRef) (lost : List Byte), parked.length ≤ 1 ∧
      (∀ t, t ∈ parked ↔ Outlives t (Pool.turnsOf Thread.task plans)) ∧ (lost = [] ↔ parked = []) ∧
      m ≤ allActs plans ∧ (parked = [] → m = allActs plans) ∧
      ∀ timer mstatus ms, m ≤ Moment.statements ms → ∃ said s',
        trace (Moment.call sym text) ⟨c, timer, mstatus⟩ ms = some (said, s') ∧
        RunQueue.current s'.sys.k = TaskManager.idleTask s'.sys.k ∧ Ring s'.sys.k.nodes .head (parked.map .runNode) ∧
        (∀ t ∈ p :: q, t ∉ parked → (s'.sys.k.tasks t).state = .dead) ∧
        said.flatten ++ lost = (rounds (plans.map Plan.pieces)).flatten := by
  obtain ⟨a, p', hg, hcur, hstands⟩ := stands_reach hr hst
  obtain rfl : p = p' := Option.some.inj (hp.symm.trans (hg.stores.current.trans hcur))
  obtain rfl := queue_unique hg.stores.ring hq
  have hp0 : p ≠ 0 := mt (hg.idle_iff hcur).mpr hidle
  have hpool : poolOf c.k a p = Pool.next (plans.map Plan.start) := by
    rw [poolOf, if_neg hp0, hplans]
    rfl
  have hpushed : ∀ t ∈ p :: a.ready, c.h.pushed t = true := by
    intro t ht
    rcases List.mem_cons.mp ht with rfl | ht
    · exact (hg.sane.current t hcur).1.resolve_left hp0
    · exact (hg.sane.queued t ht).1
  obtain ⟨m, out, left, hends⟩ := Pool.finish (act_named (image sym text)) _ plans rfl
  have hacts := hends.acts
  refine ⟨m, left.map fun x => x.start.task, (rounds (left.map Plan.pieces)).flatten, ?_, hends.parked_iff, ?_,
    by omega, fun hnil => ?_, fun timer mstatus ms hms => ?_⟩
  · rw [List.length_map]
    exact hends.alone
  · cases left with
    | nil => exact iff_of_true rfl rfl
    | cons x left =>
        obtain rfl : left = [] := List.eq_nil_of_length_eq_zero (Nat.le_zero.mp (Nat.le_of_succ_le_succ hends.alone))
        rw [List.map_singleton, rounds_singleton]
        exact iff_of_false (pieces_said x.ok) (List.cons_ne_nil _ _)
  · obtain rfl := List.map_eq_nil_iff.mp hnil
    exact hacts
  · obtain ⟨said, s', htrace, hsaid, h'⟩ := @Stands.run sym text ms ⟨c, timer, mstatus⟩ _ hstands
    rw [hpool, Pool.steps_of_idle hends.steps hms] at hsaid h'
    obtain ⟨hcur', hring, hdead⟩ := h'.rest
    have hleft : (left.map Plan.start).map Thread.task = left.map fun x => x.start.task := List.map_map
    rw [hleft] at hring hdead
    refine ⟨said, s', htrace, hcur', hring, fun t ht hnot => hdead t ?_ hnot, ?_⟩
    · rw [trace_pushed ms htrace]
      exact hpushed t ht
    · rw [hsaid, hends.emitted]

/-- `task_A` and `task_B`: neither is left behind, and they say hello in turns. -/
theorem tasks_finish_test : ∃ c m, run (Sys.step testSymbols) testBoot (twoTasks ++ [.start]) = some c ∧
    ∀ timer mstatus ms, m ≤ Moment.statements ms → ∃ said s',
      trace (Moment.call testSymbols testText) ⟨c, timer, mstatus⟩ ms = some (said, s') ∧
      (s'.sys.k.tasks 1).state = .dead ∧ (s'.sys.k.tasks 2).state = .dead ∧
      said.flatten = initText "A" ++ helloText "A" ++ (initText "B" ++ helloText "B") ++
        (List.replicate 4 (helloText "A" ++ helloText "B")).flatten ++ exitText 233#64 ++ exitText 137#64 := by
  have hrun : (run (Sys.step testSymbols) testBoot (twoTasks ++ [.start])).map (fun c : Sys => decide (
      (c.h.started = true ∧ RunQueue.current c.k = some 1 ∧ TaskManager.idleTask c.k = some 0) ∧
      (((c.k.nodes .head).next = some (.runNode 2) ∧ (c.k.nodes (.runNode 2)).prev = some .head) ∧
        (c.k.nodes (.runNode 2)).next = some .head ∧ (c.k.nodes .head).prev = some (.runNode 2)) ∧
      ((c.k.tasks 1).entry = 0x80000300#64 ∧ (c.k.tasks 2).entry = 0x80000400#64) ∧
      (standing c.k 1).regs .s0 = 0#64 ∧ (standing c.k 2).regs .s0 = 0#64)) = some true := by decide +kernel
  obtain ⟨c, hc, hfacts⟩ := Option.map_eq_some_iff.mp hrun
  obtain ⟨⟨hst, hcur, hidle⟩, ⟨hhead, htail⟩, ⟨he1, he2⟩, hr1, hr2⟩ := of_decide_eq_true hfacts
  have hok : Always (Sys.step testSymbols) Sys.Permitted testBoot (twoTasks ++ [.start]) := by decide +kernel
  have hq : Ring c.k.nodes .head (([2] : List TaskRef).map .runNode) :=
    ⟨.cons_cons hhead (.cons_cons htail (.singleton _)), by decide⟩
  have hA : image testSymbols testText (standing c.k 1).entry = greeter "A" 233#64 := by
    show image testSymbols testText (c.k.tasks 1).entry = _
    rw [he1, image, Function.update_of_ne (by decide), testText, if_pos rfl, taskA]
  have hB : image testSymbols testText (standing c.k 2).entry = greeter "B" 137#64 := by
    show image testSymbols testText (c.k.tasks 2).entry = _
    rw [he2, image, Function.update_of_ne (by decide), testText, if_neg (by decide), taskB]
  obtain ⟨m, parked, lost, _, hparked, hlost, _, _, hms⟩ := tasks_finish (Reach.of_run _ hok hc) hst hcur
    (by rw [hcur, hidle]; decide) hq [greeterPlan hA hr1, greeterPlan hB hr2] rfl
  -- six turns each: nobody outlives the other
  have hnil : parked = [] := by
    rw [List.eq_nil_iff_forall_not_mem]
    intro t ht
    refine not_outlives_of_equal (n := 6) ?_ ?_ ((hparked t).mp ht)
    · intro j hj
      rcases List.mem_cons.mp hj with rfl | hj
      · rfl
      · rw [List.mem_singleton.mp hj]
        rfl
    · exact Nat.le_refl 2
  obtain rfl := hlost.mpr hnil
  subst hnil
  refine ⟨c, m, hc, fun timer mstatus ms hm => ?_⟩
  obtain ⟨said, s', htrace, _, _, hdead, hsaid⟩ := hms timer mstatus ms hm
  refine ⟨said, s', htrace, hdead 1 (by simp) List.not_mem_nil, hdead 2 (by simp) List.not_mem_nil, ?_⟩
  rw [List.append_nil] at hsaid
  have hrounds : ∀ iA a xA iB b xB : List Byte, rounds [iA :: (List.replicate 4 a ++ [xA]),
      iB :: (List.replicate 4 b ++ [xB])] = [iA, iB, a, b, a, b, a, b, a, b, xA, xB] := fun _ _ _ _ _ _ => rfl
  rw [hsaid]
  show (rounds [_ :: (List.replicate 4 (helloText "A") ++ [exitText 233#64]),
    _ :: (List.replicate 4 (helloText "B") ++ [exitText 137#64])]).flatten = _
  rw [hrounds]
  simp [List.replicate]

end Core
end RiscCore
