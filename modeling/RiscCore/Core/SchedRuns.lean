import RiscCore.Core.SchedSane
import RiscCore.Lib.Runs

/-!
# `Core.SchedRuns` — whole runs of the scheduler

`Sys` is the kernel with its history; its steps are the calls a running system makes, in any order, and the
arbitrary work of the current task on its registers.

Three facts hold together in every reachable state (`Good`): the kernel stores an abstract scheduler, that
scheduler is sane, and every context holds what its task has to get back (`Kept`). A call that reaches
`context_switch` moreover leads to a task whose registers are its own (`Resumes`).
-/

namespace RiscCore
namespace Core

open Runs

structure Sys where
  k : Kernel
  h : History

inductive SchedOp where
  | create (entry stackBase stackSize : Word)
  | push (t : TaskRef)
  | start
  | work (regs : Regs)
  | yield
  | exit (code : Word)

namespace Sys

/-- `TaskManager::init`, then `Scheduler::init`, on whatever was in memory. -/
def boot (sym : Symbols) (k : Kernel) : Sys where
  k := Scheduler.init (TaskManager.init sym k)
  h := {
    started := false
    made := fun t => if t = 0 then some ⟨sym.idleTaskEntry, sym.idleStack, TaskManager.kIdleStackSize⟩ else none
    pushed := fun _ => false
    exited := fun _ => false
    saved := fun _ => none }

def step (sym : Symbols) (c : Sys) : SchedOp → Option Sys
  | .create entry stackBase stackSize =>
    match TaskManager.createKernelTask sym c.k entry stackBase stackSize with
    | (none, k') => some ⟨k', c.h⟩
    | (some t, k') => some ⟨k', c.h.create t ⟨entry, stackBase, stackSize⟩⟩
  | .push t => do
    let (_, k') ← RunQueue.push (some t) c.k
    return ⟨k', c.h.push t⟩
  | .start => do
    let k' ← Scheduler.start c.k
    return ⟨k', c.h.start⟩
  | .work regs => some ⟨{ c.k with regs := regs }, c.h⟩
  | .yield => do
    let p ← RunQueue.current c.k
    let k' ← Scheduler.yield c.k
    return ⟨k', c.h.save p c.k.regs⟩
  | .exit code => do
    let p ← RunQueue.current c.k
    let k' ← sysExit code c.k
    return ⟨k', (c.h.exit p).save p c.k.regs⟩

/-- A created task is pushed once, `start` is called once, only a non-idle task exits. -/
def Permitted (c : Sys) : SchedOp → Prop
  | .create _ _ _ => True
  | .push t => t ≠ 0 ∧ (c.h.made t).isSome ∧ c.h.pushed t = false
  | .start => c.h.started = false
  | .work _ => True
  | .yield => c.h.started = true
  | .exit _ => c.h.started = true ∧ RunQueue.current c.k ≠ TaskManager.idleTask c.k

instance (c : Sys) : ∀ op, Decidable (c.Permitted op)
  | .create _ _ _ => isTrue trivial
  | .push t => inferInstanceAs (Decidable (t ≠ 0 ∧ (c.h.made t).isSome ∧ c.h.pushed t = false))
  | .start => inferInstanceAs (Decidable (c.h.started = false))
  | .work _ => isTrue trivial
  | .yield => inferInstanceAs (Decidable (c.h.started = true))
  | .exit _ => inferInstanceAs
      (Decidable (c.h.started = true ∧ RunQueue.current c.k ≠ TaskManager.idleTask c.k))

end Sys

/-! ## The invariant of the contexts -/

/-- **`Kept`.** A created task has its entry; until it is first switched out it has its initial context, and
    while it does not run its context records the registers it was switched out with. -/
structure Kept (sym : Symbols) (k : Kernel) (h : History) : Prop where
  entry : ∀ t m, h.made t = some m → (k.tasks t).entry = m.entry
  fresh : ∀ t m, h.made t = some m → h.saved t = none →
    (k.tasks t).context = initialContext sym m.stackBase m.stackSize
  back : ∀ t r, h.saved t = some r → k.sCurrent ≠ some t → (k.tasks t).context = Context.ofRegs r
  unmade : ∀ t, h.made t = none → h.saved t = none

variable {sym : Symbols} {k k' : Kernel} {h h' : History} {a : Sched} {n t : TaskRef}

/-- A call that switches nothing. -/
theorem Kept.same (hk : Kept sym k h) (hs : SameContexts k k') (hcur : k'.sCurrent = k.sCurrent)
    (hmade : h'.made = h.made) (hsaved : h'.saved = h.saved) : Kept sym k' h' where
  entry := by
    intro t m hm
    rw [hs.entry]; exact hk.entry t m (hmade ▸ hm)
  fresh := by
    intro t m hm hsv
    rw [hs.context]; exact hk.fresh t m (hmade ▸ hm) (hsaved ▸ hsv)
  back := by
    intro t r hr hc
    rw [hs.context]; exact hk.back t r (hsaved ▸ hr) (hcur ▸ hc)
  unmade := by
    intro t hm
    rw [hsaved]; exact hk.unmade t (hmade ▸ hm)

/-- A created task has its arguments and its initial context; no other slot changes. -/
theorem Kept.create {m : Creation} (hk : Kept sym k h) (hmade : h.made t = none)
    (hc : CreatedTask sym k k' t m.entry m.stackBase m.stackSize) : Kept sym k' (h.create t m) where
  entry := by
    intro u n hm
    rw [History.create_made] at hm
    by_cases hu : u = t
    · rw [if_pos hu] at hm; cases hm
      rw [hu, hc.task]
    · rw [if_neg hu] at hm
      rw [hc.others u hu]; exact hk.entry u n hm
  fresh := by
    intro u n hm hsv
    rw [History.create_made] at hm
    by_cases hu : u = t
    · rw [if_pos hu] at hm; cases hm
      rw [hu, hc.task]
    · rw [if_neg hu] at hm
      rw [hc.others u hu]; exact hk.fresh u n hm hsv
  back := by
    intro u r hr hcur
    -- a slot that was never made has nothing saved, so `u` is an old task
    have hne : u ≠ t := by
      rintro rfl
      have hsv := hk.unmade u hmade
      rw [show h.saved u = some r from hr] at hsv
      exact absurd hsv (by simp)
    rw [hc.others u hne]
    exact hk.back u r hr (fun he => hcur (hc.current.trans he))
  unmade := by
    intro u hm
    rw [History.create_made] at hm
    by_cases hu : u = t
    · rw [if_pos hu] at hm; exact absurd hm (by simp)
    · rw [if_neg hu] at hm; exact hk.unmade u hm

/-- **A switch keeps every context.** -/
theorem Kept.switch {prev : Option TaskRef} (hk : Kept sym k h) (hsw : Switched k k' prev n)
    (hprev : k.sCurrent = prev) (hmade : h'.made = h.made)
    (hsaved : ∀ t, h'.saved t = if prev = some t then some k.regs else h.saved t)
    (hpm : ∀ p, prev = some p → h.made p ≠ none) : Kept sym k' h' where
  entry := by
    intro t m hm
    rw [hsw.entry]; exact hk.entry t m (hmade ▸ hm)
  fresh := by
    intro t m hm hsv
    rw [hsaved] at hsv
    by_cases hp : prev = some t
    · rw [if_pos hp] at hsv; exact absurd hsv (by simp)
    · rw [if_neg hp] at hsv
      rw [hsw.others t hp]; exact hk.fresh t m (hmade ▸ hm) hsv
  back := by
    intro t r hr _
    rw [hsaved] at hr
    by_cases hp : prev = some t
    · rw [if_pos hp] at hr
      rw [hsw.saved t hp, Option.some.inj hr]
    · rw [if_neg hp] at hr
      rw [hsw.others t hp]; exact hk.back t r hr (hprev ▸ hp)
  unmade := by
    intro t hm
    rw [hmade] at hm
    rw [hsaved, if_neg (fun hp => hpm t hp hm)]
    exact hk.unmade t hm

/-- The registers of the incoming task: those it was last switched out with, or its initial ones. -/
theorem Kept.resume {prev : Option TaskRef} (hk : Kept sym k h) (hsw : Switched k k' prev n)
    (hprev : k.sCurrent = prev) (hsaved : ∀ t, h'.saved t = if prev = some t then some k.regs else h.saved t) :
    (∀ r, h'.saved n = some r → k'.regs = r) ∧ (h'.saved n = none → ∀ m, h.made n = some m →
      k'.regs = (initialContext sym m.stackBase m.stackSize).regs) := by
  rw [hsw.loaded]
  constructor
  · intro r hr
    rw [hsaved] at hr
    by_cases hp : prev = some n
    · -- idle after idle: the context loaded is the one just saved
      rw [if_pos hp] at hr
      rw [hsw.saved n hp, Context.regs_ofRegs, Option.some.inj hr]
    · rw [if_neg hp] at hr
      rw [hsw.others n hp, hk.back n r hr (hprev ▸ hp), Context.regs_ofRegs]
  · intro hsv m hm
    rw [hsaved] at hsv
    by_cases hp : prev = some n
    · rw [if_pos hp] at hsv; exact absurd hsv (by simp)
    · rw [if_neg hp] at hsv
      rw [hsw.others n hp, hk.fresh n m hm hsv]

/-! ## The step -/

/-- **The invariant of the system.** -/
structure Good (sym : Symbols) (c : Sys) (a : Sched) : Prop where
  stores : Stores c.k a
  sane : Sane c.h a
  alive : ∀ t, a.current = some t → c.h.exited t = false
  kept : Kept sym c.k c.h

/-- The registers, entry and stack of a task that runs for the first time. -/
def FirstEntry (sym : Symbols) (k : Kernel) (m : Creation) : Prop :=
  k.regs .ra = sym.taskEntryTrampoline ∧ k.regs .sp = (m.stackBase + m.stackSize) &&& ~~~0xF#64 ∧
    (∀ r, r ≠ .ra → r ≠ .sp → k.regs r = 0#64) ∧ bootstrapCallee k = some m.entry

/-- **A good switch** from `c` to `c'`. -/
def Resumes (sym : Symbols) (c c' : Sys) : Prop :=
  ∃ t, RunQueue.current c'.k = some t ∧ (∀ r, c'.h.saved t = some r → c'.k.regs = r) ∧
    (c'.h.saved t = none → ∃ m, c'.h.made t = some m ∧ FirstEntry sym c'.k m) ∧
    ∀ u, RunQueue.current c.k ≠ some u → (c'.k.tasks u).context = (c.k.tasks u).context

variable {c c' : Sys}

theorem firstEntry_initial (m : Creation) (hregs : k.regs = (initialContext sym m.stackBase m.stackSize).regs)
    (hcur : k.sCurrent = some t) (hentry : (k.tasks t).entry = m.entry) : FirstEntry sym k m := by
  refine ⟨by rw [hregs]; rfl, by rw [hregs]; rfl, fun r hra hsp => ?_, ?_⟩
  · rw [hregs]
    cases r with
    | ra => exact absurd rfl hra
    | sp => exact absurd rfl hsp
    | _ => rfl
  · simp [bootstrapCallee, RunQueue.current, hcur, hentry]

/-- What a switch to the picked task does to a good system. -/
theorem Good.switch {prev : Option TaskRef} {a' : Sched} (hg : Good sym c a) (hsw : Switched c.k k' prev a.pick)
    (hprev : c.k.sCurrent = prev) (hst : Stores k' a') (hsane : Sane h' a') (hcur : a'.current = some a.pick)
    (halive : h'.exited a.pick = false) (hmade : h'.made = c.h.made)
    (hsaved : ∀ t, h'.saved t = if prev = some t then some c.k.regs else c.h.saved t) :
    Good sym ⟨k', h'⟩ a' ∧ Resumes sym c ⟨k', h'⟩ := by
  have hpm : ∀ p, prev = some p → c.h.made p ≠ none := by
    intro p hp
    have hpc : a.current = some p := hg.stores.current.symm.trans (hprev.trans hp)
    rcases (hg.sane.current p hpc).1 with rfl | hpush
    · exact hg.sane.idle_made
    · exact (hg.sane.pushed_made p hpush).2
  have hkept := hg.kept.switch hsw hprev hmade hsaved hpm
  obtain ⟨hback, hfirst⟩ := hg.kept.resume hsw hprev hsaved
  have hk'cur : k'.sCurrent = some a.pick := hst.current.trans hcur
  refine ⟨⟨hst, hsane, fun t ht => ?_, hkept⟩, a.pick, hk'cur, hback, fun hsv => ?_, fun u hu => ?_⟩
  · obtain rfl := Option.some.inj (hcur.symm.trans ht)
    exact halive
  · obtain ⟨m, hm⟩ := Option.ne_none_iff_exists'.mp hg.sane.pick.2.2.2
    have hm' : h'.made a.pick = some m := by rw [hmade]; exact hm
    exact ⟨m, hm', firstEntry_initial m (hfirst hsv m hm) hk'cur (hkept.entry a.pick m hm')⟩
  · exact hsw.others u (fun hp => hu (hprev.trans hp))

theorem Good.start (hg : Good sym c a) (hst : c.h.started = false) :
    ∃ c', c.step sym .start = some c' ∧ Good sym c' (a.pop.run a.pick) ∧ Resumes sym c c' := by
  obtain ⟨k', hstart, hstores, hsw⟩ := start_stores hg.stores
  have hnone : c.k.sCurrent = none := by
    rw [hg.stores.current]
    by_contra hc
    rw [hg.sane.started.mpr hc] at hst
    exact absurd hst (by decide)
  refine ⟨⟨k', c.h.start⟩, by simp [Sys.step, hstart], ?_⟩
  exact hg.switch hsw hnone hstores (sane_start hg.sane hst) rfl hg.sane.pick.2.1 rfl (fun t => by simp [History.start])

/-- The current task of a started system. -/
theorem Good.running (hg : Good sym c a) (hst : c.h.started = true) :
    ∃ p, a.current = some p ∧ RunQueue.current c.k = some p := by
  obtain ⟨p, hp⟩ := Option.ne_none_iff_exists'.mp (hg.sane.started.mp hst)
  exact ⟨p, hp, hg.stores.current.trans hp⟩

theorem save_saved_eq (h : History) (p t : TaskRef) (r : Regs) :
    (h.save p r).saved t = if some p = some t then some r else h.saved t := by
  rw [History.save_saved]
  by_cases he : t = p
  · rw [if_pos he, if_pos (by rw [he])]
  · rw [if_neg he, if_neg (fun hc => he (Option.some.inj hc).symm)]

theorem Good.yield (hg : Good sym c a) (hst : c.h.started = true) :
    ∃ c' p, a.current = some p ∧ c.step sym .yield = some c' ∧ Good sym c' (a.reschedule p) ∧
      Resumes sym c c' := by
  obtain ⟨p, hp, hcur⟩ := hg.running hst
  obtain ⟨k', hre, hstores, hsw⟩ := reschedule_stores hg.stores hp (fun _ => hg.sane.current_not_queued hp)
  obtain ⟨hsane, halive⟩ := sane_reschedule hg.sane hp
  refine ⟨⟨k', c.h.save p c.k.regs⟩, p, hp, by simp [Sys.step, hcur, Scheduler.yield, hre], ?_⟩
  exact hg.switch hsw hcur hstores (hsane.save p c.k.regs) rfl halive rfl (fun t => save_saved_eq c.h p t c.k.regs)

theorem Good.exit (hg : Good sym c a) (hst : c.h.started = true)
    (hidle : RunQueue.current c.k ≠ TaskManager.idleTask c.k) (code : Word) :
    ∃ c' p, a.current = some p ∧ c.step sym (.exit code) = some c' ∧
      Good sym c' ((a.mark p .dead).reschedule p) ∧ Resumes sym c c' := by
  obtain ⟨p, hp, hcur⟩ := hg.running hst
  have hp0 : p ≠ 0 := by
    rintro rfl
    rw [idleTask_eq, hg.stores.idle] at hidle
    exact hidle hcur
  -- dead first, then the round-robin step
  have hsane := sane_exit hg.sane hp hp0
  obtain ⟨k₁, hmark, h₁, hs₁⟩ := markExit_stores hg.stores hp code
  obtain ⟨k', hre, hstores, hsw⟩ := reschedule_stores h₁ hp (fun _ => hg.sane.current_not_queued hp)
  obtain ⟨hsane', halive⟩ := sane_reschedule hsane hp
  refine ⟨⟨k', (c.h.exit p).save p c.k.regs⟩, p, hp, by simp [Sys.step, hcur, sysExit, hmark, hre], ?_⟩
  exact hg.switch (hsw.of_same hs₁) hcur hstores (hsane'.save p c.k.regs) rfl halive rfl
    (fun t => save_saved_eq (c.h.exit p) p t c.k.regs)

theorem Good.create (hg : Good sym c a) (entry stackBase stackSize : Word) :
    ∃ c' a', c.step sym (.create entry stackBase stackSize) = some c' ∧ Good sym c' a' := by
  rcases hcall : TaskManager.createKernelTask sym c.k entry stackBase stackSize with ⟨_ | t, k'⟩
  · obtain rfl := createKernelTask_none hcall
    exact ⟨c, a, by simp [Sys.step, hcall], hg⟩
  · have hc := createKernelTask_some hcall
    have hat : a.state t = .empty := (hg.stores.state t).symm.trans hc.before
    have hmade : c.h.made t = none := (hg.sane.empty_iff t).mp hat
    have htq : t ∉ a.ready := by
      intro hm
      exact (hg.sane.pushed_made t (hg.sane.queued t hm).1).2 hmade
    refine ⟨⟨k', c.h.create t ⟨entry, stackBase, stackSize⟩⟩, a.mark t .ready, by simp [Sys.step, hcall], ?_⟩
    exact ⟨hg.stores.create hc htq, sane_create hg.sane hat _, hg.alive, hg.kept.create hmade hc⟩

theorem Good.push (hg : Good sym c a) (h0 : t ≠ 0) (hmade : (c.h.made t).isSome)
    (hpush : c.h.pushed t = false) : ∃ c', c.step sym (.push t) = some c' ∧ Good sym c' (a.push t) := by
  obtain ⟨htq, hsane⟩ := sane_push hg.sane h0 (Option.isSome_iff_ne_none.mp hmade) hpush
  obtain ⟨k', hp, hstores, hs⟩ := runQueue_push hg.stores htq
  refine ⟨⟨k', c.h.push t⟩, by simp [Sys.step, hp], hstores, hsane, hg.alive, ?_⟩
  exact hg.kept.same hs (hstores.current.trans hg.stores.current.symm) rfl rfl

/-- Neither the registers of the processor nor the output matter. -/
theorem Good.same_tasks (hg : Good sym c a) (regs : Regs) (out : Drivers.Uart) :
    Good sym ⟨{ c.k with regs := regs, uart := out }, c.h⟩ a where
  stores := ⟨hg.stores.ring, hg.stores.current, hg.stores.state, hg.stores.idle⟩
  sane := hg.sane
  alive := hg.alive
  kept := ⟨hg.kept.entry, hg.kept.fresh, hg.kept.back, hg.kept.unmade⟩

theorem Good.work (hg : Good sym c a) (regs : Regs) : Good sym ⟨{ c.k with regs := regs }, c.h⟩ a :=
  hg.same_tasks regs c.k.uart

/-- **Step lemma.** A permitted call returns and keeps the invariant. -/
theorem Good.step (hg : Good sym c a) {op : SchedOp} (hok : c.Permitted op) :
    ∃ c' a', c.step sym op = some c' ∧ Good sym c' a' := by
  cases op with
  | create entry stackBase stackSize => exact hg.create entry stackBase stackSize
  | push t =>
      obtain ⟨c', hst, hg'⟩ := hg.push hok.1 hok.2.1 hok.2.2
      exact ⟨c', _, hst, hg'⟩
  | start =>
      obtain ⟨c', hst, hg', _⟩ := hg.start hok
      exact ⟨c', _, hst, hg'⟩
  | work regs => exact ⟨_, a, rfl, hg.work regs⟩
  | yield =>
      obtain ⟨c', p, _, hst, hg', _⟩ := hg.yield hok
      exact ⟨c', _, hst, hg'⟩
  | exit code =>
      obtain ⟨c', p, _, hst, hg', _⟩ := hg.exit hok.1 hok.2 code
      exact ⟨c', _, hst, hg'⟩

theorem good_boot (sym : Symbols) (k : Kernel) :
    ∃ a, Good sym (Sys.boot sym k) a := by
  obtain ⟨hidle, hready, hentry, hctx, hempty⟩ := init_spec sym k
  have hmade : ∀ t m, (Sys.boot sym k).h.made t = some m →
      t = 0 ∧ m = ⟨sym.idleTaskEntry, sym.idleStack, TaskManager.kIdleStackSize⟩ := by
    intro t m hm
    by_cases ht : t = 0
    · simp only [Sys.boot, if_pos ht, Option.some.injEq] at hm
      exact ⟨ht, hm.symm⟩
    · simp only [Sys.boot, if_neg ht] at hm
      exact absurd hm (by simp)
  refine ⟨⟨none, [], fun t => ((TaskManager.init sym k).tasks t).state⟩, runQueue_init hidle, ?_,
    fun t ht => absurd ht (by simp), ?_⟩
  · refine ⟨List.nodup_nil, fun t => ?_, by simp [Sys.boot], fun t ht => absurd ht (by simp [Sys.boot]),
      fun t ht => absurd ht List.not_mem_nil, fun t ht => absurd ht (by simp), by simp [Sys.boot],
      fun t ht => absurd ht (by simp [Sys.boot]), fun t ht => absurd ht (by simp [Sys.boot]), fun t h0 hrun => ?_⟩
    · by_cases ht : t = 0
      · subst ht
        simp [Sys.boot, hready]
      · simp [Sys.boot, ht, hempty t ht]
    · have hrun : ((TaskManager.init sym k).tasks t).state = .running := hrun
      rw [hempty t h0] at hrun
      exact absurd hrun (by decide)
  · refine ⟨fun t m hm => ?_, fun t m hm _ => ?_, fun t r hr => absurd hr (by simp [Sys.boot]), fun t _ => rfl⟩
    · obtain ⟨rfl, rfl⟩ := hmade t m hm
      exact hentry
    · obtain ⟨rfl, rfl⟩ := hmade t m hm
      exact hctx

/-- **Run lemma.** -/
theorem good_reach {k₀ : Kernel} (hr : Reach (Sys.step sym) Sys.Permitted (Sys.boot sym k₀) c) :
    ∃ a, Good sym c a := by
  refine Reach.invariant (I := fun c => ∃ a, Good sym c a) (good_boot sym k₀) ?_ hr
  rintro c op c' ⟨a, hg⟩ hok hst
  obtain ⟨c'', a', hst', hg'⟩ := hg.step hok
  rw [hst] at hst'
  exact ⟨a', Option.some.inj hst' ▸ hg'⟩

end Core
end RiscCore
