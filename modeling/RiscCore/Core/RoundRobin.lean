import RiscCore.Core.SchedSafety
import RiscCore.Lib.RoundRobin

/-!
# `Core.RoundRobin` — the order in which tasks run

`RoundRobin.turn` is the reference: the current task is the head of a list, the ready queue is the rest. A
`yield` of a task that is not idle, while somebody waits, is the turn of the reference that rotates; a
`sys_exit` is the one that drops the head. `Lined` is the simulation relation; positions and fairness are
then read off the reference.
-/

namespace RiscCore
namespace Core

open Ds Runs Circular RoundRobin

variable {sym : Symbols} {k₀ : Kernel} {c c' : Sys} {l : List TaskRef}

/-- What a call means for the order. Work on registers means nothing. -/
def SchedOp.turn : SchedOp → Option Turn
  | .yield => some .yield
  | .exit _ => some .exit
  | _ => none

/-- In task code of a started system: work, or the end of a turn of a task that is not idle while another task
waits. -/
def Turning (c : Sys) : SchedOp → Prop
  | .work _ => True
  | .yield => RunQueue.current c.k ≠ TaskManager.idleTask c.k ∧ queueEmpty .head c.k.nodes = false
  | .exit _ => RunQueue.current c.k ≠ TaskManager.idleTask c.k ∧ queueEmpty .head c.k.nodes = false
  | _ => False

instance (c : Sys) : ∀ op, Decidable (Turning c op)
  | .create _ _ _ => isFalse id
  | .push _ => isFalse id
  | .start => isFalse id
  | .work _ => isTrue trivial
  | .yield => inferInstanceAs (Decidable (_ ∧ _))
  | .exit _ => inferInstanceAs (Decidable (_ ∧ _))

/-- Who runs: now, and after every end of a turn. -/
def runners (sym : Symbols) : Sys → List SchedOp → List (Option TaskRef)
  | c, [] => [RunQueue.current c.k]
  | c, op :: ops =>
    let rest := (c.step sym op).elim [] fun c' => runners sym c' ops
    if op.turn = none then rest else RunQueue.current c.k :: rest

/-- **The kernel stands where the reference stands.** -/
def Lined (sym : Symbols) (c : Sys) (l : List TaskRef) : Prop :=
  ∃ a p, Good sym c a ∧ a.current = some p ∧ p ≠ 0 ∧ l = p :: a.ready

/-! ## One turn -/

theorem Lined.head (h : Lined sym c l) : RunQueue.current c.k = l.head? := by
  obtain ⟨a, p, hg, hcur, _, rfl⟩ := h
  exact hg.stores.current.trans hcur

theorem Lined.work (h : Lined sym c l) (regs : Regs) : ∃ c', c.step sym (.work regs) = some c' ∧ Lined sym c' l := by
  obtain ⟨a, p, hg, hcur, hp, rfl⟩ := h
  exact ⟨_, rfl, a, p, hg.work regs, hcur, hp, rfl⟩

/-- Where somebody waits, the first of them is picked, and that is not the idle task. -/
theorem Good.pick_of_waiting {a : Sched} (hg : Good sym c a) (hq : queueEmpty .head c.k.nodes = false) :
    a.pick ≠ 0 ∧ a.ready = a.pick :: a.ready.tail := by
  rcases pick_cases a with ⟨hnil, _⟩ | hcons
  · rw [hg.stores.empty_iff.mpr hnil] at hq
    cases hq
  · exact ⟨hg.sane.queued_ne_zero (by rw [hcons]; exact List.mem_cons_self), hcons⟩

theorem Lined.yield (h : Lined sym c l) (hq : queueEmpty .head c.k.nodes = false) :
    ∃ c', c.step sym .yield = some c' ∧ Lined sym c' (turn l .yield) := by
  obtain ⟨a, p, hg, hcur, hp, rfl⟩ := h
  have hst : c.h.started = true := hg.sane.started.mpr (by rw [hcur]; simp)
  obtain ⟨c', p', hp', hstep, hg', _⟩ := hg.yield hst
  obtain rfl : p = p' := Option.some.inj (hcur.symm.trans hp')
  obtain ⟨hpick, hcons⟩ := hg.pick_of_waiting hq
  -- the current task has not exited, so it still runs and goes to the end of the queue
  have hreq : a.Requeues p := by
    obtain ⟨_, hstate⟩ := hg.sane.current p hcur
    rw [hg.alive p hcur] at hstate
    exact ⟨hp, hstate⟩
  refine ⟨c', hstep, a.reschedule p, a.pick, hg', ?_, hpick, ?_⟩
  · rw [Sched.reschedule, if_pos hreq]; rfl
  · rw [Sched.reschedule, if_pos hreq]
    show a.ready ++ [p] = a.pick :: (a.ready.tail ++ [p])
    rw [← List.cons_append, ← hcons]

theorem Lined.exit (h : Lined sym c l) (hq : queueEmpty .head c.k.nodes = false) (code : Word) :
    ∃ c', c.step sym (.exit code) = some c' ∧ Lined sym c' (turn l .exit) := by
  obtain ⟨a, p, hg, hcur, hp, rfl⟩ := h
  have hst : c.h.started = true := hg.sane.started.mpr (by rw [hcur]; simp)
  have hidle : RunQueue.current c.k ≠ TaskManager.idleTask c.k := by
    rw [idleTask_eq, hg.stores.idle]
    intro hc
    exact hp (Option.some.inj ((hg.stores.current.trans hcur).symm.trans hc))
  obtain ⟨c', p', hp', hstep, hg', _⟩ := hg.exit hst hidle code
  obtain rfl : p = p' := Option.some.inj (hcur.symm.trans hp')
  obtain ⟨hpick, hcons⟩ := hg.pick_of_waiting hq
  have hreq : ¬ (a.mark p .dead).Requeues p := by
    rintro ⟨_, hrun⟩
    rw [Sched.mark_state, if_pos rfl] at hrun
    cases hrun
  refine ⟨c', hstep, (a.mark p .dead).reschedule p, a.pick, hg', ?_, hpick, ?_⟩
  · rw [Sched.reschedule, if_neg hreq]; rfl
  · rw [Sched.reschedule, if_neg hreq]
    exact hcons

/-- **One call is one turn**, or none. -/
theorem Lined.step (h : Lined sym c l) {op : SchedOp} (hturn : Turning c op) :
    ∃ c', c.step sym op = some c' ∧ Lined sym c' (op.turn.elim l (turn l)) := by
  cases op with
  | create entry stackBase stackSize => exact hturn.elim
  | push t => exact hturn.elim
  | start => exact hturn.elim
  | work regs => exact h.work regs
  | yield => exact h.yield hturn.2
  | exit code => exact h.exit hturn.2 code

/-! ## Runs -/

/-- **The run is the reference's.** -/
theorem runners_eq : ∀ (ops : List SchedOp) {c : Sys} {l : List TaskRef}, Lined sym c l →
    Always (Sys.step sym) Turning c ops →
      (∃ c', run (Sys.step sym) c ops = some c') ∧ runners sym c ops = heads l (ops.filterMap SchedOp.turn) := by
  intro ops
  induction ops with
  | nil => exact fun {c l} h _ => ⟨⟨c, rfl⟩, congrArg (fun p => [p]) h.head⟩
  | cons op ops ih =>
      rintro c l h ⟨hturn, hrest⟩
      obtain ⟨c', hstep, h'⟩ := h.step hturn
      obtain ⟨⟨d, hd⟩, hrun⟩ := ih h' (hrest c' hstep)
      refine ⟨⟨d, ?_⟩, ?_⟩
      · unfold run
        rw [hstep]
        exact hd
      · unfold runners
        rw [hstep]
        show (if op.turn = none then runners sym c' ops else RunQueue.current c.k :: runners sym c' ops) = _
        rw [hrun]
        cases ht : op.turn with
        | none =>
            rw [if_pos rfl, List.filterMap_cons_none ht]
            rfl
        | some t =>
            rw [if_neg (by simp), List.filterMap_cons_some ht, h.head]
            rfl

/-- **Round robin.** From any state after `start` with a task other than idle running, over any run of work and
turns: the tasks that run are the reference's; who waits at position `k` runs after exactly `k + 1` further
turns; and while the live tasks only yield, any `n` successive slots give each of the `n` exactly one. -/
theorem round_robin_order (hr : Reach (Sys.step sym) Sys.Permitted (Sys.boot sym k₀) c) (hst : c.h.started = true)
    (hidle : RunQueue.current c.k ≠ TaskManager.idleTask c.k) :
    ∃ (p : TaskRef) (q : List TaskRef), RunQueue.current c.k = some p ∧ Ring c.k.nodes .head (q.map .runNode) ∧
      (∀ t, t ∈ p :: q ↔ c.h.pushed t = true ∧ c.h.exited t = false) ∧
      ∀ ops, Always (Sys.step sym) Turning c ops →
        (∃ c', run (Sys.step sym) c ops = some c') ∧
        runners sym c ops = heads (p :: q) (ops.filterMap SchedOp.turn) ∧
        (∀ k t, q[k]? = some t → ∀ j, j < (runners sym c ops).length → j ≤ k + 1 →
          ((runners sym c ops)[j]? = some (some t) ↔ j = k + 1)) ∧
        ((∀ op ∈ ops, op.turn ≠ some .exit) → ∀ i, i + (p :: q).length ≤ (runners sym c ops).length →
          ∀ t ∈ p :: q, (((runners sym c ops).drop i).take (p :: q).length).count (some t) = 1) := by
  obtain ⟨a, hg⟩ := good_reach hr
  obtain ⟨p, hcur, hp⟩ := hg.running hst
  have hp0 : p ≠ 0 := by
    rintro rfl
    exact hidle (hp.trans ((idleTask_eq c.k).trans hg.stores.idle).symm)
  have hnd : (p :: a.ready).Nodup := List.nodup_cons.mpr ⟨hg.sane.current_not_queued hcur, hg.sane.nodup⟩
  refine ⟨p, a.ready, hp, hg.stores.ring, fun t => ⟨fun ht => ?_, fun ht => ?_⟩, fun ops hops => ?_⟩
  · rcases List.mem_cons.mp ht with rfl | hm
    · exact ⟨(hg.sane.current t hcur).1.resolve_left hp0, hg.alive t hcur⟩
    · exact ⟨(hg.sane.queued t hm).1, (hg.sane.queued t hm).2.1⟩
  · rcases hg.sane.live t ht.1 ht.2 with hm | hc
    · exact List.mem_cons_of_mem p hm
    · exact Option.some.inj (hcur.symm.trans hc) ▸ List.mem_cons_self
  · obtain ⟨hrun, heq⟩ := runners_eq ops ⟨a, p, hg, hcur, hp0, rfl⟩ hops
    have hlen : (runners sym c ops).length = (ops.filterMap SchedOp.turn).length + 1 := by
      rw [heq, length_heads]
    refine ⟨hrun, heq, fun k t hk j hj hjk => ?_, fun hyields i hi t ht => ?_⟩
    · -- position `k` of the queue is position `k + 1` of the list
      rw [heq]
      exact heads_eq_some_iff hnd ((List.getElem?_cons_succ).trans hk) (by omega) hjk
    · have hall : ops.filterMap SchedOp.turn =
          List.replicate (ops.filterMap SchedOp.turn).length .yield := by
        refine List.eq_replicate_of_mem fun u hu => ?_
        obtain ⟨op, hop, hu⟩ := List.mem_filterMap.mp hu
        cases u with
        | yield => rfl
        | exit => exact absurd hu (hyields op hop)
      rw [heq, hall]
      exact count_window hnd ht (by omega)

/-- Two tasks: they alternate until the first one leaves. -/
theorem round_robin_order_test : ∃ c q, run (Sys.step testSymbols) testBoot (twoTasks ++ [.start]) = some c ∧
    heads ((1 : TaskRef) :: q) [.yield, .yield, .exit] = [some 1, some 2, some 1, some 2] := by
  have hrun : (run (Sys.step testSymbols) testBoot (twoTasks ++ [.start])).map (fun c =>
      (c.h.started, RunQueue.current c.k, TaskManager.idleTask c.k,
        decide (Always (Sys.step testSymbols) Turning c [.yield, .work fun _ => 7#64, .yield, .exit 0#64]),
        runners testSymbols c [.yield, .work fun _ => 7#64, .yield, .exit 0#64])) =
      some (true, some 1, some 0, true, [some 1, some 2, some 1, some 2]) := by decide +kernel
  obtain ⟨c, hc, hfacts⟩ := Option.map_eq_some_iff.mp hrun
  obtain ⟨hst, hfacts⟩ := Prod.mk.inj hfacts
  obtain ⟨hcur, hfacts⟩ := Prod.mk.inj hfacts
  obtain ⟨hidle, hfacts⟩ := Prod.mk.inj hfacts
  obtain ⟨hturn, hrunners⟩ := Prod.mk.inj hfacts
  have hok : Always (Sys.step testSymbols) Sys.Permitted testBoot (twoTasks ++ [.start]) := by decide +kernel
  obtain ⟨p, q, hp, _, _, hops⟩ :=
    round_robin_order (Reach.of_run _ hok hc) hst (by rw [hcur, hidle]; decide)
  obtain rfl : (1 : TaskRef) = p := Option.some.inj (hcur.symm.trans hp)
  obtain ⟨_, heq, _⟩ := hops _ (of_decide_eq_true hturn)
  exact ⟨c, q, hc, heq.symm.trans hrunners⟩

end Core
end RiscCore
