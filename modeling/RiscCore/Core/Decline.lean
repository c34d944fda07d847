import RiscCore.Core.SchedSafety

/-!
# `Core.Decline` — `reschedule` without a switch

`reschedule` has taken the next task out of the queue before it looks at its guard. Where the guard sends it back, it
returns at once, and what it has taken is in no queue any more. A missing next task is no loss: then the queue was
empty. A missing current task is, as long as the queue is not.
-/

namespace RiscCore
namespace Core

open Ds Circular Runs

/-- **The guard of `reschedule`**: there is nobody to switch to, not even idle, or nobody to switch from. -/
def Declines (k : Kernel) : Prop := ∃ next k₁, RunQueue.next k = some (next, k₁) ∧
  ((if next = none then TaskManager.idleTask k₁ else next) = none ∨ RunQueue.current k = none)

variable {k : Kernel} {l : List TaskRef}

/-- The guard, with the next task read off the queue. -/
theorem declines_iff (hr : Ring k.nodes .head (l.map .runNode)) :
    Declines k ↔ (if l.head? = none then k.sIdleTask else l.head?) = none ∨ k.sCurrent = none := by
  obtain ⟨nodes, hnext, _⟩ := next_ring hr
  constructor
  · rintro ⟨next, k₁, hnext', hguard⟩
    obtain ⟨rfl, rfl⟩ := Prod.mk.inj (Option.some.inj (hnext.symm.trans hnext'))
    rwa [idleTask_eq] at hguard
  · intro hguard
    refine ⟨l.head?, _, hnext, ?_⟩
    rwa [idleTask_eq]

/-- **What a declined call does**: the first task leaves the queue, and nothing else changes. -/
theorem reschedule_declined (hr : Ring k.nodes .head (l.map .runNode)) (hd : Declines k) :
    ∃ nodes, Scheduler.reschedule k = some { k with nodes := nodes } ∧ Ring nodes .head (l.tail.map .runNode) := by
  obtain ⟨nodes, hnext, hring⟩ := next_ring hr
  refine ⟨nodes, ?_, hring⟩
  have hguard := (declines_iff hr).mp hd
  simp only [Scheduler.reschedule, hnext, Option.bind_eq_bind, Option.bind_some, idleTask_eq]
  rcases hguard with hnone | hnone
  · rw [hnone]
    cases RunQueue.current k with
    | none => rfl
    | some p => rfl
  · rw [show RunQueue.current k = none from hnone]
    rfl

/-- Whoever is pushed, queued or not, `push` returns. -/
theorem push_returns (hr : Ring k.nodes .head (l.map .runNode)) (t : TaskRef) :
    ∃ k', RunQueue.push (some t) k = some (true, k') := by
  by_cases ht : t ∈ l
  · obtain ⟨nodes, hpush, _⟩ := push_linked hr ht
    exact ⟨_, hpush⟩
  · obtain ⟨nodes, hpush, _⟩ := push_ring hr ht
    exact ⟨_, hpush⟩

/-- Without the guard the call ends in `context_switch`. -/
theorem reschedule_switches (hr : Ring k.nodes .head (l.map .runNode)) (hd : ¬ Declines k) :
    ∃ p n k₁, Scheduler.reschedule k = switchContext (some p) (some n) k₁ := by
  obtain ⟨nodes, hnext, hring⟩ := next_ring hr
  rw [declines_iff hr, not_or] at hd
  obtain ⟨n, hn⟩ := Option.ne_none_iff_exists'.mp hd.1
  obtain ⟨p, hp⟩ := Option.ne_none_iff_exists'.mp hd.2
  have hprev : RunQueue.current k = some p := hp
  simp only [Scheduler.reschedule, hnext, Option.bind_eq_bind, Option.bind_some, idleTask_eq, hn, hprev,
    setCurrent_some]
  split
  · obtain ⟨k', hpush⟩ := push_returns (k := Kernel.setState { k with nodes := nodes } p .ready) hring p
    simp only [hpush, Option.bind_some]
    exact ⟨p, n, _, rfl⟩
  · exact ⟨p, n, _, rfl⟩

theorem eq_nil_of_tail (h : l.tail = l) : l = [] := by
  cases l with
  | nil => rfl
  | cons t l =>
      have hlen : l.length = l.length + 1 := congrArg List.length h
      omega

/-- **When a declined `reschedule` changes nothing:** somebody is current, or nobody is queued. -/
theorem declined_unchanged_iff (hr : Ring k.nodes .head (l.map .runNode)) :
    (¬ Declines k → ∃ p n k₁, Scheduler.reschedule k = switchContext (some p) (some n) k₁) ∧
    ((Declines k → ∃ k', Scheduler.reschedule k = some k' ∧ SameSchedule k k') ↔
      RunQueue.current k ≠ none ∨ l = []) := by
  refine ⟨reschedule_switches hr, fun hsame => ?_, fun hor hd => ?_⟩
  · by_cases hcur : RunQueue.current k = none
    · -- nobody is current: the call declines, and the queue has lost its first task
      have hd : Declines k := (declines_iff hr).mpr (Or.inr hcur)
      obtain ⟨k', hre, hkeep⟩ := hsame hd
      obtain ⟨nodes, hre', hring⟩ := reschedule_declined hr hd
      obtain rfl := Option.some.inj (hre.symm.trans hre')
      exact Or.inr (eq_nil_of_tail (queue_unique hring ((hkeep.ready l).mp hr)))
    · exact Or.inl hcur
  · have hempty : l = [] := by
      rcases hor with hcur | hempty
      · -- somebody is current, so it was the next task that was missing
        have hnone := ((declines_iff hr).mp hd).resolve_right hcur
        cases l with
        | nil => rfl
        | cons t l => exact absurd hnone (by simp)
      · exact hempty
    obtain ⟨nodes, hre, hring⟩ := reschedule_declined hr hd
    rw [hempty] at hr hring
    exact ⟨_, hre, SameSchedule.of_rings hr hring rfl fun _ => rfl⟩

/-- After boot nobody is current and nobody is queued. -/
theorem declined_unchanged_test : ∃ k', Scheduler.reschedule testBoot.k = some k' ∧ SameSchedule testBoot.k k' := by
  have hr : Ring testBoot.k.nodes .head (([] : List TaskRef).map .runNode) :=
    (runQueue_init (init_spec testSymbols blankKernel).1).ring
  exact (declined_unchanged_iff hr).2.mpr (Or.inr rfl) ((declines_iff hr).mpr (Or.inr rfl))

/-- Before `start`, with one task queued: the call declines, and the task is in no queue any more. -/
theorem declined_task_lost : ∃ c k', run (Sys.step testSymbols) testBoot oneTask = some c ∧
    RunQueue.current c.k = none ∧ Declines c.k ∧ (RunQueue.next c.k).map Prod.fst = some (some 1) ∧
    Scheduler.reschedule c.k = some k' ∧ RunQueue.current k' = none ∧ (k'.tasks 1).state = .ready ∧
    (RunQueue.next k').map Prod.fst = some none := by
  have hrun : ((run (Sys.step testSymbols) testBoot oneTask).bind fun c => (Scheduler.reschedule c.k).map fun k' =>
      (c.k.sCurrent, (RunQueue.next c.k).map Prod.fst, k'.sCurrent, (k'.tasks 1).state,
        (RunQueue.next k').map Prod.fst)) =
      some (none, some (some 1), none, .ready, some none) := by decide +kernel
  obtain ⟨c, hc, hrest⟩ := Option.bind_eq_some_iff.mp hrun
  obtain ⟨k', hre, hfacts⟩ := Option.map_eq_some_iff.mp hrest
  obtain ⟨hcur, hnext, hcur', hstate, hnext'⟩ : c.k.sCurrent = none ∧ (RunQueue.next c.k).map Prod.fst = some (some 1) ∧
      k'.sCurrent = none ∧ (k'.tasks 1).state = .ready ∧ (RunQueue.next k').map Prod.fst = some none := by
    simpa only [Prod.mk.injEq] using hfacts
  obtain ⟨⟨next, k₁⟩, hpop, _⟩ := Option.map_eq_some_iff.mp hnext
  exact ⟨c, k', hc, hcur, ⟨next, k₁, hpop, Or.inr hcur⟩, hnext, hre, hcur', hstate, hnext'⟩

end Core
end RiscCore
