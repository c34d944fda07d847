import RiscCore.Core.SchedRep

/-!
# `Core.SchedSane` — the scheduling invariant

`History` is what happened so far: which tasks were created and how, which were pushed, which exited, and
the registers each had when it was last switched out. The code keeps none of this; the run theorems compare
the kernel with it.

`Sane` relates a history to the abstract scheduler. It allows the current task to have exited, as it has
between the first half of `sys_exit` and `reschedule`; after `reschedule` it has not (`sane_reschedule`).
Both ways a task becomes current end with the same two assignments, so they share one lemma, `Poised.run`.
-/

namespace RiscCore
namespace Core

/-- The arguments of a successful `create_kernel_task`. -/
structure Creation where
  entry : Word
  stackBase : Word
  stackSize : Word
deriving DecidableEq

/-- **What happened so far.** -/
structure History where
  started : Bool
  made : TaskRef → Option Creation
  pushed : TaskRef → Bool
  exited : TaskRef → Bool
  saved : TaskRef → Option Regs

namespace History

def start (h : History) : History := { h with started := true }

def create (h : History) (t : TaskRef) (m : Creation) : History :=
  { h with made := Function.update h.made t (some m) }

def push (h : History) (t : TaskRef) : History := { h with pushed := Function.update h.pushed t true }

def exit (h : History) (t : TaskRef) : History := { h with exited := Function.update h.exited t true }

/-- The outgoing task's registers are what it has to get back. -/
def save (h : History) (t : TaskRef) (r : Regs) : History := { h with saved := Function.update h.saved t (some r) }

theorem create_made (h : History) (t u : TaskRef) (m : Creation) :
    (h.create t m).made u = if u = t then some m else h.made u := Function.update_apply ..

theorem push_pushed (h : History) (t u : TaskRef) :
    (h.push t).pushed u = if u = t then true else h.pushed u := Function.update_apply ..

theorem exit_exited (h : History) (t u : TaskRef) :
    (h.exit t).exited u = if u = t then true else h.exited u := Function.update_apply ..

theorem save_saved (h : History) (t u : TaskRef) (r : Regs) :
    (h.save t r).saved u = if u = t then some r else h.saved u := Function.update_apply ..

end History

/-! ## The scheduling invariant -/

/-- **`Sane`.** Queued tasks wait, were pushed and live; the current task runs, unless it has just exited;
    nobody else runs but perhaps idle; nothing pushed is lost before it exits. -/
structure Sane (h : History) (a : Sched) : Prop where
  nodup : a.ready.Nodup
  empty_iff : ∀ t, a.state t = .empty ↔ h.made t = none
  idle_made : h.made 0 ≠ none
  pushed_made : ∀ t, h.pushed t = true → t ≠ 0 ∧ h.made t ≠ none
  queued : ∀ t ∈ a.ready, h.pushed t = true ∧ h.exited t = false ∧ a.state t = .ready ∧ a.current ≠ some t
  current : ∀ t, a.current = some t →
    (t = 0 ∨ h.pushed t = true) ∧ a.state t = if h.exited t then .dead else .running
  started : h.started = true ↔ a.current ≠ none
  live : ∀ t, h.pushed t = true → h.exited t = false → t ∈ a.ready ∨ a.current = some t
  dead : ∀ t, h.exited t = true → h.pushed t = true ∧ a.state t = .dead
  only : ∀ t, t ≠ 0 → a.state t = .running → a.current = some t

variable {h : History} {a : Sched} {p t : TaskRef}

theorem Sane.queued_ne_zero (hs : Sane h a) (ht : t ∈ a.ready) : t ≠ 0 :=
  (hs.pushed_made t (hs.queued t ht).1).1

theorem Sane.exited_ne_zero (hs : Sane h a) (ht : h.exited t = true) : t ≠ 0 :=
  (hs.pushed_made t (hs.dead t ht).1).1

/-- The chosen task: idle when nobody waits, else the first in the queue. -/
theorem pick_cases (a : Sched) : (a.ready = [] ∧ a.pick = 0) ∨ a.ready = a.pick :: a.ready.tail := by
  unfold Sched.pick
  cases a.ready with
  | nil => exact Or.inl ⟨rfl, rfl⟩
  | cons x l => exact Or.inr rfl

/-- What is known about the chosen task. -/
theorem Sane.pick (hs : Sane h a) : (a.pick = 0 ∨ h.pushed a.pick = true) ∧ h.exited a.pick = false ∧
    a.pick ∉ a.ready.tail ∧ h.made a.pick ≠ none := by
  rcases pick_cases a with ⟨hnil, hzero⟩ | hcons
  · have hex : h.exited 0 = false := by
      cases he : h.exited 0 with
      | false => rfl
      | true => exact absurd rfl (hs.exited_ne_zero he)
    rw [hzero, hnil]
    exact ⟨Or.inl rfl, hex, List.not_mem_nil, hs.idle_made⟩
  · have hmem : a.pick ∈ a.ready := by rw [hcons]; exact List.mem_cons_self
    obtain ⟨hp, hex, _, _⟩ := hs.queued _ hmem
    have hnd := hs.nodup
    rw [hcons] at hnd
    exact ⟨Or.inr hp, hex, (List.nodup_cons.mp hnd).1, (hs.pushed_made _ hp).2⟩

theorem mem_of_ne_pick (ht : t ∈ a.ready) (hne : t ≠ a.pick) : t ∈ a.ready.tail := by
  rcases pick_cases a with ⟨hnil, _⟩ | hcons
  · rw [hnil] at ht; exact absurd ht List.not_mem_nil
  · rw [hcons] at ht
    exact (List.mem_cons.mp ht).resolve_left hne

/-- Whoever runs after slot `p` got another state ran before. -/
theorem running_of_set {f : TaskRef → State} {x : State} (hx : x ≠ .running)
    (hrun : (if t = p then x else f t) = .running) : t ≠ p ∧ f t = .running := by
  by_cases he : t = p
  · rw [if_pos he] at hrun; exact absurd hrun hx
  · rw [if_neg he] at hrun; exact ⟨he, hrun⟩

/-- A slot in use stays in use. -/
theorem empty_iff_set {f : TaskRef → State} {x : State} (hx : x ≠ .empty) (hp : h.made p ≠ none)
    (hf : f t = .empty ↔ h.made t = none) : (if t = p then x else f t) = .empty ↔ h.made t = none := by
  by_cases he : t = p
  · rw [if_pos he, he]
    exact ⟨fun hc => absurd hc hx, fun hc => absurd hc hp⟩
  · rw [if_neg he]; exact hf

/-- The state right before the chosen task `n` is made current. -/
structure Poised (h : History) (b : Sched) (n : TaskRef) : Prop where
  nodup : b.ready.Nodup
  empty_iff : ∀ t, b.state t = .empty ↔ h.made t = none
  idle_made : h.made 0 ≠ none
  pushed_made : ∀ t, h.pushed t = true → t ≠ 0 ∧ h.made t ≠ none
  queued : ∀ t ∈ b.ready, h.pushed t = true ∧ h.exited t = false ∧ b.state t = .ready
  next : (n = 0 ∨ h.pushed n = true) ∧ h.exited n = false ∧ n ∉ b.ready ∧ h.made n ≠ none
  live : ∀ t, h.pushed t = true → h.exited t = false → t ∈ b.ready ∨ t = n
  dead : ∀ t, h.exited t = true → h.pushed t = true ∧ b.state t = .dead
  only : ∀ t, t ≠ 0 → b.state t = .running → t = n

/-- **Making the chosen task current** restores the invariant. -/
theorem Poised.run {b : Sched} {n : TaskRef} (hb : Poised h b n) (hst : h.started = true) :
    Sane h (b.run n) := by
  obtain ⟨hnp, hnex, hnq, hnmade⟩ := hb.next
  have hstate := b.run_state n
  -- only `n` changes: it leaves `b.ready` alone and its state becomes `Running`
  refine ⟨hb.nodup, fun t => ?_, hb.idle_made, hb.pushed_made, fun t ht => ?_, fun t ht => ?_,
    ⟨fun _ => by simp [Sched.run], fun _ => hst⟩, fun t hp hex => ?_, fun t hex => ?_, fun t h0 hrun => ?_⟩
  · rw [hstate]
    exact empty_iff_set (by simp) hnmade (hb.empty_iff t)
  · have hne : t ≠ n := fun he => hnq (he ▸ ht)
    obtain ⟨hp, hex, hready⟩ := hb.queued t ht
    refine ⟨hp, hex, by rw [hstate, if_neg hne]; exact hready, fun hc => hne (Option.some.inj hc).symm⟩
  · obtain rfl : n = t := Option.some.inj ht
    exact ⟨hnp, by rw [hstate, if_pos rfl]; simp [hnex]⟩
  · rcases hb.live t hp hex with hm | he
    · exact Or.inl hm
    · exact Or.inr (he ▸ rfl)
  · obtain ⟨hp, hdead⟩ := hb.dead t hex
    have hne : t ≠ n := fun he => by rw [he, hnex] at hex; exact absurd hex (by simp)
    exact ⟨hp, by rw [hstate, if_neg hne]; exact hdead⟩
  · rw [hstate] at hrun
    by_cases he : t = n
    · exact he ▸ rfl
    · rw [if_neg he] at hrun
      exact absurd (hb.only t h0 hrun) he

/-- Nobody is current: the first waiting task starts. -/
theorem sane_start (hs : Sane h a) (hst : h.started = false) :
    Sane h.start (a.pop.run a.pick) := by
  have hnone : ∀ t, a.current ≠ some t := by
    intro t hc
    rw [hs.started.mpr (by rw [hc]; simp)] at hst
    exact absurd hst (by simp)
  refine Poised.run ⟨hs.nodup.tail, hs.empty_iff, hs.idle_made, hs.pushed_made, fun t ht => ?_, hs.pick,
    fun t hp hex => ?_, hs.dead, fun t h0 hrun => absurd (hs.only t h0 hrun) (hnone t)⟩ rfl
  · obtain ⟨hp, hex, hready, _⟩ := hs.queued t (List.mem_of_mem_tail ht)
    exact ⟨hp, hex, hready⟩
  · by_cases he : t = a.pick
    · exact Or.inr he
    · rcases hs.live t hp hex with hm | hc
      · exact Or.inl (mem_of_ne_pick hm he)
      · exact absurd hc (hnone t)

/-- The outgoing task is never queued. -/
theorem Sane.current_not_queued (hs : Sane h a) (hc : a.current = some p) : p ∉ a.ready :=
  fun hm => (hs.queued p hm).2.2.2 hc

/-- Whoever waited still waits or is the one chosen; only the outgoing task is unaccounted for. -/
theorem Sane.waits (hs : Sane h a) (hc : a.current = some p) (hp : h.pushed t = true) (hex : h.exited t = false)
    (hne : t ≠ p) : t ∈ a.ready.tail ∨ t = a.pick := by
  by_cases he : t = a.pick
  · exact Or.inr he
  · rcases hs.live t hp hex with hm | hcur
    · exact Or.inl (mem_of_ne_pick hm he)
    · exact absurd (Option.some.inj (hcur.symm.trans hc)) hne

/-- The outgoing task goes to the end of the queue. -/
theorem Sane.requeue (hs : Sane h a) (hc : a.current = some p) (hreq : a.Requeues p) :
    Poised h (a.pop.push p) a.pick := by
  have hpq := hs.current_not_queued hc
  obtain ⟨hp0, hpstate⟩ := hs.current p hc
  have hpex : h.exited p = false := by
    cases hex : h.exited p with
    | false => rfl
    | true =>
        rw [hex, if_pos rfl, hreq.2] at hpstate
        exact absurd hpstate (by simp)
  have hppush : h.pushed p = true := hp0.resolve_left hreq.1
  have hstate : ∀ t, (a.pop.push p).state t = if t = p then .ready else a.state t := a.pop.push_state p
  -- `next` ran before `push`, so the outgoing task cannot have been chosen
  have hpick : a.pick ≠ p := by
    rcases pick_cases a with ⟨_, hzero⟩ | hcons
    · exact fun he => hreq.1 (he ▸ hzero)
    · exact fun he => hpq (by rw [hcons, he]; exact List.mem_cons_self)
  refine ⟨@Sched.push_nodup a.pop p hs.nodup.tail (fun hm => hpq (List.mem_of_mem_tail hm)), fun t => ?_, hs.idle_made,
    hs.pushed_made, fun t ht => ?_, ?_, fun t hp hex => ?_, fun t hex => ?_, fun t h0 hrun => ?_⟩
  · rw [hstate]
    exact empty_iff_set (by simp) (hs.pushed_made p hppush).2 (hs.empty_iff t)
  · rw [hstate]
    rcases Sched.mem_push.mp ht with hm | rfl
    · obtain ⟨hp, hex, hready, hcur⟩ := hs.queued t (List.mem_of_mem_tail hm)
      have hne : t ≠ p := by
        rintro rfl
        exact hcur hc
      exact ⟨hp, hex, by rw [if_neg hne]; exact hready⟩
    · exact ⟨hppush, hpex, if_pos rfl⟩
  · obtain ⟨hnp, hnex, hnq, hnmade⟩ := hs.pick
    exact ⟨hnp, hnex, fun hm => (Sched.mem_push.mp hm).elim hnq hpick, hnmade⟩
  · by_cases he : t = p
    · exact Or.inl (Sched.mem_push.mpr (Or.inr he))
    · exact (hs.waits hc hp hex he).imp (fun hm => Sched.mem_push.mpr (Or.inl hm)) id
  · obtain ⟨hp, hdead⟩ := hs.dead t hex
    have hne : t ≠ p := fun he => by rw [he, hpex] at hex; exact absurd hex (by simp)
    exact ⟨hp, by rw [hstate, if_neg hne]; exact hdead⟩
  · rw [hstate] at hrun
    obtain ⟨he, hran⟩ := running_of_set (by simp) hrun
    exact absurd (Option.some.inj ((hs.only t h0 hran).symm.trans hc)) he

/-- Idle, or a task that has exited, leaves the processor for good or until it is chosen again. -/
theorem Sane.retire (hs : Sane h a) (hc : a.current = some p) (hreq : ¬ a.Requeues p) : Poised h a.pop a.pick := by
  obtain ⟨_, hpstate⟩ := hs.current p hc
  refine ⟨hs.nodup.tail, hs.empty_iff, hs.idle_made, hs.pushed_made, fun t ht => ?_, hs.pick,
    fun t hp hex => hs.waits hc hp hex (fun he => ?_), hs.dead, fun t h0 hrun => ?_⟩
  · obtain ⟨hp, hex, hready, _⟩ := hs.queued t (List.mem_of_mem_tail ht)
    exact ⟨hp, hex, hready⟩
  · -- had it been the outgoing task, that would have been put back
    rw [he] at hp hex
    rw [hex] at hpstate
    exact hreq ⟨(hs.pushed_made p hp).1, hpstate⟩
  · obtain rfl : t = p := Option.some.inj ((hs.only t h0 hrun).symm.trans hc)
    exact absurd ⟨h0, hrun⟩ hreq

/-- **The round-robin step** keeps the invariant, whether the outgoing task runs on, is idle, or has just
    exited; the incoming one has not exited. -/
theorem sane_reschedule (hs : Sane h a) (hc : a.current = some p) :
    Sane h (a.reschedule p) ∧ h.exited a.pick = false := by
  have hst : h.started = true := hs.started.mpr (by rw [hc]; simp)
  refine ⟨?_, hs.pick.2.1⟩
  by_cases hreq : a.Requeues p
  · rw [Sched.reschedule, if_pos hreq]
    exact (hs.requeue hc hreq).run hst
  · rw [Sched.reschedule, if_neg hreq]
    exact (hs.retire hc hreq).run hst

/-- The first half of `sys_exit`. -/
theorem sane_exit (hs : Sane h a) (hc : a.current = some p) (hp : p ≠ 0) : Sane (h.exit p) (a.mark p .dead) := by
  obtain ⟨hp0, _⟩ := hs.current p hc
  have hppush : h.pushed p = true := hp0.resolve_left hp
  have hpq := hs.current_not_queued hc
  have hstate := a.mark_state p .dead
  refine ⟨hs.nodup, fun t => ?_, hs.idle_made, hs.pushed_made, fun t ht => ?_, fun t ht => ?_, hs.started,
    fun t hp' hex => ?_, fun t hex => ?_, fun t h0 hrun => ?_⟩
  · rw [hstate]
    exact empty_iff_set (by simp) (hs.pushed_made p hppush).2 (hs.empty_iff t)
  · have hne : t ≠ p := fun he => hpq (he ▸ ht)
    obtain ⟨hp', hex, hready, hcur⟩ := hs.queued t ht
    exact ⟨hp', by rw [History.exit_exited, if_neg hne]; exact hex, by rw [hstate, if_neg hne]; exact hready, hcur⟩
  · obtain rfl : t = p := Option.some.inj (ht.symm.trans hc)
    exact ⟨hp0, by rw [hstate, if_pos rfl, History.exit_exited, if_pos rfl]; rfl⟩
  · -- the exiting task is no longer anybody the queue has to keep
    rw [History.exit_exited] at hex
    by_cases he : t = p
    · rw [if_pos he] at hex; exact absurd hex (by simp)
    · rw [if_neg he] at hex; exact hs.live t hp' hex
  · rw [History.exit_exited] at hex
    rw [hstate]
    by_cases he : t = p
    · rw [if_pos he, he]; exact ⟨hppush, rfl⟩
    · rw [if_neg he] at hex ⊢; exact hs.dead t hex
  · rw [hstate] at hrun
    exact hs.only t h0 (running_of_set (by simp) hrun).2

/-- A new task: its slot was empty, so it took no part in anything. -/
theorem sane_create (hs : Sane h a) (ht : a.state t = .empty) (m : Creation) :
    Sane (h.create t m) (a.mark t .ready) := by
  have hmade : h.made t = none := (hs.empty_iff t).mp ht
  have hpush : h.pushed t ≠ true := fun hp => (hs.pushed_made t hp).2 hmade
  have hstate := a.mark_state t .ready
  have hmono : ∀ u, h.made u ≠ none → (h.create t m).made u ≠ none := by
    intro u hu
    rw [History.create_made]
    split
    · simp
    · exact hu
  refine ⟨hs.nodup, fun u => ?_, hmono 0 hs.idle_made,
    fun u hu => ⟨(hs.pushed_made u hu).1, hmono u (hs.pushed_made u hu).2⟩, fun u hu => ?_, fun u hu => ?_,
    hs.started, hs.live, fun u hex => ?_, fun u h0 hrun => ?_⟩
  · rw [hstate, History.create_made]
    by_cases he : u = t
    · rw [if_pos he, if_pos he]; simp
    · rw [if_neg he, if_neg he]; exact hs.empty_iff u
  · obtain ⟨hp, hex, hready, hcur⟩ := hs.queued u hu
    have hne : u ≠ t := fun he => hpush (he ▸ hp)
    exact ⟨hp, hex, by rw [hstate, if_neg hne]; exact hready, hcur⟩
  · obtain ⟨hp, hrun⟩ := hs.current u hu
    have hne : u ≠ t := by
      rintro rfl
      rcases hp with rfl | hp
      · exact hs.idle_made hmade
      · exact hpush hp
    exact ⟨hp, by rw [hstate, if_neg hne]; exact hrun⟩
  · obtain ⟨hp, hdead⟩ := hs.dead u hex
    have hne : u ≠ t := fun he => hpush (he ▸ hp)
    exact ⟨hp, by rw [hstate, if_neg hne]; exact hdead⟩
  · rw [hstate] at hrun
    exact hs.only u h0 (running_of_set (by simp) hrun).2

/-- A created task is queued. -/
theorem sane_push (hs : Sane h a) (h0 : t ≠ 0) (hmade : h.made t ≠ none) (hpush : h.pushed t = false) :
    t ∉ a.ready ∧ Sane (h.push t) (a.push t) := by
  -- a task that was never pushed is not queued, not current and has not exited
  have hno : ∀ u, h.pushed u = true → u ≠ t := by
    rintro u hu rfl
    rw [hpush] at hu
    exact absurd hu (by simp)
  have htq : t ∉ a.ready := fun hm => hno t (hs.queued t hm).1 rfl
  have hcur : a.current ≠ some t := fun hc => hno t ((hs.current t hc).1.resolve_left h0) rfl
  have hex : h.exited t = false := by
    cases hx : h.exited t with
    | false => rfl
    | true => exact absurd rfl (hno t (hs.dead t hx).1)
  have hstate := a.push_state t
  have hmono : ∀ u, h.pushed u = true → (h.push t).pushed u = true := by
    intro u hu
    rw [History.push_pushed]
    split
    · rfl
    · exact hu
  refine ⟨htq, Sched.push_nodup hs.nodup htq, fun u => ?_, hs.idle_made, fun u hu => ?_, fun u hu => ?_, fun u hu => ?_,
    hs.started, fun u hu hx => ?_, fun u hx => ?_, fun u hu0 hrun => ?_⟩
  · rw [hstate]
    exact empty_iff_set (by simp) hmade (hs.empty_iff u)
  · rw [History.push_pushed] at hu
    by_cases he : u = t
    · rw [he]; exact ⟨h0, hmade⟩
    · rw [if_neg he] at hu; exact hs.pushed_made u hu
  · rcases Sched.mem_push.mp hu with hm | rfl
    · obtain ⟨hp, hx, hready, hc⟩ := hs.queued u hm
      exact ⟨hmono u hp, hx, by rw [hstate, if_neg (hno u hp)]; exact hready, hc⟩
    · exact ⟨by rw [History.push_pushed, if_pos rfl], hex, by rw [hstate, if_pos rfl], hcur⟩
  · obtain ⟨hp, hrun⟩ := hs.current u hu
    have hne : u ≠ t := fun he => hcur (he ▸ hu)
    exact ⟨hp.imp id (hmono u), by rw [hstate, if_neg hne]; exact hrun⟩
  · rw [History.push_pushed] at hu
    by_cases he : u = t
    · exact Or.inl (Sched.mem_push.mpr (Or.inr he))
    · rw [if_neg he] at hu
      exact (hs.live u hu hx).imp (fun hm => Sched.mem_push.mpr (Or.inl hm)) id
  · obtain ⟨hp, hdead⟩ := hs.dead u hx
    exact ⟨hmono u hp, by rw [hstate, if_neg (hno u hp)]; exact hdead⟩
  · rw [hstate] at hrun
    exact hs.only u hu0 (running_of_set (by simp) hrun).2

/-- The saved registers play no part in scheduling. -/
theorem Sane.save (hs : Sane h a) (p : TaskRef) (r : Regs) : Sane (h.save p r) a :=
  ⟨hs.nodup, hs.empty_iff, hs.idle_made, hs.pushed_made, hs.queued, hs.current, hs.started, hs.live, hs.dead, hs.only⟩

end Core
end RiscCore
