import RiscCore.Core.SchedSafety

/-!
# `Core.TaskTable` — slots and ids of the task table over whole runs

`create_kernel_task` looks for a slot whose state is `Empty`, and the run queue, the scheduler and `sys_exit`
write the same field. `Roster` is the kernel with the list of all tasks created so far, in order; its runs are
wider than those of `Sys`, since idle may be pushed and may call `sys_exit` too. `Listed` says that the slots
in use are those on the list, and that the `k`-th task on it has id `k` and what it was created with. The
other calls write no such field whatever state they are in (`SameIdentity`).
-/

namespace RiscCore
namespace Core

open Ds Circular Runs

/-! ## The fields that name a task -/

structure Identity where
  id : BitVec 32
  entry : Word
  stackBase : Word
  stackSize : Word
deriving DecidableEq

def Task.identity (x : Task) : Identity := ⟨x.id, x.entry, x.stackBase, x.stackSize⟩

/-- No task is renamed, and the next id is the same. -/
structure SameIdentity (k k' : Kernel) : Prop where
  identity : ∀ u, (k'.tasks u).identity = (k.tasks u).identity
  nextId : k'.sNextId = k.sNextId

variable {sym : Symbols} {k k' k'' k₀ : Kernel} {t : TaskRef}

theorem SameIdentity.refl (k : Kernel) : SameIdentity k k := ⟨fun _ => rfl, rfl⟩

theorem SameIdentity.trans (h : SameIdentity k k') (h' : SameIdentity k' k'') : SameIdentity k k'' where
  identity := fun u => (h'.identity u).trans (h.identity u)
  nextId := h'.nextId.trans h.nextId

theorem setState_identity (k : Kernel) (t : TaskRef) (s : State) : SameIdentity k (k.setState t s) where
  identity := by
    intro u
    rw [setState_tasks]
    split
    · rename_i h
      rw [h]
      rfl
    · rfl
  nextId := rfl

theorem push_identity {b : Bool} (h : RunQueue.push (some t) k = some (b, k')) : SameIdentity k k' := by
  obtain ⟨nodes, _, h⟩ := Option.bind_eq_some_iff.mp h
  obtain ⟨_, rfl⟩ := Prod.mk.inj (Option.some.inj h)
  exact ⟨(setState_identity k t .ready).identity, rfl⟩

theorem next_identity {next : Option TaskRef} (h : RunQueue.next k = some (next, k')) : SameIdentity k k' := by
  obtain ⟨⟨node, nodes⟩, _, h⟩ := Option.bind_eq_some_iff.mp h
  cases node with
  | none =>
      obtain ⟨_, rfl⟩ := Prod.mk.inj (Option.some.inj h)
      exact ⟨fun _ => rfl, rfl⟩
  | some n =>
      obtain ⟨task, _, h⟩ := Option.bind_eq_some_iff.mp h
      obtain ⟨_, rfl⟩ := Prod.mk.inj (Option.some.inj h)
      exact ⟨fun _ => rfl, rfl⟩

theorem setCurrent_identity (next : Option TaskRef) (k : Kernel) : SameIdentity k (RunQueue.setCurrent next k).2 := by
  unfold RunQueue.setCurrent
  split
  · exact SameIdentity.refl k
  · exact ⟨fun _ => rfl, rfl⟩

theorem switchContext_identity {prev next : Option TaskRef} (h : switchContext prev next k = some k') :
    SameIdentity k k' := by
  unfold switchContext at h
  obtain ⟨s, _, h⟩ := Option.bind_eq_some_iff.mp h
  obtain rfl := Option.some.inj h
  exact ⟨fun _ => rfl, rfl⟩

/-- How `start` and `reschedule` end. -/
theorem switchTo_identity {prev : Option TaskRef} {n : TaskRef}
    (h : switchContext prev (some n) (RunQueue.setCurrent (some n) (k.setState n .running)).2 = some k') :
    SameIdentity k k' :=
  ((setState_identity k n .running).trans (setCurrent_identity (some n) _)).trans (switchContext_identity h)

theorem start_identity (h : Scheduler.start k = some k') : SameIdentity k k' := by
  obtain ⟨⟨next, k₁⟩, hnext, h⟩ := Option.bind_eq_some_iff.mp h
  obtain ⟨n, _, h⟩ := Option.bind_eq_some_iff.mp h
  exact (((next_identity hnext).trans (setCurrent_identity _ k₁)).trans (setState_identity _ n .running)).trans
    (switchContext_identity h)

theorem reschedule_identity (h : Scheduler.reschedule k = some k') : SameIdentity k k' := by
  obtain ⟨⟨next, k₁⟩, hnext, h⟩ := Option.bind_eq_some_iff.mp h
  have h₁ := next_identity hnext
  dsimp only at h
  split at h
  · rename_i p n _ _
    split at h
    · -- the outgoing task is put back
      obtain ⟨⟨b, k₂⟩, hpush, h⟩ := Option.bind_eq_some_iff.mp h
      exact ((h₁.trans (setState_identity k₁ p .ready)).trans (push_identity hpush)).trans (switchTo_identity h)
    · exact h₁.trans (switchTo_identity h)
  · obtain rfl := Option.some.inj h
    exact h₁

theorem markExit_identity {code : Word} (h : markExit code k = some k') : SameIdentity k k' := by
  obtain ⟨out, _, h⟩ := Option.bind_eq_some_iff.mp h
  dsimp only at h
  split at h
  · rename_i p _
    obtain rfl := Option.some.inj h
    exact ⟨(setState_identity k p .dead).identity, rfl⟩
  · obtain rfl := Option.some.inj h
    exact ⟨fun _ => rfl, rfl⟩

theorem init_identity (sym : Symbols) (k : Kernel) : ((TaskManager.init sym k).tasks 0).identity =
      ⟨1#32, sym.idleTaskEntry, sym.idleStack, TaskManager.kIdleStackSize⟩ ∧
    (TaskManager.init sym k).sNextId = 2#32 := by
  have hidle := (init_spec sym k).1
  unfold TaskManager.init at hidle ⊢
  dsimp only at hidle ⊢
  generalize hc : TaskManager.createKernelTask sym _ _ _ _ = r at hidle ⊢
  obtain ⟨idle, k'⟩ := r
  obtain rfl : idle = some 0 := hidle
  have hcreated := createKernelTask_some hc
  exact ⟨by rw [hcreated.task]; rfl, hcreated.nextId⟩

/-! ## Runs -/

/-- The kernel, the tasks created so far with their arguments, idle first, and which of them were pushed. -/
structure Roster where
  k : Kernel
  made : List (TaskRef × Creation)
  pushed : TaskRef → Bool
  started : Bool

namespace Roster

def refs (c : Roster) : List TaskRef := c.made.map Prod.fst

def boot (sym : Symbols) (k : Kernel) : Roster where
  k := Scheduler.init (TaskManager.init sym k)
  made := [(0, ⟨sym.idleTaskEntry, sym.idleStack, TaskManager.kIdleStackSize⟩)]
  pushed := fun _ => false
  started := false

def step (sym : Symbols) (c : Roster) : SchedOp → Option Roster
  | .create entry stackBase stackSize =>
    match TaskManager.createKernelTask sym c.k entry stackBase stackSize with
    | (none, k') => some { c with k := k' }
    | (some t, k') => some { c with k := k', made := c.made ++ [(t, ⟨entry, stackBase, stackSize⟩)] }
  | .push t => do
    let (_, k') ← RunQueue.push (some t) c.k
    return { c with k := k', pushed := Function.update c.pushed t true }
  | .start => do
    let k' ← Scheduler.start c.k
    return { c with k := k', started := true }
  | .work regs => some { c with k := { c.k with regs := regs } }
  | .yield => do
    let k' ← Scheduler.yield c.k
    return { c with k := k' }
  | .exit code => do
    let k' ← sysExit code c.k
    return { c with k := k' }

/-- Every task is pushed at most once, `start` is called once, and whoever runs may yield and exit. -/
def Permitted (c : Roster) : SchedOp → Prop
  | .create _ _ _ => True
  | .push t => t ∈ c.refs ∧ c.pushed t = false
  | .start => c.started = false
  | .work _ => True
  | .yield => c.started = true
  | .exit _ => c.started = true

instance (c : Roster) : ∀ op, Decidable (c.Permitted op)
  | .create _ _ _ => isTrue trivial
  | .push t => inferInstanceAs (Decidable (t ∈ c.refs ∧ c.pushed t = false))
  | .start => inferInstanceAs (Decidable (c.started = false))
  | .work _ => isTrue trivial
  | .yield => inferInstanceAs (Decidable (c.started = true))
  | .exit _ => inferInstanceAs (Decidable (c.started = true))

end Roster

/-! ## The invariant -/

/-- **The slots in use are those on the list**, and only tasks on it take part in scheduling. -/
structure Listed (sym : Symbols) (c : Roster) (a : Sched) : Prop where
  stores : Stores c.k a
  idle : ∃ rest, c.made = (0, ⟨sym.idleTaskEntry, sym.idleStack, TaskManager.kIdleStackSize⟩) :: rest
  nodup : c.refs.Nodup
  empty_iff : ∀ t, a.state t = .empty ↔ t ∉ c.refs
  nextId : c.k.sNextId = BitVec.ofNat 32 (c.made.length + 1)
  identity : ∀ i t m, c.made[i]? = some (t, m) →
    (c.k.tasks t).identity = ⟨BitVec.ofNat 32 (i + 1), m.entry, m.stackBase, m.stackSize⟩
  queue : a.ready.Nodup
  queued : ∀ t ∈ a.ready, c.pushed t = true
  pushed : ∀ t, c.pushed t = true → t ∈ c.refs
  started : c.started = true ↔ a.current ≠ none
  current : ∀ p, a.current = some p → p ∈ c.refs ∧ (p ≠ 0 → p ∉ a.ready ∧ c.pushed p = true)

variable {c c' : Roster} {a : Sched} {p : TaskRef}

theorem Listed.zero_mem (hl : Listed sym c a) : 0 ∈ c.refs := by
  obtain ⟨rest, hmade⟩ := hl.idle
  rw [Roster.refs, hmade]
  exact List.mem_cons_self

theorem Listed.length_le (hl : Listed sym c a) : c.made.length ≤ kMaxTasks := by
  have hcard := hl.nodup.length_le_card
  rw [Fintype.card_fin, Roster.refs, List.length_map] at hcard
  exact hcard

/-- A slot on the list gets another state than `Empty`. -/
theorem Listed.set (hl : Listed sym c a) (ht : t ∈ c.refs) {x : State} (hx : x ≠ .empty) (u : TaskRef) :
    (if u = t then x else a.state u) = .empty ↔ u ∉ c.refs := by
  by_cases hu : u = t
  · rw [if_pos hu, hu]
    exact ⟨fun he => absurd he hx, fun hno => absurd ht hno⟩
  · rw [if_neg hu]
    exact hl.empty_iff u

/-- The task that is chosen next. -/
theorem Listed.pick (hl : Listed sym c a) : a.pick ∈ c.refs ∧
    (a.pick ≠ 0 → a.pick ∈ a.ready ∧ a.pick ∉ a.ready.tail ∧ c.pushed a.pick = true) := by
  rcases pick_cases a with ⟨_, hzero⟩ | hcons
  · rw [hzero]
    exact ⟨hl.zero_mem, fun h => absurd rfl h⟩
  · have hmem : a.pick ∈ a.ready := by rw [hcons]; exact List.mem_cons_self
    have hpush := hl.queued _ hmem
    have hnd := hl.queue
    rw [hcons] at hnd
    exact ⟨hl.pushed _ hpush, fun _ => ⟨hmem, (List.nodup_cons.mp hnd).1, hpush⟩⟩

/-- A call that creates nothing: what is left to show is about scheduling. -/
theorem Listed.keep {a' : Sched} (hl : Listed sym c a) (hs : SameIdentity c.k c'.k) (hmade : c'.made = c.made)
    (hstores : Stores c'.k a') (hempty : ∀ t, a'.state t = .empty ↔ t ∉ c.refs) (hqueue : a'.ready.Nodup)
    (hqueued : ∀ t ∈ a'.ready, c'.pushed t = true) (hpushed : ∀ t, c'.pushed t = true → t ∈ c.refs)
    (hstarted : c'.started = true ↔ a'.current ≠ none)
    (hcurrent : ∀ p, a'.current = some p → p ∈ c.refs ∧ (p ≠ 0 → p ∉ a'.ready ∧ c'.pushed p = true)) :
    Listed sym c' a' := by
  have hrefs : c'.refs = c.refs := by rw [Roster.refs, hmade, Roster.refs]
  refine ⟨hstores, hmade ▸ hl.idle, hrefs ▸ hl.nodup, hrefs ▸ hempty, ?_, ?_, hqueue, hqueued, hrefs ▸ hpushed,
    hstarted, hrefs ▸ hcurrent⟩
  · rw [hs.nextId, hl.nextId, hmade]
  · intro i t m hm
    rw [hs.identity]
    exact hl.identity i t m (hmade ▸ hm)

/-! ## The steps -/

theorem Listed.push (hl : Listed sym c a) (ht : t ∈ c.refs) (hnew : c.pushed t = false) :
    ∃ k' pushed, c.step sym (.push t) = some { c with k := k', pushed := pushed } ∧
      Listed sym { c with k := k', pushed := pushed } (a.push t) := by
  have htq : t ∉ a.ready := fun hm => by rw [hl.queued t hm] at hnew; exact absurd hnew (by simp)
  obtain ⟨k', hpush, hstores, _⟩ := runQueue_push hl.stores htq
  have hmono : ∀ u, c.pushed u = true → Function.update c.pushed t true u = true := by
    intro u hu
    rw [Function.update_apply]
    split
    · rfl
    · exact hu
  refine ⟨k', Function.update c.pushed t true, by simp [Roster.step, hpush], ?_⟩
  refine hl.keep (push_identity hpush) rfl hstores (fun u => ?_) ?_ (fun u hu => ?_) (fun u hu => ?_) hl.started
    (fun p hp => ?_)
  · rw [Sched.push_state]
    exact hl.set ht (by simp) u
  · exact Sched.push_nodup hl.queue htq
  · rcases Sched.mem_push.mp hu with hm | rfl
    · exact hmono u (hl.queued u hm)
    · exact Function.update_self u true c.pushed
  · have hu : Function.update c.pushed t true u = true := hu
    rw [Function.update_apply] at hu
    by_cases he : u = t
    · exact he ▸ ht
    · rw [if_neg he] at hu
      exact hl.pushed u hu
  · obtain ⟨hmem, hfree⟩ := hl.current p hp
    refine ⟨hmem, fun hp0 => ⟨fun hq => ?_, hmono p (hfree hp0).2⟩⟩
    rcases Sched.mem_push.mp hq with hm | rfl
    · exact (hfree hp0).1 hm
    · rw [hnew] at hfree
      exact absurd (hfree hp0).2 (by simp)

/-- The chosen task becomes current; `ready` is what is left of the queue, with or without the outgoing task. -/
theorem Listed.run {b : Sched} {n : TaskRef} (hl : Listed sym c a) (hs : SameIdentity c.k k')
    (hstores : Stores k' (b.run n)) (hempty : ∀ t, b.state t = .empty ↔ t ∉ c.refs) (hqueue : b.ready.Nodup)
    (hqueued : ∀ t ∈ b.ready, c.pushed t = true) (hn : n ∈ c.refs)
    (hfree : n ≠ 0 → n ∉ b.ready ∧ c.pushed n = true) :
    Listed sym ⟨k', c.made, c.pushed, true⟩ (b.run n) := by
  have hkeep := @Listed.keep sym c ⟨k', c.made, c.pushed, true⟩ a (b.run n) hl hs rfl hstores
  refine hkeep (fun u => ?_) hqueue hqueued hl.pushed ⟨fun _ => by simp [Sched.run], fun _ => rfl⟩ (fun p hp => ?_)
  · rw [Sched.run_state]
    by_cases hu : u = n
    · rw [if_pos hu, hu]
      exact ⟨fun he => absurd he (by simp), fun hno => absurd hn hno⟩
    · rw [if_neg hu]
      exact hempty u
  · obtain rfl := Option.some.inj hp
    exact ⟨hn, hfree⟩

theorem Listed.start (hl : Listed sym c a) : ∃ k' a', c.step sym .start = some ⟨k', c.made, c.pushed, true⟩ ∧
    Listed sym ⟨k', c.made, c.pushed, true⟩ a' := by
  obtain ⟨k', hstart, hstores, _⟩ := start_stores hl.stores
  obtain ⟨hn, hfree⟩ := hl.pick
  refine ⟨k', _, by simp [Roster.step, hstart],
    hl.run (start_identity hstart) hstores hl.empty_iff hl.queue.tail
      (fun t ht => hl.queued t (List.mem_of_mem_tail ht)) hn (fun h0 => (hfree h0).2)⟩

/-- **The round-robin step**, whoever is current. -/
theorem Listed.reschedule (hl : Listed sym c a) (hc : a.current = some p) :
    ∃ k' a', Scheduler.reschedule c.k = some k' ∧ Listed sym ⟨k', c.made, c.pushed, true⟩ a' := by
  obtain ⟨hp, hpfree⟩ := hl.current p hc
  obtain ⟨k', hre, hstores, _⟩ := reschedule_stores hl.stores hc (fun hreq => (hpfree hreq.1).1)
  obtain ⟨hn, hfree⟩ := hl.pick
  refine ⟨k', a.reschedule p, hre, ?_⟩
  by_cases hreq : a.Requeues p
  · obtain ⟨hpq, hppush⟩ := hpfree hreq.1
    rw [Sched.reschedule, if_pos hreq] at hstores ⊢
    refine hl.run (reschedule_identity hre) hstores (fun u => ?_) ?_ (fun u hu => ?_) hn
      (fun h0 => ⟨fun hm => ?_, (hfree h0).2.2⟩)
    · rw [Sched.push_state]
      exact hl.set hp (by simp) u
    · exact @Sched.push_nodup a.pop p hl.queue.tail (fun hm => hpq (List.mem_of_mem_tail hm))
    · rcases Sched.mem_push.mp hu with hm | rfl
      · exact hl.queued u (List.mem_of_mem_tail hm)
      · exact hppush
    · -- the chosen task came out of the queue, where the outgoing one is not
      rcases Sched.mem_push.mp hm with hm | he
      · exact (hfree h0).2.1 hm
      · exact hpq (he ▸ (hfree h0).1)
  · rw [Sched.reschedule, if_neg hreq] at hstores ⊢
    exact hl.run (reschedule_identity hre) hstores hl.empty_iff hl.queue.tail
      (fun t ht => hl.queued t (List.mem_of_mem_tail ht)) hn (fun h0 => (hfree h0).2)

/-- The first half of `sys_exit`, also when idle calls it. -/
theorem Listed.exit (hl : Listed sym c a) (hc : a.current = some p) (code : Word) :
    ∃ k', markExit code c.k = some k' ∧ Listed sym { c with k := k' } (a.mark p .dead) := by
  obtain ⟨k', hmark, hstores, _⟩ := markExit_stores hl.stores hc code
  refine ⟨k', hmark, hl.keep (markExit_identity hmark) rfl hstores (fun u => ?_) hl.queue hl.queued hl.pushed
    hl.started hl.current⟩
  rw [Sched.mark_state]
  exact hl.set (hl.current p hc).1 (by simp) u

/-- One empty slot is in use now. No other task, no other list node and no queue has changed. -/
structure Fills (k k' : Kernel) (t : TaskRef) : Prop where
  before : (k.tasks t).state = .empty
  after : (k'.tasks t).state ≠ .empty
  others : ∀ u, u ≠ t → k'.tasks u = k.tasks u
  nodes : ∀ n, n ≠ .runNode t → k'.nodes n = k.nodes n
  current : RunQueue.current k' = RunQueue.current k
  nextId : k'.sNextId = k.sNextId + 1
  ready : ∃ q : List TaskRef, Ring k.nodes .head (q.map .runNode) ∧ Ring k'.nodes .head (q.map .runNode)

theorem Roster.refs_concat (c : Roster) (k' : Kernel) (t : TaskRef) (m : Creation) :
    Roster.refs { c with k := k', made := c.made ++ [(t, m)] } = c.refs ++ [t] := by
  rw [Roster.refs, List.map_append]
  rfl

/-- The new task is the next on the list; the others are not touched. -/
theorem Listed.identity_concat (hl : Listed sym c a) {m₀ : Creation} (hnew : t ∉ c.refs)
    (hc : CreatedTask sym c.k k' t m₀.entry m₀.stackBase m₀.stackSize) {i : Nat} {u : TaskRef} {m : Creation}
    (hm : (c.made ++ [(t, m₀)])[i]? = some (u, m)) :
    (k'.tasks u).identity = ⟨BitVec.ofNat 32 (i + 1), m.entry, m.stackBase, m.stackSize⟩ := by
  by_cases hi : i < c.made.length
  · rw [List.getElem?_append_left hi] at hm
    have hu : u ≠ t := by
      rintro rfl
      exact hnew (List.mem_map_of_mem (List.mem_of_getElem? hm))
    rw [hc.others u hu]
    exact hl.identity i u m hm
  · have hle : c.made.length ≤ i := Nat.le_of_not_lt hi
    rw [List.getElem?_append_right hle, List.getElem?_singleton] at hm
    split at hm
    · have hlen : i = c.made.length := by omega
      obtain ⟨rfl, rfl⟩ := Prod.mk.inj (Option.some.inj hm)
      rw [hc.task, Task.identity, hl.nextId, hlen]
    · exact absurd hm (by simp)

/-- **`create_kernel_task`** returns null and writes nothing, or it fills a slot that is not on the list. -/
theorem Listed.create (hl : Listed sym c a) (entry stackBase stackSize : Word) :
    TaskManager.createKernelTask sym c.k entry stackBase stackSize = (none, c.k) ∨
    ∃ t k', TaskManager.createKernelTask sym c.k entry stackBase stackSize = (some t, k') ∧ t ∉ c.refs ∧
      Fills c.k k' t ∧
      Listed sym { c with k := k', made := c.made ++ [(t, ⟨entry, stackBase, stackSize⟩)] } (a.mark t .ready) := by
  rcases hcall : TaskManager.createKernelTask sym c.k entry stackBase stackSize with ⟨_ | t, k'⟩
  · rw [createKernelTask_none hcall]
    exact Or.inl rfl
  · have hc := createKernelTask_some hcall
    have hnew : t ∉ c.refs := (hl.empty_iff t).mp ((hl.stores.state t).symm.trans hc.before)
    have htq : t ∉ a.ready := fun hm => hnew (hl.pushed t (hl.queued t hm))
    have hstores := hl.stores.create hc htq
    have hfills : Fills c.k k' t := ⟨hc.before, by rw [hc.task]; simp, hc.others, hc.nodes, hc.current, hc.nextId,
      ⟨a.ready, hl.stores.ring, hstores.ring⟩⟩
    refine Or.inr ⟨t, k', rfl, hnew, hfills, ?_⟩
    have hrefs := c.refs_concat k' t ⟨entry, stackBase, stackSize⟩
    obtain ⟨rest, hmade⟩ := hl.idle
    refine ⟨hstores, ⟨rest ++ [_], by rw [hmade]; rfl⟩, ?_, fun u => ?_, ?_,
      fun i u m hm => hl.identity_concat hnew hc hm, hl.queue, hl.queued, fun u hu => ?_, hl.started, fun p hp => ?_⟩
    · rw [hrefs, ← List.concat_eq_append]
      exact List.Nodup.concat hnew hl.nodup
    · rw [Sched.mark_state, hrefs, List.mem_append, List.mem_singleton]
      by_cases hu : u = t
      · simp [hu]
      · rw [if_neg hu, hl.empty_iff u]
        simp [hu]
    · show k'.sNextId = _
      rw [hc.nextId, hl.nextId, List.length_append, List.length_singleton]
      exact (BitVec.ofNat_add (c.made.length + 1) 1).symm
    · rw [hrefs]
      exact List.mem_append_left _ (hl.pushed u hu)
    · obtain ⟨hmem, hfree⟩ := hl.current p hp
      rw [hrefs]
      exact ⟨List.mem_append_left _ hmem, hfree⟩

/-- Registers are no field of a task. -/
theorem Listed.work (hl : Listed sym c a) (regs : Regs) : Listed sym { c with k := { c.k with regs := regs } } a :=
  @Listed.keep sym c { c with k := { c.k with regs := regs } } a a hl ⟨fun _ => rfl, rfl⟩ rfl
    ⟨hl.stores.ring, hl.stores.current, hl.stores.state, hl.stores.idle⟩ hl.empty_iff hl.queue hl.queued hl.pushed
    hl.started hl.current

/-- **Step lemma.** A permitted call returns, and leaves the list as it is or appends to it. -/
theorem Listed.step (hl : Listed sym c a) {op : SchedOp} (hok : c.Permitted op) :
    ∃ c' a', c.step sym op = some c' ∧ c.made <+: c'.made ∧ Listed sym c' a' := by
  cases op with
  | create entry stackBase stackSize =>
      rcases hl.create entry stackBase stackSize with hnone | ⟨t, k', hsome, _, _, hl'⟩
      · exact ⟨c, a, by simp [Roster.step, hnone], List.prefix_rfl, hl⟩
      · exact ⟨_, _, by simp [Roster.step, hsome], List.prefix_append c.made _, hl'⟩
  | push t =>
      obtain ⟨k', pushed, hstep, hl'⟩ := hl.push hok.1 hok.2
      exact ⟨_, _, hstep, List.prefix_rfl, hl'⟩
  | start =>
      obtain ⟨k', a', hstep, hl'⟩ := hl.start
      exact ⟨_, a', hstep, List.prefix_rfl, hl'⟩
  | work regs => exact ⟨_, a, rfl, List.prefix_rfl, hl.work regs⟩
  | yield =>
      obtain ⟨p, hp⟩ := Option.ne_none_iff_exists'.mp (hl.started.mp hok)
      obtain ⟨k', a', hre, hl'⟩ := hl.reschedule hp
      have hst : c.started = true := hok
      refine ⟨{ c with k := k' }, a', by simp [Roster.step, Scheduler.yield, hre], List.prefix_rfl, ?_⟩
      rw [hst]
      exact hl'
  | exit code =>
      obtain ⟨p, hp⟩ := Option.ne_none_iff_exists'.mp (hl.started.mp hok)
      obtain ⟨k₁, hmark, hl₁⟩ := hl.exit hp code
      obtain ⟨k', a', hre, hl'⟩ := hl₁.reschedule hp
      have hst : c.started = true := hok
      refine ⟨{ c with k := k' }, a', by simp [Roster.step, sysExit, hmark, hre], List.prefix_rfl, ?_⟩
      rw [hst]
      exact hl'

theorem listed_boot (sym : Symbols) (k : Kernel) : ∃ a, Listed sym (Roster.boot sym k) a := by
  obtain ⟨hidle, hready, _, _, hempty⟩ := init_spec sym k
  obtain ⟨hid, hnext⟩ := init_identity sym k
  refine ⟨⟨none, [], fun t => ((TaskManager.init sym k).tasks t).state⟩, runQueue_init hidle, ⟨[], rfl⟩,
    List.nodup_singleton 0, fun t => ?_, hnext, fun i t m hm => ?_, List.nodup_nil,
    fun t ht => absurd ht List.not_mem_nil, fun t ht => absurd ht (by simp [Roster.boot]), by simp [Roster.boot],
    fun p hp => absurd hp (by simp)⟩
  · by_cases ht : t = 0
    · simp [ht, hready, Roster.refs, Roster.boot]
    · simp [hempty t ht, ht, Roster.refs, Roster.boot]
  · rw [Roster.boot, List.getElem?_singleton] at hm
    split at hm
    · rename_i hi
      obtain ⟨rfl, rfl⟩ := Prod.mk.inj (Option.some.inj hm)
      rw [hi]
      exact hid
    · exact absurd hm (by simp)

/-- **Run lemma.** -/
theorem Listed.reach (hl : Listed sym c a) (hr : Reach (Roster.step sym) Roster.Permitted c c') :
    c.made <+: c'.made ∧ ∃ a', Listed sym c' a' := by
  refine Reach.invariant (I := fun d => c.made <+: d.made ∧ ∃ a, Listed sym d a) ⟨List.prefix_rfl, a, hl⟩ ?_ hr
  rintro d op d' ⟨hpre, b, hb⟩ hok hst
  obtain ⟨d'', b', hst', hpre', hb'⟩ := hb.step hok
  obtain rfl := Option.some.inj (hst.symm.trans hst')
  exact ⟨hpre.trans hpre', b', hb'⟩

/-! ## Slots and ids -/

/-- **Slots and ids are never reused.** In every state of every run the tasks created so far are pairwise distinct,
    idle (slot 0) and at most 31 more, and the `k`-th has id `k` and the arguments it was created with;
    `create_kernel_task` returns null and writes nothing, or fills one empty slot that no task had before; whatever
    happens afterwards, no task leaves the list or gets another id, entry or stack; no call faults. -/
theorem task_table_append_only (hr : Reach (Roster.step sym) Roster.Permitted (Roster.boot sym k₀) c) :
    (∃ rest, c.made = (0, ⟨sym.idleTaskEntry, sym.idleStack, TaskManager.kIdleStackSize⟩) :: rest ∧ rest.length ≤ 31 ∧
      TaskManager.idleTask c.k = some 0 ∧ ∀ p ∈ rest, TaskManager.idleTask c.k ≠ some p.1) ∧
    c.refs.Nodup ∧
    (∀ i t m, c.made[i]? = some (t, m) →
      (c.k.tasks t).identity = ⟨BitVec.ofNat 32 (i + 1), m.entry, m.stackBase, m.stackSize⟩) ∧
    (∀ entry stackBase stackSize,
      TaskManager.createKernelTask sym c.k entry stackBase stackSize = (none, c.k) ∨
      ∃ t k', TaskManager.createKernelTask sym c.k entry stackBase stackSize = (some t, k') ∧ t ∉ c.refs ∧
        Fills c.k k' t) ∧
    (∀ c', Reach (Roster.step sym) Roster.Permitted c c' → c.made <+: c'.made ∧
      ∀ t ∈ c.refs, (c'.k.tasks t).identity = (c.k.tasks t).identity) ∧
    ∀ op, c.Permitted op → ∃ c', c.step sym op = some c' := by
  obtain ⟨a₀, hboot⟩ := listed_boot sym k₀
  obtain ⟨_, a, hl⟩ := hboot.reach hr
  have hidle : TaskManager.idleTask c.k = some 0 := (idleTask_eq c.k).trans hl.stores.idle
  refine ⟨?_, hl.nodup, hl.identity, fun entry stackBase stackSize => ?_, fun c' hr' => ?_, fun op hok => ?_⟩
  · obtain ⟨rest, hmade⟩ := hl.idle
    have hlen := hl.length_le
    have hnd := hl.nodup
    rw [hmade, List.length_cons] at hlen
    rw [Roster.refs, hmade, List.map_cons, List.nodup_cons] at hnd
    refine ⟨rest, hmade, Nat.le_of_succ_le_succ hlen, hidle, fun p hp he => hnd.1 ?_⟩
    have hmem : p.1 ∈ rest.map Prod.fst := List.mem_map_of_mem hp
    rw [hidle] at he
    rw [Option.some.inj he]
    exact hmem
  · rcases hl.create entry stackBase stackSize with hnone | ⟨t, k', hsome, hnew, hfills, _⟩
    · exact Or.inl hnone
    · exact Or.inr ⟨t, k', hsome, hnew, hfills⟩
  · obtain ⟨hpre, a', hl'⟩ := hl.reach hr'
    refine ⟨hpre, fun t ht => ?_⟩
    obtain ⟨⟨t, m⟩, hmem, rfl⟩ := List.mem_map.mp ht
    obtain ⟨i, hi⟩ := List.mem_iff_getElem?.mp hmem
    -- the task stands at the same place of both lists
    obtain ⟨later, happ⟩ := hpre
    have hi' : c'.made[i]? = some (t, m) := by
      obtain ⟨hlt, _⟩ := List.getElem?_eq_some_iff.mp hi
      rw [← happ, List.getElem?_append_left hlt]
      exact hi
    exact (hl'.identity i t m hi').trans (hl.identity i t m hi).symm
  · obtain ⟨c', _, hstep, _⟩ := hl.step hok
    exact ⟨c', hstep⟩

/-- A task exits, and idle too: the next task gets a slot and an id of its own. -/
theorem task_table_append_only_test : ∃ c, run (Roster.step testSymbols) (Roster.boot testSymbols blankKernel)
      (oneTask ++ [.start, .exit 0#64, .exit 0#64, .create 0x80000400#64 0x80011000#64 0x400#64]) = some c ∧
    c.refs = [0, 1, 2] ∧ (c.k.tasks 2).identity = ⟨3#32, 0x80000400#64, 0x80011000#64, 0x400#64⟩ := by
  have hrun : (run (Roster.step testSymbols) (Roster.boot testSymbols blankKernel)
      (oneTask ++ [.start, .exit 0#64, .exit 0#64, .create 0x80000400#64 0x80011000#64 0x400#64])).map
      (fun c => (c.refs, c.made[2]?)) = some ([0, 1, 2], some (2, ⟨0x80000400#64, 0x80011000#64, 0x400#64⟩)) := by
    decide +kernel
  obtain ⟨c, hc, hfacts⟩ := Option.map_eq_some_iff.mp hrun
  obtain ⟨hrefs, hmade⟩ := Prod.mk.inj hfacts
  have hok : Always (Roster.step testSymbols) Roster.Permitted (Roster.boot testSymbols blankKernel)
      (oneTask ++ [.start, .exit 0#64, .exit 0#64, .create 0x80000400#64 0x80011000#64 0x400#64]) := by
    decide +kernel
  obtain ⟨_, _, hid, _⟩ := task_table_append_only (Reach.of_run _ hok hc)
  exact ⟨c, hc, hrefs, hid 2 2 _ hmade⟩

end Core
end RiscCore
