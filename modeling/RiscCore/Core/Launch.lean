import RiscCore.Core.TaskRuns

/-!
# `Core.Launch` — how the tasks are started (`kernel.cpp`, `bootstrap.cpp`)

`launch` is the part of `kmain` that deals with tasks, for any list of them: the bootstrap, one
`create_kernel_task` for each, one `RunQueue::push` for each result, `start`. Nothing is asked of the list.
`launch_shows` says who runs after it, and where each of them stands.
-/

namespace RiscCore
namespace Core

open Ds Circular Runs Cooperative

/-- `bootstrap_scheduler`, after its greeting. -/
def bootstrapScheduler (sym : Symbols) (k : Kernel) : Kernel := Scheduler.init (TaskManager.init sym k)

/-- One `create_kernel_task` for each. -/
def createTasks (sym : Symbols) : List Creation → Kernel → List (Option TaskRef) × Kernel
  | [], k => ([], k)
  | m :: ms, k =>
    let (t, k) := TaskManager.createKernelTask sym k m.entry m.stackBase m.stackSize
    let (ts, k) := createTasks sym ms k
    (t :: ts, k)

/-- One `RunQueue::push` for each result, null or not. -/
def pushTasks : List (Option TaskRef) → Kernel → Option Kernel
  | [], k => some k
  | t :: ts, k => do
    let (_, k) ← RunQueue.push t k
    pushTasks ts k

def launch (sym : Symbols) (ms : List Creation) (k : Kernel) : Option Kernel := do
  let (ts, k) := createTasks sym ms (bootstrapScheduler sym k)
  let k ← pushTasks ts k
  Scheduler.start k

/-! ## Which tasks there are -/

/-- `create_kernel_task` takes these arguments, if it finds a slot. -/
def Creation.Accepted (m : Creation) : Prop := m.stackBase ≠ 0#64 ∧ m.stackSize ≠ 0#64

instance : DecidablePred Creation.Accepted := fun _ => inferInstanceAs (Decidable (_ ∧ _))

/-- Slot 0 is the idle task's. -/
abbrev kFreeSlots : Nat := kMaxTasks - 1

/-- The tasks after one more call. -/
def enlist (roster : List Creation) (m : Creation) : List Creation :=
  if m.Accepted ∧ roster.length < kFreeSlots then roster ++ [m] else roster

/-- The tasks there are in the end: as many as there are slots for. -/
def enlisted (ms : List Creation) : List Creation := (ms.filter fun m => m.Accepted).take kFreeSlots

theorem foldl_enlist : ∀ (ms roster : List Creation), roster.length ≤ kFreeSlots →
    ms.foldl enlist roster = (roster ++ ms.filter fun m => m.Accepted).take kFreeSlots := by
  intro ms
  induction ms with
  | nil =>
      intro roster hlen
      rw [List.foldl_nil, List.filter_nil, List.append_nil, List.take_of_length_le hlen]
  | cons m ms ih =>
      intro roster hlen
      rw [List.foldl_cons, enlist]
      by_cases hm : m.Accepted
      · rw [List.filter_cons_of_pos (by simpa using hm)]
        by_cases hroom : roster.length < kFreeSlots
        · rw [if_pos ⟨hm, hroom⟩, ih _ (by rw [List.length_append]; exact hroom), List.append_assoc]
          rfl
        · rw [if_neg fun h => hroom h.2, ih roster hlen]
          -- the table is full, so the rest does not matter
          have hfull : roster.length = kFreeSlots := Nat.le_antisymm hlen (Nat.le_of_not_lt hroom)
          rw [List.take_append_of_le_length (Nat.le_of_eq hfull.symm),
            List.take_append_of_le_length (Nat.le_of_eq hfull.symm)]
      · rw [if_neg fun h => hm h.1, ih roster hlen, List.filter_cons_of_neg (by simpa using hm)]

/-- The slot of the task number `i`, counted from zero. -/
def slotOf (i : Nat) : TaskRef := Fin.ofNat kMaxTasks (i + 1)

theorem slotOf_val {i : Nat} (hi : i < kFreeSlots) : (slotOf i).val = i + 1 := Nat.mod_eq_of_lt (Nat.succ_lt_succ hi)

/-- The tasks' slots. -/
def slots (n : Nat) : List TaskRef := (List.range n).map slotOf

/-- Where the tasks stand before they have run. -/
def freshThreads (sym : Symbols) (roster : List Creation) : List Thread :=
  roster.zipIdx.map fun (m, i) => ⟨slotOf i, m.entry, (initialContext sym m.stackBase m.stackSize).regs⟩

variable {sym : Symbols} {k k' k₀ : Kernel} {c : Sys} {a : Sched} {t : TaskRef} {roster : List Creation} {m : Creation}

/-! ## `create_kernel_task` -/

/-- The first empty slot. -/
theorem findEmpty_eq (ht : (k.tasks t).state = .empty) (hlt : ∀ u, u < t → (k.tasks u).state ≠ .empty) :
    TaskManager.findEmpty k = some t := by
  have hlen : t.val < (List.finRange kMaxTasks).length := by rw [List.length_finRange]; exact t.isLt
  refine List.find?_eq_some_iff_getElem.mpr ⟨decide_eq_true ht, t.val, hlen, ?_, ?_⟩
  · exact List.getElem_finRange _
  · intro j hj
    rw [List.getElem_finRange]
    simpa using hlt ⟨j, Nat.lt_trans hj t.isLt⟩ hj

theorem findEmpty_none (h : ∀ u, (k.tasks u).state ≠ .empty) : TaskManager.findEmpty k = none :=
  List.find?_eq_none.mpr fun u _ => by simpa using h u

/-- Before `start`, with the tasks of `roster` created and nobody switched out. -/
structure Enlisted (sym : Symbols) (c : Sys) (a : Sched) (roster : List Creation) : Prop where
  good : Good sym c a
  started : c.h.started = false
  saved : ∀ t, c.h.saved t = none
  room : roster.length ≤ kFreeSlots
  idle : ∃ m, c.h.made 0 = some m
  made : ∀ t : TaskRef, t ≠ 0 → c.h.made t = roster[t.val - 1]?
  entry : (c.k.tasks 0).entry = sym.idleTaskEntry

theorem Enlisted.empty_iff (h : Enlisted sym c a roster) (t : TaskRef) :
    (c.k.tasks t).state = .empty ↔ roster.length < t.val := by
  rw [h.good.stores.state, h.good.sane.empty_iff]
  by_cases ht : t = 0
  · obtain ⟨m, hm⟩ := h.idle
    rw [ht, hm]
    exact iff_of_false (Option.some_ne_none m) (Nat.not_lt_zero _)
  · have hpos : 0 < t.val := Nat.pos_of_ne_zero fun hz => ht (Fin.ext hz)
    rw [h.made t ht, List.getElem?_eq_none_iff]
    omega

theorem Enlisted.boot (sym : Symbols) (k : Kernel) : ∃ a, Enlisted sym (Sys.boot sym k) a [] ∧ a.ready = [] := by
  obtain ⟨a, hg⟩ := good_boot sym k
  have hready : a.ready = [] := queue_unique hg.stores.ring (listInit_ring NodeRef.head (TaskManager.init sym k).nodes)
  have hidle : (Sys.boot sym k).h.made 0 = some ⟨sym.idleTaskEntry, sym.idleStack, TaskManager.kIdleStackSize⟩ := by
    simp [Sys.boot]
  refine ⟨a, ⟨hg, rfl, fun _ => rfl, Nat.zero_le _, ⟨_, hidle⟩, fun t ht => ?_, (init_spec sym k).2.2.1⟩, hready⟩
  rw [List.getElem?_nil]
  show (if t = 0 then _ else none) = none
  exact if_neg ht

/-- The number that the next task gets, if there is room. -/
def nextSlot (roster : List Creation) (m : Creation) : Option TaskRef :=
  if m.Accepted ∧ roster.length < kFreeSlots then some (slotOf roster.length) else none

/-- **One `create_kernel_task`.** -/
theorem Enlisted.create (h : Enlisted sym c a roster) (m : Creation) : ∃ c' a',
    TaskManager.createKernelTask sym c.k m.entry m.stackBase m.stackSize = (nextSlot roster m, c'.k) ∧
      c.step sym (.create m.entry m.stackBase m.stackSize) = some c' ∧ Enlisted sym c' a' (enlist roster m) ∧
      a'.ready = a.ready ∧ c'.h.pushed = c.h.pushed := by
  have hg := h.good
  rcases hcall : TaskManager.createKernelTask sym c.k m.entry m.stackBase m.stackSize with ⟨t, k'⟩
  by_cases hok : m.Accepted ∧ roster.length < kFreeSlots
  · obtain ⟨⟨hbase, hsize⟩, hroom⟩ := hok
    have hval := slotOf_val hroom
    have hfind : TaskManager.findEmpty c.k = some (slotOf roster.length) := by
      refine findEmpty_eq ((h.empty_iff _).mpr (by omega)) fun u hu => mt (h.empty_iff u).mp ?_
      have hlt : u.val < (slotOf roster.length).val := hu
      omega
    have hguard : ¬ (m.stackBase = 0#64 ∨ m.stackSize = 0#64) := by rintro (hc | hc) <;> contradiction
    obtain rfl : t = some (slotOf roster.length) := by
      rw [TaskManager.createKernelTask, if_neg hguard, hfind] at hcall
      exact (Prod.mk.inj hcall).1.symm
    rw [nextSlot, enlist, if_pos ⟨⟨hbase, hsize⟩, hroom⟩, if_pos ⟨⟨hbase, hsize⟩, hroom⟩]
    have hc := createKernelTask_some hcall
    have hempty : a.state (slotOf roster.length) = .empty := (hg.stores.state _).symm.trans hc.before
    have hmade : c.h.made (slotOf roster.length) = none := (hg.sane.empty_iff _).mp hempty
    have hqueue : slotOf roster.length ∉ a.ready := fun hm =>
      (hg.sane.pushed_made _ (hg.sane.queued _ hm).1).2 hmade
    have hne : (0 : TaskRef) ≠ slotOf roster.length := by
      intro he
      rw [← he] at hval
      exact absurd hval (Nat.succ_ne_zero _).symm
    refine ⟨⟨k', c.h.create (slotOf roster.length) m⟩, a.mark (slotOf roster.length) .ready, rfl,
      by simp [Sys.step, hcall], ?_, rfl, rfl⟩
    refine ⟨⟨hg.stores.create hc hqueue, sane_create hg.sane hempty _, hg.alive, hg.kept.create hmade hc⟩, h.started,
      h.saved, by rw [List.length_append]; exact hroom, ?_, fun t ht => ?_, ?_⟩
    · obtain ⟨m₀, hm₀⟩ := h.idle
      exact ⟨m₀, by rw [History.create_made, if_neg hne]; exact hm₀⟩
    · have hpos : 0 < t.val := Nat.pos_of_ne_zero fun hz => ht (Fin.ext hz)
      rw [History.create_made]
      by_cases hs : t = slotOf roster.length
      · have hidx : t.val - 1 = roster.length := by rw [hs, hval, Nat.add_sub_cancel]
        rw [if_pos hs, hidx, List.getElem?_concat_length]
      · have hidx : t.val - 1 ≠ roster.length := fun he => hs (Fin.ext (by omega))
        rw [if_neg hs, h.made t ht]
        by_cases hlt : t.val - 1 < roster.length
        · rw [List.getElem?_append_left hlt]
        · rw [List.getElem?_eq_none (Nat.le_of_not_lt hlt), List.getElem?_eq_none]
          rw [List.length_append, List.length_singleton]
          omega
    · show (k'.tasks 0).entry = _
      rw [hc.others 0 hne, h.entry]
  · -- a null stack, or no slot
    obtain rfl : t = none := by
      unfold TaskManager.createKernelTask at hcall
      by_cases hguard : m.stackBase = 0#64 ∨ m.stackSize = 0#64
      · rw [if_pos hguard] at hcall
        exact (Prod.mk.inj hcall).1.symm
      · have hfull : TaskManager.findEmpty c.k = none := by
          refine findEmpty_none fun u => mt (h.empty_iff u).mp ?_
          have hroom : ¬ roster.length < kFreeSlots := fun hr => hok ⟨not_or.mp hguard, hr⟩
          have hu : u.val < kMaxTasks := u.isLt
          have hslots : kMaxTasks = kFreeSlots + 1 := rfl
          omega
        rw [if_neg hguard, hfull] at hcall
        exact (Prod.mk.inj hcall).1.symm
    obtain rfl := createKernelTask_none hcall
    rw [nextSlot, enlist, if_neg hok, if_neg hok]
    exact ⟨c, a, rfl, by simp [Sys.step, hcall], h, rfl, rfl⟩

theorem slots_succ (n : Nat) : slots (n + 1) = slots n ++ [slotOf n] := by
  rw [slots, List.range_succ, List.map_append]
  rfl

theorem slots_enlist (roster : List Creation) (m : Creation) :
    slots (enlist roster m).length = slots roster.length ++ (nextSlot roster m).toList := by
  unfold enlist nextSlot
  split
  · rw [List.length_append, List.length_singleton, slots_succ]
    rfl
  · exact (List.append_nil _).symm

/-- All of them. -/
theorem Enlisted.createAll : ∀ (ms : List Creation) {c : Sys} {a : Sched} {roster : List Creation},
    Enlisted sym c a roster → ∃ ts c' a', createTasks sym ms c.k = (ts, c'.k) ∧
      Reach (Sys.step sym) Sys.Permitted c c' ∧ Enlisted sym c' a' (ms.foldl enlist roster) ∧ a'.ready = a.ready ∧
      c'.h.pushed = c.h.pushed ∧ slots (ms.foldl enlist roster).length = slots roster.length ++ ts.filterMap id := by
  intro ms
  induction ms with
  | nil => exact fun {c a roster} h => ⟨[], c, a, rfl, Reach.refl, h, rfl, rfl, (List.append_nil _).symm⟩
  | cons m ms ih =>
      intro c a roster h
      obtain ⟨c₁, a₁, hcall, hstep, h₁, hready₁, hpushed₁⟩ := h.create m
      obtain ⟨ts, c', a', hcalls, hr, h', hready, hpushed, hslots⟩ := ih h₁
      refine ⟨nextSlot roster m :: ts, c', a', ?_, (Reach.single trivial hstep).trans hr, h', hready.trans hready₁,
        hpushed.trans hpushed₁, ?_⟩
      · simp only [createTasks, hcall, hcalls]
      · rw [List.foldl_cons, hslots, slots_enlist, List.append_assoc]
        congr 1
        cases hs : nextSlot roster m with
        | none => rfl
        | some t => rfl

/-! ## `RunQueue::push` -/

theorem Enlisted.push (h : Enlisted sym c a roster) (ht : t ≠ 0) (hroster : t.val ≤ roster.length)
    (hpush : c.h.pushed t = false) : ∃ c', RunQueue.push (some t) c.k = some (true, c'.k) ∧
      c.step sym (.push t) = some c' ∧ c.Permitted (.push t) ∧ Enlisted sym c' (a.push t) roster ∧
      ∀ u, c'.h.pushed u = if u = t then true else c.h.pushed u := by
  have hpos : 0 < t.val := Nat.pos_of_ne_zero fun hz => ht (Fin.ext hz)
  have hmade : c.h.made t ≠ none := by
    rw [h.made t ht, List.getElem?_eq_getElem (by omega)]
    exact Option.some_ne_none _
  obtain ⟨hqueue, hsane⟩ := sane_push h.good.sane ht hmade hpush
  obtain ⟨k', hcall, hstores, hs⟩ := runQueue_push h.good.stores hqueue
  refine ⟨⟨k', c.h.push t⟩, hcall, by simp [Sys.step, hcall], ⟨ht, Option.isSome_iff_ne_none.mpr hmade, hpush⟩,
    ⟨⟨hstores, hsane, h.good.alive, ?_⟩, h.started, h.saved, h.room, h.idle, h.made, ?_⟩, History.push_pushed c.h t⟩
  · exact h.good.kept.same hs (hstores.current.trans h.good.stores.current.symm) rfl rfl
  · exact (hs.entry 0).trans h.entry

/-- All of them; a null result is not pushed. -/
theorem Enlisted.pushAll : ∀ (ts : List (Option TaskRef)) {c : Sys} {a : Sched}, Enlisted sym c a roster →
    (∀ t, c.h.pushed t = true → t ∈ a.ready) → (∀ t ∈ ts.filterMap id, t ≠ 0 ∧ t.val ≤ roster.length) →
      (a.ready ++ ts.filterMap id).Nodup → ∃ c' a', pushTasks ts c.k = some c'.k ∧
        Reach (Sys.step sym) Sys.Permitted c c' ∧ Enlisted sym c' a' roster ∧
        a'.ready = a.ready ++ ts.filterMap id := by
  intro ts
  induction ts with
  | nil => exact fun {c a} h _ _ _ => ⟨c, a, rfl, Reach.refl, h, (List.append_nil _).symm⟩
  | cons t ts ih =>
      intro c a h hpushed hts hnd
      cases t with
      | none =>
          obtain ⟨c', a', hcalls, hr, h', hready⟩ := ih h hpushed hts hnd
          exact ⟨c', a', hcalls, hr, h', hready⟩
      | some t =>
          have hsplit : a.ready ++ (some t :: ts).filterMap id = (a.ready ++ [t]) ++ ts.filterMap id :=
            (List.append_assoc a.ready [t] _).symm
          rw [hsplit] at hnd ⊢
          obtain ⟨ht, hroster⟩ := hts t List.mem_cons_self
          -- `t` is not queued yet, so it was not pushed yet
          have hnot : c.h.pushed t = false := by
            by_contra hc
            have hmem := hpushed t (Bool.not_eq_false _ ▸ hc)
            exact (List.nodup_append.mp (List.nodup_append.mp hnd).1).2.2 t hmem t List.mem_cons_self rfl
          obtain ⟨c₁, hcall, hstep, hok, h₁, hpushed₁⟩ := h.push ht hroster hnot
          obtain ⟨c', a', hcalls, hr, h', hready⟩ := ih h₁ (fun u hu => by
            rw [hpushed₁] at hu
            by_cases he : u = t
            · exact Sched.mem_push.mpr (Or.inr he)
            · rw [if_neg he] at hu
              exact Sched.mem_push.mpr (Or.inl (hpushed u hu)))
            (fun u hu => hts u (List.mem_cons_of_mem t hu)) hnd
          exact ⟨c', a', by simp [pushTasks, hcall, hcalls], (Reach.single hok hstep).trans hr, h', hready⟩

/-! ## `start` -/

/-- Output changes nothing of this. -/
theorem Enlisted.print (h : Enlisted sym c a roster) (out : Drivers.Uart) :
    Enlisted sym ⟨c.k.print out, c.h⟩ a roster :=
  { h with good := h.good.print out }

theorem mem_slots {n : Nat} (hn : n ≤ kFreeSlots) {t : TaskRef} (ht : t ∈ slots n) : t ≠ 0 ∧ t.val ≤ n := by
  obtain ⟨i, hi, rfl⟩ := List.mem_map.mp ht
  have hlt := List.mem_range.mp hi
  have hval := slotOf_val (Nat.lt_of_lt_of_le hlt hn)
  refine ⟨fun hz => ?_, by omega⟩
  rw [hz] at hval
  exact absurd hval (Nat.succ_ne_zero i).symm

theorem slots_nodup {n : Nat} (hn : n ≤ kFreeSlots) : (slots n).Nodup := by
  refine List.Nodup.map_on (fun i hi j hj he => ?_) List.nodup_range
  have hval := congrArg Fin.val he
  rw [slotOf_val (Nat.lt_of_lt_of_le (List.mem_range.mp hi) hn),
    slotOf_val (Nat.lt_of_lt_of_le (List.mem_range.mp hj) hn)] at hval
  exact Nat.succ.inj hval

theorem Enlisted.current (h : Enlisted sym c a roster) : a.current = none := by
  by_contra hc
  have hst := h.good.sane.started.mpr hc
  rw [h.started] at hst
  exact Bool.false_ne_true hst

/-- Nobody has run, so everybody stands at the beginning. -/
theorem Enlisted.fresh (h : Enlisted sym c a roster) :
    (slots roster.length).map (standing c.k) = freshThreads sym roster := by
  refine List.ext_getElem (by simp [slots, freshThreads]) fun i hi hi' => ?_
  have hlt : i < roster.length := by simpa [slots] using hi
  have hval := slotOf_val (Nat.lt_of_lt_of_le hlt h.room)
  have hne : slotOf i ≠ 0 := fun hz => by rw [hz] at hval; exact absurd hval (Nat.succ_ne_zero i).symm
  have hmade : c.h.made (slotOf i) = some roster[i] := by
    rw [h.made _ hne, hval, Nat.add_sub_cancel, List.getElem?_eq_getElem hlt]
  have hk : c.k.sCurrent ≠ some (slotOf i) := by
    rw [h.good.stores.current, h.current]
    exact (Option.some_ne_none _).symm
  have hentry := h.good.kept.entry _ _ hmade
  have hctx := h.good.kept.fresh _ _ hmade (h.saved _)
  simp only [slots, freshThreads, List.getElem_map, List.getElem_range, List.getElem_zipIdx, Nat.zero_add]
  rw [standing_other hk, hentry, hctx]

/-- **`start`** shows the pool of those who wait. -/
theorem Enlisted.start (h : Enlisted sym c a roster) : ∃ c', Scheduler.start c.k = some c'.k ∧
    c.step sym .start = some c' ∧ c'.h.started = true ∧ Stands sym c' (Pool.next (a.ready.map (standing c.k))) := by
  have hcur : c.k.sCurrent = none := h.good.stores.current.trans h.current
  obtain ⟨k', hstart, _, hsw⟩ := start_stores h.good.stores
  obtain ⟨c', hstep, hg', _⟩ := h.good.start h.started
  obtain rfl : c' = ⟨k', c.h.start⟩ := by
    have hsame : c.step sym .start = some ⟨k', c.h.start⟩ := by simp [Sys.step, hstart]
    exact Option.some.inj (hstep.symm.trans hsame)
  have hcur' : k'.sCurrent = some a.pick := hg'.stores.current
  refine ⟨_, hstart, hstep, rfl, a.pop.run a.pick, a.pick, hg', rfl, (hsw.entry 0).trans h.entry, ?_⟩
  rw [← standing_switch hsw hcur hcur']
  exact (poolOf_next k' rfl fun t ht => h.good.sane.queued_ne_zero ht).symm

/-- **From boot to the end.** Whatever list of tasks is given to the kernel: those with a stack are started, in this
    order, as many as there are slots, each at the beginning of its entry; and from then on, whatever they run and
    wherever the timer interrupts it, the kernel runs them as the pool does. -/
theorem launched_tasks_run (sym : Symbols) (ms : List Creation) (k₀ : Kernel) (text : Image) (timer : KernelTimer)
    (mstatus : Word) : ∃ c, launch sym ms k₀ = some c.k ∧
      Reach (Sys.step sym) Sys.Permitted (Sys.boot sym k₀) c ∧
      Shows c.k (Pool.next (freshThreads sym (enlisted ms))) ∧
      ∀ moments, ∃ said s', trace (Moment.call sym text) ⟨c, timer, mstatus⟩ moments = some (said, s') ∧
        said.flatten = (Pool.steps (Thread.act (image sym text)) (Moment.statements moments)
          (Pool.next (freshThreads sym (enlisted ms)))).1 ∧
        Shows s'.sys.k (Pool.steps (Thread.act (image sym text)) (Moment.statements moments)
          (Pool.next (freshThreads sym (enlisted ms)))).2 := by
  obtain ⟨a₀, h₀, hready₀⟩ := Enlisted.boot sym k₀
  obtain ⟨ts, c₁, a₁, hcreate, hr₁, h₁, hready₁, hpushed₁, hslots⟩ := h₀.createAll ms
  have hroster : ms.foldl enlist [] = enlisted ms := (foldl_enlist ms [] (Nat.zero_le _)).trans rfl
  rw [hroster] at h₁ hslots
  have hts : ts.filterMap id = slots (enlisted ms).length := hslots.symm
  obtain ⟨c₂, a₂, hpush, hr₂, h₂, hready₂⟩ := h₁.pushAll ts
    (fun t ht => by rw [hpushed₁] at ht; exact absurd ht Bool.false_ne_true)
    (fun t ht => mem_slots h₁.room (hts ▸ ht))
    (by rw [hready₁, hready₀, hts]; exact slots_nodup h₁.room)
  rw [hready₁, hready₀, List.nil_append, hts] at hready₂
  obtain ⟨c, hstart, hstep, _, hstands⟩ := h₂.start
  rw [hready₂, h₂.fresh] at hstands
  have hok : c₂.Permitted .start := h₂.started
  refine ⟨c, ?_, (hr₁.trans hr₂).tail hok hstep, hstands.shows, fun moments => ?_⟩
  · have hboot : bootstrapScheduler sym k₀ = (Sys.boot sym k₀).k := rfl
    simp only [launch, hboot, hcreate]
    rw [hpush]
    exact hstart
  · obtain ⟨said, s', htrace, hsaid, h'⟩ := @Stands.run sym text moments ⟨c, timer, mstatus⟩ _ hstands
    exact ⟨said, s', htrace, hsaid, h'.shows⟩

end Core
end RiscCore
