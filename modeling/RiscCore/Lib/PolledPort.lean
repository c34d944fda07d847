import Mathlib.Data.List.Basic
import Mathlib.Tactic.Common

/-!
# `Lib.PolledPort` — a port that is polled before it is written

`Port` holds one item and shifts it out when it pleases; a write to a full port destroys what it holds. A `Writer`
looks first whether the port is empty and writes then. On a `Line` the main writer may be interrupted at any time
by a handler that writes to the same port.

Items are lost in one way only: the interruption falls between the look and the write (`Hit`), and the handler's last
item is still there when the main writer goes on. `lost_le_hits` counts, `loses_iff` is exact, and `finishes` says
that both writers come to their end if the port goes on shifting.
-/

namespace PolledPort

variable {β : Type}

/-- The port, with what has left it and what was overwritten. -/
structure Port (β : Type) where
  holding : Option β
  wire : List β
  lost : List β
deriving DecidableEq

namespace Port

def ready (p : Port β) : Bool := p.holding.isNone

def shift (p : Port β) : Port β := { p with holding := none, wire := p.wire ++ p.holding.toList }

def write (p : Port β) (b : β) : Port β := { p with holding := some b, lost := p.lost ++ p.holding.toList }

end Port

/-- What is left to write. `armed`: the port was empty when the writer looked, and the write comes next. -/
structure Writer (β : Type) where
  todo : List β
  armed : Bool
deriving DecidableEq

/-- `sent` has everything that was written, in order. -/
structure Line (β : Type) where
  port : Port β
  sent : List β
  main : Writer β
  handler : Writer β
deriving DecidableEq

inductive Event (β : Type) where
  | shift
  | turn
  | interrupt (text : List β)
deriving DecidableEq

namespace Line

/-- The handler takes its next step; `b` is its next item. -/
def handlerTurn (l : Line β) (b : β) (rest : List β) : Line β :=
  if l.handler.armed then
    { l with port := l.port.write b, sent := l.sent ++ [b], handler := ⟨rest, false⟩ }
  else
    { l with handler := ⟨b :: rest, l.port.ready⟩ }

/-- The main writer does. -/
def mainTurn (l : Line β) (b : β) (rest : List β) : Line β :=
  if l.main.armed then
    { l with port := l.port.write b, sent := l.sent ++ [b], main := ⟨rest, false⟩ }
  else
    { l with main := ⟨b :: rest, l.port.ready⟩ }

/-- The main writer waits while the handler has something to write, and the handler is not interrupted. -/
def step (l : Line β) : Event β → Line β
  | .shift => { l with port := l.port.shift }
  | .turn =>
    match l.handler.todo, l.main.todo with
    | b :: rest, _ => l.handlerTurn b rest
    | [], b :: rest => l.mainTurn b rest
    | [], [] => l
  | .interrupt text =>
    match l.handler.todo with
    | _ :: _ => l
    | [] => { l with handler := ⟨text, false⟩ }

def run (l : Line β) (es : List (Event β)) : Line β := es.foldl step l

end Line

variable {l l' : Line β} {e : Event β}

@[simp] theorem run_nil (l : Line β) : l.run [] = l := rfl

@[simp] theorem run_cons (l : Line β) (e : Event β) (es : List (Event β)) : l.run (e :: es) = (l.step e).run es := rfl

theorem run_append (l : Line β) (es es' : List (Event β)) : l.run (es ++ es') = (l.run es).run es' :=
  List.foldl_append

/-! ## What a step can do -/

/-- **The seven things that happen.** -/
inductive Line.Moves (l : Line β) : Event β → Line β → Prop where
  | shift : Moves l .shift { l with port := l.port.shift }
  | handlerLooks {b : β} {rest : List β} (htodo : l.handler.todo = b :: rest) (harmed : l.handler.armed = false) :
      Moves l .turn { l with handler := ⟨b :: rest, l.port.ready⟩ }
  | handlerWrites {b : β} {rest : List β} (htodo : l.handler.todo = b :: rest) (harmed : l.handler.armed = true) :
      Moves l .turn { l with port := l.port.write b, sent := l.sent ++ [b], handler := ⟨rest, false⟩ }
  | mainLooks {b : β} {rest : List β} (hidle : l.handler.todo = []) (htodo : l.main.todo = b :: rest)
      (harmed : l.main.armed = false) :
      Moves l .turn { l with main := ⟨b :: rest, l.port.ready⟩ }
  | mainWrites {b : β} {rest : List β} (hidle : l.handler.todo = []) (htodo : l.main.todo = b :: rest)
      (harmed : l.main.armed = true) :
      Moves l .turn { l with port := l.port.write b, sent := l.sent ++ [b], main := ⟨rest, false⟩ }
  | interrupted {text : List β} (hidle : l.handler.todo = []) :
      Moves l (.interrupt text) { l with handler := ⟨text, false⟩ }
  /-- Nothing is left to write, or the handler is running already. -/
  | stays {e : Event β} (hne : e ≠ .shift) (hturn : e = .turn → l.handler.todo = [] ∧ l.main.todo = [])
      (hint : ∀ text, e = .interrupt text → l.handler.todo ≠ []) : Moves l e l

theorem Line.step_moves (l : Line β) (e : Event β) : l.Moves e (l.step e) := by
  cases e with
  | shift => exact Moves.shift
  | turn =>
      unfold Line.step
      cases hh : l.handler.todo with
      | cons b rest =>
          show l.Moves _ (l.handlerTurn b rest)
          unfold Line.handlerTurn
          cases ha : l.handler.armed with
          | true => exact Moves.handlerWrites hh ha
          | false => exact Moves.handlerLooks hh ha
      | nil =>
          cases hm : l.main.todo with
          | cons b rest =>
              show l.Moves _ (l.mainTurn b rest)
              unfold Line.mainTurn
              cases ha : l.main.armed with
              | true => exact Moves.mainWrites hh hm ha
              | false => exact Moves.mainLooks hh hm ha
          | nil => exact Moves.stays (fun he => by cases he) (fun _ => ⟨hh, hm⟩) (fun _ he => by cases he)
  | interrupt text =>
      unfold Line.step
      cases hh : l.handler.todo with
      | nil => exact Moves.interrupted hh
      | cons b rest =>
          exact Moves.stays (fun he => by cases he) (fun he => by cases he)
            (fun _ _ => by rw [hh]; exact List.cons_ne_nil b rest)

/-! ## What is lost -/

/-- The main writer has looked, and the port is or will be full when it goes on. -/
def Line.exposed (l : Line β) : Bool := l.main.armed && (!l.handler.todo.isEmpty || l.port.holding.isSome)

/-- An interruption between the look and the write, by a handler that writes. -/
def Line.hit (l : Line β) : Event β → Bool
  | .shift => false
  | .turn => false
  | .interrupt text => l.main.armed && l.handler.todo.isEmpty && !text.isEmpty

/-- How many there are in a run. -/
def Line.hits : Line β → List (Event β) → Nat
  | _, [] => 0
  | l, e :: es => (l.hit e).toNat + Line.hits (l.step e) es

/-- **The invariant.** -/
structure Line.Sound (l : Line β) : Prop where
  main : l.main.armed = true → l.main.todo ≠ []
  handler : l.handler.armed = true → l.handler.todo ≠ [] ∧ l.port.holding = none
  complete : l.sent.Perm (l.port.wire ++ l.port.holding.toList ++ l.port.lost)
  order : (l.port.wire ++ l.port.holding.toList).Sublist l.sent

/-- A write adds to what was sent, and to what is out, in the port or lost. -/
theorem Line.Sound.written (h : l.Sound) (b : β) :
    (l.sent ++ [b]).Perm ((l.port.write b).wire ++ (l.port.write b).holding.toList ++ (l.port.write b).lost) ∧
      ((l.port.write b).wire ++ (l.port.write b).holding.toList).Sublist (l.sent ++ [b]) := by
  constructor
  · have hmove : (l.port.wire ++ l.port.holding.toList ++ l.port.lost ++ [b]).Perm
        (l.port.wire ++ [b] ++ (l.port.lost ++ l.port.holding.toList)) := by
      rw [List.append_assoc, List.append_assoc, List.append_assoc]
      refine List.Perm.append_left _ ?_
      have hswap : (l.port.lost ++ [b] ++ l.port.holding.toList).Perm ([b] ++ l.port.lost ++ l.port.holding.toList) :=
        List.perm_append_comm.append_right _
      exact List.perm_append_comm.trans (hswap.trans (by rw [List.append_assoc]))
    exact (h.complete.append_right [b]).trans hmove
  · exact ((List.sublist_append_left _ _).trans h.order).append (List.Sublist.refl [b])

theorem Line.Sound.step (h : l.Sound) (e : Event β) : (l.step e).Sound := by
  have hmoves := l.step_moves e
  generalize l.step e = l' at hmoves ⊢
  cases hmoves with
  | shift =>
      refine ⟨h.main, fun ha => ⟨(h.handler ha).1, rfl⟩, ?_, ?_⟩
      · simpa [Port.shift] using h.complete
      · simpa [Port.shift] using h.order
  | handlerLooks htodo harmed =>
      exact ⟨h.main, fun ha => ⟨List.cons_ne_nil _ _, Option.isNone_iff_eq_none.mp ha⟩, h.complete, h.order⟩
  | handlerWrites htodo harmed =>
      obtain ⟨hcomplete, horder⟩ := h.written _
      exact ⟨h.main, fun ha => absurd ha Bool.false_ne_true, hcomplete, horder⟩
  | mainLooks hidle htodo harmed => exact ⟨fun _ => List.cons_ne_nil _ _, h.handler, h.complete, h.order⟩
  | mainWrites hidle htodo harmed =>
      obtain ⟨hcomplete, horder⟩ := h.written _
      exact ⟨fun ha => absurd ha Bool.false_ne_true, fun ha => absurd hidle (h.handler ha).1, hcomplete, horder⟩
  | interrupted hidle => exact ⟨h.main, fun ha => absurd ha Bool.false_ne_true, h.complete, h.order⟩
  | stays => exact h

theorem Line.Sound.run (h : l.Sound) (es : List (Event β)) : (l.run es).Sound := by
  induction es generalizing l with
  | nil => exact h
  | cons e es ih => exact ih (h.step e)

/-- **Step lemma.** A write loses an item only where the line was exposed, and only a hit exposes it. -/
theorem Line.Sound.count (h : l.Sound) (e : Event β) :
    (l.step e).port.lost.length + (l.step e).exposed.toNat ≤
      l.port.lost.length + l.exposed.toNat + (l.hit e).toNat := by
  have hmoves := l.step_moves e
  generalize l.step e = l' at hmoves ⊢
  cases hmoves with
  | shift => cases ha : l.main.armed <;> cases hp : l.port.holding <;> cases ht : l.handler.todo <;>
      simp [Line.exposed, Line.hit, Port.shift, ha, hp, ht]
  | handlerLooks htodo harmed => simp [Line.exposed, Line.hit, htodo]
  | handlerWrites htodo harmed =>
      simp [Line.exposed, Line.hit, htodo, Port.write, (h.handler harmed).2]
  | mainLooks hidle htodo harmed =>
      cases hp : l.port.holding <;> simp [Line.exposed, Line.hit, Port.ready, hidle, harmed, hp]
  | mainWrites hidle htodo harmed =>
      cases hp : l.port.holding <;> simp [Line.exposed, Line.hit, Port.write, hidle, harmed, hp]
  | @interrupted text hidle =>
      cases ha : l.main.armed <;> cases hp : l.port.holding <;> cases text <;>
        simp [Line.exposed, Line.hit, hidle, ha, hp]
  | stays => omega

/-- **Run lemma.** -/
theorem Line.Sound.lost_le (h : l.Sound) (es : List (Event β)) :
    (l.run es).port.lost.length + (l.run es).exposed.toNat ≤ l.port.lost.length + l.exposed.toNat + l.hits es := by
  induction es generalizing l with
  | nil => exact Nat.le_refl _
  | cons e es ih =>
      have hrest := ih (h.step e)
      have hfirst := h.count e
      rw [run_cons, Line.hits]
      omega

/-- A run without interruptions. -/
def Quiet (es : List (Event β)) : Prop := ∀ e ∈ es, ∀ text, e ≠ .interrupt text

theorem Quiet.nil : Quiet ([] : List (Event β)) := fun _ he => absurd he List.not_mem_nil

theorem Quiet.head {es : List (Event β)} (h : Quiet (e :: es)) (text : List β) : e ≠ .interrupt text :=
  h e List.mem_cons_self text

theorem Quiet.tail {es : List (Event β)} (h : Quiet (e :: es)) : Quiet es :=
  fun e' he => h e' (List.mem_cons_of_mem e he)

theorem Quiet.append {es es' : List (Event β)} (h : Quiet es) (h' : Quiet es') : Quiet (es ++ es') :=
  fun e he => (List.mem_append.mp he).elim (h e) (h' e)

theorem Quiet.hits {es : List (Event β)} (h : Quiet es) (l : Line β) : l.hits es = 0 := by
  induction es generalizing l with
  | nil => rfl
  | cons e es ih =>
      have hhit : l.hit e = false := by
        cases e with
        | shift => rfl
        | turn => rfl
        | interrupt text => exact absurd rfl (h.head text)
      rw [Line.hits, hhit, ih h.tail]
      rfl

/-- Nothing is ever taken back. -/
theorem lost_grows (l : Line β) (es : List (Event β)) : l.port.lost <+: (l.run es).port.lost := by
  induction es generalizing l with
  | nil => exact List.prefix_refl _
  | cons e es ih =>
      refine List.IsPrefix.trans ?_ (ih (l.step e))
      have hmoves := l.step_moves e
      generalize l.step e = l' at hmoves ⊢
      cases hmoves with
      | handlerWrites => exact List.prefix_append _ _
      | mainWrites => exact List.prefix_append _ _
      | _ => exact List.prefix_refl _

/-- The handler can come to its end, with its last item still in the port. -/
theorem handler_ends : ∀ (n : Nat) {l : Line β}, l.handler.todo.length = n + 1 → ∃ es, Quiet es ∧
    (l.run es).handler.todo = [] ∧ (l.run es).main = l.main ∧ (l.run es).port.holding.isSome = true := by
  intro n
  induction n with
  | zero =>
      intro l hlen
      obtain ⟨b, hb⟩ := List.length_eq_one_iff.mp hlen
      cases ha : l.handler.armed with
      | true =>
          refine ⟨[.turn], ?_, ?_⟩
          · simp [Quiet]
          · simp [Line.step, Line.handlerTurn, Port.write, hb, ha]
      | false =>
          refine ⟨[.shift, .turn, .turn], ?_, ?_⟩
          · simp [Quiet]
          · simp [Line.step, Line.handlerTurn, Port.write, Port.shift, Port.ready, hb, ha]
  | succ n ih =>
      intro l hlen
      obtain ⟨b, rest, hb⟩ := List.exists_cons_of_length_eq_add_one hlen
      have hrest : rest.length = n + 1 := by
        rw [hb, List.length_cons] at hlen
        exact Nat.succ.inj hlen
      cases ha : l.handler.armed with
      | true =>
          have hnext : (l.step .turn).handler.todo = rest ∧ (l.step .turn).main = l.main := by
            simp [Line.step, Line.handlerTurn, hb, ha]
          obtain ⟨es, hquiet, hend, hmain, hfull⟩ := ih (hnext.1 ▸ hrest)
          refine ⟨.turn :: es, ?_, hend, hmain.trans hnext.2, hfull⟩
          have hturn : Quiet ([.turn] : List (Event β)) := by simp [Quiet]
          exact hturn.append hquiet
      | false =>
          have hnext : (l.run [.shift, .turn, .turn]).handler.todo = rest ∧
              (l.run [.shift, .turn, .turn]).main = l.main := by
            simp [Line.step, Line.handlerTurn, Port.write, Port.shift, Port.ready, hb, ha]
          obtain ⟨es, hquiet, hend, hmain, hfull⟩ := ih (hnext.1 ▸ hrest)
          refine ⟨[.shift, .turn, .turn] ++ es, ?_, ?_⟩
          · exact Quiet.append (by simp [Quiet]) hquiet
          · rw [run_append]
            exact ⟨hend, hmain.trans hnext.2, hfull⟩

/-- **When items are lost.** From here on and without another interruption: one at most, and one only if the line is
exposed. -/
theorem Line.Sound.loses_iff (h : l.Sound) :
    (∃ es, Quiet es ∧ (l.run es).port.lost ≠ l.port.lost) ↔ l.exposed = true := by
  constructor
  · rintro ⟨es, hquiet, hne⟩
    by_contra hsafe
    have hcount := h.lost_le es
    rw [hquiet.hits, Bool.eq_false_iff.mpr hsafe, Bool.toNat_false] at hcount
    exact hne (((lost_grows l es).eq_of_length_le (by omega)).symm)
  · intro hexp
    obtain ⟨harmed, hor⟩ := Bool.and_eq_true_iff.mp hexp
    obtain ⟨b, rest, htodo⟩ := List.exists_cons_of_ne_nil (h.main harmed)
    -- first the handler, if there is one, then the write that does not look again
    have hready : ∃ es, Quiet es ∧ (l.run es).handler.todo = [] ∧ (l.run es).main = l.main ∧
        (l.run es).port.holding.isSome = true := by
      cases hh : l.handler.todo with
      | nil =>
          refine ⟨[], Quiet.nil, hh, rfl, ?_⟩
          rw [hh] at hor
          exact hor
      | cons c more => exact handler_ends more.length (by rw [hh, List.length_cons])
    obtain ⟨es, hquiet, hidle, hmain, hfull⟩ := hready
    obtain ⟨c, hc⟩ := Option.isSome_iff_exists.mp hfull
    refine ⟨es ++ [.turn], hquiet.append (by simp [Quiet]), fun heq => ?_⟩
    have hlast : ((l.run es).step .turn).port.lost = (l.run es).port.lost ++ [c] := by
      simp [Line.step, Line.mainTurn, Port.write, hidle, hmain, htodo, harmed, hc]
    rw [run_append, run_cons, run_nil, hlast] at heq
    have hlen := congrArg List.length heq
    have hle := (lost_grows l es).length_le
    rw [List.length_append, List.length_singleton] at hlen
    omega

/-! ## That it comes to its end -/

/-- What is left to write, in the order in which it will be written. -/
def Line.pending (l : Line β) : List β := l.handler.todo ++ l.main.todo

/-- Whoever is next has looked already. -/
def Line.armed (l : Line β) : Bool :=
  match l.handler.todo with
  | _ :: _ => l.handler.armed
  | [] => l.main.armed

/-- Without interruptions everything is written in this order. -/
theorem quiet_step (l : Line β) (hquiet : ∀ text, e ≠ .interrupt text) :
    (l.step e).sent ++ (l.step e).pending = l.sent ++ l.pending := by
  have hmoves := l.step_moves e
  generalize l.step e = l' at hmoves ⊢
  cases hmoves with
  | shift => rfl
  | handlerLooks htodo => simp [Line.pending, htodo]
  | handlerWrites htodo => simp [Line.pending, htodo]
  | mainLooks hidle htodo => simp [Line.pending, hidle, htodo]
  | mainWrites hidle htodo => simp [Line.pending, hidle, htodo]
  | interrupted => exact absurd rfl (hquiet _)
  | stays => rfl

theorem quiet_run {es : List (Event β)} (hquiet : Quiet es) (l : Line β) :
    (l.run es).sent ++ (l.run es).pending = l.sent ++ l.pending := by
  induction es generalizing l with
  | nil => rfl
  | cons e es ih => exact (ih hquiet.tail _).trans (quiet_step l hquiet.head)

theorem sent_grows (l : Line β) (es : List (Event β)) : l.sent <+: (l.run es).sent := by
  induction es generalizing l with
  | nil => exact List.prefix_refl _
  | cons e es ih =>
      refine List.IsPrefix.trans ?_ (ih (l.step e))
      have hmoves := l.step_moves e
      generalize l.step e = l' at hmoves ⊢
      cases hmoves with
      | handlerWrites => exact List.prefix_append _ _
      | mainWrites => exact List.prefix_append _ _
      | _ => exact List.prefix_refl _

/-- How many steps the writers are given. -/
def turns : List (Event β) → Nat
  | [] => 0
  | .turn :: es => turns es + 1
  | .shift :: es => turns es
  | .interrupt _ :: es => turns es

/-- Two turns after a shift are enough for one item. -/
theorem one_written : ∀ (es : List (Event β)) {l : Line β}, Quiet es → l.port.holding = none → l.pending ≠ [] →
    2 ≤ turns es + l.armed.toNat → l.sent.length < (l.run es).sent.length := by
  intro es
  induction es with
  | nil =>
      intro l _ _ _ hturns
      have := Bool.toNat_le l.armed
      simp only [turns] at hturns
      omega
  | cons e es ih =>
      intro l hquiet hempty hpending hturns
      have hkeep := (sent_grows (l.step e) es).length_le
      have hmoves := l.step_moves e
      rw [run_cons]
      cases e with
      | interrupt text => exact absurd rfl (hquiet.head text)
      | shift => exact ih (l := l.step .shift) hquiet.tail rfl hpending hturns
      | turn =>
          rw [turns] at hturns
          generalize l.step .turn = l' at hmoves hkeep ⊢
          cases hmoves with
          | handlerWrites htodo harmed =>
              rw [List.length_append, List.length_singleton] at hkeep
              exact hkeep
          | mainWrites hidle htodo harmed =>
              rw [List.length_append, List.length_singleton] at hkeep
              exact hkeep
          | @handlerLooks b rest htodo harmed =>
              have hready : l.port.ready = true := by rw [Port.ready, hempty]; rfl
              refine ih (l := { l with handler := ⟨b :: rest, l.port.ready⟩ }) hquiet.tail hempty
                (by simp [Line.pending]) ?_
              have harmed' : l.armed = false := by simp [Line.armed, htodo, harmed]
              rw [harmed'] at hturns
              simpa [Line.armed, hready] using hturns
          | @mainLooks b rest hidle htodo harmed =>
              have hready : l.port.ready = true := by rw [Port.ready, hempty]; rfl
              refine ih (l := { l with main := ⟨b :: rest, l.port.ready⟩ }) hquiet.tail hempty
                (by simp [Line.pending]) ?_
              have harmed' : l.armed = false := by simp [Line.armed, hidle, harmed]
              rw [harmed'] at hturns
              simpa [Line.armed, hidle, hready] using hturns
          | stays _ hturn _ => exact absurd (by simp [Line.pending, hturn rfl]) hpending

/-- `n` times, the port shifts and then the writers are given two turns at least. -/
inductive Serves : Nat → List (Event β) → Prop where
  | zero (es : List (Event β)) : Serves 0 es
  | succ {n : Nat} {block es : List (Event β)} (hturns : 2 ≤ turns block) (hrest : Serves n es) :
      Serves (n + 1) (.shift :: block ++ es)

/-- **Both writers come to their end**, if the port shifts often enough. -/
theorem finishes {n : Nat} {es : List (Event β)} (hserves : Serves n es) (hquiet : Quiet es) (l : Line β)
    (hn : l.pending.length ≤ n) : (l.run es).pending = [] ∧ (l.run es).sent = l.sent ++ l.pending := by
  have hrun := quiet_run hquiet l
  have hdone : (l.run es).pending = [] := by
    induction hserves generalizing l with
    | zero es =>
        have hnil := List.length_eq_zero_iff.mp (Nat.le_zero.mp hn)
        rw [hnil, List.append_nil] at hrun
        obtain ⟨more, hmore⟩ := sent_grows l es
        rw [← hmore, List.append_assoc] at hrun
        have htail := List.append_cancel_left (hrun.trans (List.append_nil _).symm)
        exact (List.append_eq_nil_iff.mp htail).2
    | @succ n block es hturns hrest ih =>
        have hfirst : Quiet (.shift :: block) := fun e he => hquiet e (List.mem_append_left es he)
        have hlast : Quiet es := fun e he => hquiet e (List.mem_append_right _ he)
        rw [run_append] at hrun ⊢
        refine ih hlast _ ?_ (quiet_run hlast _)
        have hblock := congrArg List.length (quiet_run hfirst l)
        rw [List.length_append, List.length_append] at hblock
        by_cases hnil : l.pending = []
        · have hkeep := (sent_grows l (.shift :: block)).length_le
          rw [hnil, List.length_nil] at hblock
          omega
        · have hone := one_written block (l := l.step .shift) hfirst.tail rfl hnil (by omega)
          rw [run_cons] at hblock ⊢
          have hsame : (l.step .shift).sent = l.sent := rfl
          rw [hsame] at hone
          omega
  refine ⟨hdone, ?_⟩
  rw [hdone, List.append_nil] at hrun
  exact hrun

/-! ## What interruptions add -/

/-- The text of this interruption, if it is taken. -/
def Line.takes (l : Line β) : Event β → List β
  | .shift => []
  | .turn => []
  | .interrupt text => if l.handler.todo.isEmpty then text else []

/-- The texts of all that are taken in a run. -/
def Line.taken : Line β → List (Event β) → List β
  | _, [] => []
  | l, e :: es => l.takes e ++ Line.taken (l.step e) es

theorem taken_step (l : Line β) (e : Event β) :
    ((l.step e).sent ++ (l.step e).pending).Perm (l.sent ++ l.pending ++ l.takes e) := by
  cases e with
  | shift => rw [Line.takes, List.append_nil]; rfl
  | turn =>
      have hsame := quiet_step l (e := .turn) fun text he => by cases he
      rw [Line.takes, List.append_nil, hsame]
  | interrupt text =>
      cases hidle : l.handler.todo with
      | nil =>
          have hstep : l.step (.interrupt text) = { l with handler := ⟨text, false⟩ } := by simp [Line.step, hidle]
          have htakes : l.takes (.interrupt text) = text := by simp [Line.takes, hidle]
          rw [hstep, htakes, Line.pending, Line.pending, hidle, List.nil_append, List.append_assoc]
          exact List.Perm.append_left _ List.perm_append_comm
      | cons b rest =>
          have hstep : l.step (.interrupt text) = l := by simp [Line.step, hidle]
          have htakes : l.takes (.interrupt text) = [] := by simp [Line.takes, hidle]
          rw [hstep, htakes, List.append_nil]

/-- **Everything is written once**, by whoever had to write it. -/
theorem taken_run (l : Line β) (es : List (Event β)) :
    ((l.run es).sent ++ (l.run es).pending).Perm (l.sent ++ l.pending ++ l.taken es) := by
  induction es generalizing l with
  | nil => rw [Line.taken, List.append_nil]; rfl
  | cons e es ih =>
      rw [Line.taken, ← List.append_assoc]
      exact (ih (l.step e)).trans ((taken_step l e).append_right _)

/-- **The main writer's items stay in order.** -/
theorem main_in_order (l : Line β) (es : List (Event β)) :
    (l.sent ++ l.main.todo).Sublist ((l.run es).sent ++ (l.run es).main.todo) := by
  induction es generalizing l with
  | nil => exact List.Sublist.refl _
  | cons e es ih =>
      refine List.Sublist.trans ?_ (ih (l.step e))
      have hmoves := l.step_moves e
      generalize l.step e = l' at hmoves ⊢
      cases hmoves with
      | handlerWrites =>
          exact (List.sublist_append_left _ _).append (List.Sublist.refl _)
      | mainWrites hidle htodo => simp [htodo]
      | mainLooks hidle htodo => simp [htodo]
      | _ => exact List.Sublist.refl _

end PolledPort
