import RiscCore.Drivers.Uart
import RiscCore.Lib.PolledPort

/-!
# `Drivers.UartPort` — the registers behind `putc_raw` (`drivers/uart/uart.cpp`)

`Drivers.Uart` takes the transmitter to become ready and appends. Here the transmitter is a device that shifts its
byte out when it pleases, `putc_raw` is its loop and its store, and between any two of these a timer interrupt may
come, whose handler prints through the same registers.

`step_line` says that this is a line of `Lib.PolledPort`, and the rest is read off there: what becomes of the bytes
(`serial_output`), when one is overrun (`overrun_iff`), and that the wire carries what `Drivers.Uart` says
(`calls_delivered`).
-/

namespace RiscCore
namespace Drivers

open PolledPort

/-! ## Registers -/

/-- `UART::Reg`. -/
inductive Reg where
  | rbrThrDll | ierDlm | fcrIir | lcr | mcr | lsr
deriving DecidableEq, Repr

def Reg.offset : Reg → Word
  | .rbrThrDll => 0x00#64
  | .ierDlm => 0x01#64
  | .fcrIir => 0x02#64
  | .lcr => 0x03#64
  | .mcr => 0x04#64
  | .lsr => 0x05#64

def kLsrThrEmpty : Byte := 0x20#8

/-- A 16550 as it comes out of reset. `UART::init` does nothing, so the FIFO stays off and the transmit holding
    register has room for one byte; `overrun` has the bytes that were written over. -/
structure Device where
  thr : Option Byte
  wire : List Byte
  overrun : List Byte
deriving DecidableEq

namespace Device

/-- The other bits of `LSR` are the device's own business. -/
def lsr (d : Device) (other : Byte) : Byte :=
  if d.thr.isNone then other ||| kLsrThrEmpty else other &&& ~~~kLsrThrEmpty

def load (base : Word) (d : Device) (other : Byte) (addr : Word) : Byte :=
  if addr = base + Reg.lsr.offset then d.lsr other else other

def store (base : Word) (d : Device) (addr : Word) (value : Byte) : Device :=
  if addr = base + Reg.rbrThrDll.offset then
    { d with thr := some value, overrun := d.overrun ++ d.thr.toList }
  else
    d

def shift (d : Device) : Device := { d with thr := none, wire := d.wire ++ d.thr.toList }

end Device

/-! ## The driver -/

/-- `UART::reg`; `base` is `base_`. -/
def reg (base : Word) (r : Reg) : Word := base + r.offset

def readReg (base : Word) (d : Device) (other : Byte) (r : Reg) : Byte := d.load base other (reg base r)

def writeReg (base : Word) (d : Device) (r : Reg) (value : Byte) : Device := d.store base (reg base r) value

/-- Where the hart is in `putc_raw`: in the loop of `wait_tx_ready`, or behind it. -/
inductive Place where
  | wait | write
deriving DecidableEq, Repr

/-- The calls of `putc_raw` still to come, the first of them under way. -/
structure Printing where
  chars : List Byte
  place : Place
deriving DecidableEq

/-- One turn of the loop, or the store. `sent` is what `Drivers.Uart` keeps. -/
def Printing.turn (base : Word) (other : Byte) (d : Device) (sent : Uart) :
    Printing → Printing × Device × Uart
  | ⟨[], place⟩ => (⟨[], place⟩, d, sent)
  | ⟨ch :: more, .wait⟩ =>
    if (readReg base d other .lsr &&& kLsrThrEmpty) = 0#8 then (⟨ch :: more, .wait⟩, d, sent)
    else (⟨ch :: more, .write⟩, d, sent)
  | ⟨ch :: more, .write⟩ => (⟨more, .wait⟩, writeReg base d .rbrThrDll ch, sent.putcRaw ch)

/-- The port, the code that prints, and the handler that may interrupt it. -/
structure Serial where
  device : Device
  sent : Uart
  main : Printing
  handler : Printing
deriving DecidableEq

/-- What happens next. `other` is what the rest of `LSR` reads as. -/
inductive Tick where
  | shift
  | turn (other : Byte)
  | interrupt (text : List Byte)
deriving DecidableEq

namespace Serial

/-- The handler runs with interrupts disabled, and the interrupted code waits for it. -/
def step (base : Word) (s : Serial) : Tick → Serial
  | .shift => { s with device := s.device.shift }
  | .turn other =>
    if s.handler.chars = [] then
      let (main, device, sent) := s.main.turn base other s.device s.sent
      { s with main := main, device := device, sent := sent }
    else
      let (handler, device, sent) := s.handler.turn base other s.device s.sent
      { s with handler := handler, device := device, sent := sent }
  | .interrupt text => if s.handler.chars = [] then { s with handler := ⟨text, .wait⟩ } else s

def run (base : Word) (s : Serial) (es : List Tick) : Serial := es.foldl (step base) s

/-- `out` is on the wire, and `chars` is to be printed. -/
def start (out : Uart) (chars : List Byte) : Serial := ⟨⟨none, out, []⟩, out, ⟨chars, .wait⟩, ⟨[], .wait⟩⟩

end Serial

variable {base : Word} {s : Serial} {e : Tick}

/-! ## It is a polled port -/

def Printing.writer (p : Printing) : Writer Byte := ⟨p.chars, p.place = .write⟩

def Device.port (d : Device) : Port Byte := ⟨d.thr, d.wire, d.overrun⟩

def Serial.line (s : Serial) : Line Byte := ⟨s.device.port, s.sent, s.main.writer, s.handler.writer⟩

def Tick.event : Tick → Event Byte
  | .shift => .shift
  | .turn _ => .turn
  | .interrupt text => .interrupt text

/-- `wait_tx_ready` leaves its loop if the holding register is empty, whatever the other bits are. -/
theorem lsr_empty (base : Word) (d : Device) (other : Byte) :
    (readReg base d other .lsr &&& kLsrThrEmpty) = 0#8 ↔ d.thr.isNone = false := by
  have hset : ∀ b : Byte, (b ||| kLsrThrEmpty) &&& kLsrThrEmpty ≠ 0#8 := by decide
  have hclear : ∀ b : Byte, (b &&& ~~~kLsrThrEmpty) &&& kLsrThrEmpty = 0#8 := by decide
  unfold readReg Device.load reg
  rw [if_pos rfl]
  unfold Device.lsr
  cases d.thr.isNone with
  | true => exact iff_of_false (hset other) Bool.noConfusion
  | false => exact iff_of_true (hclear other) rfl

theorem writeReg_port (base : Word) (d : Device) (ch : Byte) :
    (writeReg base d .rbrThrDll ch).port = d.port.write ch := by
  unfold writeReg Device.store reg
  rw [if_pos rfl]
  rfl

/-- A turn of the loop is a look, and the store is a write. -/
theorem turn_wait (base : Word) (other ch : Byte) (more : List Byte) (d : Device) (sent : Uart) :
    Printing.turn base other d sent ⟨ch :: more, .wait⟩ =
      (⟨ch :: more, if d.port.ready then .write else .wait⟩, d, sent) := by
  have hready : d.port.ready = d.thr.isNone := rfl
  unfold Printing.turn
  dsimp only
  rw [hready]
  by_cases hempty : d.thr.isNone = false
  · rw [if_pos ((lsr_empty base d other).mpr hempty), hempty]
    rfl
  · rw [if_neg (mt (lsr_empty base d other).mp hempty), eq_true_of_ne_false hempty]
    rfl

/-- **Step lemma.** -/
theorem step_line (base : Word) (s : Serial) (e : Tick) : (s.step base e).line = s.line.step e.event := by
  obtain ⟨d, sent, ⟨mchars, mplace⟩, ⟨hchars, hplace⟩⟩ := s
  cases e with
  | shift => rfl
  | interrupt text =>
      cases hchars with
      | nil => rfl
      | cons ch more => rfl
  | turn other =>
      cases hchars with
      | nil =>
          cases mchars with
          | nil => rfl
          | cons ch more =>
              cases mplace with
              | wait =>
                  simp [Serial.step, turn_wait, Serial.line, Printing.writer, Tick.event, Line.step, Line.mainTurn]
              | write =>
                  simp [Serial.step, Printing.turn, Serial.line, Printing.writer, Tick.event, Line.step, Line.mainTurn,
                    writeReg_port, Uart.putcRaw]
      | cons ch more =>
          cases hplace with
          | wait =>
              simp [Serial.step, turn_wait, Serial.line, Printing.writer, Tick.event, Line.step, Line.handlerTurn]
          | write =>
              simp [Serial.step, Printing.turn, Serial.line, Printing.writer, Tick.event, Line.step, Line.handlerTurn,
                writeReg_port, Uart.putcRaw]

/-- **Run lemma.** -/
theorem run_line (base : Word) (s : Serial) (es : List Tick) :
    (s.run base es).line = s.line.run (es.map Tick.event) := by
  induction es generalizing s with
  | nil => rfl
  | cons e es ih =>
      rw [List.map_cons, run_cons, ← step_line]
      exact ih (s.step base e)

/-! ## What becomes of the bytes -/

/-- The interruptions that come between the last look at `LSR` and the store, with something to print. -/
def Serial.hits (s : Serial) (es : List Tick) : Nat := s.line.hits (es.map Tick.event)

theorem start_sound (out : Uart) (chars : List Byte) : (Serial.start out chars).line.Sound where
  main := fun h => Bool.noConfusion h
  handler := fun h => Bool.noConfusion h
  complete := by
    show out.Perm (out ++ [] ++ [])
    rw [List.append_nil, List.append_nil]
  order := by
    show (out ++ []).Sublist out
    rw [List.append_nil]

theorem delivered_of_nothing_lost (h : s.line.Sound) (hnone : s.device.overrun = []) :
    s.device.wire ++ s.device.thr.toList = s.sent := by
  have hall := h.complete.length_eq
  have hlost : s.line.port.lost = [] := hnone
  rw [hlost, List.append_nil] at hall
  exact h.order.eq_of_length hall.symm

/-- **The serial output, whenever the timer interrupts it** and however long the device takes. Every byte is on the
    wire, still in the device, or overrun; those that arrive do so in the order in which they were sent. At most one
    byte is overrun for each interruption between the last look at `LSR` and the store, and none without one. -/
theorem serial_output (base : Word) (out : Uart) (chars : List Byte) (es : List Tick) :
    ∃ s, (Serial.start out chars).run base es = s ∧
      s.sent.Perm (s.device.wire ++ s.device.thr.toList ++ s.device.overrun) ∧
      (s.device.wire ++ s.device.thr.toList).Sublist s.sent ∧
      s.device.overrun.length ≤ (Serial.start out chars).hits es ∧
      ((Serial.start out chars).hits es = 0 → s.device.wire ++ s.device.thr.toList = s.sent) ∧
      (out ++ chars).Sublist (s.sent ++ s.main.chars) ∧
      (s.sent ++ (s.handler.chars ++ s.main.chars)).Perm
        (out ++ chars ++ (Serial.start out chars).line.taken (es.map Tick.event)) := by
  have hline := run_line base (Serial.start out chars) es
  generalize (Serial.start out chars).run base es = s at hline
  have hsound : s.line.Sound := hline ▸ (start_sound out chars).run _
  have hcount := (start_sound out chars).lost_le (es.map Tick.event)
  rw [← hline] at hcount
  have hlost : s.device.overrun.length ≤ (Serial.start out chars).hits es := by
    refine (Nat.le_add_right _ s.line.exposed.toNat).trans (hcount.trans (Nat.le_of_eq ?_))
    exact Nat.zero_add _
  refine ⟨s, rfl, hsound.complete, hsound.order, hlost, fun hnone => ?_, ?_, ?_⟩
  · exact delivered_of_nothing_lost hsound (List.length_eq_zero_iff.mp (Nat.le_zero.mp (hnone ▸ hlost)))
  · have horder := main_in_order (Serial.start out chars).line (es.map Tick.event)
    rw [← hline] at horder
    exact horder
  · have htaken := taken_run (Serial.start out chars).line (es.map Tick.event)
    rw [← hline] at htaken
    exact htaken

/-! ## When a byte is overrun -/

/-- The code has seen the register empty, and is about to find it full. -/
def Serial.Exposed (s : Serial) : Prop := s.main.place = .write ∧ (s.handler.chars ≠ [] ∨ s.device.thr ≠ none)

theorem exposed_iff : s.Exposed ↔ s.line.exposed = true := by
  have hchars : s.handler.chars ≠ [] ↔ (!s.line.handler.todo.isEmpty) = true := by
    rw [Bool.not_eq_true', ← Bool.not_eq_true, List.isEmpty_iff]
    exact Iff.rfl
  have hthr : s.device.thr ≠ none ↔ s.line.port.holding.isSome = true := Option.ne_none_iff_isSome
  have hplace : s.main.place = .write ↔ s.line.main.armed = true := (decide_eq_true_iff).symm
  unfold Serial.Exposed Line.exposed
  rw [Bool.and_eq_true, Bool.or_eq_true, hchars, hthr, hplace]

/-- No interruption. -/
def Undisturbed (es : List Tick) : Prop := ∀ e ∈ es, ∀ text, e ≠ .interrupt text

theorem Undisturbed.quiet {es : List Tick} (h : Undisturbed es) : Quiet (es.map Tick.event) := by
  intro e he text
  obtain ⟨t, ht, rfl⟩ := List.mem_map.mp he
  cases t with
  | shift => exact fun heq => by cases heq
  | turn other => exact fun heq => by cases heq
  | interrupt text' => exact absurd rfl (h _ ht text')

/-- The same with all other bits of `LSR` zero. -/
def tickOf : Event Byte → Tick
  | .shift => .shift
  | .turn => .turn 0#8
  | .interrupt text => .interrupt text

theorem map_tickOf (es : List (Event Byte)) : (es.map tickOf).map Tick.event = es := by
  rw [List.map_map]
  refine (List.map_congr_left fun e _ => ?_).trans (List.map_id es)
  cases e <;> rfl

theorem undisturbed_tickOf {es : List (Event Byte)} (h : Quiet es) : Undisturbed (es.map tickOf) := by
  intro e he text heq
  obtain ⟨t, ht, rfl⟩ := List.mem_map.mp he
  cases t with
  | shift => cases heq
  | turn => cases heq
  | interrupt text' => exact h _ ht text' rfl

/-- **When a byte is overrun.** Whatever has happened since the driver began to print: without another interruption at
    most one more byte is overrun, and one is for some timing of the device if and only if the code has left
    `wait_tx_ready` and the handler has something to print, or the register is full. -/
theorem overrun_iff (base : Word) (out : Uart) (chars : List Byte) (es : List Tick) :
    ∃ s, (Serial.start out chars).run base es = s ∧
      (∀ es', Undisturbed es' → (s.run base es').device.overrun.length ≤ s.device.overrun.length + 1) ∧
      ((∃ es', Undisturbed es' ∧ (s.run base es').device.overrun ≠ s.device.overrun) ↔ s.Exposed) := by
  have hline := run_line base (Serial.start out chars) es
  generalize (Serial.start out chars).run base es = s at hline
  have hsound : s.line.Sound := hline ▸ (start_sound out chars).run _
  have hoverrun : ∀ es', (s.run base es').device.overrun = (s.line.run (es'.map Tick.event)).port.lost :=
    fun es' => congrArg (fun l : Line Byte => l.port.lost) (run_line base s es')
  refine ⟨s, rfl, fun es' hquiet => ?_, ?_⟩
  · have hcount := hsound.lost_le (es'.map Tick.event)
    rw [hquiet.quiet.hits, ← hoverrun] at hcount
    have hone := Bool.toNat_le s.line.exposed
    have hsame : s.line.port.lost = s.device.overrun := rfl
    rw [hsame] at hcount
    omega
  · rw [exposed_iff, ← hsound.loses_iff]
    constructor
    · rintro ⟨es', hquiet, hne⟩
      exact ⟨_, hquiet.quiet, hoverrun es' ▸ hne⟩
    · rintro ⟨es', hquiet, hne⟩
      refine ⟨es'.map tickOf, undisturbed_tickOf hquiet, ?_⟩
      rw [hoverrun, map_tickOf]
      exact hne

/-! ## The wire carries what the driver says -/

/-- The calls of the driver's interface. -/
inductive Print where
  | putc (ch : Byte)
  | puts (s : List Byte)
  | putHex (value : Word)
  | putDec (value : Word)
deriving DecidableEq, Repr

def Print.apply (out : Uart) : Print → Option Uart
  | .putc ch => some (out.putc ch)
  | .puts s => some (out.puts s)
  | .putHex value => some (out.putHex value)
  | .putDec value => out.putDec value

/-- What it calls `putc_raw` with, in order. -/
def Print.chars (p : Print) : List Byte := (p.apply []).getD []

/-- One after the other. -/
def printAll (out : Uart) (ps : List Print) : Option Uart := ps.foldlM Print.apply out

theorem putc_append (out : Uart) (ch : Byte) : out.putc ch = out ++ Uart.putc [] ch := by
  unfold Uart.putc
  split
  · exact List.append_assoc out [13#8] [ch]
  · rfl

theorem puts_append (s : List Byte) : ∀ out : Uart, out.puts s = out ++ Uart.puts [] s := by
  induction s with
  | nil => exact fun out => (List.append_nil out).symm
  | cons ch s ih =>
      intro out
      show (out.putc ch).puts s = out ++ (Uart.putc [] ch).puts s
      rw [ih, ih (Uart.putc [] ch), putc_append, List.append_assoc]

/-- Whatever was sent before, a call sends the same bytes. -/
theorem apply_eq (out : Uart) (p : Print) : p.apply out = some (out ++ p.chars) := by
  cases p with
  | putc ch => exact congrArg some (putc_append out ch)
  | puts s => exact congrArg some (puts_append s out)
  | putHex value =>
      have hchars : Uart.putHex [] value = literal "0x" ++ Numeral.fixed Uart.hexChar 16 16 value.toNat :=
        Uart.putHex_eq [] value
      show some (out.putHex value) = some (out ++ Uart.putHex [] value)
      rw [hchars, Uart.putHex_eq, List.append_assoc]
  | putDec value =>
      show out.putDec value = some (out ++ (Uart.putDec [] value).getD [])
      rw [Uart.putDec_eq, Uart.putDec_eq]
      rfl

theorem printAll_eq (ps : List Print) : ∀ out : Uart, printAll out ps = some (out ++ ps.flatMap Print.chars) := by
  induction ps with
  | nil => exact fun out => congrArg some (List.append_nil out).symm
  | cons p ps ih =>
      intro out
      show (p.apply out).bind (fun out' => printAll out' ps) = _
      rw [apply_eq, Option.bind_some, ih, List.flatMap_cons, List.append_assoc]

/-- **The wire carries what the driver says**, if the device goes on shifting. After whatever has happened, enough
    turns without an interruption bring the code and the handler to their end; what was sent is then on the wire or
    in the device unless an interruption came between a look and a store, and if there was no interruption at all it
    is what the calls send in `Drivers.Uart`. -/
theorem calls_delivered (base : Word) (out : Uart) (ps : List Print) (es es' : List Tick) {n : Nat}
    (hquiet : Undisturbed es') (hserves : Serves n (es'.map Tick.event))
    (hn : ((Serial.start out (ps.flatMap Print.chars)).run base es).handler.chars.length +
      ((Serial.start out (ps.flatMap Print.chars)).run base es).main.chars.length ≤ n) :
    ∃ s, (Serial.start out (ps.flatMap Print.chars)).run base (es ++ es') = s ∧ s.main.chars = [] ∧
      s.handler.chars = [] ∧
      ((Serial.start out (ps.flatMap Print.chars)).hits es = 0 → s.device.wire ++ s.device.thr.toList = s.sent) ∧
      (Undisturbed es → printAll out ps = some s.sent) := by
  have hline := run_line base (Serial.start out (ps.flatMap Print.chars)) es
  have happend : (Serial.start out (ps.flatMap Print.chars)).run base (es ++ es') =
      ((Serial.start out (ps.flatMap Print.chars)).run base es).run base es' := List.foldl_append
  rw [happend]
  generalize (Serial.start out (ps.flatMap Print.chars)).run base es = t at hline hn
  have hsound : t.line.Sound := hline ▸ (start_sound out _).run _
  have hline' := run_line base t es'
  have hn' : t.line.pending.length ≤ n := (Nat.le_of_eq List.length_append).trans hn
  obtain ⟨hdone, hsent⟩ := finishes hserves hquiet.quiet t.line hn'
  obtain ⟨hhandler, hmain⟩ := List.append_eq_nil_iff.mp hdone
  rw [← hline'] at hsent hmain hhandler
  refine ⟨t.run base es', rfl, hmain, hhandler, fun hnone => ?_, fun hundisturbed => ?_⟩
  · -- nothing lost, and not about to be
    have hbefore := (start_sound out (ps.flatMap Print.chars)).lost_le (es.map Tick.event)
    have hafter := hsound.lost_le (es'.map Tick.event)
    rw [← hline, show (Serial.start out (ps.flatMap Print.chars)).line.hits _ = 0 from hnone] at hbefore
    have hstart : (Serial.start out (ps.flatMap Print.chars)).line.port.lost.length +
        (Serial.start out (ps.flatMap Print.chars)).line.exposed.toNat = 0 := rfl
    rw [hquiet.quiet.hits, ← hline'] at hafter
    have hsame : (t.run base es').line.port.lost = (t.run base es').device.overrun := rfl
    rw [hsame] at hafter
    exact delivered_of_nothing_lost (hline' ▸ hsound.run _) (List.length_eq_zero_iff.mp (by omega))
  · have hall := quiet_run hundisturbed.quiet (Serial.start out (ps.flatMap Print.chars)).line
    rw [← hline, ← hsent] at hall
    rw [printAll_eq]
    exact congrArg some hall.symm

def testTicks : List Tick :=
  [.shift, .turn 0#8, .turn 0x60#8, .shift, .turn 1#8, .turn 0#8, .shift, .turn 0#8, .turn 0#8, .shift, .turn 0#8,
    .turn 0#8]

/-- Two characters, the second of them a newline: three bytes. The handler has interrupted before the first look, and
    its byte goes out first. -/
theorem calls_delivered_test : ∃ s,
    (Serial.start [] ([Print.putc 65#8, .puts [10#8]].flatMap Print.chars)).run 0x10000000#64
      ([.interrupt [42#8], .turn 0#8] ++ testTicks) = s ∧
    s.main.chars = [] ∧ s.device.wire ++ s.device.thr.toList = [42#8, 65#8, 13#8, 10#8] := by
  have hquiet : Undisturbed testTicks := by
    unfold Undisturbed testTicks
    simp
  have htwo : 2 ≤ turns ([.turn, .turn] : List (Event Byte)) := by decide
  have hserves : Serves 4 (testTicks.map Tick.event) :=
    Serves.succ htwo (Serves.succ htwo (Serves.succ htwo (Serves.succ htwo (Serves.zero []))))
  obtain ⟨s, hrun, hdone, _, hwire, _⟩ := calls_delivered 0x10000000#64 [] [Print.putc 65#8, .puts [10#8]]
    [.interrupt [42#8], .turn 0#8] testTicks hquiet hserves (by decide)
  have hsent : ((Serial.start [] ([Print.putc 65#8, .puts [10#8]].flatMap Print.chars)).run 0x10000000#64
      ([.interrupt [42#8], .turn 0#8] ++ testTicks)).sent = [42#8, 65#8, 13#8, 10#8] := by decide
  rw [hrun] at hsent
  exact ⟨s, hrun, hdone, (hwire (by decide)).trans hsent⟩

end Drivers
end RiscCore
