import RiscCore.Core.TaskCode
import RiscCore.Lib.Lines

/-!
# `Core.FaultReport` — what a fatal trap leaves on the serial port (`kernel/arch/riscv/trap/trap.cpp`)

A trap that the handler does not know how to resume ends in its `wfi` loop, and the serial port is all that is left.
For the three page faults the handler writes a report of eight lines. `readReport` reads such a report, as somebody at
the other end of the line would, and gets back the five registers that the trap frame held; what any other fatal trap
prints is no report (`fatal_trap_report`).
-/

namespace RiscCore
namespace Core

open Drivers Lines

/-- A report of a page fault. -/
structure FaultReport where
  heading : List Byte
  mcause : Word
  mepc : Word
  mtval : Word
  mstatus : Word
  mhartid : Word
deriving DecidableEq, Repr

/-! ## Reading -/

def readHex (s : List Byte) : Option Word := do
  let digits ← field (literal "0x") s
  let value ← Numeral.read Uart.hexDigit 16 digits
  return BitVec.ofNat 64 value

def readDec (s : List Byte) : Option Word := (Numeral.read Uart.decDigit 10 s).map (BitVec.ofNat 64)

/-- Eight lines: what kind of trap it is, a blank line, the heading, and the registers. -/
def readReport (text : List Byte) : Option FaultReport :=
  match lines 13#8 10#8 text with
  | [_, _, heading, l₁, l₂, l₃, l₄, l₅] => do
    let mcause ← (field (literal "mcause = ") l₁).bind readHex
    let mepc ← (field (literal "mepc = ") l₂).bind readHex
    let mtval ← (field (literal "mtval = ") l₃).bind readHex
    let mstatus ← (field (literal "mstatus = ") l₄).bind readHex
    let mhartid ← (field (literal "hart = ") l₅).bind readDec
    return ⟨heading, mcause, mepc, mtval, mstatus, mhartid⟩
  | _ => none

/-- What there is to read of a fatal trap: nothing but the page faults. -/
def faultHeading (mcause : Word) : Option String :=
  if mcauseIsInterrupt mcause = true then none
  else if mcauseCode mcause = ExceptionCode.instructionPageFault.value then some "=== Instruction Page Fault ==="
  else if mcauseCode mcause = ExceptionCode.loadPageFault.value then some "=== Load Page Fault ==="
  else if mcauseCode mcause = ExceptionCode.storeAmoPageFault.value then some "=== Store/Amo Page Fault ==="
  else none

def FaultReport.ofFrame (tf : TrapFrame) (heading : String) : FaultReport :=
  ⟨literal heading, tf.mcause, tf.mepc, tf.mtval, tf.mstatus, tf.mhartid⟩

/-! ## The lines -/

/-- `put_hex`. -/
def hexText (value : Word) : List Byte := literal "0x" ++ Numeral.fixed Uart.hexChar 16 16 value.toNat

theorem readHex_hexText (value : Word) : readHex (hexText value) = some value := by
  have hread : Numeral.read Uart.hexDigit 16 (Numeral.fixed Uart.hexChar 16 16 value.toNat) = some value.toNat :=
    Numeral.read_fixed Uart.hexChar_writes (by decide) value.isLt
  rw [readHex, hexText, field_append]
  show (Numeral.read Uart.hexDigit 16 _).bind _ = _
  rw [hread, Option.bind_some, BitVec.ofNat_toNat, BitVec.setWidth_eq]
  rfl

theorem readDec_decimal (value : Word) : readDec (Uart.decimal value) = some value := by
  rw [readDec, Uart.read_decimal, Option.map_some, BitVec.ofNat_toNat, BitVec.setWidth_eq]

/-- No line of the report has a line end inside. -/
abbrev OneLine (l : List Byte) : Prop := Clean 13#8 10#8 l

theorem oneLine_of_ge {l : List Byte} (h : ∀ c ∈ l, 14 ≤ c.toNat) : OneLine l :=
  ⟨fun hm => absurd (h _ hm) (by decide), fun hm => absurd (h _ hm) (by decide)⟩

theorem oneLine_hexText (value : Word) : OneLine (hexText value) := by
  refine Clean.append (by decide) (oneLine_of_ge fun c hc => ?_)
  obtain ⟨d, hd, rfl⟩ := Numeral.mem_fixed (by decide) hc
  have hrange := Uart.hexChar_range hd
  omega

theorem oneLine_decimal (value : Word) : OneLine (Uart.decimal value) := by
  refine oneLine_of_ge fun c hc => ?_
  obtain ⟨d, hd, rfl⟩ := Uart.mem_decimal hc
  rw [Uart.decChar_toNat hd]
  omega

theorem flatMap_expandNewline : ∀ {l : List Byte}, 10#8 ∉ l → l.flatMap expandNewline = l := by
  intro l
  induction l with
  | nil => exact fun _ => rfl
  | cons c l ih =>
      intro hl
      have hc : c ≠ 10#8 := (List.ne_of_not_mem_cons hl).symm
      rw [List.flatMap_cons, expandNewline, if_neg hc, ih (List.not_mem_of_not_mem_cons hl)]
      rfl

/-! ## What the handler sends -/

variable {bus : Bus} {tf : TrapFrame} {p : Platform}

/-- `p` after it has sent `text`. -/
def Platform.say (p : Platform) (text : List Byte) : Platform := ⟨p.k.print (p.k.uart ++ text), p.timer⟩

theorem say_say (p : Platform) (s t : List Byte) : (p.say s).say t = p.say (s ++ t) :=
  congrArg (fun out => (⟨p.k.print out, p.timer⟩ : Platform)) (List.append_assoc _ s t)

theorem putsBytes_say (p : Platform) (s : List Byte) : p.putsBytes s = p.say (s.flatMap expandNewline) :=
  congrArg (fun out => (⟨p.k.print out, p.timer⟩ : Platform)) (puts_eq _ s)

theorem puts_say (p : Platform) (s : String) : p.puts s = p.say ((literal s).flatMap expandNewline) :=
  putsBytes_say p (literal s)

theorem putHex_say (p : Platform) (value : Word) : p.putHex value = p.say (hexText value) :=
  congrArg (fun out => (⟨p.k.print out, p.timer⟩ : Platform))
    ((Uart.putHex_eq p.k.uart value).trans (List.append_assoc _ _ _))

theorem putDec_say (p : Platform) (value : Word) : p.putDec value = some (p.say (Uart.decimal value)) := by
  rw [Platform.putDec, Uart.putDec_eq]
  rfl

theorem putc_say (p : Platform) : p.putc 10#8 = p.say [13#8, 10#8] :=
  congrArg (fun out => (⟨p.k.print out, p.timer⟩ : Platform)) (putc_eq _ _)

/-- The lines of a report after the first. -/
def reportLines (heading : String) (tf : TrapFrame) : List (List Byte) :=
  [[], literal heading, literal "mcause = " ++ hexText tf.mcause, literal "mepc = " ++ hexText tf.mepc,
    literal "mtval = " ++ hexText tf.mtval, literal "mstatus = " ++ hexText tf.mstatus,
    literal "hart = " ++ Uart.decimal tf.mhartid]

theorem reportFault_say {full heading : String}
    (hheading : (literal full).flatMap expandNewline = join 13#8 10#8 [[], literal heading]) (tf : TrapFrame)
    (p : Platform) : reportFault full tf p = some (p.say (join 13#8 10#8 (reportLines heading tf))) := by
  have hmcause : (literal "mcause = ").flatMap expandNewline = literal "mcause = " := by decide
  have hmepc : (literal "mepc = ").flatMap expandNewline = literal "mepc = " := by decide
  have hmtval : (literal "mtval = ").flatMap expandNewline = literal "mtval = " := by decide
  have hmstatus : (literal "mstatus = ").flatMap expandNewline = literal "mstatus = " := by decide
  have hhart : (literal "hart = ").flatMap expandNewline = literal "hart = " := by decide
  unfold reportFault
  dsimp only
  rw [putDec_say]
  show some _ = some _
  simp only [puts_say, putHex_say, putc_say, say_say, hheading, hmcause, hmepc, hmtval, hmstatus, hhart]
  simp only [reportLines, join, List.flatMap_cons, List.flatMap_nil, List.append_assoc, List.nil_append,
    List.append_nil]

/-! ## What is read -/

theorem exceptionName_oneLine (code : Word) : OneLine (exceptionName code) := by
  unfold exceptionName
  repeat' split
  all_goals decide

theorem interruptName_oneLine (code : Word) : OneLine (interruptName code) := by
  unfold interruptName
  repeat' split
  all_goals decide

/-- The first line. -/
theorem banner_say {kind : String} {name : List Byte} (hkind : OneLine (literal kind)) (hname : OneLine name)
    (p : Platform) : ((p.puts kind).putsBytes name).putc 10#8 = p.say (join 13#8 10#8 [literal kind ++ name]) := by
  rw [puts_say, putsBytes_say, putc_say, say_say, say_say, flatMap_expandNewline hkind.2, flatMap_expandNewline hname.2]
  simp only [join, List.flatMap_cons, List.flatMap_nil, List.append_nil, List.append_assoc]

theorem join_append (ls ls' : List (List Byte)) :
    join 13#8 10#8 (ls ++ ls') = join 13#8 10#8 ls ++ join 13#8 10#8 ls' := List.flatMap_append

theorem reportLines_oneLine {heading : String} (h : OneLine (literal heading)) (tf : TrapFrame) :
    ∀ l ∈ reportLines heading tf, OneLine l := by
  have hhex : ∀ {name : String} (value : Word), OneLine (literal name) → OneLine (literal name ++ hexText value) :=
    fun value hname => hname.append (oneLine_hexText value)
  simp only [reportLines, List.forall_mem_cons, List.not_mem_nil, false_implies, implies_true, and_true]
  exact ⟨by decide, h, hhex _ (by decide), hhex _ (by decide), hhex _ (by decide), hhex _ (by decide),
    Clean.append (by decide) (oneLine_decimal _)⟩

/-- **A report is read back.** -/
theorem readReport_report {first : List Byte} {heading : String} (hfirst : OneLine first)
    (hheading : OneLine (literal heading)) (tf : TrapFrame) :
    readReport (join 13#8 10#8 (first :: reportLines heading tf)) = some (FaultReport.ofFrame tf heading) := by
  have hclean : ∀ l ∈ first :: reportLines heading tf, OneLine l :=
    List.forall_mem_cons.mpr ⟨hfirst, reportLines_oneLine hheading tf⟩
  rw [readReport, lines_join (by decide) hclean]
  dsimp only [reportLines]
  simp only [field_append, Option.bind_some, readHex_hexText, readDec_decimal, Option.bind_eq_bind]
  rfl

/-- Other texts are no reports. -/
theorem readReport_short {ls : List (List Byte)} (h : ∀ l ∈ ls, OneLine l) (hlen : ls.length < 8) :
    readReport (join 13#8 10#8 ls) = none := by
  rw [readReport, lines_join (by decide) h]
  split
  · exact absurd hlen (Nat.lt_irrefl 8)
  · rfl

/-- What a trap leaves that the handler does not come back from: some text, and what is to be read of it. -/
def Leaves (bus : Bus) (tf : TrapFrame) (p : Platform) : Prop := ∃ text,
  trapHandle bus tf p = some (.waits (p.say text)) ∧
    readReport text = (faultHeading tf.mcause).map (FaultReport.ofFrame tf)

/-- An interrupt other than the timer's. -/
theorem interrupt_leaves (hint : mcauseIsInterrupt tf.mcause = true)
    (hcode : mcauseCode tf.mcause ≠ InterruptCode.machineTimer.value) (bus : Bus) (p : Platform) : Leaves bus tf p := by
  have hline : OneLine (literal "type = interrupt: " ++ interruptName (mcauseCode tf.mcause)) :=
    Clean.append (by decide) (interruptName_oneLine _)
  refine ⟨join 13#8 10#8 [literal "type = interrupt: " ++ interruptName (mcauseCode tf.mcause)], ?_, ?_⟩
  · unfold trapHandle
    rw [if_pos hint, if_neg hcode]
    exact congrArg (fun q => some (Outcome.waits q)) (banner_say (by decide) (interruptName_oneLine _) p)
  · rw [faultHeading, if_pos hint]
    exact readReport_short (List.forall_mem_singleton.mpr hline) (show 1 < 8 by decide)

/-- A page fault, after the first line. -/
theorem reportFault_waits_say {full heading : String} {first : List Byte}
    (hheading : (literal full).flatMap expandNewline = join 13#8 10#8 [[], literal heading]) (tf : TrapFrame)
    (p : Platform) : (reportFault full tf (p.say (join 13#8 10#8 [first]))).bind (fun q => some (Outcome.waits q)) =
      some (.waits (p.say (join 13#8 10#8 (first :: reportLines heading tf)))) := by
  rw [reportFault_say hheading, say_say, ← join_append]
  rfl

/-- An exception other than a breakpoint or an `ecall`. -/
theorem exception_leaves (hoff : ¬ mcauseIsInterrupt tf.mcause = true)
    (hbreak : mcauseCode tf.mcause ≠ ExceptionCode.breakpoint.value)
    (hecall : mcauseCode tf.mcause ≠ ExceptionCode.ecallFromMMode.value) (bus : Bus) (p : Platform) :
    Leaves bus tf p := by
  have hfirst : OneLine (literal "type = exception: " ++ exceptionName (mcauseCode tf.mcause)) :=
    Clean.append (by decide) (exceptionName_oneLine _)
  generalize hname : literal "type = exception: " ++ exceptionName (mcauseCode tf.mcause) = first at hfirst
  have hbanner : ((p.puts "type = exception: ").putsBytes (exceptionName (mcauseCode tf.mcause))).putc 10#8 =
      p.say (join 13#8 10#8 [first]) := hname ▸ banner_say (by decide) (exceptionName_oneLine (mcauseCode tf.mcause)) p
  unfold Leaves trapHandle faultHeading
  rw [if_neg hoff, if_neg hoff]
  dsimp only
  rw [if_neg hbreak, if_neg hecall, hbanner]
  by_cases hill : mcauseCode tf.mcause = ExceptionCode.illegalInstruction.value
  · rw [hill, if_pos rfl, if_neg (by decide), if_neg (by decide), if_neg (by decide)]
    refine ⟨join 13#8 10#8 [first, literal "Excpetion: Illegal instruction"], ?_, ?_⟩
    · have hline : (literal "Excpetion: Illegal instruction\n").flatMap expandNewline =
          join 13#8 10#8 [literal "Excpetion: Illegal instruction"] := by decide +kernel
      rw [puts_say, hline, say_say, ← join_append]
      rfl
    · exact readReport_short (List.forall_mem_cons.mpr ⟨hfirst, List.forall_mem_singleton.mpr (by decide)⟩)
        (show 2 < 8 by decide)
  rw [if_neg hill]
  by_cases hfetch : mcauseCode tf.mcause = ExceptionCode.instructionPageFault.value
  · rw [hfetch, if_pos rfl, if_pos rfl]
    exact ⟨_, reportFault_waits_say (by decide +kernel) tf p, readReport_report hfirst (by decide) tf⟩
  rw [if_neg hfetch, if_neg hfetch]
  by_cases hload : mcauseCode tf.mcause = ExceptionCode.loadPageFault.value
  · rw [hload, if_pos rfl, if_pos rfl]
    exact ⟨_, reportFault_waits_say (by decide +kernel) tf p, readReport_report hfirst (by decide) tf⟩
  rw [if_neg hload, if_neg hload]
  by_cases hstore : mcauseCode tf.mcause = ExceptionCode.storeAmoPageFault.value
  · rw [hstore, if_pos rfl, if_pos rfl]
    exact ⟨_, reportFault_waits_say (by decide +kernel) tf p, readReport_report hfirst (by decide) tf⟩
  -- the access faults and the causes without a name
  rw [if_neg hstore, if_neg hstore]
  exact ⟨_, rfl, readReport_short (List.forall_mem_singleton.mpr hfirst) (show 1 < 8 by decide)⟩

/-- **What a fatal trap leaves.** A trap with none of the three causes that come back ends in the `wfi` loop, having
    only printed. Of a page fault one can read which of the three it is and what `mcause`, `mepc`, `mtval`, `mstatus`
    and `mhartid` were; all that the others print is no report. -/
theorem fatal_trap_report (h : ∀ cause : Cause, ¬ cause.Is tf.mcause) (bus : Bus) (p : Platform) : ∃ text,
    trapHandle bus tf p = some (.waits ⟨p.k.print (p.k.uart ++ text), p.timer⟩) ∧
      readReport text = (faultHeading tf.mcause).map (FaultReport.ofFrame tf) := by
  cases hint : mcauseIsInterrupt tf.mcause with
  | true => exact interrupt_leaves hint (fun hcode => h .timer ⟨hint, hcode⟩) bus p
  | false =>
      have hoff : ¬ mcauseIsInterrupt tf.mcause = true := by
        rw [hint]
        exact Bool.false_ne_true
      exact exception_leaves hoff (fun hcode => h .breakpoint ⟨hint, hcode⟩) (fun hcode => h .ecall ⟨hint, hcode⟩) bus p

/-- A load from an unmapped address. -/
def loadFault : TrapFrame := { testFrame 13#64 0#64 with mepc := 0x80000204#64, mtval := 0x40000000#64 }

theorem fatal_trap_report_test : ∃ text,
    trapHandle testBus loadFault testPlatform =
      some (.waits ⟨testPlatform.k.print (testPlatform.k.uart ++ text), testPlatform.timer⟩) ∧
    readReport text = some ⟨literal "=== Load Page Fault ===", 13#64, 0x80000204#64, 0x40000000#64, 0#64, 0#64⟩ := by
  have hnone : ∀ cause : Cause, ¬ cause.Is loadFault.mcause := by
    intro cause
    cases cause with
    | timer => decide +kernel
    | breakpoint => decide +kernel
    | ecall => decide +kernel
  have hread : (faultHeading loadFault.mcause).map (FaultReport.ofFrame loadFault) =
      some ⟨literal "=== Load Page Fault ===", 13#64, 0x80000204#64, 0x40000000#64, 0#64, 0#64⟩ := by decide +kernel
  obtain ⟨text, htrap, htext⟩ := fatal_trap_report hnone testBus testPlatform
  exact ⟨text, htrap, htext.trans hread⟩

end Core
end RiscCore
