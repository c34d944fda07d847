import Mathlib.Logic.Function.Basic
import RiscCore.Mm.Page

/-!
# `Core.Switch` — saved contexts and `context_switch` (`context.h`, `switch.S`)

`Context` is the C++ struct; `load` and `store` give its memory layout, eight bytes a field in declaration
order. The assembly is a list of its instructions with the offsets of the source, run by a small
interpreter over the contexts that `a0` and `a1` point to — possibly the same one. `contextSwitch_eq` is
the only fact the scheduler needs: everything that was in the registers is in the outgoing context, and
everything in the incoming context is in the registers.
-/

namespace RiscCore
namespace Core

/-- The registers that `context_switch` moves. -/
inductive Reg where
  | ra | sp | s0 | s1 | s2 | s3 | s4 | s5 | s6 | s7 | s8 | s9 | s10 | s11
deriving DecidableEq, Repr

abbrev Regs := Reg → Word

structure Context where
  ra : Word
  sp : Word
  s0 : Word
  s1 : Word
  s2 : Word
  s3 : Word
  s4 : Word
  s5 : Word
  s6 : Word
  s7 : Word
  s8 : Word
  s9 : Word
  s10 : Word
  s11 : Word
deriving DecidableEq, Repr

namespace Context

/-- The field at a byte offset. -/
def load (c : Context) : Nat → Option Word
  | 0 => some c.ra
  | 8 => some c.sp
  | 16 => some c.s0
  | 24 => some c.s1
  | 32 => some c.s2
  | 40 => some c.s3
  | 48 => some c.s4
  | 56 => some c.s5
  | 64 => some c.s6
  | 72 => some c.s7
  | 80 => some c.s8
  | 88 => some c.s9
  | 96 => some c.s10
  | 104 => some c.s11
  | _ => none

/-- The struct after a store at a byte offset. -/
def store (c : Context) (v : Word) : Nat → Option Context
  | 0 => some { c with ra := v }
  | 8 => some { c with sp := v }
  | 16 => some { c with s0 := v }
  | 24 => some { c with s1 := v }
  | 32 => some { c with s2 := v }
  | 40 => some { c with s3 := v }
  | 48 => some { c with s4 := v }
  | 56 => some { c with s5 := v }
  | 64 => some { c with s6 := v }
  | 72 => some { c with s7 := v }
  | 80 => some { c with s8 := v }
  | 88 => some { c with s9 := v }
  | 96 => some { c with s10 := v }
  | 104 => some { c with s11 := v }
  | _ => none

/-- The context that records these registers. -/
def ofRegs (r : Regs) : Context where
  ra := r .ra
  sp := r .sp
  s0 := r .s0
  s1 := r .s1
  s2 := r .s2
  s3 := r .s3
  s4 := r .s4
  s5 := r .s5
  s6 := r .s6
  s7 := r .s7
  s8 := r .s8
  s9 := r .s9
  s10 := r .s10
  s11 := r .s11

/-- The registers that a context records. -/
def regs (c : Context) : Regs
  | .ra => c.ra
  | .sp => c.sp
  | .s0 => c.s0
  | .s1 => c.s1
  | .s2 => c.s2
  | .s3 => c.s3
  | .s4 => c.s4
  | .s5 => c.s5
  | .s6 => c.s6
  | .s7 => c.s7
  | .s8 => c.s8
  | .s9 => c.s9
  | .s10 => c.s10
  | .s11 => c.s11

@[simp] theorem regs_ofRegs (r : Regs) : (ofRegs r).regs = r := by
  funext x
  cases x with
  | _ => rfl

end Context

/-! ## The assembly -/

/-- The two argument registers, used as bases. -/
inductive Base where
  | a0 | a1
deriving DecidableEq, Repr

inductive Instr where
  | sd (r : Reg) (offset : Nat) (base : Base)
  | ld (r : Reg) (offset : Nat) (base : Base)
deriving DecidableEq, Repr

/-- `context_switch` up to its `ret`. -/
def contextSwitchCode : List Instr :=
  [.sd .ra 0 .a0, .sd .sp 8 .a0, .sd .s0 16 .a0, .sd .s1 24 .a0, .sd .s2 32 .a0, .sd .s3 40 .a0,
   .sd .s4 48 .a0, .sd .s5 56 .a0, .sd .s6 64 .a0, .sd .s7 72 .a0, .sd .s8 80 .a0, .sd .s9 88 .a0,
   .sd .s10 96 .a0, .sd .s11 104 .a0,
   .ld .ra 0 .a1, .ld .sp 8 .a1, .ld .s0 16 .a1, .ld .s1 24 .a1, .ld .s2 32 .a1, .ld .s3 40 .a1,
   .ld .s4 48 .a1, .ld .s5 56 .a1, .ld .s6 64 .a1, .ld .s7 72 .a1, .ld .s8 80 .a1, .ld .s9 88 .a1,
   .ld .s10 96 .a1, .ld .s11 104 .a1]

variable {R : Type} [DecidableEq R]

/-- The contexts in memory and the register file. -/
structure SwitchState (R : Type) where
  mem : R → Context
  regs : Regs

def Instr.exec (arg : Base → R) (s : SwitchState R) : Instr → Option (SwitchState R)
  | .sd r offset base => do
    let c ← (s.mem (arg base)).store (s.regs r) offset
    return { s with mem := Function.update s.mem (arg base) c }
  | .ld r offset base => do
    let v ← (s.mem (arg base)).load offset
    return { s with regs := Function.update s.regs r v }

def runCode (arg : Base → R) : List Instr → SwitchState R → Option (SwitchState R)
  | [], s => some s
  | i :: is, s => do
    let s' ← i.exec arg s
    runCode arg is s'

/-- `context_switch(current, next)`. -/
def contextSwitch (current next : R) (s : SwitchState R) : Option (SwitchState R) :=
  runCode (fun b => match b with | .a0 => current | .a1 => next) contextSwitchCode s

/-- The stores fill the whole outgoing context. -/
theorem runCode_save (arg : Base → R) (s : SwitchState R) (rest : List Instr) :
    runCode arg (contextSwitchCode.take 14 ++ rest) s =
      runCode arg rest { s with mem := Function.update s.mem (arg .a0) (Context.ofRegs s.regs) } := by
  simp [contextSwitchCode, runCode, Instr.exec, Context.store, Function.update_idem, Context.ofRegs]

/-- The loads fill the whole register file. -/
theorem runCode_restore (arg : Base → R) (s : SwitchState R) :
    runCode arg (contextSwitchCode.drop 14) s = some { s with regs := (s.mem (arg .a1)).regs } := by
  have hregs : ∀ (r : Regs) (c : Context), Function.update (Function.update (Function.update (Function.update
      (Function.update (Function.update (Function.update (Function.update (Function.update (Function.update
      (Function.update (Function.update (Function.update (Function.update r
      .ra c.ra) .sp c.sp) .s0 c.s0) .s1 c.s1) .s2 c.s2) .s3 c.s3) .s4 c.s4) .s5 c.s5) .s6 c.s6) .s7 c.s7)
      .s8 c.s8) .s9 c.s9) .s10 c.s10) .s11 c.s11 = c.regs := by
    intro r c
    funext x
    cases x with
    | _ => simp [Context.regs, Function.update]
  simp [contextSwitchCode, runCode, Instr.exec, Context.load, hregs]

/-- **`context_switch`** saves all fourteen registers and loads all fourteen, also onto itself. -/
theorem contextSwitch_eq (current next : R) (s : SwitchState R) :
    contextSwitch current next s = some
      { mem := Function.update s.mem current (Context.ofRegs s.regs)
        regs := (Function.update s.mem current (Context.ofRegs s.regs) next).regs } := by
  have hsplit : contextSwitchCode = contextSwitchCode.take 14 ++ contextSwitchCode.drop 14 := rfl
  rw [contextSwitch, hsplit, runCode_save, runCode_restore]

end Core
end RiscCore
