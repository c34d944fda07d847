import RiscCore.Core.TrapEntry
import RiscCore.Lib.Align

/-!
# `Core.StackRoom` — the stack of a new task and the first trap frame

`create_kernel_task` takes any stack that is not null and not empty. A trap that finds the task with its initial `sp`
needs 288 bytes below it, and rounding `sp` down to 16 bytes may cost up to 15 more. Idle's own stack has 256 bytes.
-/

namespace RiscCore
namespace Core

open ByteMem Align

variable {sp stackBase stackSize entry a : Word} {sym : Symbols} {k k' : Kernel} {t : TaskRef}

/-- The byte at `a` belongs to the stack. -/
def InStack (stackBase stackSize a : Word) : Prop :=
  stackBase.toNat ≤ a.toNat ∧ a.toNat < stackBase.toNat + stackSize.toNat

instance (stackBase stackSize a : Word) : Decidable (InStack stackBase stackSize a) :=
  inferInstanceAs (Decidable (_ ∧ _))

/-- **There is room for a trap frame**: `trap_entry`, entered with `sp`, gets its 288 bytes from the stack. -/
def HoldsFrame (sp stackBase stackSize : Word) : Prop :=
  ∀ h : Hart, h.regs .sp = sp → ∀ i, i < 288 → InStack stackBase stackSize (framePointer h + BitVec.ofNat 64 i)

/-- What a task is given by the initial context. -/
def RoomForTrap (sp stackBase stackSize : Word) : Prop := sp.toNat % 16 = 0 ∧ HoldsFrame sp stackBase stackSize

/-! ## The initial `sp` -/

theorem initialSp_toNat (sym : Symbols) (hfit : stackBase.toNat + stackSize.toNat < 2 ^ 64) :
    (initialContext sym stackBase stackSize).sp.toNat = (stackBase.toNat + stackSize.toNat) / 16 * 16 := by
  show ((stackBase + stackSize) &&& ~~~(lowMask 64 4)).toNat = _
  rw [and_not_lowMask_toNat, BitVec.toNat_add, Nat.mod_eq_of_lt hfit]
  rfl

/-- Where the frame begins. Below 288 it wraps. -/
theorem framePointer_cases (h : Hart) :
    (288 ≤ (h.regs .sp).toNat ∧ (framePointer h).toNat = (h.regs .sp).toNat - 288) ∨
    ((h.regs .sp).toNat < 288 ∧ (framePointer h).toNat = (h.regs .sp).toNat + (2 ^ 64 - 288)) := by
  have hlt := (h.regs .sp).isLt
  have hoff : (BitVec.ofInt 64 (-288)).toNat = 2 ^ 64 - 288 := by decide
  rw [framePointer, BitVec.toNat_add, hoff]
  by_cases hsp : 288 ≤ (h.regs .sp).toNat
  · exact Or.inl ⟨hsp, by omega⟩
  · exact Or.inr ⟨by omega, by omega⟩

/-- **When there is room**, for an `sp` at most 15 bytes below the end of the stack. -/
theorem holdsFrame_iff (hle : sp.toNat ≤ stackBase.toNat + stackSize.toNat)
    (hnear : stackBase.toNat + stackSize.toNat < sp.toNat + 16) :
    HoldsFrame sp stackBase stackSize ↔ stackBase.toNat + 288 ≤ sp.toNat := by
  constructor
  · intro hroom
    -- the lowest byte of the frame
    let h : Hart := ⟨fun _ => sp, fun _ => 0#64, 0#64, fun _ => 0#8⟩
    obtain ⟨hlo, hhi⟩ := hroom h rfl 0 (by decide)
    rw [BitVec.add_zero] at hlo hhi
    rcases framePointer_cases h with ⟨hsp, hfp⟩ | ⟨hsp, hfp⟩
    · have hsp' : 288 ≤ sp.toNat := hsp
      have hfp' : (framePointer h).toNat = sp.toNat - 288 := hfp
      omega
    · have hsp' : sp.toNat < 288 := hsp
      have hfp' : (framePointer h).toNat = sp.toNat + (2 ^ 64 - 288) := hfp
      omega
  · rintro hroom h rfl i hi
    rcases framePointer_cases h with ⟨_, hfp⟩ | ⟨hsp, _⟩
    · have hlt := (h.regs .sp).isLt
      have haddr : (framePointer h + BitVec.ofNat 64 i).toNat = (h.regs .sp).toNat - 288 + i := by
        rw [BitVec.toNat_add, BitVec.toNat_ofNat, hfp]
        omega
      rw [InStack, haddr]
      omega
    · omega

/-- A stack that does not wrap around the address space. -/
theorem roomForTrap_iff (sym : Symbols) (hfit : stackBase.toNat + stackSize.toNat < 2 ^ 64) :
    RoomForTrap (initialContext sym stackBase stackSize).sp stackBase stackSize ↔
      stackBase.toNat + 288 ≤ (stackBase.toNat + stackSize.toNat) / 16 * 16 := by
  have hsp := initialSp_toNat sym hfit
  -- rounding loses less than 16 bytes
  have hle : (initialContext sym stackBase stackSize).sp.toNat ≤ stackBase.toNat + stackSize.toNat := by omega
  have hnear : stackBase.toNat + stackSize.toNat < (initialContext sym stackBase stackSize).sp.toNat + 16 := by omega
  rw [RoomForTrap, holdsFrame_iff hle hnear, hsp]
  omega

/-! ## Accepted stacks -/

/-- With room, a trap writes nothing outside the stack. -/
theorem HoldsFrame.save (hroom : HoldsFrame sp stackBase stackSize) {h : Hart} (hsp : h.regs .sp = sp)
    (ha : ¬ InStack stackBase stackSize a) : (runTrap saveCode h).mem a = h.mem a :=
  save_outside h fun i hi he => ha (he ▸ hroom h hsp i hi)

/-- **When an accepted stack can hold a trap frame:** 288 bytes of it lie below its rounded end. Idle's stack cannot. -/
theorem stack_holds_frame_iff (sym : Symbols) (k : Kernel) :
    (∀ entry stackBase stackSize t k', stackBase.toNat + stackSize.toNat < 2 ^ 64 →
      TaskManager.createKernelTask sym k entry stackBase stackSize = (some t, k') →
      (RoomForTrap (k'.tasks t).context.sp stackBase stackSize ↔
        stackBase.toNat + 288 ≤ (stackBase.toNat + stackSize.toNat) / 16 * 16) ∧
      (RoomForTrap (k'.tasks t).context.sp stackBase stackSize → ∀ h : Hart, h.regs .sp = (k'.tasks t).context.sp →
        ∀ a, ¬ InStack stackBase stackSize a → (runTrap saveCode h).mem a = h.mem a)) ∧
    (sym.idleStack.toNat + TaskManager.kIdleStackSize.toNat < 2 ^ 64 →
      ((TaskManager.init sym k).tasks 0).context.sp.toNat % 16 = 0 ∧
      ¬ HoldsFrame ((TaskManager.init sym k).tasks 0).context.sp sym.idleStack TaskManager.kIdleStackSize) := by
  constructor
  · intro entry stackBase stackSize t k' hfit hcreate
    rw [(createKernelTask_some hcreate).task]
    exact ⟨roomForTrap_iff sym hfit, fun hroom h hsp a ha => hroom.2.save hsp ha⟩
  · intro hfit
    obtain ⟨_, _, _, hctx, _⟩ := init_spec sym k
    have hroom := roomForTrap_iff sym hfit
    have hsp := initialSp_toNat sym hfit
    have hsize : TaskManager.kIdleStackSize.toNat = 256 := rfl
    rw [hctx]
    have haligned : (initialContext sym sym.idleStack TaskManager.kIdleStackSize).sp.toNat % 16 = 0 := by omega
    refine ⟨haligned, fun hholds => ?_⟩
    have hbound := hroom.mp ⟨haligned, hholds⟩
    omega

/-- A stack of 1024 bytes has room, idle's has not. -/
theorem stack_holds_frame_test : ∃ t k',
    TaskManager.createKernelTask testSymbols (TaskManager.init testSymbols blankKernel) 0x80000300#64 0x80010000#64
      0x400#64 = (some t, k') ∧
    RoomForTrap (k'.tasks t).context.sp 0x80010000#64 0x400#64 ∧
    ¬ HoldsFrame ((TaskManager.init testSymbols blankKernel).tasks 0).context.sp testSymbols.idleStack
      TaskManager.kIdleStackSize := by
  have hfst : (TaskManager.createKernelTask testSymbols (TaskManager.init testSymbols blankKernel) 0x80000300#64
      0x80010000#64 0x400#64).1 = some 1 := by decide +kernel
  obtain ⟨k', hcreate⟩ : ∃ k', TaskManager.createKernelTask testSymbols (TaskManager.init testSymbols blankKernel)
      0x80000300#64 0x80010000#64 0x400#64 = (some 1, k') := ⟨_, Prod.ext hfst rfl⟩
  refine ⟨1, k', hcreate, ?_, ((stack_holds_frame_iff testSymbols blankKernel).2 (by decide)).2⟩
  exact ((stack_holds_frame_iff testSymbols (TaskManager.init testSymbols blankKernel)).1 0x80000300#64 0x80010000#64
    0x400#64 1 k' (by decide) hcreate).1.mpr (by decide)

/-- A trap that finds idle with its initial `sp` writes below idle's stack. -/
theorem idle_stack_overrun : ∃ h : Hart, h.regs .sp = ((TaskManager.init testSymbols blankKernel).tasks 0).context.sp ∧
    ¬ InStack testSymbols.idleStack TaskManager.kIdleStackSize 0x80000fe1#64 ∧
    (runTrap saveCode h).mem 0x80000fe1#64 ≠ h.mem 0x80000fe1#64 ∧
    ¬ HoldsFrame ((TaskManager.init testSymbols blankKernel).tasks 0).context.sp testSymbols.idleStack
      TaskManager.kIdleStackSize := by
  let h : Hart := ⟨fun _ => 0x80001100#64, fun _ => 0#64, 0#64, fun _ => 0#8⟩
  have hsp : h.regs .sp = ((TaskManager.init testSymbols blankKernel).tasks 0).context.sp := by
    rw [(init_spec testSymbols blankKernel).2.2.2.1]
    decide +kernel
  have hout : ¬ InStack testSymbols.idleStack TaskManager.kIdleStackSize 0x80000fe1#64 := by decide
  have hwrite : (runTrap saveCode h).mem 0x80000fe1#64 ≠ h.mem 0x80000fe1#64 := by decide +kernel
  exact ⟨h, hsp, hout, hwrite, fun hroom => hwrite (hroom.save hsp hout)⟩

end Core
end RiscCore
