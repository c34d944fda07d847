import RiscCore.Core.SchedSafety
import RiscCore.Core.Trap
import RiscCore.Lib.ByteMem

/-!
# `Core.TrapEntry` — the assembly around the handler (`trap_entry.S`)

The frame is 288 bytes of the interrupted stack. `saveCode` and `restoreCode` are the instructions of the source
before and after its `call`, run by a small interpreter over all registers and a memory of bytes; `TrapFrame.read`
is the layout the compiler gives to the struct. The three meet slot by slot: `save_frame` and `restore_regs`.

The handler is a relation between the machine at the call and the machine after it. `HandlerReturns` says what
the calling convention promises, and nothing about the registers the handler may clobber.
-/

namespace RiscCore
namespace Core

open Drivers ByteMem

/-- The general registers, `x0` apart. -/
inductive Gpr where
  | ra | sp | gp | tp | t0 | t1 | t2 | s0 | s1 | a0 | a1 | a2 | a3 | a4 | a5 | a6 | a7
  | s2 | s3 | s4 | s5 | s6 | s7 | s8 | s9 | s10 | s11 | t3 | t4 | t5 | t6
deriving DecidableEq, Repr

inductive Csr where
  | mepc | mcause | mtval | mstatus | mhartid
deriving DecidableEq, Repr

structure Hart where
  regs : Gpr → Word
  csrs : Csr → Word
  pc : Word
  mem : Bytes 64

def Hart.setReg (h : Hart) (r : Gpr) (v : Word) : Hart := { h with regs := Function.update h.regs r v }

def Hart.setCsr (h : Hart) (c : Csr) (v : Word) : Hart := { h with csrs := Function.update h.csrs c v }

/-! ## `mstatus` -/

def kMstatusMie : Word := 1#64 <<< 3
def kMstatusMpie : Word := 1#64 <<< 7
def kMstatusMpp : Word := 3#64 <<< 11

/-- The interrupt-enable bit. -/
def mie (mstatus : Word) : Bool := mstatus.getLsbD 3

def mpie (mstatus : Word) : Bool := mstatus.getLsbD 7

/-- What taking a trap in machine mode does: `MPIE` gets `MIE`, `MIE` is cleared. -/
def takeTrap (mstatus : Word) : Word :=
  (mstatus &&& ~~~(kMstatusMie ||| kMstatusMpie)) ||| kMstatusMpp ||| (if mie mstatus then kMstatusMpie else 0#64)

/-- What `mret` does: `MIE` gets `MPIE`, `MPIE` is set. -/
def mretStatus (mstatus : Word) : Word :=
  (mstatus &&& ~~~(kMstatusMie ||| kMstatusMpp)) ||| kMstatusMpie ||| (if mpie mstatus then kMstatusMie else 0#64)

/-! ## The assembly -/

/-- Loads and stores are relative to `sp`; `call` is `call trap_handle`. -/
inductive TrapInstr where
  | addi (rd rs : Gpr) (imm : Int)
  | mv (rd rs : Gpr)
  | sd (r : Gpr) (offset : Nat)
  | ld (r : Gpr) (offset : Nat)
  | csrr (rd : Gpr) (c : Csr)
  | csrw (c : Csr) (rs : Gpr)
  | call
  | mret
deriving DecidableEq, Repr

/-- `trap_entry` up to its `call`. -/
def saveCode : List TrapInstr :=
  [.addi .sp .sp (-288),
   .sd .ra 0, .sd .gp 8, .sd .tp 16, .sd .t0 24, .sd .t1 32, .sd .t2 40, .sd .s0 48, .sd .s1 56,
   .sd .a0 64, .sd .a1 72, .sd .a2 80, .sd .a3 88, .sd .a4 96, .sd .a5 104, .sd .a6 112, .sd .a7 120,
   .sd .s2 128, .sd .s3 136, .sd .s4 144, .sd .s5 152, .sd .s6 160, .sd .s7 168, .sd .s8 176, .sd .s9 184,
   .sd .s10 192, .sd .s11 200, .sd .t3 208, .sd .t4 216, .sd .t5 224, .sd .t6 232,
   .addi .t0 .sp 288, .sd .t0 240,
   .csrr .t0 .mepc, .sd .t0 248, .csrr .t0 .mcause, .sd .t0 256, .csrr .t0 .mtval, .sd .t0 264,
   .csrr .t0 .mstatus, .sd .t0 272, .csrr .t0 .mhartid, .sd .t0 280,
   .mv .a0 .sp]

/-- `trap_entry` after its `call`. -/
def restoreCode : List TrapInstr :=
  [.ld .t0 248, .csrw .mepc .t0,
   .ld .ra 0, .ld .gp 8, .ld .tp 16, .ld .t0 24, .ld .t1 32, .ld .t2 40, .ld .s0 48, .ld .s1 56,
   .ld .a0 64, .ld .a1 72, .ld .a2 80, .ld .a3 88, .ld .a4 96, .ld .a5 104, .ld .a6 112, .ld .a7 120,
   .ld .s2 128, .ld .s3 136, .ld .s4 144, .ld .s5 152, .ld .s6 160, .ld .s7 168, .ld .s8 176, .ld .s9 184,
   .ld .s10 192, .ld .s11 200, .ld .t3 208, .ld .t4 216, .ld .t5 224, .ld .t6 232,
   .addi .sp .sp 288, .mret]

def trapEntryCode : List TrapInstr := saveCode ++ .call :: restoreCode

def load64 (mem : Bytes 64) (a : Word) : Word := load mem a 8

/-- One instruction. `call` is the handler's business: see `Exec`. -/
def TrapInstr.exec (h : Hart) : TrapInstr → Hart
  | .addi rd rs imm => h.setReg rd (h.regs rs + BitVec.ofInt 64 imm)
  | .mv rd rs => h.setReg rd (h.regs rs)
  | .sd r offset => { h with mem := store (n := 8) h.mem (h.regs .sp + BitVec.ofNat 64 offset) (h.regs r) }
  | .ld r offset => h.setReg r (load64 h.mem (h.regs .sp + BitVec.ofNat 64 offset))
  | .csrr rd c => h.setReg rd (h.csrs c)
  | .csrw c rs => h.setCsr c (h.regs rs)
  | .call => h
  | .mret => { h.setCsr .mstatus (mretStatus (h.csrs .mstatus)) with pc := h.csrs .mepc }

/-- Instructions without a call. -/
def runTrap (code : List TrapInstr) (h : Hart) : Hart := code.foldl TrapInstr.exec h

/-- Instructions with calls of a handler. -/
inductive Exec (handler : Hart → Hart → Prop) : List TrapInstr → Hart → Hart → Prop where
  | done {h : Hart} : Exec handler [] h h
  | step {i : TrapInstr} {code : List TrapInstr} {h h' : Hart} : i ≠ .call → Exec handler code (i.exec h) h' →
      Exec handler (i :: code) h h'
  | call {code : List TrapInstr} {h h₁ h' : Hart} : handler h h₁ → Exec handler code h₁ h' →
      Exec handler (.call :: code) h h'

/-! ## The frame -/

/-- The `i`-th word of the struct at `p`. -/
def word (mem : Bytes 64) (p : Word) (i : Nat) : Word := load64 mem (p + BitVec.ofNat 64 (8 * i))

/-- The struct in memory: 36 words, in declaration order. -/
def TrapFrame.read (mem : Bytes 64) (p : Word) : TrapFrame where
  ra := word mem p 0
  gp := word mem p 1
  tp := word mem p 2
  t0 := word mem p 3
  t1 := word mem p 4
  t2 := word mem p 5
  s0 := word mem p 6
  s1 := word mem p 7
  a0 := word mem p 8
  a1 := word mem p 9
  a2 := word mem p 10
  a3 := word mem p 11
  a4 := word mem p 12
  a5 := word mem p 13
  a6 := word mem p 14
  a7 := word mem p 15
  s2 := word mem p 16
  s3 := word mem p 17
  s4 := word mem p 18
  s5 := word mem p 19
  s6 := word mem p 20
  s7 := word mem p 21
  s8 := word mem p 22
  s9 := word mem p 23
  s10 := word mem p 24
  s11 := word mem p 25
  t3 := word mem p 26
  t4 := word mem p 27
  t5 := word mem p 28
  t6 := word mem p 29
  sp := word mem p 30
  mepc := word mem p 31
  mcause := word mem p 32
  mtval := word mem p 33
  mstatus := word mem p 34
  mhartid := word mem p 35

/-- The same words, as stores. -/
def TrapFrame.slots (tf : TrapFrame) : List (Nat × BitVec (8 * 8)) :=
  [(0, tf.ra), (8, tf.gp), (16, tf.tp), (24, tf.t0), (32, tf.t1), (40, tf.t2), (48, tf.s0), (56, tf.s1),
   (64, tf.a0), (72, tf.a1), (80, tf.a2), (88, tf.a3), (96, tf.a4), (104, tf.a5), (112, tf.a6), (120, tf.a7),
   (128, tf.s2), (136, tf.s3), (144, tf.s4), (152, tf.s5), (160, tf.s6), (168, tf.s7), (176, tf.s8), (184, tf.s9),
   (192, tf.s10), (200, tf.s11), (208, tf.t3), (216, tf.t4), (224, tf.t5), (232, tf.t6), (240, tf.sp),
   (248, tf.mepc), (256, tf.mcause), (264, tf.mtval), (272, tf.mstatus), (280, tf.mhartid)]

/-- The field named after a register. -/
def TrapFrame.reg (tf : TrapFrame) : Gpr → Word
  | .ra => tf.ra
  | .sp => tf.sp
  | .gp => tf.gp
  | .tp => tf.tp
  | .t0 => tf.t0
  | .t1 => tf.t1
  | .t2 => tf.t2
  | .s0 => tf.s0
  | .s1 => tf.s1
  | .a0 => tf.a0
  | .a1 => tf.a1
  | .a2 => tf.a2
  | .a3 => tf.a3
  | .a4 => tf.a4
  | .a5 => tf.a5
  | .a6 => tf.a6
  | .a7 => tf.a7
  | .s2 => tf.s2
  | .s3 => tf.s3
  | .s4 => tf.s4
  | .s5 => tf.s5
  | .s6 => tf.s6
  | .s7 => tf.s7
  | .s8 => tf.s8
  | .s9 => tf.s9
  | .s10 => tf.s10
  | .s11 => tf.s11
  | .t3 => tf.t3
  | .t4 => tf.t4
  | .t5 => tf.t5
  | .t6 => tf.t6

/-- The field named after a CSR. -/
def TrapFrame.csr (tf : TrapFrame) : Csr → Word
  | .mepc => tf.mepc
  | .mcause => tf.mcause
  | .mtval => tf.mtval
  | .mstatus => tf.mstatus
  | .mhartid => tf.mhartid

/-- The frame in which every field is what it is named after. -/
def TrapFrame.ofHart (h : Hart) : TrapFrame where
  ra := h.regs .ra
  gp := h.regs .gp
  tp := h.regs .tp
  t0 := h.regs .t0
  t1 := h.regs .t1
  t2 := h.regs .t2
  s0 := h.regs .s0
  s1 := h.regs .s1
  a0 := h.regs .a0
  a1 := h.regs .a1
  a2 := h.regs .a2
  a3 := h.regs .a3
  a4 := h.regs .a4
  a5 := h.regs .a5
  a6 := h.regs .a6
  a7 := h.regs .a7
  s2 := h.regs .s2
  s3 := h.regs .s3
  s4 := h.regs .s4
  s5 := h.regs .s5
  s6 := h.regs .s6
  s7 := h.regs .s7
  s8 := h.regs .s8
  s9 := h.regs .s9
  s10 := h.regs .s10
  s11 := h.regs .s11
  t3 := h.regs .t3
  t4 := h.regs .t4
  t5 := h.regs .t5
  t6 := h.regs .t6
  sp := h.regs .sp
  mepc := h.csrs .mepc
  mcause := h.csrs .mcause
  mtval := h.csrs .mtval
  mstatus := h.csrs .mstatus
  mhartid := h.csrs .mhartid

variable {h h₁ h' : Hart} {tf tf' : TrapFrame}

theorem ofHart_reg (h : Hart) (r : Gpr) : (TrapFrame.ofHart h).reg r = h.regs r := by
  cases r with
  | _ => rfl

theorem ofHart_csr (h : Hart) (c : Csr) : (TrapFrame.ofHart h).csr c = h.csrs c := by
  cases c with
  | _ => rfl

theorem slots_offsets (tf : TrapFrame) : tf.slots.map Prod.fst = (List.range 36).map (8 * ·) := rfl

/-- The slots do not overlap. -/
theorem slots_clear (tf : TrapFrame) : tf.slots.Pairwise fun s t => Clear 64 8 s.1 t.1 := by
  have hoffsets : (tf.slots.map Prod.fst).Pairwise fun o o' => o + 8 ≤ o' ∧ o' + 8 ≤ 288 := by
    rw [slots_offsets]; decide
  refine (List.pairwise_map.mp hoffsets).imp fun {s t} hst => ?_
  exact ⟨by omega, by omega, Or.inl hst.1⟩

/-- They fill the 288 bytes of the frame. -/
theorem slots_inside (tf : TrapFrame) : ∀ s ∈ tf.slots, s.1 + 8 ≤ 288 := by
  intro s hs
  have hmem : s.1 ∈ tf.slots.map Prod.fst := List.mem_map_of_mem hs
  rw [slots_offsets] at hmem
  obtain ⟨i, hi, he⟩ := List.mem_map.mp hmem
  have hlt := List.mem_range.mp hi
  omega

/-- **Reading back what was stored.** -/
theorem read_storeAll (tf : TrapFrame) (p : Word) (mem : Bytes 64) :
    TrapFrame.read (storeAll p tf.slots mem) p = tf := by
  have hslot : ∀ s ∈ tf.slots, load (storeAll p tf.slots mem) (p + BitVec.ofNat 64 s.1) 8 = s.2 :=
    load_storeAll (by decide) (by decide) tf.slots mem (slots_clear tf)
  generalize storeAll p tf.slots mem = m at hslot ⊢
  simp only [TrapFrame.slots, List.forall_mem_cons] at hslot
  cases tf
  simp only [TrapFrame.read, word, load64, Nat.reduceMul, hslot]

/-! ## Before the call -/

/-- Where `sp` points during the trap. -/
def framePointer (h : Hart) : Word := h.regs .sp + BitVec.ofInt 64 (-288)

theorem framePointer_top (h : Hart) : framePointer h + BitVec.ofInt 64 288 = h.regs .sp := by
  unfold framePointer
  rw [BitVec.add_assoc, show BitVec.ofInt 64 (-288) + BitVec.ofInt 64 288 = 0#64 by decide, BitVec.add_zero]

/-- **The frame that the handler is given.** -/
theorem save_frame (h : Hart) :
    (runTrap saveCode h).mem = storeAll (n := 8) (framePointer h) (TrapFrame.ofHart h).slots h.mem ∧
    (runTrap saveCode h).regs .a0 = framePointer h ∧ (runTrap saveCode h).regs .sp = framePointer h := by
  have hmem : (runTrap saveCode h).mem = storeAll (n := 8) (framePointer h)
      { TrapFrame.ofHart h with sp := framePointer h + BitVec.ofInt 64 288 }.slots h.mem := rfl
  rw [hmem, framePointer_top]
  exact ⟨rfl, rfl, rfl⟩

/-- The stores touch the frame only. -/
theorem save_outside (h : Hart) {a : Word} (ha : ∀ i, i < 288 → a ≠ framePointer h + BitVec.ofNat 64 i) :
    (runTrap saveCode h).mem a = h.mem a := by
  rw [(save_frame h).1]
  exact storeAll_outside ha _ h.mem (slots_inside (TrapFrame.ofHart h))

theorem save_read (h : Hart) :
    TrapFrame.read (runTrap saveCode h).mem ((runTrap saveCode h).regs .a0) = TrapFrame.ofHart h := by
  obtain ⟨hmem, ha0, _⟩ := save_frame h
  rw [hmem, ha0]
  exact read_storeAll (TrapFrame.ofHart h) (framePointer h) h.mem

/-! ## After the call -/

/-- **What the reloads do**: every register gets its own field, `sp` steps over the frame. -/
theorem restore_regs (h : Hart) (r : Gpr) : (runTrap restoreCode h).regs r =
    if r = .sp then h.regs .sp + BitVec.ofInt 64 288 else (TrapFrame.read h.mem (h.regs .sp)).reg r := by
  cases r with
  | _ => rfl

theorem restore_pc (h : Hart) : (runTrap restoreCode h).pc = (TrapFrame.read h.mem (h.regs .sp)).mepc := rfl

/-- `mret` is the only instruction that writes `mstatus`. -/
theorem restore_mstatus (h : Hart) : (runTrap restoreCode h).csrs .mstatus = mretStatus (h.csrs .mstatus) := rfl

/-! ## Around the call -/

variable {handler : Hart → Hart → Prop} {code : List TrapInstr}

theorem exec_append : ∀ (pre : List TrapInstr) {h : Hart}, .call ∉ pre →
    (Exec handler (pre ++ code) h h' ↔ Exec handler code (runTrap pre h) h') := by
  intro pre
  induction pre with
  | nil => exact fun _ => Iff.rfl
  | cons i pre ih =>
      intro h hcall
      rw [List.mem_cons, not_or] at hcall
      have hi : i ≠ .call := fun he => hcall.1 he.symm
      show _ ↔ Exec handler code (runTrap pre (i.exec h)) h'
      rw [← ih hcall.2]
      constructor
      · intro hexec
        cases hexec with
        | step _ hrest => exact hrest
        | call _ _ => exact absurd rfl hi
      · exact Exec.step hi

theorem exec_call : Exec handler (.call :: code) h h' ↔ ∃ h₁, handler h h₁ ∧ Exec handler code h₁ h' := by
  constructor
  · intro hexec
    cases hexec with
    | step hne _ => exact absurd rfl hne
    | call hh hrest => exact ⟨_, hh, hrest⟩
  · rintro ⟨h₁, hh, hrest⟩
    exact Exec.call hh hrest

theorem exec_done : Exec handler [] h h' ↔ h' = h := by
  constructor
  · intro hexec
    cases hexec with
    | done => rfl
  · rintro rfl
    exact Exec.done

/-- A whole trap: save, handler, restore. -/
theorem exec_trapEntry : Exec handler trapEntryCode h h' ↔
    ∃ h₁, handler (runTrap saveCode h) h₁ ∧ h' = runTrap restoreCode h₁ := by
  have hrest : ∀ h₁, Exec handler restoreCode h₁ h' ↔ h' = runTrap restoreCode h₁ := by
    intro h₁
    have happ : Exec handler (restoreCode ++ []) h₁ h' ↔ Exec handler [] (runTrap restoreCode h₁) h' :=
      exec_append restoreCode (by decide)
    rw [List.append_nil] at happ
    exact happ.trans exec_done
  unfold trapEntryCode
  rw [exec_append saveCode (by decide), exec_call]
  exact exists_congr fun h₁ => and_congr_right fun _ => hrest h₁

/-- Around a handler that leaves `mstatus` alone a trap ends with what `mret` makes of it. -/
theorem trap_mstatus (hkeep : ∀ h₀ h₁, handler h₀ h₁ → h₁.csrs .mstatus = h₀.csrs .mstatus)
    (hexec : Exec handler trapEntryCode h h') : h'.csrs .mstatus = mretStatus (h.csrs .mstatus) := by
  obtain ⟨h₁, hret, rfl⟩ := exec_trapEntry.mp hexec
  have hsave : (runTrap saveCode h).csrs .mstatus = h.csrs .mstatus := rfl
  rw [restore_mstatus, hkeep _ _ hret, hsave]

/-- **What the calling convention promises** of a `trap_handle` that returns: `sp` is what it was, and the frame
is what the handler's own assignments through its argument have made of it. -/
structure HandlerReturns (bus : Bus) (p : Platform) (h h₁ : Hart) : Prop where
  sp : h₁.regs .sp = h.regs .sp
  frame : ∃ tf' p', trapHandle bus (TrapFrame.read h.mem (h.regs .a0)) p = some (.returns tf' p') ∧
    TrapFrame.read h₁.mem (h.regs .a0) = tf'

/-- The machine after a trap, from the frame the handler leaves. -/
theorem trap_resumes {bus : Bus} {p : Platform} (hexec : Exec (HandlerReturns bus p) trapEntryCode h h') :
    ∃ tf' p', trapHandle bus (TrapFrame.ofHart h) p = some (.returns tf' p') ∧
      (∀ r, r ≠ .sp → h'.regs r = tf'.reg r) ∧ h'.regs .sp = h.regs .sp ∧ h'.pc = tf'.mepc := by
  obtain ⟨h₁, hret, rfl⟩ := exec_trapEntry.mp hexec
  obtain ⟨_, ha0, hsp⟩ := save_frame h
  obtain ⟨tf', p', htrap, hread⟩ := hret.frame
  have hsp₁ : h₁.regs .sp = framePointer h := hret.sp.trans hsp
  rw [save_read] at htrap
  rw [ha0, ← hsp₁] at hread
  refine ⟨tf', p', htrap, fun r hr => ?_, ?_, ?_⟩
  · rw [restore_regs, if_neg hr, hread]
  · rw [restore_regs, if_pos rfl, hsp₁, framePointer_top]
  · rw [restore_pc, hread]

/-- **Traps are transparent.** The handler is given a frame in which every field is what it is named after. If it
returns, the trap ends, and then every register but `a0` is what it was, and `a0` and the place to go on from are
as the cause wants them. -/
theorem trap_transparent (bus : Bus) (p : Platform) (h : Hart) :
    TrapFrame.read (runTrap saveCode h).mem ((runTrap saveCode h).regs .a0) = TrapFrame.ofHart h ∧
    ((∃ tf' p', trapHandle bus (TrapFrame.ofHart h) p = some (.returns tf' p')) →
      ∃ h', Exec (HandlerReturns bus p) trapEntryCode h h') ∧
    ∀ h', Exec (HandlerReturns bus p) trapEntryCode h h' →
      (∀ r, r ≠ .a0 → h'.regs r = h.regs r) ∧
      ((Cause.timer.Is (h.csrs .mcause) ∧ h'.regs .a0 = h.regs .a0 ∧ h'.pc = h.csrs .mepc) ∨
       (Cause.breakpoint.Is (h.csrs .mcause) ∧ h'.regs .a0 = h.regs .a0 ∧ h'.pc = h.csrs .mepc + 4#64) ∨
       (Cause.ecall.Is (h.csrs .mcause) ∧ h'.pc = h.csrs .mepc + 4#64 ∧ ∃ q q' : Platform, p.Prints q ∧
        Syscall.dispatch bus.ram (TrapFrame.ofHart h) q.k = some (.returns (h'.regs .a0) q'.k))) := by
  refine ⟨save_read h, ?_, fun h' hexec => ?_⟩
  · rintro ⟨tf', p', htrap⟩
    obtain ⟨_, ha0, hsp⟩ := save_frame h
    -- a handler that rewrites the frame and leaves the rest alone
    refine ⟨_, exec_trapEntry.mpr ⟨{ runTrap saveCode h with
      mem := storeAll (n := 8) (framePointer h) tf'.slots (runTrap saveCode h).mem }, ⟨rfl, tf', p', ?_, ?_⟩, rfl⟩⟩
    · rw [save_read]; exact htrap
    · rw [ha0]; exact read_storeAll tf' (framePointer h) _
  · obtain ⟨tf', p', htrap, hregs, hsp, hpc⟩ := trap_resumes hexec
    have hother : ∀ r, tf'.reg r = h.regs r → h'.regs r = h.regs r := by
      intro r hr
      by_cases hrsp : r = .sp
      · rw [hrsp]; exact hsp
      · rw [hregs r hrsp]; exact hr
    cases trapHandle_returns htrap with
    | timer hcause =>
        refine ⟨fun r _ => hother r (ofHart_reg h r), Or.inl ⟨hcause, ?_, hpc⟩⟩
        exact hregs .a0 (by decide)
    | breakpoint hcause =>
        refine ⟨fun r _ => hother r ?_, Or.inr (Or.inl ⟨hcause, hregs .a0 (by decide), hpc⟩)⟩
        rw [← ofHart_reg h r]
        cases r with
        | _ => rfl
    | ecall hcause _ hq hret =>
        refine ⟨fun r hr => hother r ?_, Or.inr (Or.inr ⟨hcause, hpc, ?_⟩)⟩
        · rw [← ofHart_reg h r]
          cases r with
          | a0 => exact absurd rfl hr
          | _ => rfl
        · rw [hregs .a0 (by decide)]
          exact ⟨_, _, hq, hret⟩

/-- A task at an `ecall` with the number of `yield`. -/
def yieldHart : Hart where
  regs := fun r => if r = .a7 then 3#64 else 0x80010000#64
  csrs := fun c => if c = .mcause then 11#64 else 0x80000200#64
  pc := 0#64
  mem := fun _ => 0#8

def testBus : Bus := ⟨fun _ => 0#8, 0#64, 0#64⟩

def testPlatform : Platform := ⟨blankKernel, ⟨0#64, 0#64, 0#64⟩⟩

/-- It goes on behind the `ecall` on its own stack. -/
theorem trap_transparent_test : ∃ h', Exec (HandlerReturns testBus testPlatform) trapEntryCode yieldHart h' ∧
    h'.regs .sp = 0x80010000#64 ∧ h'.pc = 0x80000204#64 := by
  obtain ⟨_, hreturns, hafter⟩ := trap_transparent testBus testPlatform yieldHart
  have hcause : Cause.ecall.Is (TrapFrame.ofHart yieldHart).mcause := ⟨by decide, by decide⟩
  obtain ⟨q, _, htrap⟩ := trapHandle_ecall hcause testBus testPlatform
  have hnumber : (TrapFrame.ofHart yieldHart).a7 ≠ Syscall.Number.exit.value := by decide
  obtain ⟨ret, q', _, _, hret⟩ := ecall_returns hnumber testBus q
  obtain ⟨h', hexec⟩ := hreturns ⟨_, _, htrap.trans hret⟩
  obtain ⟨hregs, hcases⟩ := hafter h' hexec
  refine ⟨h', hexec, hregs .sp (by decide), ?_⟩
  rcases hcases with ⟨htimer, _⟩ | ⟨hbreak, _⟩ | ⟨_, hpc, _⟩
  · exact absurd htimer.1 (by decide)
  · exact absurd hbreak.2 (by decide)
  · exact hpc

end Core
end RiscCore
