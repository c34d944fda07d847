import RiscCore.Arch.Mmu
import RiscCore.Boot.Entry
import RiscCore.Core.Launch
import RiscCore.Mm.PlatformInit

/-!
# `Boot.Kmain` — the whole boot (`kernel/kernel.cpp`)

`kmain` up to the switch into the first task, on everything it touches: the allocator and the page table, the
control registers, the timer, the scheduler and the serial port. `.bss` is zero when it begins (`Boot.Entry`).

The result is the state and the output of the whole system, from the first line to the last (`kmain_runs`). It holds
for the time before the first interrupt, which may come while `kmain` still runs: `KernelTimer::init` enables it, but
`mtvec` is still what it was, since nobody calls `trap::init`.
-/

namespace RiscCore
namespace Boot

open Mm Arch RiscCore.Core Cooperative Runs Ds Drivers Circular

/-- What the linker makes of the kernel: the image, the addresses in it, and the code of the two tasks at theirs. -/
structure Program where
  img : Boot.Image
  sym : Symbols
  text : Core.Image
  entryA : Word
  entryB : Word
  stackA : Word
  stackB : Word
  codeA : text entryA = taskA
  codeB : text entryB = taskB
  entryA_ne : entryA ≠ sym.idleTaskEntry
  entryB_ne : entryB ≠ sym.idleTaskEntry
  stackA_in : img.bssStart ≤ stackA.toNat
  stackB_in : img.bssStart ≤ stackB.toNat

/-- A small kernel: code and constants in six pages, one page of data, and the stacks in `.bss`. -/
def testProgram : Program where
  img := ⟨⟨0x5000, 0x1000, 0x100, 0x3000⟩, by decide⟩
  sym := ⟨0x80000100#64, 0x80000200#64, 0x80008800#64, by decide⟩
  text := testText
  entryA := 0x80000300#64
  entryB := 0x80000400#64
  stackA := 0x80008000#64
  stackB := 0x80008400#64
  codeA := if_pos rfl
  codeB := if_neg (by decide)
  entryA_ne := by decide
  entryB_ne := by decide
  stackA_in := by decide
  stackB_in := by decide

/-- The control registers that somebody writes, or should. -/
structure Csrs where
  satp : Word
  mie : Word
  mstatus : Word
  mtvec : Word
deriving DecidableEq, Repr

/-- What `kmain` works on. -/
structure KernelState where
  space : KernelSpace Pmm
  csrs : Csrs
  timer : KernelTimer
  k : Kernel

namespace KernelState

def puts (h : KernelState) (s : String) : KernelState := { h with k := h.k.print (h.k.uart.puts (literal s)) }

/-- `enable_sv39`. In M-mode nothing is translated, so nothing is cached that `sfence.vma` could drop. -/
def enableSv39 (h : KernelState) (root : Word) : KernelState :=
  { h with csrs := { h.csrs with satp := makeSatp root } }

def setMieBits (h : KernelState) (bits : Word) : KernelState :=
  { h with csrs := { h.csrs with mie := h.csrs.mie ||| bits } }

def setMstatusBits (h : KernelState) (bits : Word) : KernelState :=
  { h with csrs := { h.csrs with mstatus := h.csrs.mstatus ||| bits } }

/-- `KernelTimer::init`, with the two writes that enable the interrupt. -/
def timerInit (h : KernelState) (interval now : Word) : KernelState :=
  (({ h with timer := h.timer.init interval now }).setMieBits (1#64 <<< 7)).setMstatusBits (1#64 <<< 3)

end KernelState

/-- The first half of `kmain`: memory, paging and the timer. `now` is what `mtime` reads as. -/
def bringUp (img : Boot.Image) (now : Word) (h : KernelState) : Option KernelState := do
  let h := h.puts "uart ok\n"
  let pmm ← pmmInitPlatform img.toSizes
  let h := ({ h with space := { h.space with world := { h.space.world with src := pmm } } }).puts "pmm ok\n"
  let space ← kernelAddressSpaceInit Pmm.allocPage h.space
  let h := ({ h with space := space }).puts "kernel page table ok\n"
  let h := (h.enableSv39 (kernelPageTable h.space)).puts "paging enabled\n"
  let h := h.puts "trap installed\n"
  let h := h.timerInit 10000000#64 now
  let out ← (h.k.uart.puts (literal "current ticks count: ")).putDec h.timer.ticks
  return { h with k := h.k.print (out.putc 10#8) }

/-- The second half: the tasks. -/
def startTasks (prog : Program) (h : KernelState) : Option KernelState := do
  let h := h.puts "start tasks scheduler\n"
  -- the greeting is `bootstrap_scheduler`'s own
  let h := h.puts "Hello from bootstrap_scheduler\n"
  let h := ({ h with k := bootstrapScheduler prog.sym h.k }).puts "Task manager and scheduler inited\n"
  let (taskA, k) := TaskManager.createKernelTask prog.sym h.k prog.entryA prog.stackA 1024#64
  let (taskB, k) := TaskManager.createKernelTask prog.sym k prog.entryB prog.stackB 1024#64
  let h := ({ h with k := k }).puts "Creating task A&B\n"
  let (_, k) ← RunQueue.push taskA h.k
  let (_, k) ← RunQueue.push taskB k
  let h := ({ h with k := k }).puts "Start scheduler\n"
  let k ← Scheduler.start h.k
  return { h with k := k }

def kmain (prog : Program) (now : Word) (h : KernelState) : Option KernelState := do
  let h ← bringUp prog.img now h
  startTasks prog h

/-- `.bss` before `kmain`: no page table, no allocator, no ticks. The rest is whatever it is. -/
def zeroedPmm : Pmm := ⟨Vector.replicate kBitmapWords 0#64, 0#64, 0, 0⟩

def KernelState.atKmain (mem : Mem) (csrs : Csrs) (mtimecmp0 : Word) (k : Kernel) : KernelState :=
  ⟨⟨⟨mem, zeroedPmm⟩, 0#64⟩, csrs, ⟨0#64, 0#64, mtimecmp0⟩, k⟩

/-! ## Memory, paging and the timer -/

/-- The lines of the first half. -/
def bringUpLines : List String :=
  ["uart ok\n", "pmm ok\n", "kernel page table ok\n", "paging enabled\n", "trap installed\n",
    "current ticks count: 0\n"]

/-- The lines of the second half. -/
def startLines : List String :=
  ["start tasks scheduler\n", "Hello from bootstrap_scheduler\n", "Task manager and scheduler inited\n",
    "Creating task A&B\n", "Start scheduler\n"]

/-- Lines as they are sent. -/
def sentLines (lines : List String) : List Byte := (lines.flatMap literal).flatMap expandNewline

theorem print_uart (k : Kernel) (out : Uart) : (k.print out).uart = out := rfl

theorem puts_uart (h : KernelState) (s : String) : (h.puts s).k.uart = h.k.uart ++ (literal s).flatMap expandNewline :=
  puts_eq _ _

variable {prog : Program} {h h' : KernelState}

theorem bringUp_runs (img : Boot.Image) (now : Word) (mem : Mem) (csrs : Csrs) (mtimecmp0 : Word) (k : Kernel) :
    ∃ h', bringUp img now (KernelState.atKmain mem csrs mtimecmp0 k) = some h' ∧
      (Complete h'.space.world.mem (kernelPageTable h'.space) ↔ imagePages img ≤ 28411) ∧
      h'.csrs = ⟨makeSatp (kernelPageTable h'.space), csrs.mie ||| 0x80#64, csrs.mstatus ||| 8#64, csrs.mtvec⟩ ∧
      h'.timer = ⟨10000000#64, 0#64, now + 10000000#64⟩ ∧ h'.k = k.print (k.uart ++ sentLines bringUpLines) := by
  obtain ⟨s, space, hpmm, hinit, hcomplete⟩ := boot_table_complete_iff img mem
  have hrun : bringUp img now (KernelState.atKmain mem csrs mtimecmp0 k) = some
      ⟨space, ⟨makeSatp (kernelPageTable space), csrs.mie ||| 0x80#64, csrs.mstatus ||| 8#64, csrs.mtvec⟩,
        ⟨10000000#64, 0#64, now + 10000000#64⟩, k.print (k.uart ++ sentLines bringUpLines)⟩ := by
    unfold bringUp
    rw [hpmm]
    show (kernelAddressSpaceInit Pmm.allocPage ⟨⟨mem, s⟩, 0#64⟩).bind _ = _
    rw [hinit, Option.bind_some]
    dsimp only
    rw [Uart.putDec_eq]
    dsimp only [KernelState.puts, KernelState.timerInit, KernelState.setMieBits, KernelState.setMstatusBits,
      KernelState.enableSv39, KernelState.atKmain, Kernel.print, Option.bind_eq_bind, Option.bind_some]
    have hlines : (literal "uart ok\n").flatMap expandNewline ++ ((literal "pmm ok\n").flatMap expandNewline ++
        ((literal "kernel page table ok\n").flatMap expandNewline ++
        ((literal "paging enabled\n").flatMap expandNewline ++ ((literal "trap installed\n").flatMap expandNewline ++
        ((literal "current ticks count: ").flatMap expandNewline ++ (Uart.decimal 0#64 ++ expandNewline 10#8)))))) =
        sentLines bringUpLines := by decide +kernel
    have hticks : (KernelTimer.init ⟨0#64, 0#64, mtimecmp0⟩ 10000000#64 now).ticks = 0#64 := rfl
    simp only [puts_eq, putc_eq, hticks, List.append_assoc, hlines]
    rfl
  exact ⟨_, hrun, hcomplete, rfl, rfl, rfl⟩

/-! ## The tasks -/

namespace Program

def creationA (prog : Program) : Creation := ⟨prog.entryA, prog.stackA, 1024#64⟩

def creationB (prog : Program) : Creation := ⟨prog.entryB, prog.stackB, 1024#64⟩

/-- Where the two tasks stand before they have run. -/
def threads (prog : Program) : List Thread := freshThreads prog.sym [prog.creationA, prog.creationB]

/-- The stacks lie in the image, so `create_kernel_task` takes them. -/
theorem accepted (prog : Program) : prog.creationA.Accepted ∧ prog.creationB.Accepted := by
  have hne : ∀ stack : Word, prog.img.bssStart ≤ stack.toNat → stack ≠ 0#64 := by
    intro stack hle hz
    have hlow := (ordered prog.img.toSizes).bss_below.1
    rw [hz] at hle
    have hzero : (0#64).toNat = 0 := rfl
    omega
  have hsize : (1024#64) ≠ 0#64 := by decide
  exact ⟨⟨hne _ prog.stackA_in, hsize⟩, ⟨hne _ prog.stackB_in, hsize⟩⟩

end Program

theorem createKernelTask_uart (sym : Symbols) (k : Kernel) (entry stackBase stackSize : Word) :
    (TaskManager.createKernelTask sym k entry stackBase stackSize).2.uart = k.uart := by
  unfold TaskManager.createKernelTask
  split
  · rfl
  · split <;> rfl

theorem create_uart {sym : Symbols} {k k' : Kernel} {entry stackBase stackSize : Word} {t : Option TaskRef}
    (hcreate : TaskManager.createKernelTask sym k entry stackBase stackSize = (t, k')) : k'.uart = k.uart := by
  have huart := createKernelTask_uart sym k entry stackBase stackSize
  rw [hcreate] at huart
  exact huart

theorem bootstrapScheduler_uart (sym : Symbols) (k : Kernel) : (bootstrapScheduler sym k).uart = k.uart := by
  unfold bootstrapScheduler Scheduler.init RunQueue.init TaskManager.init
  exact createKernelTask_uart sym _ _ _ _

theorem setCurrent_uart (next : Option TaskRef) (k : Kernel) : (RunQueue.setCurrent next k).2.uart = k.uart := by
  unfold RunQueue.setCurrent
  split <;> rfl

theorem start_uart {k k' : Kernel} (hstart : Scheduler.start k = some k') : k'.uart = k.uart := by
  obtain ⟨⟨next, k₁⟩, hnext, hstart⟩ := Option.bind_eq_some_iff.mp hstart
  dsimp only at hstart
  have huart := setCurrent_uart (if next = none then TaskManager.idleTask k₁ else next) k₁
  generalize RunQueue.setCurrent (if next = none then TaskManager.idleTask k₁ else next) k₁ = set at huart hstart
  obtain ⟨n, _, hstart⟩ := Option.bind_eq_some_iff.mp hstart
  unfold switchContext at hstart
  obtain ⟨s, _, hstart⟩ := Option.bind_eq_some_iff.mp hstart
  obtain rfl := Option.some.inj hstart
  exact huart.trans (next_uart hnext)

theorem startTasks_runs (prog : Program) (h : KernelState) : ∃ h' c, startTasks prog h = some h' ∧ c.k = h'.k ∧
    h' = { h with k := h'.k } ∧ h'.k.uart = h.k.uart ++ sentLines startLines ∧
    Stands prog.sym c (Pool.next prog.threads) := by
  obtain ⟨haccA, haccB⟩ := prog.accepted
  have hslotA : nextSlot [] prog.creationA = some (slotOf 0) := if_pos ⟨haccA, by decide⟩
  have hslotB : nextSlot [prog.creationA] prog.creationB = some (slotOf 1) := if_pos ⟨haccB, Nat.lt_of_sub_eq_succ rfl⟩
  have hrosterA : enlist [] prog.creationA = [prog.creationA] := if_pos ⟨haccA, by decide⟩
  have hrosterB : enlist [prog.creationA] prog.creationB = [prog.creationA, prog.creationB] :=
    if_pos ⟨haccB, Nat.lt_of_sub_eq_succ rfl⟩
  generalize hk : ((h.puts "start tasks scheduler\n").puts "Hello from bootstrap_scheduler\n").k = k
  -- `bootstrap_scheduler`
  obtain ⟨a₀, h₀, hready₀⟩ := Enlisted.boot prog.sym k
  have hprint₀ := h₀.print ((bootstrapScheduler prog.sym k).uart.puts (literal "Task manager and scheduler inited\n"))
  -- two calls of `create_kernel_task`
  obtain ⟨c₁, a₁, hcallA, _, h₁, hready₁, hpushed₁⟩ := hprint₀.create prog.creationA
  rw [hrosterA] at h₁
  obtain ⟨c₂, a₂, hcallB, _, h₂, hready₂, hpushed₂⟩ := h₁.create prog.creationB
  rw [hrosterB] at h₂
  have hprint₂ := h₂.print (c₂.k.uart.puts (literal "Creating task A&B\n"))
  -- two of `RunQueue::push`
  have hA : (slotOf 0).val ≤ [prog.creationA, prog.creationB].length := show 1 ≤ 2 by decide
  have hB : (slotOf 1).val ≤ [prog.creationA, prog.creationB].length := show 2 ≤ 2 by decide
  have hnone : ∀ t, c₂.h.pushed t = false := fun t => by rw [hpushed₂, hpushed₁]; rfl
  obtain ⟨c₃, hpushA, _, _, h₃, hpushed₃⟩ := hprint₂.push (by decide) hA (hnone _)
  have hnotB : c₃.h.pushed (slotOf 1) = false := by
    rw [hpushed₃, if_neg (by decide)]
    exact hnone _
  obtain ⟨c₄, hpushB, _, _, h₄, _⟩ := h₃.push (by decide) hB hnotB
  have hprint₄ := h₄.print (c₄.k.uart.puts (literal "Start scheduler\n"))
  -- and `start`
  obtain ⟨c₅, hstart, _, _, hstands⟩ := hprint₄.start
  rw [hslotA] at hcallA
  rw [hslotB] at hcallB
  have hcreateA : TaskManager.createKernelTask prog.sym ((bootstrapScheduler prog.sym k).print
      ((bootstrapScheduler prog.sym k).uart.puts (literal "Task manager and scheduler inited\n")))
      prog.entryA prog.stackA 1024#64 = (some (slotOf 0), c₁.k) := hcallA
  have hcreateB : TaskManager.createKernelTask prog.sym c₁.k prog.entryB prog.stackB 1024#64 =
      (some (slotOf 1), c₂.k) := hcallB
  refine ⟨{ h with k := c₅.k }, c₅, ?_, rfl, rfl, ?_, ?_⟩
  · unfold startTasks
    dsimp only [KernelState.puts] at hk ⊢
    rw [hk, hcreateA]
    dsimp only
    rw [hcreateB]
    dsimp only
    rw [hpushA]
    dsimp only [Option.bind_eq_bind, Option.bind_some]
    rw [hpushB]
    dsimp only [Option.bind_eq_bind, Option.bind_some]
    rw [hstart]
    rfl
  · have huart₁ := create_uart hcreateA
    have huart₂ := create_uart hcreateB
    have huart₃ := push_uart hpushA
    have huart₄ := push_uart hpushB
    have huart₅ := start_uart hstart
    rw [print_uart] at huart₁ huart₃ huart₅
    have hlines : (literal "start tasks scheduler\n").flatMap expandNewline ++
        ((literal "Hello from bootstrap_scheduler\n").flatMap expandNewline ++
        ((literal "Task manager and scheduler inited\n").flatMap expandNewline ++
        ((literal "Creating task A&B\n").flatMap expandNewline ++
        (literal "Start scheduler\n").flatMap expandNewline))) = sentLines startLines := by decide +kernel
    show c₅.k.uart = h.k.uart ++ sentLines startLines
    rw [huart₅, huart₄, huart₃, huart₂, huart₁]
    rw [bootstrapScheduler_uart, ← hk, puts_uart, puts_uart, puts_eq, puts_eq, puts_eq]
    simp only [List.append_assoc, hlines]
  · have hready : ((a₂.push (slotOf 0)).push (slotOf 1)).ready = slots [prog.creationA, prog.creationB].length := by
      show a₂.ready ++ [slotOf 0] ++ [slotOf 1] = slots 2
      rw [hready₂, hready₁, hready₀]
      rfl
    rw [hready, hprint₄.fresh] at hstands
    exact hstands

/-! ## The whole boot -/

/-- What the two tasks say, from the first line to the last. -/
def tasksText : List Byte :=
  initText "A" ++ helloText "A" ++ (initText "B" ++ helloText "B") ++
    (List.replicate 4 (helloText "A" ++ helloText "B")).flatten ++ exitText 233#64 ++ exitText 137#64

/-- The two tasks run to their end: six turns each, so neither outlives the other. -/
theorem Program.tasks_end (prog : Program) {c : Sys} (h : Stands prog.sym c (Pool.next prog.threads)) :
    ∃ m, ∀ timer mstatus ms, m ≤ Moment.statements ms → ∃ said s',
      trace (Moment.call prog.sym prog.text) ⟨c, timer, mstatus⟩ ms = some (said, s') ∧
      Stands prog.sym s'.sys (.idle []) ∧ said.flatten = tasksText := by
  let thA : Thread := ⟨slotOf 0, prog.entryA, (initialContext prog.sym prog.stackA 1024#64).regs⟩
  let thB : Thread := ⟨slotOf 1, prog.entryB, (initialContext prog.sym prog.stackB 1024#64).regs⟩
  have hA : image prog.sym prog.text thA.entry = greeter "A" 233#64 :=
    (Function.update_of_ne prog.entryA_ne _ _).trans prog.codeA
  have hB : image prog.sym prog.text thB.entry = greeter "B" 137#64 :=
    (Function.update_of_ne prog.entryB_ne _ _).trans prog.codeB
  obtain ⟨m, out, parked, hends⟩ := Pool.finish (act_named (image prog.sym prog.text)) _
    [greeterPlan hA rfl, greeterPlan hB rfl] rfl
  have hnil : parked = [] := by
    rw [List.eq_nil_iff_forall_not_mem]
    intro p hp
    refine not_outlives_of_equal (n := 6) ?_ ?_ ((hends.parked_iff p.start.task).mp (List.mem_map_of_mem hp))
    · intro j hj
      rcases List.mem_cons.mp hj with rfl | hj
      · rfl
      · rw [List.mem_singleton.mp hj]
        rfl
    · exact Nat.le_refl 2
  subst hnil
  refine ⟨m, fun timer mstatus ms hm => ?_⟩
  obtain ⟨said, s', htrace, hsaid, h'⟩ := @Stands.run prog.sym prog.text ms ⟨c, timer, mstatus⟩ _ h
  have hsteps : Pool.steps (Thread.act (image prog.sym prog.text)) (Moment.statements ms) (Pool.next prog.threads) =
      (out, .idle []) := Pool.steps_of_idle hends.steps hm
  rw [hsteps] at hsaid h'
  refine ⟨said, s', htrace, h', ?_⟩
  have hrounds : ∀ iA a xA iB b xB : List Byte, rounds [iA :: (List.replicate 4 a ++ [xA]),
      iB :: (List.replicate 4 b ++ [xB])] = [iA, iB, a, b, a, b, a, b, a, b, xA, xB] := fun _ _ _ _ _ _ => rfl
  have hout : out = (rounds [(initText "A" ++ helloText "A") :: (List.replicate 4 (helloText "A") ++ [exitText 233#64]),
      (initText "B" ++ helloText "B") :: (List.replicate 4 (helloText "B") ++ [exitText 137#64])]).flatten :=
    (List.append_nil out).symm.trans hends.emitted
  rw [hsaid, hout, hrounds, tasksText]
  simp only [List.replicate, List.flatten_cons, List.flatten_nil, List.append_nil, List.append_assoc]

/-- Who is in the pool has been pushed. -/
theorem Program.threads_pushed {c : Sys} {l : List Thread} (h : Stands prog.sym c (Pool.next l)) :
    ∀ th ∈ l, c.h.pushed th.task = true := by
  obtain ⟨a, p, hg, hcur, _, hpool⟩ := h
  intro th hth
  cases l with
  | nil => cases hth
  | cons first l =>
      have hp : p ≠ 0 := by
        rintro rfl
        rw [poolOf, if_pos rfl] at hpool
        cases hpool
      rw [poolOf, if_neg hp] at hpool
      obtain ⟨rfl, rfl⟩ := Pool.busy.inj hpool
      rcases List.mem_cons.mp hth with rfl | hth
      · exact (hg.sane.current p hcur).1.resolve_left hp
      · obtain ⟨t, ht, rfl⟩ := List.mem_map.mp hth
        exact (hg.sane.queued t ht).1

theorem statements_replicate (n : Nat) : Moment.statements (List.replicate n .code) = n := by
  induction n with
  | zero => rfl
  | succ n ih => exact congrArg Nat.succ ih

/-- **The boot.** Whatever the memory, the image and the clock, and if no interrupt comes, in `kmain` itself or later:
    `kmain` gets to the first task, having said its eleven lines. It leaves paging set up, with a complete table if and
    only if the image leaves enough pages, the timer armed and both interrupt bits set, but `mtvec` as it was. The two
    tasks then say their lines in turns and exit, and the idle task runs for good. -/
theorem kmain_runs (prog : Program) (now : Word) (mem : Mem) (csrs : Csrs) (mtimecmp0 : Word) (k : Kernel) :
    ∃ h' c, kmain prog now (KernelState.atKmain mem csrs mtimecmp0 k) = some h' ∧ c.k = h'.k ∧
      h'.k.uart = k.uart ++ sentLines (bringUpLines ++ startLines) ∧
      h'.csrs = ⟨makeSatp (kernelPageTable h'.space), csrs.mie ||| 0x80#64, csrs.mstatus ||| 8#64, csrs.mtvec⟩ ∧
      h'.timer = ⟨10000000#64, 0#64, now + 10000000#64⟩ ∧
      (Complete h'.space.world.mem (kernelPageTable h'.space) ↔ imagePages prog.img ≤ 28411) ∧
      ∃ m, ∀ n, m ≤ n → ∃ said s',
        trace (Moment.call prog.sym prog.text) ⟨c, h'.timer, h'.csrs.mstatus⟩ (List.replicate n .code) =
          some (said, s') ∧
        said.flatten = tasksText ∧ RunQueue.current s'.sys.k = TaskManager.idleTask s'.sys.k ∧
        Ring s'.sys.k.nodes .head ([] : List NodeRef) ∧
        ∀ th ∈ prog.threads, (s'.sys.k.tasks th.task).state = .dead := by
  obtain ⟨h₁, hup, hcomplete, hcsrs, htimer, hk⟩ := bringUp_runs prog.img now mem csrs mtimecmp0 k
  obtain ⟨h', c, hstart, hc, hsame, huart, hstands⟩ := startTasks_runs prog h₁
  have hlines : ∀ l l' : List String, sentLines l ++ sentLines l' = sentLines (l ++ l') := fun l l' => by
    simp only [sentLines, List.flatMap_append]
  obtain ⟨m, hend⟩ := prog.tasks_end hstands
  refine ⟨h', c, ?_, hc, ?_, ?_, ?_, ?_, m, fun n hn => ?_⟩
  · rw [kmain, hup]
    exact hstart
  · rw [huart, hk, print_uart, List.append_assoc, hlines]
  · rw [hsame]
    exact hcsrs
  · rw [hsame]
    exact htimer
  · rw [hsame]
    exact hcomplete
  · obtain ⟨said, s', htrace, hrest, hsaid⟩ := hend h'.timer h'.csrs.mstatus (List.replicate n .code)
      ((statements_replicate n).symm ▸ hn)
    obtain ⟨hidle, hring, hdead⟩ := hrest.rest
    refine ⟨said, s', htrace, hsaid, hidle, hring, fun th hth => hdead th.task ?_ List.not_mem_nil⟩
    rw [trace_pushed _ htrace]
    exact Program.threads_pushed hstands th hth

/-- The small kernel takes fourteen pages. -/
example : imagePages testProgram.img = 14 := by decide

end Boot
end RiscCore
