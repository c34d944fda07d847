import Mathlib.Logic.Function.Basic
import RiscCore.Arch.Sv39

/-!
# `Arch.PageTable` — the table walkers (`kernel/arch/riscv/mm/page_table.cpp`)

Memory is what the walkers see of it: the 512 entries of the table at each pointer. The allocator's own variables,
`g_kernel_page_table` and the stack are outside it. The page allocator is a parameter, a function of its own state;
`none` is a fault inside the allocator, `0` a null result. Pointers are words, `0` is `nullptr`. The loops over
`level` recurse on it, so that the walk through levels 2 and 1 and the handling of level 0 stand where the source
has them.
-/

namespace RiscCore
namespace Arch

open Mm

/-- `PageTable::entries`, for every table pointer. Tables at different pointers are taken not to overlap, as
    page-aligned ones do not. -/
abbrev Mem := Word → Fin 512 → Pte

/-- `table->entries[i] = pte`. -/
def Mem.setEntry (m : Mem) (table : Word) (i : Fin 512) (pte : Pte) : Mem :=
  Function.update m table (Function.update (m table) i pte)

/-- The memory and the allocator's state. -/
structure World (α : Type) where
  mem : Mem
  src : α

/-- `alloc_page` as the walkers call it. -/
abbrev AllocPage (α : Type) := α → Option (Word × α)

variable {α : Type} (allocPage : AllocPage α)

def zeroPage (m : Mem) (page : Word) : Mem :=
  (List.finRange 512).foldl (fun m i => m.setEntry page i 0#64) m

def pteToTable (pte : Pte) : Word := pteToPa pte

def allocPageTable (w : World α) : Option (Word × World α) := do
  let (page, src) ← allocPage w.src
  if page = 0#64 then
    return (0#64, { w with src := src })
  else
    return (page, { mem := zeroPage w.mem page, src := src })

/-- The first half of the loop body of `map_page`: a missing intermediate table is allocated and linked.
    `false` is the early return on a null page. -/
def ensureTable (w : World α) (table : Word) (index : Fin 512) : Option (Bool × World α) :=
  if !pteValid (w.mem table index) then do
    let (next, w') ← allocPageTable allocPage w
    if next = 0#64 then
      return (false, w')
    else
      return (true, { w' with mem := w'.mem.setEntry table index (makePte next pteV) })
  else
    some (true, w)

/-- The loop of `map_page` from `level` down to 1. A null table is the early `return false`. -/
def mapWalk (va : Word) : Nat → Word → World α → Option (Option Word × World α)
  | 0, table, w => some (some table, w)
  | level + 1, table, w => do
    let index := vpnSlot va (level + 1)
    let (ok, w') ← ensureTable allocPage w table index
    if !ok then
      return (none, w')
    else
      let pte := w'.mem table index
      -- a large page is in the way
      if pteLeaf pte then
        return (none, w')
      else
        mapWalk va level (pteToTable pte) w'

def mapPage (w : World α) (root va pa flags : Word) : Option (Bool × World α) :=
  if root = 0#64 then
    some (false, w)
  else if !isPageAligned va || !isPageAligned pa then
    some (false, w)
  else do
    let (table?, w') ← mapWalk allocPage va 2 root w
    match table? with
    | none => return (false, w')
    | some table =>
      let index := vpnSlot va 0
      -- tables allocated on the way down stay, also when the page is mapped already
      if pteValid (w'.mem table index) then
        return (false, w')
      else
        return (true, { w' with mem := w'.mem.setEntry table index (makePte pa (flags ||| pteV)) })

/-- The loop of `map_range`. The cursor takes at most `2 ^ 52` values before it repeats, so running out of
    that fuel is exactly running for ever. -/
def mapRangeLoop (root flags stop : Word) : Nat → World α → Word → Word → Option (Bool × World α)
  | 0, _, _, _ => none
  | fuel + 1, w, va, pa =>
    if va < stop then do
      let (ok, w') ← mapPage allocPage w root va pa flags
      if !ok then
        return (false, w')
      else
        mapRangeLoop root flags stop fuel w' (va + kPageSize) (pa + kPageSize)
    else
      some (true, w)

def mapRange (w : World α) (root va pa size flags : Word) : Option (Bool × World α) :=
  if size = 0#64 then
    some (true, w)
  else if !isPageAligned va || !isPageAligned pa then
    some (false, w)
  else
    mapRangeLoop allocPage root flags (alignUp (va + size)) (2 ^ 52) w va pa

/-- The loop of `virt_to_phys` with `count` levels left; the current level is `count - 1`. -/
def virtToPhysLoop (m : Mem) (va : Word) : Nat → Word → Word
  | 0, _ => 0#64
  | level + 1, table =>
    let pte := m table (vpnSlot va level)
    if !pteValid pte then
      0#64
    else if pteLeaf pte then
      pteToPa pte + pageOffset va
    else
      virtToPhysLoop m va level (pteToTable pte)

def virtToPhys (m : Mem) (root va : Word) : Word :=
  if root = 0#64 then 0#64 else virtToPhysLoop m va 3 root

/-- The loop of `unmap_page` from `level` down to 1. `none` is the early `return false`. -/
def unmapWalk (m : Mem) (va : Word) : Nat → Word → Option Word
  | 0, table => some table
  | level + 1, table =>
    let pte := m table (vpnSlot va (level + 1))
    if !pteValid pte || pteLeaf pte then
      none
    else
      unmapWalk m va level (pteToTable pte)

def unmapPage (m : Mem) (root va : Word) : Bool × Mem :=
  if root = 0#64 ∨ isPageAligned va = false then
    (false, m)
  else
    match unmapWalk m va 2 root with
    | none => (false, m)
    | some table =>
      let leaf := m table (vpnSlot va 0)
      if !pteValid leaf || !pteLeaf leaf then
        (false, m)
      else
        (true, m.setEntry table (vpnSlot va 0) 0#64)

/-! ## Reading after a write -/

@[simp] theorem Mem.setEntry_self (m : Mem) (t : Word) (i : Fin 512) (pte : Pte) :
    m.setEntry t i pte t i = pte := by
  simp [Mem.setEntry]

theorem Mem.setEntry_of_ne {m : Mem} {t t' : Word} {i i' : Fin 512} (pte : Pte) (h : ¬ (t' = t ∧ i' = i)) :
    m.setEntry t i pte t' i' = m t' i' := by
  by_cases ht : t' = t
  · subst ht
    have hi : i' ≠ i := fun hi => h ⟨rfl, hi⟩
    simp [Mem.setEntry, hi]
  · simp [Mem.setEntry, ht]

theorem Mem.setEntry_apply (m : Mem) (t : Word) (i : Fin 512) (pte : Pte) (t' : Word) (i' : Fin 512) :
    m.setEntry t i pte t' i' = if t' = t ∧ i' = i then pte else m t' i' := by
  split
  · rename_i h
    obtain ⟨rfl, rfl⟩ := h
    exact Mem.setEntry_self ..
  · rename_i h
    exact Mem.setEntry_of_ne pte h

/-- The zeroing loop clears the page and touches nothing else. -/
theorem zeroPage_apply (m : Mem) (page t : Word) (i : Fin 512) :
    zeroPage m page t i = if t = page then 0#64 else m t i := by
  have hfold : ∀ (is : List (Fin 512)) (m : Mem),
      is.foldl (fun m i => m.setEntry page i 0#64) m t i = if t = page ∧ i ∈ is then 0#64 else m t i := by
    intro is
    induction is with
    | nil => intro m; simp
    | cons j is ih =>
        intro m
        rw [List.foldl_cons, ih, Mem.setEntry_apply]
        by_cases ht : t = page
        · by_cases hj : i = j
          · simp [ht, hj]
          · simp [ht, hj]
        · simp [ht]
  rw [zeroPage, hfold]
  simp

end Arch
end RiscCore
