import RiscCore.Lib.BitSet
import RiscCore.Mm.Page

/-!
# `Mm.Pmm` — the physical page allocator (`kernel/mm/pmm.cpp`)

The module's four globals are the fields of `Pmm`; `none` is an access outside `g_used_bitmap`. Pointers
and addresses are words (`0` is `nullptr`), `size_t` counters are naturals with the 64-bit wrap written
where they are incremented or subtracted.
-/

namespace RiscCore
namespace Mm

/-- The memory that `pmm_init` is given, `[base, base + size)`. -/
structure PhysicalRange where
  base : Word
  size : Word
deriving DecidableEq, Repr

structure ReservedRange where
  base : Word
  size : Word
deriving DecidableEq, Repr

structure PmmStats where
  totalPages : Nat
  freePages : Nat
  usedPages : Nat
deriving DecidableEq, Repr

/-- The bitmap has room for 128 MiB of pages. -/
def kMaxManagedPages : Nat := 32768
def kBitsPerWord : Nat := 64
def kBitmapWords : Nat := (kMaxManagedPages + kBitsPerWord - 1) / kBitsPerWord

/-- The allocator's state. A set bit means *used*. -/
structure Pmm where
  gUsedBitmap : Vector Word kBitmapWords
  gManagedBase : Word
  gTotalPages : Nat
  gFreePages : Nat
deriving DecidableEq

def bitMask (bit : Nat) : Word := 1#64 <<< (bit % kBitsPerWord)

def wordIndex (bit : Nat) : Nat := bit / kBitsPerWord

namespace Pmm

/-- The page's number in the bitmap; a `pa` below the base wraps. -/
def paToIndex (s : Pmm) (pa : Word) : Nat := ((pa - s.gManagedBase) >>> kPageShift).toNat

def usedIndex (s : Pmm) (index : Nat) : Option Bool := do
  let w ← s.gUsedBitmap[wordIndex index]?
  return (w &&& bitMask index) != 0#64

def markUsedIndex (s : Pmm) (index : Nat) : Option Pmm := do
  let word := wordIndex index
  let mask := bitMask index
  let w ← s.gUsedBitmap[word]?
  if (w &&& mask) == 0#64 then
    return { s with
      gUsedBitmap := s.gUsedBitmap.setIfInBounds word (w ||| mask)
      gFreePages := if s.gFreePages > 0 then s.gFreePages - 1 else s.gFreePages }
  else
    return s

/-- The mask is taken from the *word* number, as the source has it. -/
def markFreeIndex (s : Pmm) (index : Nat) : Option Pmm := do
  let word := wordIndex index
  let mask := bitMask word
  let w ← s.gUsedBitmap[word]?
  if (w &&& mask) != 0#64 then
    return { s with
      gUsedBitmap := s.gUsedBitmap.setIfInBounds word (w &&& ~~~mask)
      gFreePages := (s.gFreePages + 1) % 2 ^ 64 }
  else
    return s

/-- `g_managed_base + index * kPageSize`. -/
def pageAddr (base : Word) (index : Nat) : Word := base + BitVec.ofNat 64 index * kPageSize

/-- `for(pa = start; pa < end; pa += kPageSize) mark_used_index(pa_to_index(pa))`. The counter visits
    `2 ^ 52` different values, so running out of that fuel is exactly running for ever. -/
def reserveLoop (stop : Word) : Nat → Pmm → Word → Option Pmm
  | 0, _, _ => none
  | fuel + 1, s, pa =>
    if pa < stop then do
      let s' ← s.markUsedIndex (s.paToIndex pa)
      reserveLoop stop fuel s' (pa + kPageSize)
    else
      some s

/-- Takes the pages of one range out again, clipped to the managed ones. -/
def reserveRange (s : Pmm) (base size : Word) : Option Pmm :=
  if size = 0#64 ∨ s.gTotalPages = 0 then
    some s
  else
    let managedStart := s.gManagedBase
    let managedEnd := pageAddr s.gManagedBase s.gTotalPages
    let reserveStart := alignDown base
    let reserveEnd := alignUp (base + size)
    let start := if reserveStart < managedStart then managedStart else reserveStart
    let stop := if reserveEnd > managedEnd then managedEnd else reserveEnd
    if start ≥ stop then
      some s
    else
      reserveLoop stop (2 ^ 52) s start

/-- `for(i = from; i < from + count; ++i) mark_free_index(i)`. -/
def markFreeLoop : Nat → Pmm → Nat → Option Pmm
  | 0, s, _ => some s
  | count + 1, s, i => do
    let s' ← s.markFreeIndex i
    markFreeLoop count s' (i + 1)

/-- The loop over the caller's array of reserved ranges. -/
def reserveAll (s : Pmm) : List ReservedRange → Option Pmm
  | [] => some s
  | r :: rs => do
    let s' ← s.reserveRange r.base r.size
    s'.reserveAll rs

end Pmm

/-- Everything is used at first; then the managed pages are freed and the reserved ranges taken out. -/
def pmmInit (managed : PhysicalRange) (reserved : List ReservedRange) : Option Pmm :=
  let base := alignUp managed.base
  let stop := alignDown (managed.base + managed.size)
  let s : Pmm :=
    { gUsedBitmap := Vector.replicate kBitmapWords (BitVec.allOnes 64)
      gManagedBase := base
      gTotalPages := 0
      gFreePages := 0 }
  if stop ≤ base then
    some s
  else do
    let pageCount := ((stop - base) / kPageSize).toNat
    let total := if pageCount < kMaxManagedPages then pageCount else kMaxManagedPages
    let s' ← Pmm.markFreeLoop total { s with gTotalPages := total } 0
    s'.reserveAll reserved

namespace Pmm

/-- The scan of `alloc_page` from index `i`, `count` indices left. -/
def allocLoop (s : Pmm) : Nat → Nat → Option (Word × Pmm)
  | 0, _ => some (0#64, s)
  | count + 1, i => do
    if !(← s.usedIndex i) then
      let s' ← s.markUsedIndex i
      return (pageAddr s.gManagedBase i, s')
    else
      allocLoop s count (i + 1)

/-- The first free page, `0` if there is none. -/
def allocPage (s : Pmm) : Option (Word × Pmm) := s.allocLoop s.gTotalPages 0

/-- A page boundary between the base and the end of the managed pages. -/
def isManagedPage (s : Pmm) (pa : Word) : Bool :=
  if !isPageAligned pa then
    false
  else
    let start := s.gManagedBase
    let stop := pageAddr s.gManagedBase s.gTotalPages
    decide (pa ≥ start) && decide (pa < stop)

/-- The `Bool` is whether the page was taken back. -/
def freePage (s : Pmm) (page : Word) : Option (Bool × Pmm) :=
  let pa := page
  if !s.isManagedPage pa || !isPageAligned pa then
    some (false, s)
  else do
    let index := s.paToIndex pa
    if !(← s.usedIndex index) then
      return (false, s)
    else
      let s' ← s.markFreeIndex index
      return (true, s')

def totalPages (s : Pmm) : Nat := s.gTotalPages

def freePages (s : Pmm) : Nat := s.gFreePages

/-- The used pages are a difference of `size_t`s. -/
def getStats (s : Pmm) : PmmStats where
  totalPages := s.gTotalPages
  freePages := s.gFreePages
  usedPages := (s.gTotalPages + 2 ^ 64 - s.gFreePages) % 2 ^ 64

/-- No unmanaged page is free. -/
def isPageFree (s : Pmm) (pa : Word) : Option Bool :=
  if !s.isManagedPage pa then
    some false
  else do
    return !(← s.usedIndex (s.paToIndex pa))

end Pmm
end Mm
end RiscCore
