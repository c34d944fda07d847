import RiscCore.Mm.Pmm

/-!
# `Mm.Frames` — what the allocator's state means

`FrameSet` is the abstract state: a base, a number of managed pages and the set of free indices. It
carries its own well-formedness (page-aligned base, no wrap, indices inside the bitmap), so no later
lemma has to thread it. `Rep s F` says that the concrete state `s` stores `F`: the clear bits are exactly
`F.free` and the counter is their number.

One lemma per helper of the source says which abstract step it takes. `markUsedIndex` removes an index;
`markFreeIndex i` adds `freedIndex i`, the bit its mask really selects — equal to `i` only on the
*home* indices, one per bitmap word.
-/

namespace RiscCore
namespace Mm

open Pmm

/-- **The abstract allocator.** Free indices at or above `total` are possible: they are bits nobody scans. -/
structure FrameSet where
  base : Word
  total : Nat
  free : Finset Nat
  base_aligned : base.toNat % 4096 = 0
  total_le : total ≤ kMaxManagedPages
  fits : base.toNat + total * 4096 < 2 ^ 64
  free_lt : ∀ i ∈ free, i < kMaxManagedPages

namespace FrameSet

/-- Take the indices satisfying `p` out of the free set. -/
def without (F : FrameSet) (p : Nat → Prop) [DecidablePred p] : FrameSet :=
  { F with
    free := F.free.filter (fun i => ¬ p i)
    free_lt := fun i hi => F.free_lt i (Finset.mem_filter.mp hi).1 }

/-- Take one index out of the free set. -/
def reserve (F : FrameSet) (i : Nat) : FrameSet :=
  { F with
    free := F.free.erase i
    free_lt := fun j hj => F.free_lt j (Finset.mem_of_mem_erase hj) }

/-- Put one index into the free set. -/
def release (F : FrameSet) (i : Nat) (hi : i < kMaxManagedPages) : FrameSet :=
  { F with
    free := insert i F.free
    free_lt := fun j hj => (Finset.mem_insert.mp hj).elim (fun he => he ▸ hi) (F.free_lt j) }

/-- Two abstract states with the same base, size and free set are equal. -/
theorem ext_free {F G : FrameSet} (hb : F.base = G.base) (ht : F.total = G.total)
    (hf : F.free = G.free) : F = G := by
  cases F; cases G; simp only at hb ht hf; subst hb; subst ht; subst hf; rfl

@[simp] theorem reserve_base (F : FrameSet) (i : Nat) : (F.reserve i).base = F.base := rfl
@[simp] theorem reserve_total (F : FrameSet) (i : Nat) : (F.reserve i).total = F.total := rfl
@[simp] theorem reserve_free (F : FrameSet) (i : Nat) : (F.reserve i).free = F.free.erase i := rfl
@[simp] theorem release_base (F : FrameSet) {i : Nat} (hi : i < kMaxManagedPages) :
    (F.release i hi).base = F.base := rfl
@[simp] theorem release_total (F : FrameSet) {i : Nat} (hi : i < kMaxManagedPages) :
    (F.release i hi).total = F.total := rfl
@[simp] theorem release_free (F : FrameSet) {i : Nat} (hi : i < kMaxManagedPages) :
    (F.release i hi).free = insert i F.free := rfl
@[simp] theorem without_base (F : FrameSet) (p : Nat → Prop) [DecidablePred p] :
    (F.without p).base = F.base := rfl
@[simp] theorem without_total (F : FrameSet) (p : Nat → Prop) [DecidablePred p] :
    (F.without p).total = F.total := rfl
@[simp] theorem without_free (F : FrameSet) (p : Nat → Prop) [DecidablePred p] :
    (F.without p).free = F.free.filter (fun i => ¬ p i) := rfl

theorem without_congr (F : FrameSet) {p q : Nat → Prop} [DecidablePred p] [DecidablePred q]
    (h : ∀ i ∈ F.free, p i ↔ q i) : F.without p = F.without q :=
  ext_free (F := F.without p) (G := F.without q) rfl rfl
    (Finset.filter_congr fun i hi => not_congr (h i hi))

theorem without_eq_self (F : FrameSet) {p : Nat → Prop} [DecidablePred p] (h : ∀ i ∈ F.free, ¬ p i) :
    F.without p = F :=
  ext_free (F := F.without p) (G := F) rfl rfl (Finset.filter_eq_self.mpr h)

/-! ### Addresses of managed pages -/

theorem pageAddr_toNat_mod (base : Word) (i : Nat) : (pageAddr base i).toNat = (base.toNat + i * 4096) % 2 ^ 64 := by
  rw [pageAddr, kPageSize_eq, BitVec.toNat_add, BitVec.toNat_mul, BitVec.toNat_ofNat, BitVec.toNat_ofNat]
  omega

theorem pageAddr_toNat_of_le {base : Word} {i n : Nat} (hfit : base.toNat + n * 4096 < 2 ^ 64) (hi : i ≤ n) :
    (pageAddr base i).toNat = base.toNat + i * 4096 := by
  have hle : i * 4096 ≤ n * 4096 := Nat.mul_le_mul_right _ hi
  rw [pageAddr_toNat_mod, Nat.mod_eq_of_lt (Nat.lt_of_le_of_lt (Nat.add_le_add_left hle _) hfit)]

theorem pageAddr_toNat (F : FrameSet) {i : Nat} (hi : i ≤ F.total) :
    (pageAddr F.base i).toNat = F.base.toNat + i * 4096 :=
  pageAddr_toNat_of_le F.fits hi

theorem pageAddr_inj (F : FrameSet) {i j : Nat} (hi : i ≤ F.total) (hj : j ≤ F.total)
    (h : pageAddr F.base i = pageAddr F.base j) : i = j := by
  have hval := congrArg BitVec.toNat h
  rw [F.pageAddr_toNat hi, F.pageAddr_toNat hj] at hval
  omega

theorem pageAddr_aligned (F : FrameSet) {i : Nat} (hi : i ≤ F.total) :
    (pageAddr F.base i).toNat % 4096 = 0 := by
  have hb := F.base_aligned
  rw [F.pageAddr_toNat hi]; omega

theorem pageAddr_succ (base : Word) (i : Nat) : pageAddr base i + kPageSize = pageAddr base (i + 1) := by
  have hs : BitVec.ofNat 64 (i + 1) = BitVec.ofNat 64 i + 1#64 := by simp [BitVec.ofNat_add]
  rw [pageAddr, pageAddr, hs, BitVec.add_mul, BitVec.one_mul, BitVec.add_assoc]

end FrameSet

/-! ## The bit `mark_free_index` selects -/

/-- The bit cleared by `mark_free_index(index)`: offset `word % 64` of the word holding `index`. -/
def freedIndex (index : Nat) : Nat := 64 * wordIndex index + wordIndex index % kBitsPerWord

/-- The indices `mark_free_index` clears when it is asked to. -/
def IsHome (index : Nat) : Prop := freedIndex index = index

instance (index : Nat) : Decidable (IsHome index) := inferInstanceAs (Decidable (_ = _))

theorem freedIndex_word (index : Nat) : freedIndex index / 64 = index / 64 := by
  simp only [freedIndex, wordIndex, kBitsPerWord]; omega

theorem freedIndex_offset (index : Nat) : freedIndex index % 64 = index / 64 % 64 := by
  simp only [freedIndex, wordIndex, kBitsPerWord]; omega

theorem isHome_freedIndex (index : Nat) : IsHome (freedIndex index) := by
  have hword : wordIndex (freedIndex index) = wordIndex index := freedIndex_word index
  rw [IsHome, freedIndex, hword, ← freedIndex]

theorem isHome_iff {index : Nat} : IsHome index ↔ index % 64 = index / 64 % 64 := by
  simp only [IsHome, freedIndex, wordIndex, kBitsPerWord]; omega

theorem kMax_eq : kMaxManagedPages = 64 * kBitmapWords := by decide

theorem freedIndex_lt {index : Nat} (h : index < kMaxManagedPages) :
    freedIndex index < kMaxManagedPages := by
  have hw := freedIndex_word index
  simp only [kMaxManagedPages] at h ⊢
  omega

theorem word_lt {index : Nat} (h : index < kMaxManagedPages) : index / 64 < kBitmapWords :=
  BitSet.word_lt_of_lt (kMax_eq ▸ h)

/-! ## The bitmap helpers on the words

They hold of any words and any counter; the state need not store a `FrameSet`. -/

theorem getElem?_word (s : Pmm) {i : Nat} (hi : i < kMaxManagedPages) :
    s.gUsedBitmap[wordIndex i]? = some (s.gUsedBitmap[i / 64]?.getD 0#64) := by
  rw [wordIndex, kBitsPerWord, Vector.getElem?_eq_getElem (word_lt hi)]
  rfl

/-- Testing a word against a one-bit mask reads that bit. -/
theorem test_mask (v : Vector Word kBitmapWords) (i : Nat) :
    ((v[i / 64]?.getD 0#64 &&& BitSet.mask 64 (i % 64)) == 0#64) = !BitSet.mem v i := by
  have hbit := BitSet.and_mask_eq_zero (Nat.mod_lt i (by decide : 0 < 64)) (v[i / 64]?.getD 0#64)
  unfold BitSet.mem
  cases hv : (v[i / 64]?.getD 0#64).getLsbD (i % 64) with
  | false => exact beq_iff_eq.mpr (hbit.mpr hv)
  | true =>
      rw [Bool.not_true, beq_eq_false_iff_ne]
      intro hz
      rw [hbit.mp hz] at hv
      cases hv

theorem usedIndex_eq (s : Pmm) {i : Nat} (hi : i < kMaxManagedPages) :
    s.usedIndex i = some (BitSet.mem s.gUsedBitmap i) := by
  unfold usedIndex
  rw [getElem?_word s hi]
  show some (!((s.gUsedBitmap[i / 64]?.getD 0#64 &&& BitSet.mask 64 (i % 64)) == 0#64)) = _
  rw [test_mask, Bool.not_not]

theorem markUsedIndex_eq (s : Pmm) {i : Nat} (hi : i < kMaxManagedPages) : s.markUsedIndex i =
    some { s with
      gUsedBitmap := BitSet.insert s.gUsedBitmap i
      gFreePages := if BitSet.mem s.gUsedBitmap i = true then s.gFreePages else s.gFreePages - 1 } := by
  unfold markUsedIndex
  dsimp only
  rw [getElem?_word s hi]
  show (if ((s.gUsedBitmap[i / 64]?.getD 0#64 &&& BitSet.mask 64 (i % 64)) == 0#64) = true then _ else _) = _
  rw [test_mask]
  cases hm : BitSet.mem s.gUsedBitmap i with
  | true =>
      rw [BitSet.insert_of_mem (by decide) (kMax_eq ▸ hi) hm]
      rfl
  | false =>
      have hcount : (if s.gFreePages > 0 then s.gFreePages - 1 else s.gFreePages) = s.gFreePages - 1 := by
        split <;> omega
      rw [hcount]
      rfl

/-- The mask belongs to `freedIndex i`, in the word of `i`. -/
theorem markFreeIndex_eq (s : Pmm) {i : Nat} (hi : i < kMaxManagedPages) : s.markFreeIndex i =
    some { s with
      gUsedBitmap := BitSet.erase s.gUsedBitmap (freedIndex i)
      gFreePages := if BitSet.mem s.gUsedBitmap (freedIndex i) = true then (s.gFreePages + 1) % 2 ^ 64
        else s.gFreePages } := by
  have hmask : bitMask (wordIndex i) = BitSet.mask 64 (freedIndex i % 64) := by
    rw [freedIndex_offset]
    rfl
  have hword : wordIndex i = freedIndex i / 64 := (freedIndex_word i).symm
  unfold markFreeIndex
  dsimp only
  rw [getElem?_word s hi, hmask, hword, ← freedIndex_word]
  show (if (!((s.gUsedBitmap[freedIndex i / 64]?.getD 0#64 &&& BitSet.mask 64 (freedIndex i % 64)) == 0#64)) = true
    then _ else _) = _
  rw [test_mask, Bool.not_not]
  cases hm : BitSet.mem s.gUsedBitmap (freedIndex i) with
  | true => rfl
  | false =>
      rw [BitSet.erase_of_not_mem (by decide) (kMax_eq ▸ freedIndex_lt hi) hm]
      rfl

/-! ## The representation relation -/

/-- **`s` stores `F`.** -/
structure Rep (s : Pmm) (F : FrameSet) : Prop where
  base : s.gManagedBase = F.base
  total : s.gTotalPages = F.total
  free : BitSet.clear s.gUsedBitmap = F.free
  counted : s.gFreePages = F.free.card

/-- The stored state is determined by the abstract one. -/
theorem Rep.unique {s t : Pmm} {F : FrameSet} (hs : Rep s F) (ht : Rep t F) : s = t := by
  obtain ⟨sb, sbase, stotal, sfree⟩ := s
  obtain ⟨tb, tbase, ttotal, tfree⟩ := t
  have hbits : sb = tb := by
    apply BitSet.ext_mem (by decide)
    intro i hi
    have hiff : i ∈ BitSet.clear sb ↔ i ∈ BitSet.clear tb := by rw [hs.free, ht.free]
    rw [BitSet.mem_clear, BitSet.mem_clear] at hiff
    by_cases hm : BitSet.mem sb i = false
    · rw [hm, (hiff.mp ⟨hi, hm⟩).2]
    · have hm' : BitSet.mem tb i ≠ false := fun h => hm (hiff.mpr ⟨hi, h⟩).2
      rw [Bool.eq_true_of_not_eq_false hm, Bool.eq_true_of_not_eq_false hm']
  have hb : sbase = tbase := hs.base.trans ht.base.symm
  have htot : stotal = ttotal := hs.total.trans ht.total.symm
  have hf : sfree = tfree := hs.counted.trans ht.counted.symm
  subst hbits; subst hb; subst htot; subst hf; rfl

theorem Rep.mem_free {s : Pmm} {F : FrameSet} (h : Rep s F) {i : Nat} (hi : i < kMaxManagedPages) :
    i ∈ F.free ↔ BitSet.mem s.gUsedBitmap i = false := by
  rw [← h.free, BitSet.mem_clear]
  exact ⟨fun hm => hm.2, fun hm => ⟨kMax_eq ▸ hi, hm⟩⟩

/-! ## The bitmap helpers, one abstract step each -/

theorem usedIndex_rep {s : Pmm} {F : FrameSet} (h : Rep s F) {i : Nat} (hi : i < kMaxManagedPages) :
    s.usedIndex i = some (decide (i ∉ F.free)) := by
  rw [usedIndex_eq s hi]
  by_cases hm : i ∈ F.free
  · rw [(h.mem_free hi).mp hm, decide_eq_false (not_not.mpr hm)]
  · rw [Bool.eq_true_of_not_eq_false ((h.mem_free hi).not.mp hm), decide_eq_true hm]

theorem markUsedIndex_rep {s : Pmm} {F : FrameSet} (h : Rep s F) {i : Nat}
    (hi : i < kMaxManagedPages) : ∃ s', s.markUsedIndex i = some s' ∧ Rep s' (F.reserve i) := by
  refine ⟨_, markUsedIndex_eq s hi, h.base, h.total, ?_, ?_⟩
  · show BitSet.clear (BitSet.insert s.gUsedBitmap i) = F.free.erase i
    rw [BitSet.clear_insert (by decide) _ (kMax_eq ▸ hi), h.free]
  · show (if BitSet.mem s.gUsedBitmap i = true then s.gFreePages else s.gFreePages - 1) = (F.free.erase i).card
    rw [h.counted]
    by_cases hm : i ∈ F.free
    · rw [if_neg (by rw [(h.mem_free hi).mp hm]; simp), Finset.card_erase_of_mem hm]
    · rw [if_pos (Bool.eq_true_of_not_eq_false ((h.mem_free hi).not.mp hm)), Finset.erase_eq_of_notMem hm]

/-- The counter of free pages never reaches the wrap. -/
theorem FrameSet.card_le (F : FrameSet) : F.free.card ≤ kMaxManagedPages := by
  have hsub : F.free ⊆ Finset.range kMaxManagedPages := fun i hi => Finset.mem_range.mpr (F.free_lt i hi)
  simpa using Finset.card_le_card hsub

theorem markFreeIndex_rep {s : Pmm} {F : FrameSet} (h : Rep s F) {i : Nat}
    (hi : i < kMaxManagedPages) :
    ∃ s', s.markFreeIndex i = some s' ∧ Rep s' (F.release (freedIndex i) (freedIndex_lt hi)) := by
  have hf : freedIndex i < kMaxManagedPages := freedIndex_lt hi
  refine ⟨_, markFreeIndex_eq s hi, h.base, h.total, ?_, ?_⟩
  · show BitSet.clear (BitSet.erase s.gUsedBitmap (freedIndex i)) = insert (freedIndex i) F.free
    rw [BitSet.clear_erase (by decide) _ (kMax_eq ▸ hf), h.free]
  · show (if BitSet.mem s.gUsedBitmap (freedIndex i) = true then (s.gFreePages + 1) % 2 ^ 64 else s.gFreePages) =
      (insert (freedIndex i) F.free).card
    rw [h.counted]
    by_cases hm : freedIndex i ∈ F.free
    · -- the selected bit is clear already, so nothing happens, even if bit `i` is set
      rw [if_neg (by rw [(h.mem_free hf).mp hm]; simp), Finset.insert_eq_of_mem hm]
    · have hle := (F.release _ hf).card_le
      rw [FrameSet.release_free, Finset.card_insert_of_notMem hm] at hle
      rw [if_pos (Bool.eq_true_of_not_eq_false ((h.mem_free hf).not.mp hm)), Finset.card_insert_of_notMem hm,
        Nat.mod_eq_of_lt]
      simp only [kMaxManagedPages] at hle
      omega

end Mm
end RiscCore
