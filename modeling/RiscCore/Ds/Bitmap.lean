import RiscCore.Lib.Align
import RiscCore.Lib.BitSet
import RiscCore.Lib.Runs
import RiscCore.Mm.Page

/-!
# `Ds.Bitmap` — bitmaps over a caller's words (`kernel/lib/ds/bitmap.cpp`)

`Bitmap n` is the class's two members, the words being the `n` the caller owns; `none` is an access outside
them. `size_t` values are naturals with the 64-bit wrap written where the source adds or multiplies.

`members` is what a bitmap is for: a finite set of numbers below `m_bit_count`. Each call is the set operation
it is named after, whatever the bits past `m_bit_count` in the last word hold; the tail mask of
`find_first_zero` is exactly that.
-/

namespace RiscCore
namespace Ds

def kBitsPerWord : Nat := 64

def wordCountForBits (bitCount : Nat) : Nat := (bitCount + kBitsPerWord - 1) % 2 ^ 64 / kBitsPerWord

def wordIndexForBit (bit : Nat) : Nat := bit / kBitsPerWord

def bitOffsetForBit (bit : Nat) : Nat := bit % kBitsPerWord

/-- The scan of `first_set_bit_offset` from `bit`, `count` positions left. -/
def firstSetBitLoop (word : Word) : Nat → Nat → Nat
  | 0, _ => kBitsPerWord
  | count + 1, bit => if (word &&& 1#64 <<< bit) != 0#64 then bit else firstSetBitLoop word count (bit + 1)

def firstSetBitOffset (word : Word) : Nat := firstSetBitLoop word kBitsPerWord 0

structure Bitmap (n : Nat) where
  mWords : Vector Word n
  mBitCount : Nat
deriving DecidableEq

namespace Bitmap

variable {n : Nat}

/-- `m_words[index] = word`. -/
def store (b : Bitmap n) (index : Nat) (word : Word) : Option (Bitmap n) :=
  if index < n then some { b with mWords := b.mWords.setIfInBounds index word } else none

/-- `for(i = from; i < from + count; ++i) m_words[i] = 0`. -/
def clearLoop : Nat → Nat → Bitmap n → Option (Bitmap n)
  | 0, _, b => some b
  | count + 1, i, b => do
    let b' ← b.store i 0#64
    clearLoop count (i + 1) b'

def clearAll (b : Bitmap n) : Option (Bitmap n) :=
  let wordCount := wordCountForBits b.mBitCount
  clearLoop wordCount 0 b

def set (b : Bitmap n) (bit : Nat) : Option (Bitmap n) :=
  if bit ≥ b.mBitCount then
    some b
  else do
    let wordIndex := wordIndexForBit bit
    let bitOffset := bitOffsetForBit bit
    let mask := 1#64 <<< bitOffset
    let word ← b.mWords[wordIndex]?
    b.store wordIndex (word ||| mask)

def clear (b : Bitmap n) (bit : Nat) : Option (Bitmap n) :=
  if bit ≥ b.mBitCount then
    some b
  else do
    let wordIndex := wordIndexForBit bit
    let bitOffset := bitOffsetForBit bit
    let mask := 1#64 <<< bitOffset
    let word ← b.mWords[wordIndex]?
    b.store wordIndex (word &&& ~~~mask)

def test (b : Bitmap n) (bit : Nat) : Option Bool :=
  if bit ≥ b.mBitCount then
    some false
  else do
    let wordIndex := wordIndexForBit bit
    let bitOffset := bitOffsetForBit bit
    let mask := 1#64 <<< bitOffset
    let word ← b.mWords[wordIndex]?
    return (word &&& mask) != 0#64

/-- The word at `index` as the scan looks at it: in a last word that is not full, the bits that stand for
    nothing read as set. -/
def validWord (bitCount wordCount index : Nat) (word : Word) : Word :=
  if index = wordCount - 1 ∧ bitCount % kBitsPerWord ≠ 0 then
    let validBits := bitCount % kBitsPerWord
    let validMask := 1#64 <<< validBits - 1#64
    word ||| ~~~validMask
  else
    word

/-- The scan of `find_first_zero` from word `index`, `count` words left. -/
def findLoop (b : Bitmap n) (wordCount : Nat) : Nat → Nat → Option Int
  | 0, _ => some (-1)
  | count + 1, index => do
    let word ← b.mWords[index]?
    let word := validWord b.mBitCount wordCount index word
    if word = ~~~0#64 then
      b.findLoop wordCount count (index + 1)
    else
      let inverted := ~~~word
      let bitOffset := firstSetBitOffset inverted
      if bitOffset = kBitsPerWord then
        b.findLoop wordCount count (index + 1)
      else
        let globalBit := (index * kBitsPerWord + bitOffset) % 2 ^ 64
        -- `static_cast<ptrdiff_t>`
        if globalBit < b.mBitCount then
          return (BitVec.ofNat 64 globalBit).toInt
        else
          b.findLoop wordCount count (index + 1)

def findFirstZero (b : Bitmap n) : Option Int :=
  let wordCount := wordCountForBits b.mBitCount
  b.findLoop wordCount wordCount 0

/-! ## The words of a bitmap -/

/-- What the constructor is given: `ceil(bit_count / 64)` words, and a size that `ptrdiff_t` can hold. -/
structure Sized (b : Bitmap n) : Prop where
  words : n = (b.mBitCount + 63) / 64
  fits : b.mBitCount < 2 ^ 63

/-- What the calls need: a word for every bit. The caller may own more of them. -/
structure Roomy (b : Bitmap n) : Prop where
  words : (b.mBitCount + 63) / 64 ≤ n
  fits : b.mBitCount < 2 ^ 63

/-- **The set a bitmap stores.** Bits past `m_bit_count` do not belong to it. -/
def members (b : Bitmap n) : Finset Nat :=
  (Finset.range b.mBitCount).filter fun i => BitSet.mem b.mWords i = true

variable {b b' : Bitmap n}

theorem mem_members {i : Nat} : i ∈ b.members ↔ i < b.mBitCount ∧ BitSet.mem b.mWords i = true := by
  simp [members]

theorem Sized.roomy (hb : b.Sized) : b.Roomy := ⟨Nat.le_of_eq hb.words.symm, hb.fits⟩

theorem Roomy.wordCount (hb : b.Roomy) : wordCountForBits b.mBitCount = (b.mBitCount + 63) / 64 := by
  have hf := hb.fits
  unfold wordCountForBits kBitsPerWord
  omega

theorem Roomy.word_lt (hb : b.Roomy) {i : Nat} (hi : i < b.mBitCount) : i / 64 < n := by
  have hw := hb.words
  omega

theorem getElem?_word {i : Nat} (hi : i / 64 < n) : b.mWords[i / 64]? = some (b.mWords[i / 64]?.getD 0#64) := by
  rw [Vector.getElem?_eq_getElem hi]
  rfl

/-- **`test`** -/
theorem test_eq (hb : b.Roomy) (i : Nat) : b.test i = some (decide (i ∈ b.members)) := by
  unfold test
  by_cases hi : i < b.mBitCount
  · have hlt : i / 64 < n := hb.word_lt hi
    have hbit := BitSet.and_mask_eq_zero (Nat.mod_lt i (by decide : 0 < 64)) (b.mWords[i / 64]?.getD 0#64)
    have hmem : i ∈ b.members ↔ BitSet.mem b.mWords i = true := by
      rw [mem_members]
      exact and_iff_right hi
    rw [if_neg (Nat.not_le.mpr hi), decide_eq_decide.mpr hmem, Bool.decide_coe]
    show (b.mWords[i / 64]?).bind _ = _
    rw [getElem?_word hlt, Option.bind_some]
    show some ((b.mWords[i / 64]?.getD 0#64 &&& BitSet.mask 64 (i % 64)) != 0#64) = _
    congr 1
    unfold BitSet.mem
    cases hv : (b.mWords[i / 64]?.getD 0#64).getLsbD (i % 64) with
    | false => rw [hbit.mpr hv]; rfl
    | true =>
        rw [bne_iff_ne]
        intro hz
        rw [hbit.mp hz] at hv
        cases hv
  · have hno : i ∉ b.members := fun hm => hi (mem_members.mp hm).1
    rw [if_pos (Nat.le_of_not_lt hi), decide_eq_false hno]

/-! ## The updates -/

theorem store_eq {k : Nat} (hk : k < n) (word : Word) :
    b.store k word = some { b with mWords := b.mWords.setIfInBounds k word } := if_pos hk

theorem set_eq (hb : b.Roomy) {bit : Nat} (hi : bit < b.mBitCount) :
    b.set bit = some { b with mWords := BitSet.insert b.mWords bit } := by
  have hlt : bit / 64 < n := hb.word_lt hi
  unfold set
  rw [if_neg (Nat.not_le.mpr hi)]
  show (b.mWords[bit / 64]?).bind _ = _
  rw [getElem?_word hlt, Option.bind_some]
  exact store_eq hlt _

theorem clear_eq (hb : b.Roomy) {bit : Nat} (hi : bit < b.mBitCount) :
    b.clear bit = some { b with mWords := BitSet.erase b.mWords bit } := by
  have hlt : bit / 64 < n := hb.word_lt hi
  unfold clear
  rw [if_neg (Nat.not_le.mpr hi)]
  show (b.mWords[bit / 64]?).bind _ = _
  rw [getElem?_word hlt, Option.bind_some]
  exact store_eq hlt _

/-- The loop from word `i` on clears the words from `i` on. -/
theorem clearLoop_eq : ∀ (count i : Nat) (b : Bitmap n), i + count = n →
    ∃ b', clearLoop count i b = some b' ∧ b'.mBitCount = b.mBitCount ∧
      ∀ j, j / 64 < n → BitSet.mem b'.mWords j = if i ≤ j / 64 then false else BitSet.mem b.mWords j := by
  intro count
  induction count with
  | zero =>
      intro i b hi
      exact ⟨b, rfl, rfl, fun j hj => by rw [if_neg (by omega)]⟩
  | succ count ih =>
      intro i b hi
      have hlt : i < n := by omega
      obtain ⟨b', hloop, hcount, hmem⟩ := ih (i + 1) { b with mWords := b.mWords.setIfInBounds i 0#64 } (by omega)
      refine ⟨b', ?_, hcount, fun j hj => ?_⟩
      · unfold clearLoop
        rw [store_eq hlt]
        exact hloop
      · rw [hmem j hj]
        unfold BitSet.mem
        rw [BitSet.getD_setIfInBounds _ _ _ _ hlt]
        by_cases hij : i = j / 64
        · rw [if_neg (by omega), if_pos hij, if_pos (by omega), BitVec.getLsbD_zero]
        · rw [if_neg hij]
          by_cases hle : i ≤ j / 64
          · rw [if_pos (by omega), if_pos hle]
          · rw [if_neg (by omega), if_neg hle]

theorem clearAll_eq (hb : b.Sized) : ∃ b', b.clearAll = some b' ∧ b'.mBitCount = b.mBitCount ∧
    ∀ j, j < b.mBitCount → BitSet.mem b'.mWords j = false := by
  obtain ⟨b', hloop, hcount, hmem⟩ := clearLoop_eq n 0 b (Nat.zero_add n)
  refine ⟨b', ?_, hcount, fun j hj => ?_⟩
  · unfold clearAll
    rw [hb.roomy.wordCount, ← hb.words]
    exact hloop
  · rw [hmem j (hb.roomy.word_lt hj), if_pos (Nat.zero_le _)]

/-! ## `find_first_zero` -/

theorem firstSetBitLoop_spec (word : Word) : ∀ (count bit : Nat), bit + count = 64 →
    (∀ j, j < bit → word.getLsbD j = false) →
    (firstSetBitLoop word count bit = 64 ∧ ∀ j, j < 64 → word.getLsbD j = false) ∨
    (firstSetBitLoop word count bit < 64 ∧ word.getLsbD (firstSetBitLoop word count bit) = true ∧
      ∀ j, j < firstSetBitLoop word count bit → word.getLsbD j = false) := by
  intro count
  induction count with
  | zero =>
      intro bit hbit hlow
      exact Or.inl ⟨rfl, fun j hj => hlow j (by omega)⟩
  | succ count ih =>
      intro bit hbit hlow
      have hlt : bit < 64 := by omega
      have htest := BitSet.and_mask_eq_zero hlt word
      unfold firstSetBitLoop
      by_cases hset : word.getLsbD bit = true
      · have hne : (word &&& 1#64 <<< bit) != 0#64 := by
          rw [bne_iff_ne]
          intro hz
          rw [htest.mp hz] at hset
          cases hset
        rw [if_pos hne]
        exact Or.inr ⟨hlt, hset, hlow⟩
      · have hclear : word.getLsbD bit = false := Bool.eq_false_iff.mpr hset
        have hz : ((word &&& 1#64 <<< bit) != 0#64) = false := bne_eq_false_iff_eq.mpr (htest.mpr hclear)
        rw [if_neg (by rw [hz]; exact Bool.false_ne_true)]
        refine ih (bit + 1) (by omega) (fun j hj => ?_)
        by_cases hjb : j = bit
        · exact hjb ▸ hclear
        · exact hlow j (by omega)

/-- The first set bit of `~word` is the first clear bit of `word`. -/
theorem firstSetBitOffset_not (word : Word) :
    (firstSetBitOffset (~~~word) = 64 ∧ ∀ j, j < 64 → word.getLsbD j = true) ∨
    (firstSetBitOffset (~~~word) < 64 ∧ word.getLsbD (firstSetBitOffset (~~~word)) = false ∧
      ∀ j, j < firstSetBitOffset (~~~word) → word.getLsbD j = true) := by
  have hnot : ∀ j, j < 64 → (~~~word).getLsbD j = !word.getLsbD j := fun j hj => by
    rw [BitVec.getLsbD_not, decide_eq_true hj, Bool.true_and]
  rcases firstSetBitLoop_spec (~~~word) 64 0 rfl (fun j hj => absurd hj (Nat.not_lt_zero j)) with
    ⟨hoff, hnone⟩ | ⟨hoff, hone, hleast⟩
  · refine Or.inl ⟨hoff, fun j hj => ?_⟩
    have hj' := hnone j hj
    rw [hnot j hj] at hj'
    exact (Bool.not_eq_false' _).mp hj'
  · refine Or.inr ⟨hoff, ?_, fun j hj => ?_⟩
    · rw [hnot _ hoff] at hone
      exact (Bool.not_eq_true' _).mp hone
    · have hj' := hleast j hj
      rw [hnot j (Nat.lt_trans hj hoff)] at hj'
      exact (Bool.not_eq_false' _).mp hj'

/-- What the scan looks at: the stored bit, or one where the position stands for nothing. -/
theorem validWord_getLsbD (bitCount : Nat) {index j : Nat} (hindex : index < (bitCount + 63) / 64) (hj : j < 64)
    (word : Word) : (validWord bitCount ((bitCount + 63) / 64) index word).getLsbD j =
      (word.getLsbD j || decide (bitCount ≤ 64 * index + j)) := by
  unfold validWord kBitsPerWord
  by_cases htail : index = (bitCount + 63) / 64 - 1 ∧ bitCount % 64 ≠ 0
  · have hv : bitCount % 64 < 64 := Nat.mod_lt _ (by decide)
    have hiff : (¬ j < bitCount % 64) ↔ bitCount ≤ 64 * index + j := by omega
    rw [if_pos htail]
    show (word ||| ~~~(1#64 <<< (bitCount % 64) - 1#64)).getLsbD j = _
    rw [Align.shiftLeft_sub_one hv, BitVec.getLsbD_or, BitVec.getLsbD_not, Align.lowMask_getLsbD hj,
      decide_eq_true hj, Bool.true_and, ← decide_not, decide_eq_decide.mpr hiff]
  · -- a full word, or one before the last: all of its positions count
    have hno : ¬ bitCount ≤ 64 * index + j := by
      rw [not_and, not_not] at htail
      by_cases hlast : index = (bitCount + 63) / 64 - 1
      · have hz := htail hlast
        omega
      · omega
    rw [if_neg htail, decide_eq_false hno, Bool.or_false]

/-- The same as membership. -/
theorem validWord_members {index j : Nat} (hindex : index < (b.mBitCount + 63) / 64) (hj : j < 64) :
    (validWord b.mBitCount ((b.mBitCount + 63) / 64) index (b.mWords[index]?.getD 0#64)).getLsbD j = true ↔
      64 * index + j ∈ b.members ∨ b.mBitCount ≤ 64 * index + j := by
  have hdiv : (64 * index + j) / 64 = index := by omega
  have hmod : (64 * index + j) % 64 = j := by omega
  have hmem : BitSet.mem b.mWords (64 * index + j) = (b.mWords[index]?.getD 0#64).getLsbD j := by
    unfold BitSet.mem
    rw [hdiv, hmod]
  rw [validWord_getLsbD b.mBitCount hindex hj, Bool.or_eq_true, decide_eq_true_eq, mem_members, hmem]
  constructor
  · rintro (hone | hge)
    · by_cases hin : 64 * index + j < b.mBitCount
      · exact Or.inl ⟨hin, hone⟩
      · exact Or.inr (Nat.le_of_not_lt hin)
    · exact Or.inr hge
  · rintro (⟨_, hone⟩ | hge)
    · exact Or.inl hone
    · exact Or.inr hge

/-- `r` is the least number below `n` that is not in `S`, or -1 if there is none. -/
def IsFirstZero (S : Finset Nat) (n : Nat) (r : Int) : Prop :=
  (∃ i : Nat, r = (i : Int) ∧ i < n ∧ i ∉ S ∧ ∀ j, j < i → j ∈ S) ∨ (r = -1 ∧ ∀ i, i < n → i ∈ S)

/-- The scan from word `index`, all positions before it being set. -/
theorem findLoop_spec (hb : b.Roomy) : ∀ (count index : Nat), index + count = (b.mBitCount + 63) / 64 →
    (∀ i, i < b.mBitCount → i < 64 * index → i ∈ b.members) →
    ∃ r, b.findLoop ((b.mBitCount + 63) / 64) count index = some r ∧ IsFirstZero b.members b.mBitCount r := by
  intro count
  induction count with
  | zero =>
      intro index hindex hset
      exact ⟨-1, rfl, Or.inr ⟨rfl, fun i hi => hset i hi (by omega)⟩⟩
  | succ count ih =>
      intro index hindex hset
      have hlt : index < (b.mBitCount + 63) / 64 := by omega
      have hword : b.mWords[index]? = some (b.mWords[index]?.getD 0#64) := by
        rw [Vector.getElem?_eq_getElem (Nat.lt_of_lt_of_le hlt hb.words)]
        rfl
      have hbits := fun j hj => validWord_members (j := j) hlt hj
      unfold findLoop
      rw [hword]
      show ∃ r, (if validWord b.mBitCount ((b.mBitCount + 63) / 64) index (b.mWords[index]?.getD 0#64) = ~~~0#64
        then _ else _) = some r ∧ _
      generalize validWord b.mBitCount ((b.mBitCount + 63) / 64) index (b.mWords[index]?.getD 0#64) = word at hbits ⊢
      -- position `i` of this word, from the bit at its offset
      have hhere : ∀ i, i < b.mBitCount → ¬ i < 64 * index → i < 64 * index + 64 →
          word.getLsbD (i - 64 * index) = true → i ∈ b.members := by
        intro i hi hafter hbefore hone
        have hm := (hbits (i - 64 * index) (by omega)).mp hone
        rw [show 64 * index + (i - 64 * index) = i by omega] at hm
        exact hm.resolve_right (by omega)
      have hnext : (∀ j, j < 64 → word.getLsbD j = true) →
          ∃ r, b.findLoop ((b.mBitCount + 63) / 64) count (index + 1) = some r ∧
            IsFirstZero b.members b.mBitCount r := by
        intro hall
        refine ih (index + 1) (by omega) (fun i hi hlow => ?_)
        by_cases hbefore : i < 64 * index
        · exact hset i hi hbefore
        · exact hhere i hi hbefore (by omega) (hall _ (by omega))
      by_cases hfull : word = ~~~0#64
      · rw [if_pos hfull]
        exact hnext fun j hj => by rw [hfull, BitVec.getLsbD_not, decide_eq_true hj, BitVec.getLsbD_zero]; rfl
      · rw [if_neg hfull]
        rcases firstSetBitOffset_not word with ⟨hoff, hall⟩ | ⟨hoff, hzero, hleast⟩
        · rw [if_pos (show firstSetBitOffset (~~~word) = kBitsPerWord from hoff)]
          exact hnext hall
        · rw [if_neg (show ¬ firstSetBitOffset (~~~word) = kBitsPerWord from Nat.ne_of_lt hoff)]
          have hfree := (not_congr (hbits _ hoff)).mp (Bool.eq_false_iff.mp hzero)
          rw [not_or, Nat.not_le] at hfree
          obtain ⟨hnot, hin⟩ := hfree
          have hfits := hb.fits
          have hval : (index * kBitsPerWord + firstSetBitOffset (~~~word)) % 2 ^ 64 =
              64 * index + firstSetBitOffset (~~~word) := by
            unfold kBitsPerWord
            omega
          rw [hval, if_pos hin]
          refine ⟨_, rfl, Or.inl ⟨64 * index + firstSetBitOffset (~~~word), ?_, hin, hnot, fun j hj => ?_⟩⟩
          · rw [BitVec.toInt_eq_toNat_of_lt] <;> rw [BitVec.toNat_ofNat] <;> omega
          · by_cases hbefore : j < 64 * index
            · exact hset j (by omega) hbefore
            · exact hhere j (by omega) hbefore (by omega) (hleast _ (by omega))

theorem findFirstZero_spec (hb : b.Roomy) :
    ∃ r, b.findFirstZero = some r ∧ IsFirstZero b.members b.mBitCount r := by
  unfold findFirstZero
  rw [hb.wordCount]
  exact findLoop_spec hb _ 0 (Nat.zero_add _) (fun i _ hi => absurd hi (by omega))

end Bitmap

/-! ## Runs -/

/-- The calls that write a bitmap. -/
inductive BitmapOp where
  | set (bit : Nat)
  | clear (bit : Nat)
  | clearAll
deriving DecidableEq

/-- The value a call gives to bit `i`, if it affects it. -/
def BitmapOp.effect (i : Nat) : BitmapOp → Option Bool
  | .set bit => if bit = i then some true else none
  | .clear bit => if bit = i then some false else none
  | .clearAll => some false

/-- What the last call that affects bit `i` gave it. -/
def lastWrite (initial : Bool) (i : Nat) (ops : List BitmapOp) : Bool :=
  (ops.filterMap (BitmapOp.effect i)).getLastD initial

namespace Bitmap

variable {n : Nat} {b b' : Bitmap n}

def apply (b : Bitmap n) : BitmapOp → Option (Bitmap n)
  | .set bit => b.set bit
  | .clear bit => b.clear bit
  | .clearAll => b.clearAll

/-- `b'` differs from `b` at most in bit `bit`, and not at all if that bit is past the end. -/
structure OneBit (bit : Nat) (b b' : Bitmap n) : Prop where
  count : b'.mBitCount = b.mBitCount
  other : ∀ j, j ≠ bit → BitSet.mem b'.mWords j = BitSet.mem b.mWords j
  past : b.mBitCount ≤ bit → b' = b

theorem set_spec (hb : b.Sized) (bit : Nat) : ∃ b', b.set bit = some b' ∧ OneBit bit b b' ∧
    (bit < b.mBitCount → BitSet.mem b'.mWords bit = true) := by
  by_cases hi : bit < b.mBitCount
  · have hmem := BitSet.mem_insert (by decide : 0 < 64) b.mWords (hb.roomy.word_lt hi)
    refine ⟨_, set_eq hb.roomy hi, ⟨rfl, fun j hj => ?_, fun hle => absurd hle (Nat.not_le.mpr hi)⟩, fun _ => ?_⟩
    · show BitSet.mem (BitSet.insert b.mWords bit) j = _
      rw [hmem j, decide_eq_false (fun he => hj he.symm), Bool.or_false]
    · show BitSet.mem (BitSet.insert b.mWords bit) bit = true
      rw [hmem bit, decide_eq_true rfl, Bool.or_true]
  · refine ⟨b, ?_, ⟨rfl, fun _ _ => rfl, fun _ => rfl⟩, fun hlt => absurd hlt hi⟩
    unfold set
    exact if_pos (Nat.le_of_not_lt hi)

theorem clear_spec (hb : b.Sized) (bit : Nat) : ∃ b', b.clear bit = some b' ∧ OneBit bit b b' ∧
    (bit < b.mBitCount → BitSet.mem b'.mWords bit = false) := by
  by_cases hi : bit < b.mBitCount
  · have hmem := BitSet.mem_erase (by decide : 0 < 64) b.mWords (hb.roomy.word_lt hi)
    refine ⟨_, clear_eq hb.roomy hi, ⟨rfl, fun j hj => ?_, fun hle => absurd hle (Nat.not_le.mpr hi)⟩, fun _ => ?_⟩
    · have hne : bit ≠ j := fun he => hj he.symm
      show BitSet.mem (BitSet.erase b.mWords bit) j = _
      rw [hmem j, decide_eq_true hne, Bool.and_true]
    · show BitSet.mem (BitSet.erase b.mWords bit) bit = false
      rw [hmem bit, Bool.and_eq_false_iff, decide_eq_false_iff_not, not_not]
      exact Or.inr rfl
  · refine ⟨b, ?_, ⟨rfl, fun _ _ => rfl, fun _ => rfl⟩, fun hlt => absurd hlt hi⟩
    unfold clear
    exact if_pos (Nat.le_of_not_lt hi)

theorem Sized.of_count (hb : b.Sized) (hcount : b'.mBitCount = b.mBitCount) : b'.Sized :=
  ⟨hcount ▸ hb.words, hcount ▸ hb.fits⟩

/-- One call: every bit in range has its new value. -/
theorem apply_spec (hb : b.Sized) (op : BitmapOp) : ∃ b', b.apply op = some b' ∧ b'.mBitCount = b.mBitCount ∧
    ∀ i, i < b.mBitCount → BitSet.mem b'.mWords i = (op.effect i).getD (BitSet.mem b.mWords i) := by
  cases op with
  | set bit =>
      obtain ⟨b', hset, hone, hbit⟩ := set_spec hb bit
      refine ⟨b', hset, hone.count, fun i hi => ?_⟩
      show _ = (if bit = i then some true else none).getD _
      by_cases he : bit = i
      · subst he
        rw [if_pos rfl]
        exact hbit hi
      · rw [if_neg he]
        exact hone.other i fun hc => he hc.symm
  | clear bit =>
      obtain ⟨b', hclear, hone, hbit⟩ := clear_spec hb bit
      refine ⟨b', hclear, hone.count, fun i hi => ?_⟩
      show _ = (if bit = i then some false else none).getD _
      by_cases he : bit = i
      · subst he
        rw [if_pos rfl]
        exact hbit hi
      · rw [if_neg he]
        exact hone.other i fun hc => he hc.symm
  | clearAll => exact clearAll_eq hb

/-- A run: the last call that affects a bit decides. -/
theorem run_spec : ∀ (ops : List BitmapOp) {b : Bitmap n}, b.Sized →
    ∃ b', Runs.run apply b ops = some b' ∧ b'.mBitCount = b.mBitCount ∧
      ∀ i, i < b.mBitCount → BitSet.mem b'.mWords i = lastWrite (BitSet.mem b.mWords i) i ops := by
  intro ops
  induction ops with
  | nil => exact fun _ => ⟨_, rfl, rfl, fun _ _ => rfl⟩
  | cons op ops ih =>
      intro b hb
      obtain ⟨c, hop, hcount, hmem⟩ := apply_spec hb op
      obtain ⟨b', hrun, hcount', hmem'⟩ := ih (hb.of_count hcount)
      refine ⟨b', ?_, hcount'.trans hcount, fun i hi => ?_⟩
      · unfold Runs.run
        rw [hop]
        exact hrun
      · rw [hmem' i (hcount.symm ▸ hi), hmem i hi]
        unfold lastWrite
        cases heff : op.effect i with
        | none => rw [List.filterMap_cons_none heff]; rfl
        | some v => rw [List.filterMap_cons_some heff, List.getLastD_cons]; rfl

end Bitmap

/-- **A bitmap is a finite set.** `words` holds anything at first, also past the last bit. -/
theorem bitmap_faithful_set {bitCount : Nat} (hsize : bitCount < 2 ^ 63) (words : Vector Word ((bitCount + 63) / 64))
    (ops : List BitmapOp) :
    ∃ b, Runs.run Bitmap.apply ⟨words, bitCount⟩ ops = some b ∧
      (∀ i, b.test i = some (decide (i < bitCount) && lastWrite (BitSet.mem words i) i ops)) ∧
      (∀ bit, ∃ b', b.set bit = some b' ∧ Bitmap.OneBit bit b b') ∧
      (∀ bit, ∃ b', b.clear bit = some b' ∧ Bitmap.OneBit bit b b') ∧
      ∃ r, b.findFirstZero = some r ∧ (r = -1 ↔ ∀ i, i < bitCount → b.test i = some true) ∧
        ∀ i : Nat, r = (i : Int) ↔
          i < bitCount ∧ b.test i = some false ∧ ∀ j, j < i → b.test j = some true := by
  have hsized : (⟨words, bitCount⟩ : Bitmap _).Sized := ⟨rfl, hsize⟩
  obtain ⟨b, hrun, hcount, hmem⟩ := Bitmap.run_spec ops hsized
  have hb := hsized.of_count hcount
  have hcount : b.mBitCount = bitCount := hcount
  have htrue : ∀ i, b.test i = some true ↔ i ∈ b.members := fun i => by
    rw [Bitmap.test_eq hb.roomy, Option.some.injEq, decide_eq_true_eq]
  have hfalse : ∀ i, b.test i = some false ↔ i ∉ b.members := fun i => by
    rw [Bitmap.test_eq hb.roomy, Option.some.injEq, decide_eq_false_iff_not]
  refine ⟨b, hrun, fun i => ?_, fun bit => ?_, fun bit => ?_, ?_⟩
  · rw [Bitmap.test_eq hb.roomy, Option.some.injEq, Bool.eq_iff_iff, Bool.and_eq_true, decide_eq_true_eq,
      decide_eq_true_eq, Bitmap.mem_members, hcount]
    exact and_congr_right fun hi => by rw [hmem i hi]
  · obtain ⟨b', hset, hone, _⟩ := Bitmap.set_spec hb bit
    exact ⟨b', hset, hone⟩
  · obtain ⟨b', hclear, hone, _⟩ := Bitmap.clear_spec hb bit
    exact ⟨b', hclear, hone⟩
  · obtain ⟨r, hfind, hfirst⟩ := Bitmap.findFirstZero_spec hb.roomy
    simp only [htrue, hfalse]
    rw [hcount] at hfirst
    refine ⟨r, hfind, ?_⟩
    rcases hfirst with ⟨i, rfl, hi, hnot, hleast⟩ | ⟨rfl, hall⟩
    · refine ⟨⟨fun he => absurd he (by omega), fun hall => absurd (hall i hi) hnot⟩, fun j => ?_⟩
      constructor
      · intro he
        obtain rfl : i = j := by omega
        exact ⟨hi, hnot, hleast⟩
      · rintro ⟨_, hnotj, hleastj⟩
        -- each is the least, so neither is below the other
        have hij : ¬ i < j := fun hlt => hnot (hleastj i hlt)
        have hji : ¬ j < i := fun hlt => hnotj (hleast j hlt)
        omega
    · refine ⟨⟨fun _ => hall, fun _ => rfl⟩, fun j => ⟨fun he => absurd he (by omega), ?_⟩⟩
      rintro ⟨hj, hnot, _⟩
      exact absurd (hall j hj) hnot

/-- 70 bits in two words of ones: only bit 65 is cleared, and found. -/
theorem bitmap_faithful_set_test :
    ∃ b, Runs.run Bitmap.apply ⟨Vector.replicate 2 (BitVec.allOnes 64), 70⟩ [.clear 65, .clear 200, .set 3] = some b ∧
      b.test 65 = some false ∧ b.test 66 = some true ∧ b.findFirstZero ≠ some (-1) := by
  obtain ⟨b, hrun, htest, _, _, r, hfind, hnone, _⟩ := bitmap_faithful_set (by decide : 70 < 2 ^ 63)
    (Vector.replicate 2 (BitVec.allOnes 64)) [.clear 65, .clear 200, .set 3]
  have h65 : b.test 65 = some false := htest 65
  refine ⟨b, hrun, h65, htest 66, ?_⟩
  rw [hfind, Ne, Option.some.injEq, hnone]
  intro hall
  have hone := hall 65 (by decide)
  rw [h65] at hone
  cases hone

end Ds
end RiscCore
