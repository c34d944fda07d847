import RiscCore.Ds.Bitmap
import RiscCore.Mm.Frames

/-!
# `Mm.PmmBitmap` — the allocator's bitmap beside `ds::Bitmap`

The two keep one bit for each page in words of the same layout. `bitCall` issues the same call to either and
shows what it answers and the words it leaves. They agree as long as `mark_free_index` clears the bit it is
asked to clear; its mask is that of the *word* number, so it does so on home indices, and is found out on the
others unless both bits are clear already. The scan of `alloc_page` finds what `find_first_zero` finds, in
any words.
-/

namespace RiscCore
namespace Mm

open Pmm Ds Runs

/-- The calls that both sides have. -/
inductive BitCall where
  | markUsed (index : Nat)
  | markFree (index : Nat)
  | used (index : Nat)
deriving DecidableEq

def BitCall.index : BitCall → Nat
  | .markUsed index => index
  | .markFree index => index
  | .used index => index

/-- The answer of a call, if it has one, and the words after it. -/
abbrev Shown := Option Bool × Vector Word kBitmapWords

def Pmm.bitCall (s : Pmm) : BitCall → Option (Shown × Pmm)
  | .markUsed index => (s.markUsedIndex index).map fun s' => ((none, s'.gUsedBitmap), s')
  | .markFree index => (s.markFreeIndex index).map fun s' => ((none, s'.gUsedBitmap), s')
  | .used index => (s.usedIndex index).map fun r => ((some r, s.gUsedBitmap), s)

def bitmapCall (b : Bitmap kBitmapWords) : BitCall → Option (Shown × Bitmap kBitmapWords)
  | .markUsed index => (b.set index).map fun b' => ((none, b'.mWords), b')
  | .markFree index => (b.clear index).map fun b' => ((none, b'.mWords), b')
  | .used index => (b.test index).map fun r => ((some r, b.mWords), b)

/-- A `ds::Bitmap` over the allocator's words, one bit for each managed page. -/
def Pmm.asBitmap (s : Pmm) : Bitmap kBitmapWords := ⟨s.gUsedBitmap, s.gTotalPages⟩

def Pmm.bitStep (s : Pmm) (c : BitCall) : Option Pmm := (s.bitCall c).map Prod.snd

/-- `mark_free_index` clears the bit it should, or both bits are clear. -/
def FreesRight (s : Pmm) : BitCall → Prop
  | .markFree index => index % 64 = index / 64 % 64 ∨
      (s.usedIndex index = some false ∧ s.usedIndex (freedIndex index) = some false)
  | _ => True

variable {s : Pmm}

theorem asBitmap_roomy (ht : s.gTotalPages ≤ kMaxManagedPages) : s.asBitmap.Roomy where
  words := by
    show (s.gTotalPages + 63) / 64 ≤ kBitmapWords
    simp only [kMaxManagedPages, kBitmapWords, Mm.kBitsPerWord] at ht ⊢
    omega
  fits := by
    show s.gTotalPages < 2 ^ 63
    simp only [kMaxManagedPages] at ht
    omega

theorem mem_asBitmap {i : Nat} (hi : i < s.gTotalPages) :
    i ∈ s.asBitmap.members ↔ BitSet.mem s.gUsedBitmap i = true := by
  rw [Bitmap.mem_members]
  exact and_iff_right hi

/-! ## One call -/

theorem bitmapCall_markUsed (ht : s.gTotalPages ≤ kMaxManagedPages) {i : Nat} (hi : i < s.gTotalPages) :
    bitmapCall s.asBitmap (.markUsed i) =
      some ((none, BitSet.insert s.gUsedBitmap i), ⟨BitSet.insert s.gUsedBitmap i, s.gTotalPages⟩) := by
  show (s.asBitmap.set i).map _ = _
  rw [Bitmap.set_eq (asBitmap_roomy ht) hi]
  rfl

theorem bitmapCall_markFree (ht : s.gTotalPages ≤ kMaxManagedPages) {i : Nat} (hi : i < s.gTotalPages) :
    bitmapCall s.asBitmap (.markFree i) =
      some ((none, BitSet.erase s.gUsedBitmap i), ⟨BitSet.erase s.gUsedBitmap i, s.gTotalPages⟩) := by
  show (s.asBitmap.clear i).map _ = _
  rw [Bitmap.clear_eq (asBitmap_roomy ht) hi]
  rfl

theorem bitmapCall_used (ht : s.gTotalPages ≤ kMaxManagedPages) {i : Nat} (hi : i < s.gTotalPages) :
    bitmapCall s.asBitmap (.used i) = some ((some (BitSet.mem s.gUsedBitmap i), s.gUsedBitmap), s.asBitmap) := by
  show (s.asBitmap.test i).map _ = _
  rw [Bitmap.test_eq (asBitmap_roomy ht), decide_eq_decide.mpr (mem_asBitmap hi), Bool.decide_coe]
  rfl

theorem bitCall_markUsed (s : Pmm) {i : Nat} (hi : i < kMaxManagedPages) : ∃ s', s.bitCall (.markUsed i) =
    some ((none, BitSet.insert s.gUsedBitmap i), s') ∧
      s'.asBitmap = ⟨BitSet.insert s.gUsedBitmap i, s.gTotalPages⟩ := by
  have h : s.bitCall (.markUsed i) = _ :=
    congrArg (Option.map fun s' : Pmm => ((none, s'.gUsedBitmap), s')) (markUsedIndex_eq s hi)
  exact ⟨_, h, rfl⟩

theorem bitCall_markFree (s : Pmm) {i : Nat} (hi : i < kMaxManagedPages) : ∃ s', s.bitCall (.markFree i) =
    some ((none, BitSet.erase s.gUsedBitmap (freedIndex i)), s') ∧
      s'.asBitmap = ⟨BitSet.erase s.gUsedBitmap (freedIndex i), s.gTotalPages⟩ := by
  have h : s.bitCall (.markFree i) = _ :=
    congrArg (Option.map fun s' : Pmm => ((none, s'.gUsedBitmap), s')) (markFreeIndex_eq s hi)
  exact ⟨_, h, rfl⟩

theorem bitCall_used (s : Pmm) {i : Nat} (hi : i < kMaxManagedPages) :
    s.bitCall (.used i) = some ((some (BitSet.mem s.gUsedBitmap i), s.gUsedBitmap), s) := by
  show (s.usedIndex i).map _ = _
  rw [usedIndex_eq s hi]
  rfl

theorem freesRight_markFree {i : Nat} (hi : i < kMaxManagedPages) : FreesRight s (.markFree i) ↔
    BitSet.erase s.gUsedBitmap i = BitSet.erase s.gUsedBitmap (freedIndex i) := by
  have hfree : freedIndex i < kMaxManagedPages := freedIndex_lt hi
  rw [FreesRight, ← isHome_iff, IsHome, usedIndex_eq s hi, usedIndex_eq s hfree, Option.some.injEq, Option.some.injEq,
    BitSet.erase_eq_erase_iff (by decide) (kMax_eq ▸ hi) (kMax_eq ▸ hfree), eq_comm]

/-- Both sides take the call, and show the same exactly when the right bit is freed. -/
theorem bitCall_spec (ht : s.gTotalPages ≤ kMaxManagedPages) (c : BitCall) (hc : c.index < s.gTotalPages) :
    ∃ r s' r' b', s.bitCall c = some (r, s') ∧ s'.gTotalPages = s.gTotalPages ∧
      bitmapCall s.asBitmap c = some (r', b') ∧ (r' = r ↔ FreesRight s c) ∧ (r' = r → b' = s'.asBitmap) := by
  have hmax : c.index < kMaxManagedPages := Nat.lt_of_lt_of_le hc ht
  cases c with
  | markUsed i =>
      obtain ⟨s', hs', has⟩ := bitCall_markUsed s hmax
      exact ⟨_, s', _, _, hs', congrArg Bitmap.mBitCount has, bitmapCall_markUsed ht hc,
        ⟨fun _ => trivial, fun _ => rfl⟩, fun _ => has.symm⟩
  | markFree i =>
      obtain ⟨s', hs', has⟩ := bitCall_markFree s hmax
      refine ⟨_, s', _, _, hs', congrArg Bitmap.mBitCount has, bitmapCall_markFree ht hc, ?_, fun he => ?_⟩
      · rw [Prod.mk.injEq, and_iff_right rfl]
        exact (freesRight_markFree hmax).symm
      · rw [has, ← (Prod.mk.inj he).2]
  | used i =>
      exact ⟨_, s, _, _, bitCall_used s hmax, rfl, bitmapCall_used ht hc, ⟨fun _ => trivial, fun _ => rfl⟩,
        fun _ => rfl⟩

/-! ## A run -/

/-- The run shows what the bitmap shows exactly when every step frees the right bit. -/
theorem trace_spec : ∀ (ops : List BitCall) {s : Pmm}, s.gTotalPages ≤ kMaxManagedPages →
    (∀ c ∈ ops, c.index < s.gTotalPages) → ∃ rs s', trace Pmm.bitCall s ops = some (rs, s') ∧
      s'.gTotalPages = s.gTotalPages ∧
      (results bitmapCall s.asBitmap ops = some rs ↔ Always Pmm.bitStep FreesRight s ops) := by
  intro ops
  induction ops with
  | nil => exact fun _ _ => ⟨[], _, rfl, rfl, fun _ => trivial, fun _ => rfl⟩
  | cons c ops ih =>
      intro s ht hops
      obtain ⟨r, s₁, r', b₁, hcall, htot, hbit, hiff, hsame⟩ := bitCall_spec ht c (hops c List.mem_cons_self)
      obtain ⟨rs, s', hrest, htot', hrun⟩ := ih (htot.symm ▸ ht)
        (fun c' hc' => htot.symm ▸ hops c' (List.mem_cons_of_mem c hc'))
      have hstep : Pmm.bitStep s c = some s₁ := by rw [Pmm.bitStep, hcall]; rfl
      refine ⟨r :: rs, s', trace_cons_eq_some.mpr ⟨r, s₁, rs, hcall, hrest, rfl⟩, htot'.trans htot, ?_⟩
      rw [results_cons_eq_some, hbit]
      constructor
      · rintro ⟨b, heq, hres⟩
        obtain ⟨rfl, rfl⟩ := Prod.mk.inj (Option.some.inj heq)
        rw [hsame rfl] at hres
        refine ⟨hiff.mp rfl, fun t ht' => ?_⟩
        obtain rfl : s₁ = t := Option.some.inj (hstep.symm.trans ht')
        exact hrun.mp hres
      · rintro ⟨hright, halways⟩
        have hr : r' = r := hiff.mpr hright
        exact ⟨b₁, by rw [hr], by rw [hsame hr]; exact hrun.mpr (halways s₁ hstep)⟩

/-! ## The scan of `alloc_page` -/

theorem allocLoop_used (ht : s.gTotalPages ≤ kMaxManagedPages) : ∀ (count i : Nat), i + count = s.gTotalPages →
    (∀ j, i ≤ j → j < s.gTotalPages → BitSet.mem s.gUsedBitmap j = true) → s.allocLoop count i = some (0#64, s) := by
  intro count
  induction count with
  | zero => intro i _ _; rfl
  | succ count ih =>
      intro i hi hused
      have hlt : i < s.gTotalPages := by omega
      rw [allocLoop, usedIndex_eq s (Nat.lt_of_lt_of_le hlt ht), hused i (Nat.le_refl i) hlt]
      exact ih (i + 1) (by omega) (fun j hj hjt => hused j (by omega) hjt)

theorem allocLoop_stops (ht : s.gTotalPages ≤ kMaxManagedPages) {k : Nat} (hk : k < s.gTotalPages)
    (hfree : BitSet.mem s.gUsedBitmap k = false) : ∀ (count i : Nat), i + count = s.gTotalPages → i ≤ k →
    (∀ j, i ≤ j → j < k → BitSet.mem s.gUsedBitmap j = true) →
    s.allocLoop count i = (s.markUsedIndex k).map fun s' => (pageAddr s.gManagedBase k, s') := by
  intro count
  induction count with
  | zero => intro i hi hle _; omega
  | succ count ih =>
      intro i hi hle hused
      have hlt : i < s.gTotalPages := by omega
      rw [allocLoop, usedIndex_eq s (Nat.lt_of_lt_of_le hlt ht)]
      by_cases hik : i = k
      · rw [hik, hfree]
        show (s.markUsedIndex k).bind _ = _
        rw [markUsedIndex_eq s (Nat.lt_of_lt_of_le hk ht)]
        rfl
      · rw [hused i (Nat.le_refl i) (by omega)]
        exact ih (i + 1) (by omega) (by omega) (fun j hj hjk => hused j (by omega) hjk)

/-- The scan of `alloc_page` stops where `find_first_zero` does; null goes with -1. -/
def ScanAgrees (s : Pmm) : Prop :=
  (s.asBitmap.findFirstZero = some (-1) ∧ s.allocPage = some (0#64, s)) ∨
  ∃ (i : Nat) (s' : Pmm), s.asBitmap.findFirstZero = some (i : Int) ∧ i < s.gTotalPages ∧
    s.usedIndex i = some false ∧ s.markUsedIndex i = some s' ∧ s.allocPage = some (pageAddr s.gManagedBase i, s')

theorem scan_agrees (ht : s.gTotalPages ≤ kMaxManagedPages) : ScanAgrees s := by
  obtain ⟨r, hfind, hfirst⟩ := Bitmap.findFirstZero_spec (asBitmap_roomy ht)
  have hused : ∀ j, j < s.gTotalPages → j ∈ s.asBitmap.members → BitSet.mem s.gUsedBitmap j = true :=
    fun j hj hm => (mem_asBitmap hj).mp hm
  rcases hfirst with ⟨i, rfl, hi, hnot, hleast⟩ | ⟨rfl, hall⟩
  · have hi : i < s.gTotalPages := hi
    have hmax : i < kMaxManagedPages := Nat.lt_of_lt_of_le hi ht
    have hfree : BitSet.mem s.gUsedBitmap i = false := Bool.eq_false_iff.mpr (mt (mem_asBitmap hi).mpr hnot)
    refine Or.inr ⟨i, _, hfind, hi, by rw [usedIndex_eq s hmax, hfree], markUsedIndex_eq s hmax, ?_⟩
    rw [allocPage, allocLoop_stops ht hi hfree _ 0 (Nat.zero_add _) (Nat.zero_le i)
      (fun j _ hj => hused j (Nat.lt_trans hj hi) (hleast j hj)), markUsedIndex_eq s hmax]
    rfl
  · exact Or.inl ⟨hfind, allocLoop_used ht _ 0 (Nat.zero_add _) (fun j _ hj => hused j hj (hall j hj))⟩

/-- **When the two bitmaps agree.** -/
theorem bitmap_agrees_iff (ht : s.gTotalPages ≤ kMaxManagedPages) (ops : List BitCall)
    (hops : ∀ c ∈ ops, c.index < s.gTotalPages) : ∃ rs s', trace Pmm.bitCall s ops = some (rs, s') ∧
      (results bitmapCall s.asBitmap ops = some rs ↔ Always Pmm.bitStep FreesRight s ops) ∧ ScanAgrees s' := by
  obtain ⟨rs, s', htrace, htot, hiff⟩ := trace_spec ops ht hops
  exact ⟨rs, s', htrace, hiff, scan_agrees (htot.symm ▸ ht)⟩

/-- Two managed pages, both used. -/
def twoUsed : Pmm := ⟨Vector.replicate kBitmapWords (BitVec.allOnes 64), 0x80000000#64, 2, 0⟩

/-- Index 0 is at home. -/
theorem bitmap_agrees_iff_test : ∃ rs s', trace Pmm.bitCall twoUsed [.markFree 0, .used 0] = some (rs, s') ∧
    results bitmapCall twoUsed.asBitmap [.markFree 0, .used 0] = some rs ∧ ScanAgrees s' := by
  obtain ⟨rs, s', htrace, hiff, hscan⟩ :=
    bitmap_agrees_iff (s := twoUsed) (by decide) [.markFree 0, .used 0] (by decide)
  exact ⟨rs, s', htrace, hiff.mpr ⟨Or.inl rfl, fun _ _ => ⟨trivial, fun _ _ => trivial⟩⟩, hscan⟩

/-- `mark_free_index(1)` clears bit 0. -/
theorem mark_free_clears_other_bit : results bitmapCall twoUsed.asBitmap [.markFree 1, .used 1] ≠
    results Pmm.bitCall twoUsed [.markFree 1, .used 1] := by
  obtain ⟨rs, s', htrace, _, hiff⟩ := trace_spec [.markFree 1, .used 1] (s := twoUsed) (by decide) (by decide)
  have hres : results Pmm.bitCall twoUsed [.markFree 1, .used 1] = some rs := by
    rw [results, htrace]
    rfl
  rw [hres]
  intro heq
  have hfrees : FreesRight twoUsed (.markFree 1) := (hiff.mp heq).1
  rcases hfrees with hhome | ⟨hclear, _⟩
  · exact absurd hhome (by simp)
  · rw [usedIndex_eq twoUsed (by decide)] at hclear
    exact absurd hclear (by decide)

end Mm
end RiscCore
