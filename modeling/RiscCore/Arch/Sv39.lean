import RiscCore.Lib.BitSet
import RiscCore.Mm.Page

/-!
# `Arch.Sv39` — page-table entries (`kernel/arch/riscv/mm/sv39.h`)

The constants and encoders of the header. The lemmas read an entry bit by bit: below bit 10 `makePte`
shows its flags, from bit 10 on the page number or-ed with what the flags have there, so the decoders give back
what was encoded whenever the address is page aligned and the flags fit their ten bits.
-/

namespace RiscCore
namespace Arch

open Mm

/-- An entry of a page table. -/
abbrev Pte := Word

def kVpnBits : Nat := 9
/-- A table has 512 entries. -/
def kVpnMask : Word := 0x1ff#64
/-- The page number begins at bit 10 of an entry. -/
def kPtePpnShift : Nat := 10

def pteV : Word := 1#64 <<< 0
def pteR : Word := 1#64 <<< 1
def pteW : Word := 1#64 <<< 2
def pteX : Word := 1#64 <<< 3
def pteU : Word := 1#64 <<< 4
def pteG : Word := 1#64 <<< 5
def pteA : Word := 1#64 <<< 6
def pteD : Word := 1#64 <<< 7

/-- Nine bits of the virtual page number for each level. -/
def vpnIndex (va : Word) (level : Nat) : Word := (va >>> (kPageShift + kVpnBits * level)) &&& kVpnMask

/-- The page number above the flags, which are or-ed in as they are. -/
def makePte (pa flags : Word) : Pte := ((pa >>> kPageShift) <<< kPtePpnShift) ||| flags

/-- The page number as an address, with whatever stands above it in the entry. -/
def pteToPa (pte : Pte) : Word := (pte >>> kPtePpnShift) <<< kPageShift

def pteValid (pte : Pte) : Bool := (pte &&& pteV) != 0#64

/-- An entry with none of `R`, `W` and `X` points to a table. -/
def pteLeaf (pte : Pte) : Bool := (pte &&& (pteR ||| pteW ||| pteX)) != 0#64

/-! ## The bits of an entry -/

theorem pteValid_eq (pte : Pte) : pteValid pte = pte.getLsbD 0 := by
  have hz : (pte &&& pteV) = 0#64 ↔ pte.getLsbD 0 = false := BitSet.and_mask_eq_zero (by decide) pte
  by_cases hp : (pte &&& pteV) = 0#64
  · rw [hz.mp hp, pteValid, hp]; rfl
  · rw [Bool.eq_true_of_not_eq_false (hz.not.mp hp), pteValid]
    exact bne_iff_ne.mpr hp

/-- The permission mask is bits 1, 2 and 3. -/
theorem permission_getLsbD {i : Nat} (hi : i < 64) :
    (pteR ||| pteW ||| pteX).getLsbD i = true ↔ i = 1 ∨ i = 2 ∨ i = 3 := by
  have h : ∀ k : Fin 64, (pteR ||| pteW ||| pteX).getLsbD k = true ↔ k.1 = 1 ∨ k.1 = 2 ∨ k.1 = 3 := by
    decide
  exact h ⟨i, hi⟩

theorem pteLeaf_eq_false {pte : Pte} : pteLeaf pte = false ↔
    pte.getLsbD 1 = false ∧ pte.getLsbD 2 = false ∧ pte.getLsbD 3 = false := by
  unfold pteLeaf
  rw [bne_eq_false_iff_eq, BitSet.and_eq_zero_iff]
  constructor
  · intro h
    exact ⟨h 1 (by decide) (by decide), h 2 (by decide) (by decide), h 3 (by decide) (by decide)⟩
  · rintro ⟨h1, h2, h3⟩ i hi hp
    rcases (permission_getLsbD hi).mp hp with rfl | rfl | rfl
    · exact h1
    · exact h2
    · exact h3

theorem makePte_getLsbD_low (pa flags : Word) {i : Nat} (hi : i < 10) :
    (makePte pa flags).getLsbD i = flags.getLsbD i := by
  simp [makePte, kPtePpnShift, kPageShift, hi]

theorem makePte_getLsbD_high (pa flags : Word) {i : Nat} (hi : 10 ≤ i) (hw : i < 64) :
    (makePte pa flags).getLsbD i = (pa.getLsbD (i + 2) || flags.getLsbD i) := by
  have hsum : 12 + (i - 10) = i + 2 := by omega
  have hge : ¬ i < 10 := by omega
  simp [makePte, kPtePpnShift, kPageShift, hge, hw, hsum]

/-- The two tests see the flags only. -/
theorem pteValid_flags (pa flags : Word) : pteValid (makePte pa flags) = pteValid flags := by
  rw [pteValid_eq, pteValid_eq, makePte_getLsbD_low _ _ (by decide)]

theorem pteLeaf_congr {p q : Pte} (h1 : p.getLsbD 1 = q.getLsbD 1) (h2 : p.getLsbD 2 = q.getLsbD 2)
    (h3 : p.getLsbD 3 = q.getLsbD 3) : pteLeaf p = pteLeaf q := by
  have hiff : pteLeaf p = false ↔ pteLeaf q = false := by
    rw [pteLeaf_eq_false, pteLeaf_eq_false, h1, h2, h3]
  cases hq : pteLeaf q with
  | false => exact hiff.mpr hq
  | true => exact Bool.eq_true_of_not_eq_false (fun hp => by rw [hiff.mp hp] at hq; exact absurd hq (by simp))

theorem pteLeaf_flags (pa flags : Word) : pteLeaf (makePte pa flags) = pteLeaf flags :=
  pteLeaf_congr (makePte_getLsbD_low _ _ (by decide)) (makePte_getLsbD_low _ _ (by decide))
    (makePte_getLsbD_low _ _ (by decide))

/-- Whatever the flags, an entry with `V` or-ed in is valid. -/
theorem pteValid_makePte (pa flags : Word) : pteValid (makePte pa (flags ||| pteV)) = true := by
  rw [pteValid_flags, pteValid_eq, BitVec.getLsbD_or]
  simp [pteV]

theorem pteValid_link (pa : Word) : pteValid (makePte pa pteV) = true := by
  rw [pteValid_flags]
  rfl

theorem pteLeaf_link (pa : Word) : pteLeaf (makePte pa pteV) = false := by
  rw [pteLeaf_flags]
  rfl

/-- `V` is not a permission: the leaf test sees the caller's flags. -/
theorem pteLeaf_makePte (pa flags : Word) : pteLeaf (makePte pa (flags ||| pteV)) = pteLeaf flags := by
  rw [pteLeaf_flags]
  apply pteLeaf_congr <;> simp [pteV]

theorem getLsbD_of_lt {x : Word} {k i : Nat} (hx : x.toNat < 2 ^ k) (hi : k ≤ i) : x.getLsbD i = false := by
  rw [← BitVec.testBit_toNat]
  exact Nat.testBit_lt_two_pow (Nat.lt_of_lt_of_le hx (Nat.pow_le_pow_right (by decide) hi))

theorem getLsbD_of_aligned {x : Word} (hx : isPageAligned x = true) {i : Nat} (hi : i < 12) :
    x.getLsbD i = false := by
  have hm : x.toNat % 2 ^ 12 = 0 := isPageAligned_iff.mp hx
  have hbit : (x.toNat % 2 ^ 12).testBit i = false := by rw [hm]; exact Nat.zero_testBit i
  rw [Nat.testBit_mod_two_pow, BitVec.testBit_toNat] at hbit
  simpa only [hi, decide_true, Bool.true_and] using hbit

/-- What the decoder finds: the address, and whatever of the flags lies in the bits of the page number. -/
theorem pteToPa_makePte_or {pa : Word} (hpa : isPageAligned pa = true) (flags : Word) :
    pteToPa (makePte pa flags) = pa ||| ((flags >>> kPtePpnShift) <<< kPageShift) := by
  apply BitVec.eq_of_getLsbD_eq
  intro i hi
  by_cases hlow : i < 12
  · simp [pteToPa, kPageShift, hlow, getLsbD_of_aligned hpa hlow]
  · -- bit `i` of the address travels in bit `i - 2` of the entry
    have hsum : kPtePpnShift + (i - 12) = i - 2 := by simp only [kPtePpnShift]; omega
    have hback : i - 2 + 2 = i := by omega
    simp only [pteToPa, kPageShift, BitVec.getLsbD_or, BitVec.getLsbD_shiftLeft, BitVec.getLsbD_ushiftRight, hsum]
    rw [makePte_getLsbD_high _ _ (by omega) (by omega), hback]
    simp [hi, hlow]

/-- **The address comes back.** -/
theorem pteToPa_makePte {pa flags : Word} (hpa : isPageAligned pa = true) (hf : flags.toNat < 2 ^ 10) :
    pteToPa (makePte pa flags) = pa := by
  have hnone : flags >>> kPtePpnShift = 0#64 := by
    have hdiv : flags.toNat / 2 ^ kPtePpnShift = 0 := Nat.div_eq_of_lt hf
    apply BitVec.eq_of_toNat_eq
    rw [BitVec.toNat_ushiftRight, Nat.shiftRight_eq_div_pow, hdiv]
    rfl
  rw [pteToPa_makePte_or hpa, hnone, BitVec.zero_shiftLeft, BitVec.or_zero]

/-- **The flags come back.** -/
theorem makePte_flags {pa flags : Word} (hf : flags.toNat < 2 ^ 10) :
    makePte pa flags &&& Align.lowMask 64 10 = flags := by
  apply BitVec.eq_of_getLsbD_eq
  intro i hi
  rw [BitVec.getLsbD_and, Align.lowMask_getLsbD hi]
  by_cases hlow : i < 10
  · simp [makePte_getLsbD_low _ _ hlow, hlow]
  · simp [hlow, getLsbD_of_lt hf (Nat.le_of_not_lt hlow)]

/-- **The encoder is injective** on what it is meant for. -/
theorem makePte_inj {pa pa' flags flags' : Word} (hpa : isPageAligned pa = true) (hpa' : isPageAligned pa' = true)
    (hf : flags.toNat < 2 ^ 10) (hf' : flags'.toNat < 2 ^ 10) (h : makePte pa flags = makePte pa' flags') :
    pa = pa' ∧ flags = flags' := by
  constructor
  · rw [← pteToPa_makePte hpa hf, h, pteToPa_makePte hpa' hf']
  · rw [← @makePte_flags pa flags hf, h, makePte_flags hf']

theorem flags_or_lt {flags : Word} (hf : flags.toNat < 2 ^ 10) : (flags ||| pteV).toNat < 2 ^ 10 := by
  rw [BitVec.toNat_or]
  exact Nat.or_lt_two_pow hf (by decide)

/-! ## Virtual page numbers -/

theorem vpnIndex_toNat (va : Word) (level : Nat) :
    (vpnIndex va level).toNat = va.toNat / 2 ^ (12 + 9 * level) % 512 := by
  have hmask : kVpnMask = Align.lowMask 64 9 := by decide
  rw [vpnIndex, hmask, Align.and_lowMask_toNat, BitVec.toNat_ushiftRight, Nat.shiftRight_eq_div_pow]
  rfl

/-- The slot of a table that `va` selects at `level`: the index never leaves the 512 entries. -/
def vpnSlot (va : Word) (level : Nat) : Fin 512 :=
  ⟨(vpnIndex va level).toNat, by rw [vpnIndex_toNat]; exact Nat.mod_lt _ (by decide)⟩

/-- The 27-bit virtual page number, bits 12 to 38. -/
def vpn (va : Word) : BitVec 27 := va.extractLsb' 12 27

theorem vpn_toNat (va : Word) : (vpn va).toNat = va.toNat / 4096 % 2 ^ 27 := by
  rw [vpn, BitVec.extractLsb'_toNat, Nat.shiftRight_eq_div_pow]

/-- **The three slots are the page number.** -/
theorem vpn_eq_iff {va vb : Word} : vpn va = vpn vb ↔
    vpnSlot va 2 = vpnSlot vb 2 ∧ vpnSlot va 1 = vpnSlot vb 1 ∧ vpnSlot va 0 = vpnSlot vb 0 := by
  have hslot : ∀ level, vpnSlot va level = vpnSlot vb level ↔
      va.toNat / 2 ^ (12 + 9 * level) % 512 = vb.toNat / 2 ^ (12 + 9 * level) % 512 := by
    intro level
    rw [Fin.ext_iff, ← vpnIndex_toNat, ← vpnIndex_toNat]; rfl
  rw [hslot, hslot, hslot, ← BitVec.toNat_inj, vpn_toNat, vpn_toNat]
  simp only [Nat.reducePow, Nat.reduceMul, Nat.reduceAdd, Nat.mul_zero, Nat.add_zero]
  constructor
  · intro h
    refine ⟨?_, ?_, ?_⟩ <;> omega
  · rintro ⟨h2, h1, h0⟩
    omega

/-- The slots and the offset tile the low 39 bits. -/
theorem vpnIndex_reassemble (va : Word) :
    2 ^ 30 * (vpnIndex va 2).toNat + 2 ^ 21 * (vpnIndex va 1).toNat + 2 ^ 12 * (vpnIndex va 0).toNat +
      (pageOffset va).toNat = va.toNat % 2 ^ 39 := by
  rw [vpnIndex_toNat, vpnIndex_toNat, vpnIndex_toNat, pageOffset_toNat]
  simp only [Nat.reducePow, Nat.reduceMul, Nat.reduceAdd, Nat.mul_zero, Nat.add_zero]
  omega

/-- Two addresses agree on bits 12 to 38. -/
def SamePage (va vb : Word) : Prop := ∀ i, 12 ≤ i → i ≤ 38 → va.getLsbD i = vb.getLsbD i

theorem vpn_eq_iff_samePage {va vb : Word} : vpn va = vpn vb ↔ SamePage va vb := by
  constructor
  · intro h i hlo hhi
    have hbit : (vpn va).getLsbD (i - 12) = (vpn vb).getLsbD (i - 12) := by rw [h]
    have hlt : i - 12 < 27 := by omega
    have hback : 12 + (i - 12) = i := by omega
    rw [vpn, vpn, BitVec.getLsbD_extractLsb', BitVec.getLsbD_extractLsb', hback] at hbit
    simpa [hlt] using hbit
  · intro h
    apply BitVec.eq_of_getLsbD_eq
    intro i hi
    rw [vpn, vpn, BitVec.getLsbD_extractLsb', BitVec.getLsbD_extractLsb', h (12 + i) (by omega) (by omega)]

end Arch
end RiscCore
