import RiscCore.Mm.KernelAddressSpace

/-!
# `Boot.Layout` — where the linker puts the kernel (`scripts/linker.ld`, `platform/linker_symbols.h`)

The script is a location counter that runs through four output sections, the boot stack and the end of the image.
What the linker decides is the size of each section, so the symbols are functions of the sizes. An `Image` is
one that fits into DRAM: only such an image can be loaded.
-/

namespace RiscCore
namespace Boot

open Mm Memmap

/-- `. = ALIGN(n)` at location `a`. -/
def align (n a : Nat) : Nat := (a + (n - 1)) / n * n

/-- The sizes of the output sections, in bytes. -/
structure Sizes where
  text : Nat
  rodata : Nat
  data : Nat
  bss : Nat
deriving DecidableEq, Repr

namespace Sizes

def kernelStart (_ : Sizes) : Nat := 0x80000000
def textStart (s : Sizes) : Nat := align 4096 s.kernelStart
def textEnd (s : Sizes) : Nat := s.textStart + s.text
def rodataStart (s : Sizes) : Nat := align 4096 s.textEnd
def rodataEnd (s : Sizes) : Nat := s.rodataStart + s.rodata
def dataStart (s : Sizes) : Nat := align 4096 s.rodataEnd
def dataEnd (s : Sizes) : Nat := s.dataStart + s.data
def bssStart (s : Sizes) : Nat := align 4096 s.dataEnd
def bssEnd (s : Sizes) : Nat := s.bssStart + s.bss
def bootStackBottom (s : Sizes) : Nat := align 16 s.bssEnd
def bootStackTop (s : Sizes) : Nat := s.bootStackBottom + 16 * 1024
def stackTop (s : Sizes) : Nat := s.bootStackTop
def kernelEnd (s : Sizes) : Nat := align 4096 s.bootStackTop
def globalPointer (s : Sizes) : Nat := s.kernelEnd

end Sizes

/-- The value of a symbol as the program sees it. -/
def addr (symbol : Nat) : Word := BitVec.ofNat 64 symbol

/-- An image that fits into DRAM. -/
structure Image extends Sizes where
  fits : toSizes.kernelEnd ≤ kDram.base.toNat + kDram.size.toNat

/-! ## The location counter -/

theorem le_align {n : Nat} (hn : 0 < n) (a : Nat) : a ≤ align n a := by
  have hdiv := Nat.div_add_mod (a + (n - 1)) n
  have hmod := Nat.mod_lt (a + (n - 1)) hn
  rw [Nat.mul_comm] at hdiv
  unfold align
  omega

theorem align_mod (n a : Nat) : align n a % n = 0 := Nat.mul_mod_left _ n

/-- A boundary that is no lower is no lower than the aligned location. -/
theorem align_le {n a b : Nat} (hn : 0 < n) (hab : a ≤ b) (hb : b % n = 0) : align n a ≤ b := by
  obtain ⟨k, rfl⟩ := Nat.dvd_of_mod_eq_zero hb
  have hdiv : (a + (n - 1)) / n ≤ k := by
    apply Nat.le_of_lt_succ
    rw [Nat.div_lt_iff_lt_mul hn, Nat.succ_mul, Nat.mul_comm]
    omega
  rw [align, Nat.mul_comm n k]
  exact Nat.mul_le_mul_right n hdiv

theorem align_self {n a : Nat} (hn : 0 < n) (ha : a % n = 0) : align n a = a :=
  Nat.le_antisymm (align_le hn (Nat.le_refl a) ha) (le_align hn a)

/-- **The order of the image**: sections, boot stack and end of the kernel, each at its boundary. -/
structure Ordered (s : Sizes) : Prop where
  text : s.textStart = 0x80000000
  rodata : s.textEnd ≤ s.rodataStart
  data : s.rodataEnd ≤ s.dataStart
  bss : s.dataEnd ≤ s.bssStart
  stack : s.bssEnd ≤ s.bootStackBottom
  top : s.bootStackTop ≤ s.kernelEnd
  bss_aligned : s.bssStart % 4096 = 0
  stack_aligned : s.stackTop % 16 = 0
  end_aligned : s.kernelEnd % 4096 = 0

theorem ordered (s : Sizes) : Ordered s where
  text := align_self (by decide) (show 0x80000000 % 4096 = 0 by decide)
  rodata := le_align (by decide) _
  data := le_align (by decide) _
  bss := le_align (by decide) _
  stack := le_align (by decide) _
  top := le_align (by decide) _
  bss_aligned := align_mod _ _
  stack_aligned := by
    have hbottom : s.bootStackBottom % 16 = 0 := align_mod _ _
    unfold Sizes.stackTop Sizes.bootStackTop
    omega
  end_aligned := align_mod _ _

/-- The kernel begins where DRAM does, and has at least the four pages of its stack. -/
theorem Ordered.start {s : Sizes} (h : Ordered s) : s.kernelStart + 16384 ≤ s.kernelEnd := by
  obtain ⟨htext, hrodata, hdata, hbss, hstack, htop, _⟩ := h
  unfold Sizes.textEnd at hrodata
  unfold Sizes.rodataEnd at hdata
  unfold Sizes.dataEnd at hbss
  unfold Sizes.bssEnd at hstack
  unfold Sizes.bootStackTop at htop
  have hstart : s.kernelStart = 0x80000000 := rfl
  omega

/-- Everything up to the stack lies below the end. -/
theorem Ordered.bss_below {s : Sizes} (h : Ordered s) : 0x80000000 ≤ s.bssStart ∧ s.bssEnd ≤ s.kernelEnd ∧
    s.bootStackBottom + 16384 ≤ s.kernelEnd := by
  obtain ⟨htext, hrodata, hdata, hbss, hstack, htop, _⟩ := h
  unfold Sizes.textEnd at hrodata
  unfold Sizes.rodataEnd at hdata
  unfold Sizes.dataEnd at hbss
  unfold Sizes.bootStackTop at htop
  omega

theorem Image.end_le (img : Image) : img.kernelEnd ≤ 0x88000000 := img.fits

theorem addr_toNat {symbol : Nat} (h : symbol ≤ 0x88000000) : (addr symbol).toNat = symbol := by
  rw [addr, BitVec.toNat_ofNat, Nat.mod_eq_of_lt (by omega)]

end Boot
end RiscCore
