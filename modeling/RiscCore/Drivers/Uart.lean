import RiscCore.Lib.Numeral
import RiscCore.Mm.Page

/-!
# `Drivers.Uart` — the serial port (`drivers/uart/uart.cpp`)

A `UART` is what it has sent so far. The transmitter is taken to become ready, so `wait_tx_ready` returns
and `putc_raw` appends one byte. A C string is the list of its bytes before the terminating zero.
`none` is an access outside `buf` of `put_dec`, or its first loop running on.
-/

namespace RiscCore
namespace Drivers

abbrev Byte := BitVec 8

/-- The bytes written to the transmit register, in order. -/
abbrev Uart := List Byte

/-- The bytes of an ASCII literal. -/
def literal (s : String) : List Byte := s.toList.map fun c => BitVec.ofNat 8 c.toNat

namespace Uart

def putcRaw (out : Uart) (ch : Byte) : Uart := out ++ [ch]

def putc (out : Uart) (ch : Byte) : Uart :=
  if ch = 10#8 then (out.putcRaw 13#8).putcRaw ch else out.putcRaw ch

def puts (out : Uart) (s : List Byte) : Uart := s.foldl putc out

/-- `while(value > 0) { buf[i++] = '0' + value % 10; value /= 10; }`. -/
def fillLoop : Nat → Word → Vector Byte 20 → Nat → Option (Vector Byte 20 × Nat)
  | 0, _, _, _ => none
  | fuel + 1, value, buf, i =>
    if value > 0#64 then
      if h : i < 20 then
        fillLoop fuel (value / 10#64) (buf.set i (48#8 + (value % 10#64).setWidth 8)) (i + 1)
      else
        none
    else
      some (buf, i)

/-- `while(i > 0) putc(buf[--i])`. -/
def drainLoop (buf : Vector Byte 20) : Nat → Uart → Option Uart
  | 0, out => some out
  | i + 1, out => do
    let ch ← buf[i]?
    drainLoop buf i (out.putc ch)

/-- `buf` is not initialised in the source; only bytes that were written are read. -/
def putDec (out : Uart) (value : Word) : Option Uart :=
  if value = 0#64 then
    some (out.putc 48#8)
  else do
    let (buf, i) ← fillLoop 64 value (Vector.replicate 20 0#8) 0
    drainLoop buf i out

def kHex : List Byte := literal "0123456789abcdef"

/-- `for(shift = 60; shift >= 0; shift -= 4) putc(kHex[(value >> shift) & 0xF])`; `count` digits are left. -/
def hexLoop (value : Word) : Nat → Uart → Uart
  | 0, out => out
  | count + 1, out => hexLoop value count (out.putc (kHex[((value >>> (4 * count)) &&& 0xF#64).toNat]?.getD 0#8))

def putHex (out : Uart) (value : Word) : Uart := hexLoop value 16 ((out.putc 48#8).putc 120#8)

/-! ## The two alphabets -/

/-- `'0' + d`. -/
def decChar (d : Nat) : Byte := 48#8 + BitVec.ofNat 8 d

/-- What `'0'` to `'9'` stand for. -/
def decDigit (c : Byte) : Option Nat := if 48 ≤ c.toNat ∧ c.toNat ≤ 57 then some (c.toNat - 48) else none

def hexChar (d : Nat) : Byte := kHex[d]?.getD 0#8

/-- What `'0'` to `'9'` and `'a'` to `'f'` stand for. -/
def hexDigit (c : Byte) : Option Nat :=
  if 48 ≤ c.toNat ∧ c.toNat ≤ 57 then some (c.toNat - 48)
  else if 97 ≤ c.toNat ∧ c.toNat ≤ 102 then some (c.toNat - 87)
  else none

theorem decChar_toNat {d : Nat} (hd : d < 10) : (decChar d).toNat = 48 + d := by
  unfold decChar
  rw [BitVec.toNat_add, BitVec.toNat_ofNat, BitVec.toNat_ofNat]
  omega

theorem decChar_writes : Numeral.Writes decChar decDigit 10 := by
  intro d hd
  unfold decDigit
  rw [decChar_toNat hd, if_pos (by omega), Nat.add_sub_cancel_left]

theorem hexChar_writes : Numeral.Writes hexChar hexDigit 16 := by
  have h : ∀ d : Fin 16, hexDigit (hexChar d) = some d.val := by decide
  exact fun d hd => h ⟨d, hd⟩

theorem hexChar_range {d : Nat} (hd : d < 16) : (48 ≤ (hexChar d).toNat ∧ (hexChar d).toNat ≤ 57) ∨
    (97 ≤ (hexChar d).toNat ∧ (hexChar d).toNat ≤ 102) := by
  have h : ∀ d : Fin 16, (48 ≤ (hexChar d).toNat ∧ (hexChar d).toNat ≤ 57) ∨
      (97 ≤ (hexChar d).toNat ∧ (hexChar d).toNat ≤ 102) := by decide
  exact h ⟨d, hd⟩

/-- Only the newline is sent with a carriage return before it. -/
theorem putc_of_ne (out : Uart) {ch : Byte} (h : ch.toNat ≠ 10) : out.putc ch = out ++ [ch] := by
  unfold putc
  rw [if_neg fun heq => h (by rw [heq]; rfl)]
  rfl

/-! ## `put_dec` stays inside its buffer -/

/-- Storing at `i` and then looking at one cell more. -/
theorem take_set_succ (buf : Vector Byte 20) {i : Nat} (hi : i < 20) (c : Byte) :
    ((buf.set i c).toList.take (i + 1)) = buf.toList.take i ++ [c] := by
  have hlen : i < (buf.toList.set i c).length := by simpa using hi
  rw [Vector.toList_set, List.take_succ_eq_append_getElem hlen, List.take_set_of_le (Nat.le_refl i),
    List.getElem_set_self]

/-- The first loop puts the digits behind what the buffer holds; with `20 - i` cells left there is room, since
    the value has at most that many digits. -/
theorem fillLoop_eq : ∀ (fuel : Nat) (value : Word) (buf : Vector Byte 20) (i : Nat), i ≤ 20 →
    value.toNat < 10 ^ (20 - i) → 20 - i < fuel → ∃ buf' i', fillLoop fuel value buf i = some (buf', i') ∧ i' ≤ 20 ∧
      buf'.toList.take i' = buf.toList.take i ++ (Nat.digits 10 value.toNat).map decChar := by
  intro fuel
  induction fuel with
  | zero => intro _ _ _ _ _ hfuel; exact absurd hfuel (Nat.not_lt_zero _)
  | succ fuel ih =>
      intro value buf i hi hv hfuel
      by_cases hpos : value > 0#64
      · have hval : 0 < value.toNat := BitVec.lt_def.mp hpos
        -- a full buffer leaves no digit, but the value is positive
        have hlt : i < 20 := by
          by_contra hge
          have h20 : 20 - i = 0 := by omega
          rw [h20, Nat.pow_zero] at hv
          omega
        have hdivNat : (value / 10#64).toNat = value.toNat / 10 := BitVec.toNat_udiv
        have hdiv : (value / 10#64).toNat < 10 ^ (20 - (i + 1)) := by
          have hexp : 20 - i = (20 - (i + 1)) + 1 := by omega
          rw [hexp, Nat.pow_succ] at hv
          rw [hdivNat]
          exact Nat.div_lt_of_lt_mul (by rw [Nat.mul_comm]; exact hv)
        obtain ⟨buf', i', heq, hle, htake⟩ := ih (value / 10#64)
          (buf.set i (48#8 + (value % 10#64).setWidth 8)) (i + 1) hlt hdiv (by omega)
        have hch : 48#8 + (value % 10#64).setWidth 8 = decChar (value.toNat % 10) := by
          unfold decChar
          rw [← BitVec.ofNat_toNat, BitVec.toNat_umod]
          rfl
        refine ⟨buf', i', by rw [fillLoop, if_pos hpos, dif_pos hlt, heq], hle, ?_⟩
        rw [htake, take_set_succ buf hlt, hch, hdivNat, Nat.digits_def' (by decide) hval, List.map_cons,
          List.append_assoc, List.singleton_append]
      · have hzero : value.toNat = 0 := by
          have := mt BitVec.lt_def.mpr hpos
          simpa using this
        exact ⟨buf, i, by rw [fillLoop, if_neg hpos], hi, by rw [hzero, Nat.digits_zero, List.map_nil, List.append_nil]⟩

/-- The second loop sends the first `i` cells, the last one first. -/
theorem drainLoop_eq (buf : Vector Byte 20) : ∀ (i : Nat) (out : Uart), i ≤ 20 →
    (∀ c ∈ buf.toList.take i, c.toNat ≠ 10) → drainLoop buf i out = some (out ++ (buf.toList.take i).reverse) := by
  intro i
  induction i with
  | zero => intro out _ _; rw [drainLoop, List.take_zero, List.reverse_nil, List.append_nil]
  | succ i ih =>
      intro out hi hne
      have hlen : i < buf.toList.length := by simpa using hi
      have htake : buf.toList.take (i + 1) = buf.toList.take i ++ [buf[i]] := by
        rw [List.take_succ_eq_append_getElem hlen, Vector.getElem_toList]
      rw [htake] at hne
      have hlast : out.putc buf[i] = out ++ [buf[i]] := putc_of_ne out (hne _ (by simp))
      rw [drainLoop, Vector.getElem?_eq_getElem (by omega)]
      show drainLoop buf i (out.putc buf[i]) = _
      rw [hlast, ih _ (by omega) (fun c hc => hne c (List.mem_append_left _ hc)), htake, List.reverse_append,
        List.reverse_singleton, List.append_assoc]

/-- The numeral that `put_dec` sends. -/
def decimal (value : Word) : List Byte :=
  if value = 0#64 then [decChar 0] else Numeral.shortest decChar 10 value.toNat

theorem mem_decimal {value : Word} {c : Byte} (hc : c ∈ decimal value) : ∃ d, d < 10 ∧ c = decChar d := by
  unfold decimal at hc
  split at hc
  · exact ⟨0, by decide, List.mem_singleton.mp hc⟩
  · exact Numeral.mem_shortest (by decide) hc

/-- Only the numeral of zero starts with a zero. -/
theorem decimal_head (value : Word) : ∃ c rest, decimal value = c :: rest ∧ (c = 48#8 → value = 0#64 ∧ rest = []) := by
  by_cases hz : value = 0#64
  · exact ⟨decChar 0, [], by rw [decimal, if_pos hz], fun _ => ⟨hz, rfl⟩⟩
  · have hval : value.toNat ≠ 0 := BitVec.toNat_ne.mp hz
    obtain ⟨d, rest, heq, hd, hlt⟩ := @Numeral.shortest_head _ 10 decChar _ (by decide) hval
    refine ⟨decChar d, rest, by rw [decimal, if_neg hz, heq], ?_⟩
    intro hc
    have heq48 := congrArg BitVec.toNat hc
    rw [decChar_toNat hlt] at heq48
    have h48 : (48#8).toNat = 48 := rfl
    omega

theorem read_decimal (value : Word) : Numeral.read decDigit 10 (decimal value) = some value.toNat := by
  unfold decimal
  split
  · rename_i hz
    rw [hz]
    rfl
  · exact Numeral.read_shortest decChar_writes (by decide) _

/-- **`put_dec` returns**: 64 bits have at most twenty digits. -/
theorem putDec_eq (out : Uart) (value : Word) : out.putDec value = some (out ++ decimal value) := by
  by_cases hz : value = 0#64
  · rw [putDec, if_pos hz, decimal, if_pos hz]
    exact congrArg some (putc_of_ne out (by decide))
  · have hv : value.toNat < 10 ^ (20 - 0) := Nat.lt_of_lt_of_le value.isLt (by decide)
    obtain ⟨buf, i, hfill, hi, htake⟩ := fillLoop_eq 64 value (Vector.replicate 20 0#8) 0 (by decide) hv (by decide)
    rw [List.take_zero, List.nil_append] at htake
    have hne : ∀ c ∈ buf.toList.take i, c.toNat ≠ 10 := by
      intro c hc
      rw [htake] at hc
      obtain ⟨d, hd, rfl⟩ := List.mem_map.mp hc
      rw [decChar_toNat (Nat.digits_lt_base (by decide) hd)]
      omega
    rw [putDec, if_neg hz, hfill]
    show drainLoop buf i out = _
    rw [drainLoop_eq buf i out hi hne, htake, decimal, if_neg hz, Numeral.shortest, List.map_reverse]

theorem putDec_some (out : Uart) (value : Word) : ∃ out', out.putDec value = some out' := ⟨_, putDec_eq out value⟩

/-! ## `put_hex` sends every digit of the word -/

theorem nibble_toNat (value : Word) (count : Nat) :
    ((value >>> (4 * count)) &&& 0xF#64).toNat = value.toNat / 16 ^ count % 16 := by
  have hF : (0xF#64).toNat = 2 ^ 4 - 1 := rfl
  rw [BitVec.toNat_and, BitVec.toNat_ushiftRight, Nat.shiftRight_eq_div_pow, Nat.pow_mul, hF,
    Nat.and_two_pow_sub_one_eq_mod]

theorem hexLoop_eq (value : Word) : ∀ (count : Nat) (out : Uart),
    hexLoop value count out = out ++ Numeral.fixed hexChar 16 count value.toNat := by
  intro count
  induction count with
  | zero => intro out; exact (List.append_nil out).symm
  | succ count ih =>
      intro out
      have hch : (hexChar (value.toNat / 16 ^ count % 16)).toNat ≠ 10 := by
        have := hexChar_range (Nat.mod_lt (value.toNat / 16 ^ count) (by decide : 0 < 16))
        omega
      rw [hexLoop, nibble_toNat]
      show hexLoop value count (out.putc (hexChar _)) = _
      rw [putc_of_ne out hch, ih, Numeral.fixed_succ, List.append_assoc, List.singleton_append]

theorem putHex_eq (out : Uart) (value : Word) :
    out.putHex value = out ++ literal "0x" ++ Numeral.fixed hexChar 16 16 value.toNat := by
  have h : (out.putc 48#8).putc 120#8 = out ++ literal "0x" := by
    rw [putc_of_ne out (by decide), putc_of_ne _ (by decide), List.append_assoc]
    rfl
  rw [putHex, h, hexLoop_eq]

/-- **Numbers are printed exactly.** `put_dec` returns, so it stays inside its buffer, and sends the decimal
    numeral of the value; `put_hex` sends `0x` and sixteen digits. Read back, both give the value. -/
theorem numbers_print_exactly (out : Uart) (value : Word) :
    (∃ s, out.putDec value = some (out ++ s) ∧ (∀ c ∈ s, 48 ≤ c.toNat ∧ c.toNat ≤ 57) ∧
      (∃ c rest, s = c :: rest ∧ (c = 48#8 → value = 0#64 ∧ rest = [])) ∧
      Numeral.read decDigit 10 s = some value.toNat) ∧
    ∃ s, out.putHex value = out ++ [48#8, 120#8] ++ s ∧ s.length = 16 ∧
      (∀ c ∈ s, (48 ≤ c.toNat ∧ c.toNat ≤ 57) ∨ (97 ≤ c.toNat ∧ c.toNat ≤ 102)) ∧
      Numeral.read hexDigit 16 s = some value.toNat := by
  refine ⟨⟨decimal value, putDec_eq out value, ?_, decimal_head value, read_decimal value⟩,
    Numeral.fixed hexChar 16 16 value.toNat, putHex_eq out value, Numeral.length_fixed 16 _, ?_, Numeral.read_fixed hexChar_writes (by decide) value.isLt⟩
  · intro c hc
    obtain ⟨d, hd, rfl⟩ := mem_decimal hc
    rw [decChar_toNat hd]
    omega
  · intro c hc
    obtain ⟨d, hd, rfl⟩ := Numeral.mem_fixed (by decide) hc
    exact hexChar_range hd

end Uart
end Drivers
end RiscCore
