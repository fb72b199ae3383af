import BitcoinCash.Bytes.Hex
import BitcoinCash.Proofs.Bytes.Digits
import BitcoinCash.Proofs.Fallible
import BitcoinCash.Proofs.Text.Blank

namespace BitcoinCash.Hex

variable {n : UInt8} {b : Bytes} {c : Char}

def code (n : UInt8) : UInt8 := UInt8.ofNat (digit n).toNat

theorem utf8_digit (h : n.toNat < 16) : String.utf8EncodeChar (digit n) = [code n] := by
  refine Bytes.of_toNat_lt h ?_
  decide

theorem readDigit_code (h : n.toNat < 16) (i : Nat) : readDigit i (code n) = .ok n := by
  have hvalue : value? (code n) = some n := by
    refine Bytes.of_toNat_lt h ?_
    decide
  rw [readDigit, hvalue]

theorem digit_range (h : n.toNat < 16) :
    0x30 ≤ (digit n).toNat ∧ (digit n).toNat ≤ 0x39 ∨
      0x61 ≤ (digit n).toNat ∧ (digit n).toNat ≤ 0x66 := by
  refine Bytes.of_toNat_lt h ?_
  decide

theorem high_lt (x : UInt8) : (x / 16).toNat < 16 := by
  have hx := x.toNat_lt
  rw [UInt8.toNat_div]
  exact Nat.div_lt_of_lt_mul hx

theorem low_lt (x : UInt8) : (x % 16).toNat < 16 := by
  rw [UInt8.toNat_mod]
  exact Nat.mod_lt _ (by decide)

theorem high_low (x : UInt8) : 16 * (x / 16) + x % 16 = x := by
  have hx := x.toNat_lt
  apply UInt8.toNat_inj.1
  simp only [UInt8.toNat_add, UInt8.toNat_mul, UInt8.toNat_div, UInt8.toNat_mod, UInt8.reduceToNat]
  omega

def codes (b : Bytes) : Bytes := b.flatMap fun x ↦ [code (x / 16), code (x % 16)]

theorem codes_cons (x : UInt8) (b : Bytes) :
    codes (x :: b) = code (x / 16) :: code (x % 16) :: codes b := rfl

theorem length_codes (b : Bytes) : (codes b).length = 2 * b.length := by
  induction b with
  | nil => rfl
  | cons x b ih =>
    rw [codes_cons, List.length_cons, List.length_cons, ih, List.length_cons]
    omega

theorem utf8_pair (x : UInt8) :
    (pair x).flatMap String.utf8EncodeChar = [code (x / 16), code (x % 16)] := by
  rw [pair, List.flatMap_cons, List.flatMap_singleton, utf8_digit (high_lt x),
    utf8_digit (low_lt x)]
  rfl

theorem utf8_encodeChars (b : Bytes) :
    (encodeChars b).flatMap String.utf8EncodeChar = codes b := by
  rw [encodeChars, List.flatMap_assoc]
  exact congrArg (b.flatMap ·) (funext utf8_pair)

theorem decodeFrom_codes (b : Bytes) (i : Nat) : decodeFrom i (codes b) = .ok b := by
  induction b generalizing i with
  | nil => rfl
  | cons x b ih =>
    rw [codes_cons, decodeFrom, readDigit_code (high_lt x), readDigit_code (low_lt x), ih,
      Fallible.ok_bind, Fallible.ok_bind, Fallible.ok_bind, high_low]
    rfl

theorem decodeChars_encodeChars (b : Bytes) : decodeChars (encodeChars b) = .ok b := by
  rw [decodeChars, utf8_encodeChars, decodeCodes, length_codes, if_neg (by omega)]
  exact decodeFrom_codes b 0

theorem mem_encodeChars (h : c ∈ encodeChars b) : ∃ n : UInt8, n.toNat < 16 ∧ c = digit n := by
  obtain ⟨x, -, hc⟩ := List.mem_flatMap.1 h
  rw [pair, List.mem_cons, List.mem_singleton] at hc
  rcases hc with rfl | rfl
  · exact ⟨_, high_lt x, rfl⟩
  · exact ⟨_, low_lt x, rfl⟩

theorem encodeChars_ne_nil (hb : b ≠ []) : encodeChars b ≠ [] := by
  cases b with
  | nil => exact absurd rfl hb
  | cons x b => exact List.cons_ne_nil _ _

theorem solid_encodeChars (b : Bytes) : Solid (encodeChars b) := by
  intro c hc
  obtain ⟨n, hn, rfl⟩ := mem_encodeChars hc
  have hrange := digit_range hn
  apply isBlank_eq_false <;> omega

end BitcoinCash.Hex
