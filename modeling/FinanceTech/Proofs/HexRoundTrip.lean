import Mathlib.Data.List.Basic
import Mathlib.Algebra.Ring.Nat
import FinanceTech.Encodings

/-! Bytes written in hexadecimal read back as they were, and digits read as
bytes are written back in upper case. -/

namespace FinanceTech.Proofs.HexRoundTrip

open Strings HexConverter

/-- The digit a half byte is written as. -/
def digit (half : UInt8) : UInt8 := table.getD half.toNat 0

/-- The two digits one byte is written as, the high half first. -/
def hexPair (byte : UInt8) : Text := [digit (byte >>> 4), digit (byte &&& 0x0f)]

def IsHexDigit (symbol : UInt8) : Prop :=
  ('0'.toUInt8 ≤ symbol ∧ symbol ≤ '9'.toUInt8) ∨ ('A'.toUInt8 ≤ symbol ∧ symbol ≤ 'F'.toUInt8) ∨
    ('a'.toUInt8 ≤ symbol ∧ symbol ≤ 'f'.toUInt8)

def upper (symbol : UInt8) : UInt8 :=
  if 'a'.toUInt8 ≤ symbol ∧ symbol ≤ 'z'.toUInt8 then symbol - 32 else symbol

theorem high_half (byte : UInt8) : (byte >>> 4).toNat = byte.toNat / 16 := by
  simp [UInt8.toNat_shiftRight, Nat.shiftRight_eq_div_pow]

theorem low_half (byte : UInt8) : (byte &&& 0x0f).toNat = byte.toNat % 16 := by
  simpa using Nat.and_two_pow_sub_one_eq_mod byte.toNat 4

private theorem high_small (byte : UInt8) : (byte >>> 4).toNat < 16 := by
  have bound := byte.toNat_lt
  rw [high_half]
  omega

theorem low_small (byte : UInt8) : (byte &&& 0x0f).toNat < 16 := by
  rw [low_half]
  exact Nat.mod_lt _ (by decide)

theorem table_digit {half : UInt8} (small : half.toNat < 16) : table[half.toNat]? = some (digit half) := by
  have inside : half.toNat < table.length := small
  simp [digit, List.getD, List.getElem?_eq_getElem inside]

/-- Reading a written digit gives the half byte back. -/
theorem hexCode_digit {half : UInt8} (small : half.toNat < 16) : hexCode (digit half) = half := by
  have all : ∀ value < 16, hexCode (table.getD value 0) = UInt8.ofNat value := by decide
  unfold digit
  rw [all _ small, UInt8.ofNat_toNat]

set_option maxRecDepth 2000 in
/-- A digit read and written again is the same digit in upper case. -/
theorem digit_hexCode {symbol : UInt8} (isDigit : IsHexDigit symbol) :
    (hexCode symbol).toNat < 16 ∧ digit (hexCode symbol) = upper symbol := by
  have all : ∀ value < 256, IsHexDigit (UInt8.ofNat value) →
      (hexCode (UInt8.ofNat value)).toNat < 16 ∧ digit (hexCode (UInt8.ofNat value)) = upper (UInt8.ofNat value) := by
    unfold IsHexDigit
    decide
  have this := all symbol.toNat symbol.toNat_lt
  rw [UInt8.ofNat_toNat] at this
  exact this isDigit

private theorem halves_joined (byte : UInt8) : (16 : UInt8) * (byte >>> 4) + (byte &&& 0x0f) = byte := by
  apply UInt8.toNat_inj.mp
  have high := high_half byte
  have low := low_half byte
  simp only [UInt8.toNat_add, UInt8.toNat_mul, high, low, UInt8.reduceToNat]
  have := byte.toNat_lt
  omega

private theorem joined_halves {high low : UInt8} (smallHigh : high.toNat < 16) (smallLow : low.toNat < 16) :
    (16 * high + low) >>> 4 = high ∧ (16 * high + low) &&& 0x0f = low := by
  have value : (16 * high + low).toNat = 16 * high.toNat + low.toNat := by
    simp only [UInt8.toNat_add, UInt8.toNat_mul, UInt8.reduceToNat]
    omega
  constructor
  · apply UInt8.toNat_inj.mp
    rw [high_half, value]
    omega
  · apply UInt8.toNat_inj.mp
    rw [low_half, value]
    omega

private theorem hex2UChar_hexPair (byte : UInt8) : hex2UChar (hexPair byte) = some byte := by
  have high := hexCode_digit (high_small byte)
  have low := hexCode_digit (low_small byte)
  simp [hex2UChar, hexPair, high, low, halves_joined]

private theorem hexPair_hex2UChar {first second : UInt8} (high : IsHexDigit first) (low : IsHexDigit second) :
    hexPair (16 * hexCode first + hexCode second) = [upper first, upper second] := by
  obtain ⟨smallHigh, upperHigh⟩ := digit_hexCode high
  obtain ⟨smallLow, upperLow⟩ := digit_hexCode low
  obtain ⟨isHigh, isLow⟩ := joined_halves smallHigh smallLow
  simp only [hexPair, isHigh, isLow, upperHigh, upperLow]

/-- One turn of the writing loop, the two places it fills still ahead of it. -/
theorem putByte_spec (done ahead : Text) (first second ch : UInt8) :
    putByte (done ++ first :: second :: ahead, done.length) ch =
      some ((done ++ hexPair ch) ++ ahead, (done ++ hexPair ch).length) := by
  have high := table_digit (high_small ch)
  have low := table_digit (low_small ch)
  have wroteSecond := writeAt_append (done ++ [digit (ch >>> 4)]) ahead second (digit (ch &&& 0x0f))
  simp only [List.append_assoc, List.singleton_append, List.length_append, List.length_singleton] at wroteSecond
  simp only [putByte, high, low, writeAt_append, wroteSecond, Option.bind_eq_bind, Option.bind_some]
  simp [hexPair]

private theorem bytesToHex_loop (bytes done : Text) :
    bytes.foldlM putByte (done ++ List.replicate (bytes.length * 2) '0'.toUInt8, done.length) =
      some (done ++ bytes.flatMap hexPair, (done ++ bytes.flatMap hexPair).length) := by
  induction bytes generalizing done with
  | nil => simp
  | cons ch rest ih =>
    have room : List.replicate ((ch :: rest).length * 2) '0'.toUInt8 =
        '0'.toUInt8 :: '0'.toUInt8 :: List.replicate (rest.length * 2) '0'.toUInt8 := by
      rw [List.length_cons, Nat.succ_mul]
      rfl
    have wrote := ih (done ++ hexPair ch)
    rw [List.foldlM_cons, room, putByte_spec]
    rw [List.flatMap_cons, ← List.append_assoc]
    exact wrote

/-- Writing gives the digits of each byte in turn. -/
theorem bytesToHex_eq (bytes : Text) : bytesToHex bytes = some (bytes.flatMap hexPair) := by
  have wrote := bytesToHex_loop bytes []
  simp only [List.nil_append, List.length_nil] at wrote
  simp only [bytesToHex, wrote, Option.bind_eq_bind, Option.bind_some, Option.pure_def]

/-! Reading goes over the text two symbols at a time. -/

def symbols (pair : UInt8 × UInt8) : Text := [pair.1, pair.2]

def joined (pair : UInt8 × UInt8) : UInt8 := 16 * hexCode pair.1 + hexCode pair.2

private theorem decode_spec (before rest bytes : Text) (pair : UInt8 × UInt8) :
    decode (before ++ (symbols pair ++ rest)) bytes before.length = some (bytes ++ [joined pair]) := by
  simp only [decode, substr_append, symbols, Option.bind_eq_bind, Option.bind_some]
  rfl

private theorem decode_loop (pairs : List (UInt8 × UInt8)) (before bytes : Text) :
    (List.range' before.length pairs.length 2).foldlM (decode (before ++ pairs.flatMap symbols)) bytes =
      some (bytes ++ pairs.map joined) := by
  induction pairs generalizing before bytes with
  | nil => simp
  | cons pair rest ih =>
    have turn := ih (before ++ symbols pair) (bytes ++ [joined pair])
    have next : (before ++ symbols pair).length = before.length + 2 := by simp [symbols]
    rw [List.append_assoc, next] at turn
    have grows : bytes ++ (pair :: rest).map joined = (bytes ++ [joined pair]) ++ rest.map joined := by simp
    rw [List.length_cons, List.range'_succ, List.foldlM_cons, List.flatMap_cons, decode_spec, grows]
    exact turn

theorem hex2Bytes_pairs (pairs : List (UInt8 × UInt8)) : hex2Bytes (pairs.flatMap symbols) = some (pairs.map joined) := by
  have length : (pairs.flatMap symbols).length = 2 * pairs.length := by
    induction pairs with
    | nil => rfl
    | cons pair rest ih => simp [symbols, ih]; omega
  have turns : ((pairs.flatMap symbols).length + 1) / 2 = pairs.length := by omega
  have read := decode_loop pairs [] []
  simp only [List.nil_append, List.length_nil] at read
  rw [hex2Bytes, positions, turns]
  exact read

theorem even_pairs : ∀ text : Text, text.length % 2 = 0 → ∃ pairs : List (UInt8 × UInt8), text = pairs.flatMap symbols
  | [], _ => ⟨[], rfl⟩
  | [_], odd => by simp at odd
  | first :: second :: rest, even => by
    obtain ⟨pairs, isRest⟩ := even_pairs rest (by simp only [List.length_cons] at even; omega)
    exact ⟨(first, second) :: pairs, by rw [isRest]; rfl⟩

def halves (byte : UInt8) : UInt8 × UInt8 := (digit (byte >>> 4), digit (byte &&& 0x0f))

theorem decode_encode (bytes : Text) : hex2Bytes (bytes.flatMap hexPair) = some bytes := by
  have pairs : bytes.flatMap hexPair = (bytes.map halves).flatMap symbols := by
    rw [List.flatMap_map]
    rfl
  have back : ∀ byte : UInt8, joined (halves byte) = byte := by
    intro byte
    have read := hex2UChar_hexPair byte
    exact Option.some.inj read
  rw [pairs, hex2Bytes_pairs, List.map_map]
  simp [Function.comp_def, back]

private theorem encode_decode (hex : Text) (even : hex.length % 2 = 0) (digits : ∀ symbol ∈ hex, IsHexDigit symbol) :
    ∃ bytes, hex2Bytes hex = some bytes ∧ bytes.flatMap hexPair = hex.map upper := by
  obtain ⟨pairs, rfl⟩ := even_pairs hex even
  refine ⟨pairs.map joined, hex2Bytes_pairs pairs, ?_⟩
  rw [List.flatMap_map, List.map_flatMap]
  apply List.flatMap_congr
  intro pair member
  apply hexPair_hex2UChar
  · exact digits pair.1 (List.mem_flatMap.mpr ⟨pair, member, by simp [symbols]⟩)
  · exact digits pair.2 (List.mem_flatMap.mpr ⟨pair, member, by simp [symbols]⟩)

/-- Both decoders undo the encoder, and the encoder undoes them up to the case of the letters. -/
theorem hex_conversion_inverse :
    (∀ bytes : Text, ∃ hex, bytesToHex bytes = some hex ∧ hex2Bytes hex = some bytes ∧ hex2BytesString hex = some bytes) ∧
    (∀ hex : Text, hex.length % 2 = 0 → (∀ symbol ∈ hex, IsHexDigit symbol) →
      ∃ bytes, hex2Bytes hex = some bytes ∧ hex2BytesString hex = some bytes ∧ bytesToHex bytes = some (hex.map upper)) := by
  constructor
  · intro bytes
    have read := decode_encode bytes
    exact ⟨bytes.flatMap hexPair, bytesToHex_eq bytes, read, read⟩
  · intro hex even digits
    obtain ⟨bytes, read, back⟩ := encode_decode hex even digits
    exact ⟨bytes, read, read, by rw [bytesToHex_eq, back]⟩

set_option maxRecDepth 4000 in
theorem hex_conversion_inverse_mixed_case :
    ∃ bytes, hex2Bytes (['f', 'F', '0', 'a'].map Char.toUInt8) = some bytes ∧
      hex2BytesString (['f', 'F', '0', 'a'].map Char.toUInt8) = some bytes ∧
      bytesToHex bytes = some ((['f', 'F', '0', 'a'].map Char.toUInt8).map upper) :=
  hex_conversion_inverse.2 _ (by decide) (by unfold IsHexDigit; decide)

end FinanceTech.Proofs.HexRoundTrip
