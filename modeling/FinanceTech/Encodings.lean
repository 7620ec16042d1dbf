import FinanceTech.Strings

/-! Text forms of byte strings: hexadecimal and base 64. -/

namespace FinanceTech

open Strings

namespace HexConverter

def table : Text := ['0', '1', '2', '3', '4', '5', '6', '7', '8', '9', 'A', 'B', 'C', 'D', 'E', 'F'].map Char.toUInt8

/-- One turn of the loop: the result so far and the position to write next. -/
def putByte (dest : Text × Nat) (ch : UInt8) : Option (Text × Nat) := do
  let high ← table[(ch >>> 4).toNat]?
  let result ← writeAt dest.1 dest.2 high
  let low ← table[(ch &&& 0x0f).toNat]?
  let result ← writeAt result (dest.2 + 1) low
  return (result, dest.2 + 2)

def bytesToHex (bytesStr : Text) : Option Text := do
  let dest ← bytesStr.foldlM putByte (List.replicate (bytesStr.length * 2) '0'.toUInt8, 0)
  return dest.1

/-- A symbol that is no digit counts as zero. -/
def hexCode (symbol : UInt8) : UInt8 :=
  if '0'.toUInt8 ≤ symbol ∧ symbol ≤ '9'.toUInt8 then symbol - '0'.toUInt8
  else if 'A'.toUInt8 ≤ symbol ∧ symbol ≤ 'F'.toUInt8 then symbol - 'A'.toUInt8 + 10
  else if 'a'.toUInt8 ≤ symbol ∧ symbol ≤ 'f'.toUInt8 then symbol - 'a'.toUInt8 + 10
  else 0

/-- A view holds no null character behind its end: a single digit has no second one. -/
def hex2UChar (hexValue : Text) : Option UInt8 := do
  let high ← hexValue[0]?
  let low ← hexValue[1]?
  return 16 * hexCode high + hexCode low

/-- The positions `i = 0, 2, …` below the length. -/
def positions (length : Nat) : List Nat := List.range' 0 ((length + 1) / 2) 2

def decode (hexString bytes : Text) (i : Nat) : Option Text := do
  let hexValue ← substr hexString i 2
  let byte ← hex2UChar hexValue
  return bytes ++ [byte]

def hex2Bytes (hexString : Text) : Option (List UInt8) :=
  (positions hexString.length).foldlM (decode hexString) []

/-- The same loop, its bytes kept as characters. -/
def hex2BytesString (hexString : Text) : Option Text :=
  (positions hexString.length).foldlM (decode hexString) []

end HexConverter

namespace Base64

def MAX_BITS_TO_ENCODE : Nat := 6

def ENCODING_TABLE : Text :=
  ['A', 'B', 'C', 'D', 'E', 'F', 'G', 'H',
   'I', 'J', 'K', 'L', 'M', 'N', 'O', 'P',
   'Q', 'R', 'S', 'T', 'U', 'V', 'W', 'X',
   'Y', 'Z', 'a', 'b', 'c', 'd', 'e', 'f',
   'g', 'h', 'i', 'j', 'k', 'l', 'm', 'n',
   'o', 'p', 'q', 'r', 's', 't', 'u', 'v',
   'w', 'x', 'y', 'z', '0', '1', '2', '3',
   '4', '5', '6', '7', '8', '9', '+', '/'].map Char.toUInt8

/-- The variables of the loops. -/
structure Encoder where
  result : Text := []
  bitToSet : Nat := MAX_BITS_TO_ENCODE
  encodedByte : Nat := 0
deriving DecidableEq, Repr

/-- A full group of bits is written out before the next bit is looked at. -/
def Encoder.flush (encoder : Encoder) : Option Encoder :=
  if encoder.bitToSet ≤ 0 then do
    let symbol ← ENCODING_TABLE[encoder.encodedByte]?
    return { result := encoder.result ++ [symbol], bitToSet := MAX_BITS_TO_ENCODE, encodedByte := 0 }
  else
    return encoder

/-- One turn of the inner loop. -/
def Encoder.takeBit (byte : UInt8) (encoder : Encoder) (i : Nat) : Option Encoder := do
  let encoder ← encoder.flush
  let encodedByte :=
    if byte.toNat &&& (1 <<< i) ≠ 0 then encoder.encodedByte ||| (1 <<< (encoder.bitToSet - 1)) else encoder.encodedByte
  return { encoder with encodedByte, bitToSet := encoder.bitToSet - 1 }

def Encoder.takeByte (encoder : Encoder) (byte : UInt8) : Option Encoder :=
  [7, 6, 5, 4, 3, 2, 1, 0].foldlM (Encoder.takeBit byte) encoder

def base64Encode (str : Text) : Option Text := do
  let encoder ← str.foldlM Encoder.takeByte {}
  let symbol ← ENCODING_TABLE[encoder.encodedByte]?
  return encoder.result ++ [symbol] ++ List.replicate (if 2 = str.length % 3 then 1 else 2) '='.toUInt8

end Base64
end FinanceTech
