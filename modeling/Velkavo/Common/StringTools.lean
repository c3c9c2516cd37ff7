import Velkavo.ByteCodec.Text

namespace Velkavo.StringTools

open ByteCodec

def getXtypeFromString (bits : ℕ) (s : Bytes) : Option ℕ :=
  if s ≠ [] ∧ s.all isDigit ∧ decimalValue s < 2 ^ bits then some (decimalValue s) else none

theorem getXtypeFromString_decimal {bits n : ℕ} (h : n < 2 ^ bits) :
    getXtypeFromString bits (decimal n) = some n := by
  have hall : (decimal n).all isDigit = true := List.all_eq_true.mpr fun _ => isDigit_of_mem_decimal
  rw [getXtypeFromString, decimalValue_decimal, if_pos ⟨decimal_ne_nil n, hall, h⟩]

def unsaveChars : Bytes := ascii "\"<>%\\^[]`+$,@:;!#&"

def isUnsafe (c : UInt8) : Bool := c ≤ 32 || c ≥ 123 || unsaveChars.contains c

def hexVals : Bytes := ascii "0123456789ABCDEF"

def percent : UInt8 := 0x25

/-- Two digits: the loop of the source runs at most once on a byte. -/
def decToHex (c : UInt8) : Bytes := [hexVals.getD (c.toNat / 16) 0, hexVals.getD (c.toNat % 16) 0]

def toUpper (c : UInt8) : UInt8 := if 0x61 ≤ c && c ≤ 0x7a then c - 0x20 else c

def hexToDec2bytes (a b : UInt8) : Bytes :=
  match hexVals.idxOf? (toUpper a), hexVals.idxOf? (toUpper b) with
  | some i0, some i1 => [UInt8.ofNat (i0 * 16 ||| i1)]
  | _, _ => [percent, a, b]

def converToUrlFormat : Bytes → Bytes
  | [] => []
  | c :: uri => (if isUnsafe c then percent :: decToHex c else [c]) ++ converToUrlFormat uri

def convertFromUrlFormat : Bytes → Bytes
  | [] => []
  | [c] => [c]
  | [c, d] => [c, d]
  | c :: a :: b :: uri =>
    if c = percent then hexToDec2bytes a b ++ convertFromUrlFormat uri
    else c :: convertFromUrlFormat (a :: b :: uri)

end Velkavo.StringTools
