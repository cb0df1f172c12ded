/-! Bytes written as hexadecimal digits, two for each byte. Written digits are in lower case;
digits are read in either case. -/

namespace IndexedTable.Text

/-- The digit of a number below sixteen. -/
def hexDigit (n : Nat) : Char := "0123456789abcdef".toList.getD n '0'

/-- Two digits for each byte, the high half first. -/
def hexDigits (bytes : List UInt8) : List Char :=
  bytes.flatMap fun b => [hexDigit (b.toNat / 16), hexDigit (b.toNat % 16)]

/-- The written form of a byte string. -/
def hex (bytes : List UInt8) : String := String.ofList (hexDigits bytes)

/-- The number of a digit. -/
def digitValue? (c : Char) : Option Nat :=
  if '0' ≤ c ∧ c ≤ '9' then some (c.toNat - '0'.toNat)
  else if 'a' ≤ c ∧ c ≤ 'f' then some (c.toNat - 'a'.toNat + 10)
  else if 'A' ≤ c ∧ c ≤ 'F' then some (c.toNat - 'A'.toNat + 10)
  else none

/-- The bytes that a text of digits stands for, if it has two digits for each. -/
def unhex? : List Char → Option (List UInt8)
  | [] => some []
  | high :: low :: rest => do
    let h ← digitValue? high
    let l ← digitValue? low
    let bytes ← unhex? rest
    return (16 * h + l).toUInt8 :: bytes
  | [_] => none

end IndexedTable.Text
