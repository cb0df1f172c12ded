import IndexedTable.Direction
import IndexedTable.Predicate.Expr

/-! Fingerprints of predicates: a hash of a byte sequence that tells apart any two predicates, and
either direction of the scan. Names, texts and lists are preceded by their lengths, and numbers
are written in full width, least significant byte first. -/

namespace IndexedTable

/-- The bytes of a number, least significant first, in the given width. -/
def littleEndian : Nat → Nat → List UInt8
  | 0, _ => []
  | width + 1, n => n.toUInt8 :: littleEndian width (n / 256)

/-- Bytes preceded by their number. -/
def lengthPrefixed (bytes : List UInt8) : List UInt8 := littleEndian 8 bytes.length ++ bytes

/-- A text preceded by its length in bytes. -/
def encodeText (s : String) : List UInt8 := lengthPrefixed (Value.utf8 s)

mutual

/-- The byte sequence of a literal. -/
def Value.encode : Value → List UInt8
  | .null => utf8 "null"
  | .boolean b => utf8 "bool" ++ [if b then 1 else 0]
  | .int32 n => utf8 "i32" ++ littleEndian 4 n.toUInt32.toNat
  | .int64 n => utf8 "i64" ++ littleEndian 8 n.toUInt64.toNat
  | .float64 x => utf8 "f64" ++ littleEndian 8 x.bits.toNat
  | .text s => utf8 "str" ++ encodeText s
  | .dateTime n => utf8 "dt" ++ littleEndian 8 n.toUInt64.toNat
  | .bytes b => utf8 "bytes" ++ lengthPrefixed b
  | .list items => utf8 "list" ++ littleEndian 8 items.length ++ encodeItems items

/-- The byte sequences of several literals, one after another. -/
def Value.encodeItems : List Value → List UInt8
  | [] => []
  | item :: rest => encode item ++ encodeItems rest

end

/-- The code of a binary operator. -/
def BinaryOp.code : BinaryOp → UInt8
  | equal => 0
  | notEqual => 1
  | less => 2
  | atMost => 3
  | greater => 4
  | atLeast => 5
  | and => 6
  | or => 7
  | add => 8
  | subtract => 9
  | multiply => 10
  | divide => 11

/-- The code of a unary operator. -/
def UnaryOp.code : UnaryOp → UInt8
  | not => 0
  | negate => 1

/-- The code of a direction. -/
def Direction.code : Direction → UInt8
  | ascending => 0
  | descending => 1

mutual

/-- The byte sequence of an expression. A thunk is written by its identity. -/
def Expr.encode : Expr → List UInt8
  | .field name => Value.utf8 "field" ++ encodeText name
  | .literal value => Value.utf8 "lit" ++ value.encode
  | .argument place => Value.utf8 "param" ++ littleEndian 8 place.toNat
  | .thunk t => Value.utf8 "thunk" ++ littleEndian 8 t.id.toNat
  | .binary op left right => Value.utf8 "binop" ++ [op.code] ++ encode left ++ encode right
  | .unary op operand => Value.utf8 "unop" ++ [op.code] ++ encode operand
  | .contains haystack needle => Value.utf8 "contains" ++ encode haystack ++ encode needle
  | .call name arguments =>
    Value.utf8 "call" ++ encodeText name ++ littleEndian 8 arguments.length ++
      encodeArguments arguments

/-- The byte sequences of several expressions, one after another. -/
def Expr.encodeArguments : List Expr → List UInt8
  | [] => []
  | item :: rest => encode item ++ encodeArguments rest

end

/-- One step of the hash: the byte is mixed in by exclusive or, then the state is multiplied. -/
def hashByte (state : UInt64) (byte : UInt8) : UInt64 :=
  (state ^^^ byte.toUInt64) * 0x100000001b3

/-- The 64-bit FNV-1a hash: every byte in turn, from a fixed initial state. -/
def hashBytes (bytes : List UInt8) : UInt64 := bytes.foldl hashByte 0xcbf29ce484222325

/-- The byte sequence of a predicate compiled in a direction. -/
def Expr.fingerprintBytes (predicate : Expr) (direction : Direction) : List UInt8 :=
  direction.code :: predicate.encode

/-- The fingerprint of a predicate compiled in a direction. -/
def Expr.fingerprint (predicate : Expr) (direction : Direction) : UInt64 :=
  hashBytes (predicate.fingerprintBytes direction)

end IndexedTable
