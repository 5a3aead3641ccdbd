import Mathlib.Tactic
import RtbAdapter.JsonValues

/-!
# The JSON writer

`FastWriter` and the texts of its values. A text is written up to its first NUL. How a
`double` is printed is not in the source: `sprintf` stands for `%#.16g`.
-/

namespace JsonWriter

open ByteWords CText JsonValues

def isControlCharacter (ch : UInt8) : Bool := 0 < ch && ch ≤ 31

def containsControlCharacter (str : Bytes) : Bool := str.any isControlCharacter

/-- The characters that `strpbrk` looks for. -/
def special : Bytes := [34, 92, 8, 12, 10, 13, 9]

def hexUpper (n : Nat) : UInt8 := UInt8.ofNat (if n < 10 then 48 + n else 55 + n)

/-- `%04X`, of a character. -/
def hex4 (c : UInt8) : Bytes := [48, 48, hexUpper (c.toNat / 16), hexUpper (c.toNat % 16)]

def quoteChar (c : UInt8) : Bytes :=
  if c = 34 then [92, 34]
  else if c = 92 then [92, 92]
  else if c = 8 then [92, 98]
  else if c = 12 then [92, 102]
  else if c = 10 then [92, 110]
  else if c = 13 then [92, 114]
  else if c = 9 then [92, 116]
  else if isControlCharacter c then [92, 117] ++ hex4 c
  else [c]

def valueToQuotedString (value : Bytes) : Bytes :=
  let str := cStr value
  if str.any (special.contains ·) = false && containsControlCharacter str = false then
    [34] ++ str ++ [34]
  else [34] ++ str.flatMap quoteChar ++ [34]

/-- The digits of `value` in front of `current`, from the last one on. -/
def uintToString (value : Nat) (current : Bytes) : Bytes :=
  let digit := UInt8.ofNat (value % 10 + 48)
  if value / 10 = 0 then digit :: current else uintToString (value / 10) (digit :: current)
termination_by value
decreasing_by omega

/-- `valueToString` of an `int`. The least one is its own negative, as a word. -/
def intToString (value : Int) : Bytes :=
  if value < 0 then 45 :: uintToString (toUInt32 (toInt32 (-value))) [] else
    uintToString (toUInt32 value) []

/-- The zeros at the end of a text, all but one, when a point stands in front of digits. -/
def truncateZeros (buffer : Bytes) : Bytes :=
  let zeros := buffer.reverse.takeWhile (· = 48)
  let kept := buffer.take (buffer.length - zeros.length)
  if zeros = [] then buffer
  else if (kept.reverse.dropWhile isDigit).head? = some 46 then kept ++ [48]
  else buffer

variable (sprintf : Rat → Bytes)

/-- `valueToString` of a `double`. -/
def realToString (value : Rat) : Bytes := truncateZeros (sprintf value)

mutual

def writeValue : JsonValue → Bytes
  | .null => ascii "null"
  | .int n => intToString n
  | .uint n => uintToString n []
  | .real x => realToString sprintf x
  | .string s => valueToQuotedString s
  | .bool b => ascii (if b then "true" else "false")
  | .array items => [91] ++ writeItems items ++ [93]
  | .object members => [123] ++ writeMembers members ++ [125]

def writeItems : List JsonValue → Bytes
  | [] => []
  | item :: rest => writeValue item ++ (if rest = [] then [] else [44]) ++ writeItems rest

def writeMembers : List (Bytes × JsonValue) → Bytes
  | [] => []
  | member :: rest =>
    writeMember member ++ (if rest = [] then [] else [44]) ++ writeMembers rest

def writeMember : Bytes × JsonValue → Bytes
  | (name, value) => valueToQuotedString name ++ [58] ++ writeValue value

end

def write (root : JsonValue) : Bytes := writeValue sprintf root ++ [10]

end JsonWriter
