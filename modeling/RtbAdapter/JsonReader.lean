import Mathlib.Tactic
import RtbAdapter.JsonValues
import RtbAdapter.KeyedFields

/-!
# The JSON reader

`Reader::parse` over the bytes of a document. The reading position is the rest of the
document, and reading at the end gives a NUL. A read that fails adds one error and is never
taken up again, so the first error is the result; the tokens that are skipped behind it are
left to `RtbAdapter.JsonRecovery`. How a `double` is read is not in the source: `sscanf` stands
for `%lf`.
-/

namespace JsonReader

open ByteWords CText JsonValues

inductive TokenType where
  | endOfStream | objectBegin | objectEnd | arrayBegin | arrayEnd | string | number
  | tokenTrue | tokenFalse | tokenNull | arraySeparator | memberSeparator | comment | error
  deriving DecidableEq

structure Token where
  type : TokenType
  /-- From `start_` to `end_`. -/
  text : Bytes

/-- What ends a read: an error of the reader, a write behind the buffer of a number, or the
fuel of this model. -/
inductive Failure where
  | error (message : Bytes) (token : Token)
  | overrun
  | fuel

def isBlank (c : UInt8) : Bool := c = 32 || c = 9 || c = 13 || c = 10

def skipSpaces (s : Bytes) : Bytes := s.dropWhile isBlank

def isNumberChar (c : UInt8) : Bool := isDigit c || c = 46 || c = 101 || c = 69 || c = 43 || c = 45

/-- `match`: the rest behind the pattern, or where it was. -/
def matches' (pattern s : Bytes) : Option Bytes :=
  if pattern.isPrefixOf s then some (s.drop pattern.length) else none

/-- Behind the quote that ends a string. Without one the whole document is used up. -/
def readString : Bytes → Option Bytes
  | [] => none
  | 34 :: s => some s
  | [92] => none
  | 92 :: _ :: s => readString s
  | _ :: s => readString s

/-- Behind `*/`, or the end of the document. -/
def readCStyleComment : Bytes → Option Bytes
  | [] => none
  | 42 :: 47 :: s => some s
  | _ :: s => readCStyleComment s

def readCppStyleComment : Bytes → Bytes
  | [] => []
  | c :: s => if c = 13 || c = 10 then s else readCppStyleComment s

/-- Behind the slash that starts a comment. -/
def readComment : Bytes → TokenType × Bytes
  | [] => (.error, [])
  | c :: s =>
    if c = 42 then
      match readCStyleComment s with
      | some rest => (.comment, rest)
      | none => (.error, [])
    else if c = 47 then (.comment, readCppStyleComment s)
    else (.error, s)

/-- A token of the given letters, the first of which is read. -/
def readWord (type : TokenType) (pattern s : Bytes) : TokenType × Bytes :=
  match matches' pattern s with
  | some rest => (type, rest)
  | none => (.error, s)

/-- The switch over the first character of a token. -/
def readTokenAt : Bytes → TokenType × Bytes
  | [] => (.endOfStream, [])
  | c :: s =>
    if c = 123 then (.objectBegin, s)
    else if c = 125 then (.objectEnd, s)
    else if c = 91 then (.arrayBegin, s)
    else if c = 93 then (.arrayEnd, s)
    else if c = 34 then
      match readString s with
      | some rest => (.string, rest)
      | none => (.error, [])
    else if c = 47 then readComment s
    else if isDigit c || c = 45 then (.number, s.dropWhile isNumberChar)
    else if c = 116 then readWord .tokenTrue (ascii "rue") s
    else if c = 102 then readWord .tokenFalse (ascii "alse") s
    else if c = 110 then readWord .tokenNull (ascii "ull") s
    else if c = 44 then (.arraySeparator, s)
    else if c = 58 then (.memberSeparator, s)
    else if c = 0 then (.endOfStream, s)
    else (.error, s)

def readToken (s : Bytes) : Token × Bytes :=
  let start := skipSpaces s
  let after := readTokenAt start
  (⟨after.1, start.take (start.length - after.2.length)⟩, after.2)

/-- The next token behind at most `n` comments. -/
def skipComments : Nat → Bytes → Token × Bytes
  | 0, s => readToken s
  | n + 1, s =>
    let next := readToken s
    if next.1.type = .comment then skipComments n next.2 else next

def skipCommentTokens (s : Bytes) : Token × Bytes := skipComments s.length s

def hexDigit (c : UInt8) : Option Nat :=
  if 48 ≤ c ∧ c ≤ 57 then some (c.toNat - 48)
  else if 97 ≤ c ∧ c ≤ 102 then some (c.toNat - 97 + 10)
  else if 65 ≤ c ∧ c ≤ 70 then some (c.toNat - 65 + 10)
  else none

def hexValue : Nat → Bytes → Option Nat
  | unicode, [] => some unicode
  | unicode, c :: s => do hexValue (unicode * 16 + (← hexDigit c)) s

def badHex : Bytes :=
  ascii "Bad unicode escape sequence in string: hexadecimal digit expected."

def decodeUnicodeEscapeSequence (token : Token) (s : Bytes) : Except Failure Nat :=
  if s.length < 4 then
    .error (.error (ascii "Bad unicode escape sequence in string: four digits expected.") token)
  else
    match hexValue 0 (s.take 4) with
    | some unicode => .ok unicode
    | none => .error (.error badHex token)

/-- The second half of a surrogate pair. -/
def decodeSurrogate (token : Token) (unicode : Nat) (s : Bytes) : Except Failure (Nat × Bytes) :=
  if s.length < 6 then
    .error (.error (ascii ("additional six characters expected to parse unicode surrogate " ++
      "pair.")) token)
  else if s.take 2 = [92, 117] then do
    let surrogatePair ← decodeUnicodeEscapeSequence token (s.drop 2)
    return (0x10000 + unicode % 0x400 * 0x400 + surrogatePair % 0x400, s.drop 6)
  else
    .error (.error (ascii ("expecting another \\u token to begin the second half of a unicode " ++
      "surrogate pair")) token)

/-- The code point and the rest behind it. -/
def decodeUnicodeCodePoint (token : Token) (s : Bytes) : Except Failure (Nat × Bytes) := do
  let unicode ← decodeUnicodeEscapeSequence token s
  if 0xD800 ≤ unicode ∧ unicode ≤ 0xDBFF then decodeSurrogate token unicode (s.drop 4)
  else return (unicode, s.drop 4)

def codePointToUTF8 (cp : Nat) : Bytes :=
  if cp ≤ 0x7f then [UInt8.ofNat cp]
  else if cp ≤ 0x7ff then [UInt8.ofNat (0xc0 + cp / 0x40 % 0x20), UInt8.ofNat (0x80 + cp % 0x40)]
  else if cp ≤ 0xffff then
    [UInt8.ofNat (0xe0 + cp / 0x1000 % 0x10), UInt8.ofNat (0x80 + cp / 0x40 % 0x40),
      UInt8.ofNat (0x80 + cp % 0x40)]
  else if cp ≤ 0x10ffff then
    [UInt8.ofNat (0xf0 + cp / 0x40000 % 0x8), UInt8.ofNat (0x80 + cp / 0x1000 % 0x40),
      UInt8.ofNat (0x80 + cp / 0x40 % 0x40), UInt8.ofNat (0x80 + cp % 0x40)]
  else []

/-- The escapes that stand for one character. -/
def escaped (escape : UInt8) : Option UInt8 :=
  if escape = 34 then some 34
  else if escape = 47 then some 47
  else if escape = 92 then some 92
  else if escape = 98 then some 8
  else if escape = 102 then some 12
  else if escape = 110 then some 10
  else if escape = 114 then some 13
  else if escape = 116 then some 9
  else none

/-- What stands for an escape, and the rest behind it. -/
def decodeEscape (token : Token) : Bytes → Except Failure (Bytes × Bytes)
  | [] => .error (.error (ascii "Empty escape sequence in string") token)
  | escape :: s =>
    if escape = 117 then do
      let (unicode, rest) ← decodeUnicodeCodePoint token s
      return (codePointToUTF8 unicode, rest)
    else
      match escaped escape with
      | some b => .ok ([b], s)
      | none => .error (.error (ascii "Bad escape sequence in string") token)

/-- The characters between the quotes, with fuel for each. -/
def decodeChars (token : Token) : Nat → Bytes → Except Failure Bytes
  | _, [] => .ok []
  | 0, _ => .error .fuel
  | n + 1, c :: s =>
    if c = 34 then .ok []
    else if c = 92 then do
      let (decoded, rest) ← decodeEscape token s
      return decoded ++ (← decodeChars token n rest)
    else do return c :: (← decodeChars token n s)

def decodeString (token : Token) : Except Failure Bytes :=
  decodeChars token token.text.length (token.text.tail.dropLast)

variable (sscanf : Bytes → Option Rat)

def notANumber (token : Token) : Failure :=
  .error (ascii "'" ++ token.text ++ ascii "' is not a number.") token

/-- A text of 32 characters is copied to a buffer that has no place for its NUL. -/
def decodeDouble (token : Token) : Except Failure JsonValue :=
  if token.text.length = 32 then .error .overrun
  else
    match sscanf token.text with
    | some value => .ok (.real value)
    | none => .error (notANumber token)

/-- The loop over the digits: a value that reached the threshold is read as a `double`. -/
def readDigits (token : Token) (threshold : Nat) : Nat → Bytes → Except Failure (Option Nat)
  | value, [] => .ok (some value)
  | value, c :: s =>
    if isDigit c = false then .error (notANumber token)
    else if value ≥ threshold then .ok none
    else readDigits token threshold (value * 10 + (c.toNat - 48)) s

def isDoubleChar (c : UInt8) : Bool := c = 46 || c = 101 || c = 69 || c = 43

def decodeNumber (token : Token) : Except Failure JsonValue :=
  if token.text.any isDoubleChar || token.text.tail.contains 45 then decodeDouble sscanf token
  else
    let isNegative := token.text.head? = some 45
    let threshold := (if isNegative then 2 ^ 31 else 2 ^ 32 - 1) / 10
    match readDigits token threshold 0 (if isNegative then token.text.tail else token.text) with
    | .error failure => .error failure
    | .ok none => decodeDouble sscanf token
    | .ok (some value) =>
      if isNegative then .ok (.int (-value))
      else if value ≤ JsonValue.maxInt then .ok (.int value)
      else .ok (.uint value)

-- The reader is stated for any way to decode a number.
variable (decode : Token → Except Failure JsonValue)

/-- The name of a member and the colon behind it, in front of which no comment may stand. -/
def readName (tokenName : Token) (s : Bytes) : Except Failure (Bytes × Bytes) := do
  let name ← decodeString tokenName
  let colon := readToken s
  if colon.1.type = .memberSeparator then return (name, colon.2)
  else throw (.error (ascii "Missing ':' after object member name") colon.1)

/-- What stands behind a member. Behind a comment it may be any token. -/
def readSeparator (s : Bytes) : Except Failure (Token × Bytes) :=
  let comma := readToken s
  if comma.1.type = .comment then .ok (skipCommentTokens comma.2)
  else if comma.1.type = .objectEnd ∨ comma.1.type = .arraySeparator then .ok comma
  else .error (.error (ascii "Missing ',' or '\x7d' in object declaration") comma.1)

mutual

def readValue : Nat → Bytes → Except Failure (JsonValue × Bytes)
  | 0, _ => .error .fuel
  | n + 1, s =>
    let next := skipCommentTokens s
    match next.1.type with
    | .objectBegin => readMembers n [] [] next.2
    | .arrayBegin =>
      -- the place of `]` is looked at, and then it is read
      if (skipSpaces next.2).head? = some 93 then .ok (.array [], (skipSpaces next.2).tail)
      else readItems n [] next.2
    | .number => do return (← decode next.1, next.2)
    | .string => do return (.string (← decodeString next.1), next.2)
    | .tokenTrue => .ok (.bool true, next.2)
    | .tokenFalse => .ok (.bool false, next.2)
    | .tokenNull => .ok (.null, next.2)
    | _ => .error (.error (ascii "Syntax error: value, object or array expected.") next.1)

/-- The loop of `readArray`. Any token behind an item separates it from the next one: the
type that is refused would be two types at once. -/
def readItems : Nat → List JsonValue → Bytes → Except Failure (JsonValue × Bytes)
  | 0, _, _ => .error .fuel
  | n + 1, items, s => do
    let (value, rest) ← readValue n s
    let next := skipCommentTokens rest
    if next.1.type = .arrayEnd then return (.array (items ++ [value]), next.2)
    else readItems n (items ++ [value]) next.2

/-- The loop of `readObject`, with the name of the last member. -/
def readMembers : Nat → Bytes → List (Bytes × JsonValue) → Bytes →
    Except Failure (JsonValue × Bytes)
  | 0, _, _, _ => .error .fuel
  | n + 1, name, members, s =>
    let next := skipCommentTokens s
    if next.1.type = .objectEnd ∧ name = [] then .ok (.object members, next.2)
    else if next.1.type = .string then do
      let (name, rest) ← readName next.1 next.2
      let (value, rest) ← readValue n rest
      let members := KeyedFields.set (cStr name) value members
      let (comma, rest) ← readSeparator rest
      if comma.type = .objectEnd then return (.object members, rest)
      else readMembers n name members rest
    else .error (.error (ascii "Missing '\x7d' or object member name") next.1)

end

/-- `Reader::parse`, with fuel for every value and every turn of a loop. The token that is read
behind the value changes nothing. -/
def parseWith (document : Bytes) : Except Failure JsonValue :=
  (readValue decode (2 * document.length + 1) document).map Prod.fst

def parse (document : Bytes) : Except Failure JsonValue := parseWith (decodeNumber sscanf) document

end JsonReader
