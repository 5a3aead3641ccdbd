import Mathlib.Tactic
import RtbAdapter.JsonReader
import RtbAdapter.JsonWriter

/-!
# What the JSON reader makes of a written document

A document of the writer is read back, whatever stands behind it. Numbers are the only
values that can change their kind, and a text ends at its first NUL.
-/

namespace JsonRoundTrip

open ByteWords CText JsonValues JsonWriter JsonReader

section Strings

variable {c : UInt8} {s rest : Bytes} {token : Token} {n : Nat}

theorem readString_plain (quote : c ≠ 34) (slash : c ≠ 92) :
    readString (c :: s) = readString s := by
  rw [readString]
  · exact quote
  · exact fun here _ => slash here
  · exact fun _ _ here _ => slash here

/-- How a character is written: as it is, as the escape that stands for it, or by its code. -/
theorem quoteChar_cases (c : UInt8) :
    (c ≠ 34 ∧ c ≠ 92 ∧ quoteChar c = [c]) ∨
      (∃ e, escaped e = some c ∧ e ≠ 117 ∧ quoteChar c = [92, e]) ∨
      (c < 32 ∧ quoteChar c = [92, 117] ++ hex4 c) := by
  by_cases known : c ∈ special
  · right
    left
    simp only [special, List.mem_cons, List.not_mem_nil, or_false] at known
    rcases known with rfl | rfl | rfl | rfl | rfl | rfl | rfl
    · exact ⟨34, by decide⟩
    · exact ⟨92, by decide⟩
    · exact ⟨98, by decide⟩
    · exact ⟨102, by decide⟩
    · exact ⟨110, by decide⟩
    · exact ⟨114, by decide⟩
    · exact ⟨116, by decide⟩
  · simp only [special, List.mem_cons, List.not_mem_nil, or_false, not_or] at known
    obtain ⟨quote, slash, rest⟩ := known
    by_cases control : isControlCharacter c
    · right
      right
      refine ⟨?_, by simp [quoteChar, *]⟩
      simp only [isControlCharacter, Bool.and_eq_true, decide_eq_true_eq] at control
      exact UInt8.lt_iff_toNat_lt.mpr (Nat.lt_succ_of_le (UInt8.le_iff_toNat_le.mp control.2))
    · exact Or.inl ⟨quote, slash, by simp [quoteChar, *]⟩

theorem hex4_read : ∀ c : UInt8, c < 32 →
    (hex4 c).length = 4 ∧ (∀ b ∈ hex4 c, b ≠ 34 ∧ b ≠ 92) ∧ hexValue 0 (hex4 c) = some c.toNat ∧
      codePointToUTF8 c.toNat = [c] := by
  have four : ∀ c : UInt8, c < 32 → (hex4 c).length = 4 := forall_byte (by decide +kernel)
  have plain : ∀ c : UInt8, c < 32 → (hex4 c).all fun b => b ≠ 34 ∧ b ≠ 92 :=
    forall_byte (by decide +kernel)
  have value : ∀ c : UInt8, c < 32 → hexValue 0 (hex4 c) = some c.toNat :=
    forall_byte (by decide +kernel)
  have coded : ∀ c : UInt8, c < 32 → codePointToUTF8 c.toNat = [c] :=
    forall_byte (by decide +kernel)
  exact fun c small => ⟨four c small, fun b inside => of_decide_eq_true
    (List.all_eq_true.mp (plain c small) b inside), value c small, coded c small⟩

theorem readString_quoteChar : readString (quoteChar c ++ s) = readString s := by
  rcases quoteChar_cases c with ⟨quote, slash, written⟩ | ⟨e, _, _, written⟩ | ⟨small, written⟩
  · rw [written]
    exact readString_plain quote slash
  · rw [written]
    rfl
  · obtain ⟨four, plain, -, -⟩ := hex4_read _ small
    rw [written]
    change readString (hex4 c ++ s) = readString s
    generalize hex4 c = digits at plain
    induction digits with
    | nil => rfl
    | cons b digits ih =>
      rw [List.forall_mem_cons] at plain
      exact (readString_plain plain.1.1 plain.1.2).trans (ih plain.2)

/-- A quoted text ends at its own quote. -/
theorem readString_quoted (str rest : Bytes) :
    readString (str.flatMap quoteChar ++ 34 :: rest) = some rest := by
  induction str with
  | nil => rfl
  | cons c str ih => rw [List.flatMap_cons, List.append_assoc, readString_quoteChar, ih]

theorem decodeUnicode_hex4 (small : c < 32) :
    decodeUnicodeCodePoint token (hex4 c ++ s) = .ok (c.toNat, s) := by
  obtain ⟨four, -, value, -⟩ := hex4_read _ small
  have front : (hex4 c ++ s).take 4 = hex4 c := by rw [← four, List.take_left]
  have behind : (hex4 c ++ s).drop 4 = s := by rw [← four, List.drop_left]
  have read : decodeUnicodeEscapeSequence token (hex4 c ++ s) = .ok c.toNat := by
    rw [decodeUnicodeEscapeSequence, if_neg (by simp [four]), front, value]
  have plane : ¬(0xD800 ≤ c.toNat ∧ c.toNat ≤ 0xDBFF) := by
    have := c.toNat_lt
    omega
  rw [decodeUnicodeCodePoint, read, behind]
  simp only [bind, Except.bind, if_neg plane]
  rfl

/-- One written character, decoded. -/
theorem decodeChars_quoteChar :
    decodeChars token (n + 1) (quoteChar c ++ s) = (decodeChars token n s).map (c :: ·) := by
  have escape {behind : Bytes} (read : decodeEscape token behind = .ok ([c], s)) :
      decodeChars token (n + 1) (92 :: behind) = (decodeChars token n s).map (c :: ·) := by
    rw [decodeChars, if_neg (by decide), if_pos rfl, read]
    rfl
  rcases quoteChar_cases c with
    ⟨quote, slash, written⟩ | ⟨e, stands, other, written⟩ | ⟨small, written⟩
  · rw [written, List.singleton_append, decodeChars, if_neg quote, if_neg slash]
    rfl
  · rw [written]
    change decodeChars token (n + 1) (92 :: e :: s) = _
    refine escape ?_
    rw [decodeEscape, if_neg other, stands]
  · rw [written]
    change decodeChars token (n + 1) (92 :: 117 :: (hex4 c ++ s)) = _
    refine escape ?_
    rw [decodeEscape, if_pos rfl, decodeUnicode_hex4 small]
    exact congrArg (fun b => Except.ok (b, s)) (hex4_read c small).2.2.2

theorem decodeChars_quoted (str : Bytes) (enough : str.length ≤ n) :
    decodeChars token n (str.flatMap quoteChar) = .ok str := by
  induction str generalizing n with
  | nil => cases n <;> rfl
  | cons c str ih =>
    obtain ⟨n, rfl⟩ : ∃ m, n = m + 1 := ⟨n - 1, by simp at enough; omega⟩
    rw [List.flatMap_cons, decodeChars_quoteChar, ih (by simpa using enough)]
    rfl

theorem quoteChar_ne_nil (c : UInt8) : quoteChar c ≠ [] := by
  rcases quoteChar_cases c with ⟨-, -, written⟩ | ⟨e, -, -, written⟩ | ⟨-, written⟩ <;>
    simp [written]

theorem quoted_length (str : Bytes) : str.length ≤ (str.flatMap quoteChar).length := by
  induction str with
  | nil => exact le_rfl
  | cons c str ih =>
    have some' := List.length_pos_of_ne_nil (quoteChar_ne_nil c)
    rw [List.flatMap_cons, List.length_append, List.length_cons]
    omega

/-- The two ways to quote a text write the same. -/
theorem valueToQuotedString_eq (value : Bytes) :
    valueToQuotedString value = [34] ++ (cStr value).flatMap quoteChar ++ [34] := by
  rw [valueToQuotedString]
  split
  case isFalse => rfl
  case isTrue plain =>
    rw [Bool.and_eq_true, decide_eq_true_eq, decide_eq_true_eq] at plain
    have same : ∀ c ∈ cStr value, quoteChar c = [c] := by
      intro c inside
      have ordinary := List.any_eq_false.mp plain.1 c inside
      have visible := List.any_eq_false.mp plain.2 c inside
      simp [special] at ordinary
      simp [quoteChar, ordinary, visible]
    rw [List.flatMap_congr same, List.flatMap_singleton']

end Strings

section Tokens

variable {c : UInt8} {s text rest : Bytes} {type : TokenType}

/-- The text of a number, as `%d`, `%u` and `%#.16g` print it. -/
structure NumberText (text : Bytes) : Prop where
  starts : ∃ sign digit rest, text = sign ++ digit :: rest ∧ (sign = [] ∨ sign = [45]) ∧
    isDigit digit
  chars : ∀ c ∈ text, isNumberChar c
  short : text.length < 32

/-- A number ends in front of this. -/
def Follow (rest : Bytes) : Prop := ∀ c ∈ rest.head?, isNumberChar c = false

theorem readToken_of (solid : ∀ c ∈ text.head?, isBlank c = false) (some' : text ≠ [])
    (reads : readTokenAt (text ++ rest) = (type, rest)) :
    readToken (text ++ rest) = (⟨type, text⟩, rest) := by
  obtain ⟨c, text, rfl⟩ := List.exists_cons_of_ne_nil some'
  have start : skipSpaces (c :: text ++ rest) = c :: text ++ rest := by
    rw [skipSpaces, List.cons_append, List.dropWhile_cons, if_neg (by simp [solid c rfl])]
  rw [readToken]
  simp only [start, reads, List.length_append, Nat.add_sub_cancel, List.take_left]

theorem number_start : ∀ c : UInt8, isDigit c ∨ c = 45 →
    isBlank c = false ∧ c ≠ 123 ∧ c ≠ 125 ∧ c ≠ 91 ∧ c ≠ 93 ∧ c ≠ 34 ∧ c ≠ 47 :=
  forall_byte (by decide +kernel)

theorem NumberText.head (number : NumberText text) :
    ∃ c rest, text = c :: rest ∧ (isDigit c ∨ c = 45) := by
  obtain ⟨sign, digit, rest, rfl, rfl | rfl, isDigit⟩ := number.starts
  · exact ⟨digit, rest, rfl, Or.inl isDigit⟩
  · exact ⟨45, digit :: rest, rfl, Or.inr rfl⟩

theorem dropNumber (chars : ∀ c ∈ text, isNumberChar c) (follow : Follow rest) :
    (text ++ rest).dropWhile isNumberChar = rest := by
  rw [List.dropWhile_append_of_pos chars]
  cases rest with
  | nil => rfl
  | cons c rest => rw [List.dropWhile_cons, if_neg (by simp [follow c rfl])]

theorem readToken_number (number : NumberText text) (follow : Follow rest) :
    readToken (text ++ rest) = (⟨.number, text⟩, rest) := by
  obtain ⟨c, later, rfl, first⟩ := number.head
  obtain ⟨solid, other⟩ := number_start c first
  have digit : (isDigit c || decide (c = 45)) = true := by simpa using first
  refine readToken_of (by simpa using solid) (by simp) ?_
  rw [List.cons_append, readTokenAt]
  simp only [other, if_false, digit, if_true]
  rw [dropNumber (fun c inside => number.chars c (List.mem_cons_of_mem _ inside)) follow]

theorem readToken_quoted (value rest : Bytes) :
    readToken (valueToQuotedString value ++ rest) =
      (⟨.string, valueToQuotedString value⟩, rest) := by
  rw [valueToQuotedString_eq]
  refine readToken_of (by simp [isBlank]) (by simp) ?_
  have ends := readString_quoted (cStr value) rest
  simp only [List.cons_append, List.nil_append, List.append_assoc, readTokenAt]
  rw [ends]
  rfl

theorem decodeString_quoted (value : Bytes) :
    decodeString ⟨type, valueToQuotedString value⟩ = .ok (cStr value) := by
  have enough := quoted_length (cStr value)
  rw [decodeString, valueToQuotedString_eq]
  simp only [List.cons_append, List.nil_append, List.tail_cons, List.dropLast_concat]
  refine decodeChars_quoted _ ?_
  rw [List.length_cons, List.length_append]
  omega

theorem readToken_mark (type : TokenType) (mark : (c, type) ∈
      [((123 : UInt8), TokenType.objectBegin), (125, .objectEnd), (91, .arrayBegin),
        (93, .arrayEnd), (44, .arraySeparator), (58, .memberSeparator)]) (s : Bytes) :
    readToken (c :: s) = (⟨type, [c]⟩, s) := by
  simp only [List.mem_cons, Prod.mk.injEq, List.not_mem_nil, or_false] at mark
  rcases mark with ⟨rfl, rfl⟩ | ⟨rfl, rfl⟩ | ⟨rfl, rfl⟩ | ⟨rfl, rfl⟩ | ⟨rfl, rfl⟩ | ⟨rfl, rfl⟩ <;>
    exact @readToken_of [_] _ _ (by simp [isBlank]) (by simp) rfl

theorem skipComments_of (n : Nat) (plain : (readToken s).1.type ≠ .comment) :
    skipComments n s = readToken s := by
  cases n with
  | zero => rfl
  | succ n => rw [skipComments, if_neg plain]

theorem skipCommentTokens_of {token : Token} (reads : readToken s = (token, rest))
    (plain : token.type ≠ .comment) : skipCommentTokens s = (token, rest) := by
  rw [skipCommentTokens, skipComments_of _ (by rw [reads]; exact plain), reads]

end Tokens

section Numbers

variable {n : Nat} {token : Token} {threshold : Nat}

theorem decimal_digit {n : Nat} (small : n < 10) : decimal n = [UInt8.ofNat (n + 48)] := by
  rw [decimal_natCast, Nat.toDigits_of_lt_base small]
  interval_cases n <;> rfl

theorem decimal_step (large : 10 ≤ n) :
    decimal n = decimal (n / 10 : Nat) ++ [UInt8.ofNat (n % 10 + 48)] := by
  have last := decimal_digit (Nat.mod_lt n (y := 10) (by decide))
  rw [decimal_natCast, Nat.toDigits_of_lt_base (Nat.mod_lt n (by decide))] at last
  rw [decimal_natCast, Nat.toDigits_of_base_le (by decide) large, List.map_append,
    ← decimal_natCast, ← last]

theorem uintToString_eq (n : Nat) (current : Bytes) :
    uintToString n current = decimal n ++ current := by
  induction n using Nat.strong_induction_on generalizing current with
  | h n ih =>
    rw [uintToString]
    by_cases small : n < 10
    · rw [if_pos (Nat.div_eq_of_lt small), Nat.mod_eq_of_lt small, decimal_digit small]
      rfl
    · rw [if_neg (by omega), ih _ (by omega), decimal_step (n := n) (by omega),
        List.append_assoc]
      rfl

theorem intToString_eq {n : Int} (lower : -2 ^ 31 ≤ n) (upper : n < 2 ^ 31) :
    intToString n = decimal n := by
  rw [intToString]
  split
  case isTrue negative =>
    obtain ⟨m, rfl⟩ : ∃ m : Nat, n = Int.negSucc m := ⟨(-n - 1).toNat, by omega⟩
    -- the least number, as a word, is its own negative
    have value : toUInt32 (toInt32 ((m + 1 : Nat) : Int)) = m + 1 := by
      rw [toUInt32, toInt32, Int.bmod]
      split <;> omega
    rw [decimal_negSucc, uintToString_eq, List.append_nil,
      show -Int.negSucc m = (m + 1 : Nat) from rfl, value]
  case isFalse whole =>
    obtain ⟨m, rfl⟩ := Int.eq_ofNat_of_zero_le (not_lt.mp whole)
    have value : toUInt32 (m : Int) = m := by
      rw [toUInt32]
      omega
    rw [uintToString_eq, List.append_nil, value]

theorem isDigit_char : ∀ c : UInt8, isDigit c → isNumberChar c ∧ isDoubleChar c = false ∧ c ≠ 45 :=
  forall_byte (by decide +kernel)

theorem decimal_length (small : n < 2 ^ 32) : (decimal n).length ≤ 10 := by
  rw [decimal_natCast, List.length_map, Nat.length_toDigits_le_iff (by decide) (by decide)]
  omega

theorem numberText_nat (small : n < 2 ^ 32) : NumberText (decimal n) where
  starts := by
    obtain ⟨c, rest, text⟩ := List.exists_cons_of_ne_nil (decimal_ne_nil n)
    exact ⟨[], c, rest, text, Or.inl rfl, decimal_isDigit c (text ▸ List.mem_cons_self)⟩
  chars c inside := (isDigit_char c (decimal_isDigit c inside)).1
  short := lt_of_le_of_lt (decimal_length small) (by decide)

theorem numberText_int {n : Int} (lower : -2 ^ 31 ≤ n) (upper : n < 2 ^ 31) :
    NumberText (decimal n) := by
  cases n with
  | ofNat n => exact numberText_nat (by simp at upper; omega)
  | negSucc n =>
    have whole := numberText_nat (n := n + 1) (by omega)
    have length := decimal_length (n := n + 1) (by omega)
    rw [decimal_negSucc]
    obtain ⟨c, rest, text⟩ := List.exists_cons_of_ne_nil (decimal_ne_nil (n + 1 : Nat))
    refine ⟨⟨[45], c, rest, by rw [text]; rfl, Or.inr rfl, ?_⟩, ?_, ?_⟩
    · exact decimal_isDigit (n := n + 1) c (text ▸ List.mem_cons_self)
    · intro b inside
      rcases List.mem_cons.mp inside with rfl | digit
      · decide
      · exact whole.chars b digit
    · rw [List.length_cons]
      omega

theorem readDigits_append {ds : Bytes} {d : UInt8} (digit : isDigit d) (value : Nat) :
    readDigits token threshold value (ds ++ [d]) =
      match readDigits token threshold value ds with
      | .ok (some w) => .ok (if w ≥ threshold then none else some (w * 10 + (d.toNat - 48)))
      | other => other := by
  induction ds generalizing value with
  | nil =>
    by_cases reached : value ≥ threshold <;> simp [readDigits, digit, reached]
  | cons c ds ih =>
    rw [List.cons_append, readDigits, readDigits]
    split
    · rfl
    · split
      · rfl
      · exact ih _

/-- The digits are taken as long as the value in front of the last one is below the
threshold. -/
theorem readDigits_decimal (positive : 0 < threshold) (n : Nat) :
    readDigits token threshold 0 (decimal n) =
      .ok (if n / 10 < threshold then some n else none) := by
  have byte {d : Nat} (small : d < 10) : ∃ c, UInt8.ofNat (d + 48) = c ∧ isDigit c ∧
      c.toNat - 48 = d := by
    refine ⟨_, rfl, ?_⟩
    interval_cases d <;> decide
  induction n using Nat.strong_induction_on with
  | h n ih =>
    by_cases small : n < 10
    · obtain ⟨c, last, digit, value⟩ := byte small
      rw [decimal_digit small, if_pos (by omega), last]
      simp [readDigits, digit, value, positive.ne']
    · obtain ⟨c, last, digit, value⟩ := byte (Nat.mod_lt n (y := 10) (by decide))
      rw [decimal_step (by omega), last, readDigits_append digit, ih _ (by omega)]
      by_cases below : n / 10 / 10 < threshold
      · by_cases under : n / 10 < threshold
        · simp [below, under, value, Nat.div_add_mod']
        · simp [below, under]
      · have above : ¬n / 10 < threshold := by omega
        simp [below, above]

end Numbers

/-- Members stand in the order of their names, which are C strings. -/
def Sorted (names : List Bytes) : Prop :=
  names.Pairwise (compare · · = .lt) ∧ ∀ name ∈ names, 0 ∉ name

section Formed

variable (leaf : JsonValue → Prop)

mutual

/-- A value whose members are sorted and whose leaves are as told. -/
def Formed : JsonValue → Prop
  | .array items => FormedItems items
  | .object members => Sorted (members.map Prod.fst) ∧ FormedMembers members
  | value => leaf value

def FormedItems : List JsonValue → Prop
  | [] => True
  | item :: rest => Formed item ∧ FormedItems rest

def FormedMembers : List (Bytes × JsonValue) → Prop
  | [] => True
  | member :: rest => FormedMember member ∧ FormedMembers rest

def FormedMember : Bytes × JsonValue → Prop
  | (_, value) => Formed value

end

end Formed

/-- The numbers of the library are words. -/
def InRange : JsonValue → Prop
  | .int n => -2 ^ 31 ≤ n ∧ n < 2 ^ 31
  | .uint n => n < 2 ^ 32
  | _ => True

/-- What a value of the library can hold. -/
def Valid (value : JsonValue) : Prop := Formed InRange value

def isNumber : JsonValue → Bool
  | .int _ | .uint _ | .real _ => true
  | _ => false

section Values

variable (sprintf : Rat → Bytes) (decode : Token → Except Failure JsonValue)
  (back : JsonValue → JsonValue)

mutual

/-- What is read back, where `back` says what becomes of a number. -/
def readBack : JsonValue → JsonValue
  | .int n => back (.int n)
  | .uint n => back (.uint n)
  | .real x => back (.real x)
  | .string s => .string (cStr s)
  | .array items => .array (backItems items)
  | .object members => .object (backMembers members)
  | value => value

def backItems : List JsonValue → List JsonValue
  | [] => []
  | item :: rest => readBack item :: backItems rest

def backMembers : List (Bytes × JsonValue) → List (Bytes × JsonValue)
  | [] => []
  | member :: rest => backMember member :: backMembers rest

def backMember : Bytes × JsonValue → Bytes × JsonValue
  | (name, value) => (name, readBack value)

end

/-- The decoder reads the numbers of the writer as `back` says. -/
def Decodes : Prop := ∀ value, isNumber value → InRange value →
  NumberText (writeValue sprintf value) ∧
    decode ⟨.number, writeValue sprintf value⟩ = .ok (back value)

variable {sprintf decode back} {rest text : Bytes} {n : Nat}

theorem readValue_token {token : Token} (reads : readToken (text ++ rest) = (token, rest))
    (plain : token.type ≠ .comment) (value : JsonValue)
    (atom : match token.type with
      | .number => decode token = .ok value
      | .string => (decodeString token).map .string = .ok value
      | .tokenTrue => value = .bool true
      | .tokenFalse => value = .bool false
      | .tokenNull => value = .null
      | _ => False) : readValue decode (n + 1) (text ++ rest) = .ok (value, rest) := by
  rw [readValue, skipCommentTokens_of reads plain]
  obtain ⟨type, text⟩ := token
  cases type <;> simp only at atom ⊢ <;> try contradiction
  case string =>
    cases decoded : decodeString ⟨.string, text⟩ with
    | error failure => rw [decoded] at atom; cases atom
    | ok s =>
      rw [decoded] at atom
      cases atom
      rfl
  case number => rw [atom]; rfl
  all_goals rw [atom]

/-- A written value starts with a character that neither is blank nor closes an array. -/
theorem writeValue_starts (decodes : Decodes sprintf decode back) {value : JsonValue}
    (valid : Valid value) :
    ∃ c later, writeValue sprintf value = c :: later ∧ isBlank c = false ∧ c ≠ 93 := by
  have number (isNumber : isNumber value) (inRange : InRange value) : ∃ c later,
      writeValue sprintf value = c :: later ∧ isBlank c = false ∧ c ≠ 93 := by
    obtain ⟨c, later, text, first⟩ := (decodes value isNumber inRange).1.head
    obtain ⟨solid, -, -, -, other, -⟩ := number_start c first
    exact ⟨c, later, text, solid, other⟩
  cases value with
  | null => exact ⟨110, _, rfl, by decide⟩
  | int n => exact number rfl valid
  | uint n => exact number rfl valid
  | real x => exact number rfl valid
  | string s => exact ⟨34, _, valueToQuotedString_eq s, by decide⟩
  | bool b => cases b <;> exact ⟨_, _, rfl, by decide⟩
  | array items => exact ⟨91, _, rfl, by decide⟩
  | object members => exact ⟨123, _, rfl, by decide⟩

theorem readValue_number (decodes : Decodes sprintf decode back) {value : JsonValue}
    (number : isNumber value) (valid : InRange value) (follow : Follow rest) :
    readValue decode (n + 1) (writeValue sprintf value ++ rest) = .ok (back value, rest) := by
  obtain ⟨text, reads⟩ := decodes value number valid
  exact readValue_token (readToken_number text follow) (by simp) _ reads

/-- What stands behind an item or a member is a comma or the end. -/
theorem follow_mark {c : UInt8} (mark : c = 44 ∨ c = 93 ∨ c = 125) (s : Bytes) :
    Follow (c :: s) := by
  intro b first
  cases first
  rcases mark with rfl | rfl | rfl <;> rfl

theorem readArray_open {s : Bytes} :
    readValue decode (n + 1) (91 :: s) =
      if (skipSpaces s).head? = some 93 then .ok (.array [], (skipSpaces s).tail)
      else readItems decode n [] s := by
  rw [readValue, skipCommentTokens_of (readToken_mark .arrayBegin (by simp) s) (by decide)]

theorem readObject_open {s : Bytes} :
    readValue decode (n + 1) (123 :: s) = readMembers decode n [] [] s := by
  rw [readValue, skipCommentTokens_of (readToken_mark .objectBegin (by simp) s) (by decide)]

theorem readItems_step {items : List JsonValue} {value : JsonValue} {s : Bytes}
    (reads : readValue decode n s = .ok (value, 44 :: rest)) :
    readItems decode (n + 1) items s = readItems decode n (items ++ [value]) rest := by
  rw [readItems, reads]
  simp only [bind, Except.bind]
  rw [skipCommentTokens_of (readToken_mark .arraySeparator (by simp) rest) (by decide)]
  rfl

theorem readItems_last {items : List JsonValue} {value : JsonValue} {s : Bytes}
    (reads : readValue decode n s = .ok (value, 93 :: rest)) :
    readItems decode (n + 1) items s = .ok (.array (items ++ [value]), rest) := by
  rw [readItems, reads]
  simp only [bind, Except.bind]
  rw [skipCommentTokens_of (readToken_mark .arrayEnd (by simp) rest) (by decide)]
  rfl

theorem readName_write {type : TokenType} (name s : Bytes) :
    readName ⟨type, valueToQuotedString name⟩ (58 :: s) = .ok (cStr name, s) := by
  rw [readName, decodeString_quoted]
  simp only [bind, Except.bind]
  rw [readToken_mark .memberSeparator (by simp) s]
  rfl

theorem readMembers_step {members : List (Bytes × JsonValue)} {value : JsonValue}
    {last name s : Bytes} (clean : 0 ∉ name)
    (reads : readValue decode n s = .ok (value, 44 :: rest)) :
    readMembers decode (n + 1) last members (valueToQuotedString name ++ 58 :: s) =
      readMembers decode n name (KeyedFields.set name value members) rest := by
  have here := skipCommentTokens_of (readToken_quoted name (58 :: s)) (by simp)
  rw [readMembers, here, if_neg (by simp), if_pos rfl, readName_write, cStr_eq_self clean]
  simp only [bind, Except.bind, reads, readSeparator]
  rw [readToken_mark .arraySeparator (by simp) rest, cStr_eq_self clean]
  rfl

theorem readMembers_last {members : List (Bytes × JsonValue)} {value : JsonValue}
    {last name s : Bytes} (clean : 0 ∉ name)
    (reads : readValue decode n s = .ok (value, 125 :: rest)) :
    readMembers decode (n + 1) last members (valueToQuotedString name ++ 58 :: s) =
      .ok (.object (KeyedFields.set name value members), rest) := by
  have here := skipCommentTokens_of (readToken_quoted name (58 :: s)) (by simp)
  rw [readMembers, here, if_neg (by simp), if_pos rfl, readName_write, cStr_eq_self clean]
  simp only [bind, Except.bind, reads, readSeparator]
  rw [readToken_mark .objectEnd (by simp) rest, cStr_eq_self clean]
  rfl

mutual

theorem readValue_write (decodes : Decodes sprintf decode back) (value : JsonValue)
    (valid : Valid value) (n : Nat) (rest : Bytes) (follow : Follow rest)
    (enough : 2 * (writeValue sprintf value).length ≤ n) :
    readValue decode n (writeValue sprintf value ++ rest) = .ok (readBack back value, rest) := by
  obtain ⟨c, later, text, -, -⟩ := writeValue_starts decodes valid
  obtain ⟨n, rfl⟩ : ∃ m, n = m + 1 := ⟨n - 1, by rw [text, List.length_cons] at enough; omega⟩
  match value with
  | .null =>
    change readValue decode (n + 1) (ascii "null" ++ rest) = _
    exact readValue_token (readToken_of (by decide +kernel) (by decide) rfl) (by decide) _ rfl
  | .int n => exact readValue_number decodes rfl valid follow
  | .uint n => exact readValue_number decodes rfl valid follow
  | .real x => exact readValue_number decodes rfl valid follow
  | .string s =>
    refine readValue_token (readToken_quoted s rest) (by simp) _ ?_
    simp only [decodeString_quoted]
    rfl
  | .bool true =>
    change readValue decode (n + 1) (ascii "true" ++ rest) = _
    exact readValue_token (readToken_of (by decide +kernel) (by decide) rfl) (by decide) _ rfl
  | .bool false =>
    change readValue decode (n + 1) (ascii "false" ++ rest) = _
    exact readValue_token (readToken_of (by decide +kernel) (by decide) rfl) (by decide) _ rfl
  | .array [] =>
    change readValue decode (n + 1) (91 :: 93 :: rest) = _
    rw [readArray_open]
    rfl
  | .array (item :: items) =>
    rw [Valid, Formed] at valid
    obtain ⟨c, later, starts, solid, other⟩ := writeValue_starts decodes valid.1
    have text : writeValue sprintf (.array (item :: items)) ++ rest =
        91 :: (writeItems sprintf (item :: items) ++ 93 :: rest) := by
      simp [writeValue]
    have first :
        (skipSpaces (writeItems sprintf (item :: items) ++ 93 :: rest)).head? = some c := by
      rw [writeItems, starts, skipSpaces]
      simp [solid]
    rw [text, readArray_open, first, if_neg (by simpa using other),
      readItems_write decodes item items valid n [] rest ?_, readBack, List.nil_append]
    rw [writeValue, List.length_append, List.length_append, List.length_singleton,
      List.length_singleton] at enough
    omega
  | .object [] =>
    change readValue decode (n + 1) (123 :: 125 :: rest) = _
    obtain ⟨n, rfl⟩ : ∃ m, n = m + 1 := ⟨n - 1, by simp [writeValue, writeMembers] at enough; omega⟩
    rw [readObject_open, readMembers,
      skipCommentTokens_of (readToken_mark .objectEnd (by simp) rest) (by decide)]
    rfl
  | .object (member :: members) =>
    rw [Valid, Formed] at valid
    have text : writeValue sprintf (.object (member :: members)) ++ rest =
        123 :: (writeMembers sprintf (member :: members) ++ 125 :: rest) := by
      simp [writeValue]
    rw [text, readObject_open,
      readMembers_write decodes member members valid.2 n [] [] rest (by simpa using valid.1) ?_,
      readBack, List.nil_append]
    rw [writeValue, List.length_append, List.length_append, List.length_singleton,
      List.length_singleton] at enough
    omega
termination_by n

theorem readItems_write (decodes : Decodes sprintf decode back) (item : JsonValue)
    (items : List JsonValue) (valid : FormedItems InRange (item :: items)) (n : Nat)
    (done : List JsonValue) (rest : Bytes)
    (enough : 2 * (writeItems sprintf (item :: items)).length + 1 ≤ n) :
    readItems decode n done (writeItems sprintf (item :: items) ++ 93 :: rest) =
      .ok (.array (done ++ backItems back (item :: items)), rest) := by
  obtain ⟨n, rfl⟩ : ∃ m, n = m + 1 := ⟨n - 1, by omega⟩
  rw [FormedItems] at valid
  match items with
  | [] =>
    rw [writeItems] at enough ⊢
    simp only [if_true, writeItems, List.append_nil, backItems] at enough ⊢
    exact readItems_last (readValue_write decodes item valid.1 n _ (follow_mark (by simp) rest)
      (by omega))
  | next :: items =>
    rw [writeItems, if_neg (List.cons_ne_nil next items)] at enough ⊢
    simp only [List.length_append, List.length_singleton] at enough
    have here := readValue_write decodes item valid.1 n
      (44 :: (writeItems sprintf (next :: items) ++ 93 :: rest)) (follow_mark (by simp) _)
      (by omega)
    rw [List.append_assoc, List.append_assoc, List.singleton_append, readItems_step here,
      readItems_write decodes next items valid.2 n _ rest (by omega), List.append_assoc,
      List.singleton_append]
    rfl
termination_by n

theorem readMembers_write (decodes : Decodes sprintf decode back) (member : Bytes × JsonValue)
    (members : List (Bytes × JsonValue)) (valid : FormedMembers InRange (member :: members))
    (n : Nat) (last : Bytes) (done : List (Bytes × JsonValue)) (rest : Bytes)
    (sorted : Sorted (done.map Prod.fst ++ (member :: members).map Prod.fst))
    (enough : 2 * (writeMembers sprintf (member :: members)).length + 1 ≤ n) :
    readMembers decode n last done (writeMembers sprintf (member :: members) ++ 125 :: rest) =
      .ok (.object (done ++ backMembers back (member :: members)), rest) := by
  obtain ⟨n, rfl⟩ : ∃ m, n = m + 1 := ⟨n - 1, by omega⟩
  obtain ⟨name, value⟩ := member
  rw [FormedMembers, FormedMember] at valid
  have clean : 0 ∉ name := sorted.2 name (by simp)
  have above : ∀ key ∈ done.map Prod.fst, compare key name = .lt := fun key inside =>
    (List.pairwise_append.mp sorted.1).2.2 key inside name (by simp)
  match members with
  | [] =>
    rw [writeMembers, writeMember] at enough ⊢
    simp only [if_true, writeMembers, List.append_nil, backMembers, backMember,
      List.length_append, List.length_singleton] at enough ⊢
    have here := readValue_write decodes value valid.1 n _ (follow_mark (c := 125) (by simp) rest)
      (by omega)
    rw [List.append_assoc, List.append_assoc, List.singleton_append, readMembers_last clean here,
      KeyedFields.set_last above]
  | next :: members =>
    rw [writeMembers, writeMember, if_neg (List.cons_ne_nil next members)] at enough ⊢
    simp only [List.length_append, List.length_singleton] at enough
    have here := readValue_write decodes value valid.1 n
      (44 :: (writeMembers sprintf (next :: members) ++ 125 :: rest)) (follow_mark (by simp) _)
      (by omega)
    rw [List.append_assoc, List.append_assoc, List.append_assoc, List.append_assoc,
      List.singleton_append, List.singleton_append, readMembers_step clean here,
      KeyedFields.set_last above,
      readMembers_write decodes next members valid.2 n _ _ rest (by simpa using sorted) (by omega),
      List.append_assoc, List.singleton_append]
    rfl
termination_by n

end

theorem parseWith_write (decodes : Decodes sprintf decode back) {value : JsonValue}
    (valid : Valid value) (behind : Bytes) :
    parseWith decode (write sprintf value ++ behind) = .ok (readBack back value) := by
  have follow : Follow (10 :: behind) := by
    intro c first
    cases first
    rfl
  rw [parseWith, write, List.append_assoc, List.singleton_append,
    readValue_write decodes value valid _ _ follow (by simp; omega)]
  rfl

end Values

section Doubles

variable {sprintf : Rat → Bytes} {sscanf : Bytes → Option Rat}

/-- What the C library does with the numbers that are printed and read. -/
structure Doubles (sprintf : Rat → Bytes) (sscanf : Bytes → Option Rat) : Prop where
  printed : ∀ x, NumberText (sprintf x)
  point : ∀ x, 46 ∈ sprintf x
  /-- A printed number is read again, also without the zeros that are cut from it. -/
  scanned : ∀ x, (sscanf (truncateZeros (sprintf x))).isSome
  whole : ∀ n : Int, n.natAbs < 2 ^ 53 → sscanf (decimal n) = some (n : Rat)

/-- What becomes of a number. An `int` of ten digits at the lower end and an `unsigned` at the
upper end are taken for a `double`, and a small `unsigned` for an `int`. -/
def back (sprintf : Rat → Bytes) (sscanf : Bytes → Option Rat) : JsonValue → JsonValue
  | .int n => if n ≤ -2147483640 then .real n else .int n
  | .uint n =>
    if n ≤ JsonValue.maxInt then .int n else if n < 4294967290 then .uint n else .real n
  | .real x => .real ((sscanf (realToString sprintf x)).getD 0)
  | value => value

/-- A cut behind the point leaves the sign and the digit in front. -/
theorem NumberText.cut {text kept : Bytes} (number : NumberText text) (front : kept <+: text)
    (point : 46 ∈ kept) (shorter : kept.length < text.length) : NumberText (kept ++ [48]) := by
  obtain ⟨behind, whole⟩ := front
  refine ⟨?_, fun c among => ?_, ?_⟩
  · obtain ⟨sign, digit, rest, text_eq, signs, isDigit⟩ := number.starts
    have unsigned : 46 ∉ sign := by rcases signs with rfl | rfl <;> decide
    rw [text_eq] at whole
    rcases List.append_eq_append_iff.mp whole with ⟨more, sign_eq, -⟩ | ⟨more, kept_eq, rest_eq⟩
    · exact absurd (sign_eq ▸ List.mem_append_left more point) unsigned
    · cases more with
      | nil =>
        rw [List.append_nil] at kept_eq
        exact absurd (kept_eq ▸ point) unsigned
      | cons first later =>
        obtain ⟨rfl, -⟩ := List.cons.inj rest_eq
        exact ⟨sign, digit, later ++ [48], by simp [kept_eq], signs, isDigit⟩
  · rcases List.mem_append.mp among with among | among
    · exact number.chars c (whole ▸ List.mem_append_left behind among)
    · rw [List.mem_singleton.mp among]
      decide
  · have := number.short
    rw [List.length_append, List.length_singleton]
    omega

theorem numberText_truncate {text : Bytes} (number : NumberText text) (point : 46 ∈ text) :
    NumberText (truncateZeros text) ∧ 46 ∈ truncateZeros text := by
  rw [truncateZeros]
  split
  case isTrue => exact ⟨number, point⟩
  case isFalse some' =>
    split
    case isFalse => exact ⟨number, point⟩
    case isTrue cut =>
      have inside :=
        List.mem_reverse.mp ((List.dropWhile_sublist _).mem (List.mem_of_mem_head? cut))
      refine ⟨number.cut (List.take_prefix _ _) inside ?_, List.mem_append_left _ inside⟩
      have zeros := List.length_pos_of_ne_nil some'
      have some'' : 0 < text.length := List.length_pos_of_mem point
      rw [List.length_take]
      omega

theorem decodeNumber_double {text : Bytes} (point : 46 ∈ text) :
    decodeNumber sscanf ⟨.number, text⟩ = decodeDouble sscanf ⟨.number, text⟩ := by
  have double : text.any isDoubleChar = true := List.any_eq_true.mpr ⟨46, point, rfl⟩
  rw [decodeNumber, if_pos (by simp [double])]

theorem decodeDouble_some {text : Bytes} {x : Rat} (number : NumberText text)
    (reads : sscanf text = some x) :
    decodeDouble sscanf ⟨.number, text⟩ = .ok (.real x) := by
  rw [decodeDouble, if_neg number.short.ne, reads]

theorem plain_digits {ds : Bytes} (digits : ∀ c ∈ ds, isDigit c) :
    ds.any isDoubleChar = false ∧ ds.contains 45 = false := by
  constructor
  · exact List.any_eq_false.mpr fun c inside => by simp [(isDigit_char c (digits c inside)).2.1]
  · refine Bool.eq_false_iff.mpr fun inside => ?_
    have minus := digits 45 (List.contains_iff_mem.mp inside)
    exact absurd minus (by decide)

theorem decodeNumber_nat (n : Nat) :
    decodeNumber sscanf ⟨.number, decimal n⟩ =
      if n < 4294967290 then .ok (if n ≤ JsonValue.maxInt then .int n else .uint n)
      else decodeDouble sscanf ⟨.number, decimal n⟩ := by
  obtain ⟨double, -⟩ := plain_digits (decimal_isDigit (n := n))
  have sign := (@plain_digits (decimal n).tail
    fun c inside => decimal_isDigit c (List.mem_of_mem_tail inside)).2
  have positive : (decimal n).head? ≠ some 45 := by
    intro first
    exact (isDigit_char 45 (decimal_isDigit 45 (List.mem_of_mem_head? first))).2.2 rfl
  rw [decodeNumber, if_neg (by simp only [double, sign]; decide)]
  simp only [positive, if_false]
  rw [readDigits_decimal (by decide)]
  by_cases small : n < 4294967290
  · rw [if_pos (by omega), if_pos small]
    simp only
    split <;> rfl
  · rw [if_neg (by omega), if_neg small]

theorem decodeNumber_neg (n : Nat) :
    decodeNumber sscanf ⟨.number, decimal (Int.negSucc n)⟩ =
      if n + 1 < 2147483640 then .ok (.int (Int.negSucc n))
      else decodeDouble sscanf ⟨.number, decimal (Int.negSucc n)⟩ := by
  obtain ⟨double, sign⟩ := plain_digits (decimal_isDigit (n := n + 1))
  rw [decimal_negSucc, decodeNumber, if_neg (by
    rw [List.any_cons, List.tail_cons, double, sign]
    decide)]
  simp only [List.head?_cons, if_true, List.tail_cons]
  rw [readDigits_decimal (by decide)]
  by_cases small : n + 1 < 2147483640
  · rw [if_pos (by omega), if_pos small]
    rfl
  · rw [if_neg (by omega), if_neg small]

theorem decodes_doubles (doubles : Doubles sprintf sscanf) :
    Decodes sprintf (decodeNumber sscanf) (back sprintf sscanf) := by
  intro value number valid
  cases value with
  | int n =>
    obtain ⟨lower, upper⟩ := valid
    have text := numberText_int lower upper
    rw [writeValue, intToString_eq lower upper, back]
    refine ⟨text, ?_⟩
    cases n with
    | ofNat n =>
      have small : n < 2147483648 := by simp at upper; omega
      change decodeNumber sscanf ⟨.number, decimal n⟩ = _
      rw [decodeNumber_nat, if_pos (by omega), if_pos (by simp [JsonValue.maxInt]; omega),
        if_neg (by simp; omega)]
      rfl
    | negSucc n =>
      rw [decodeNumber_neg]
      by_cases small : n + 1 < 2147483640
      · rw [if_pos small, if_neg (by omega)]
      · rw [if_neg small, if_pos (by omega),
          decodeDouble_some text (doubles.whole _ (by simp; omega))]
  | uint n =>
    have text := numberText_nat valid
    rw [writeValue, uintToString_eq, List.append_nil, back]
    refine ⟨text, ?_⟩
    rw [decodeNumber_nat]
    by_cases small : n < 4294967290
    · rw [if_pos small]
      split <;> rfl
    · have large : ¬n ≤ JsonValue.maxInt := by
        simp [JsonValue.maxInt]
        omega
      rw [InRange] at valid
      rw [if_neg small, if_neg large, if_neg small,
        decodeDouble_some text (doubles.whole n (by simp; omega))]
      rfl
  | real x =>
    obtain ⟨text, point⟩ := numberText_truncate (doubles.printed x) (doubles.point x)
    obtain ⟨y, reads⟩ := Option.isSome_iff_exists.mp (doubles.scanned x)
    rw [writeValue, back, realToString, reads]
    exact ⟨text, (decodeNumber_double point).trans (decodeDouble_some text reads)⟩
  | null => cases number
  | string s => cases number
  | bool b => cases number
  | array items => cases number
  | object members => cases number

/-- The document of a value is read as the value, whatever stands behind it. -/
theorem parse_write (doubles : Doubles sprintf sscanf) {value : JsonValue} (valid : Valid value)
    (behind : Bytes) :
    parse sscanf (write sprintf value ++ behind) =
      .ok (readBack (back sprintf sscanf) value) :=
  parseWith_write (decodes_doubles doubles) valid behind

/-- Doubles of which only one is ever printed. -/
def half : Bytes := ascii "1.500000000000000"

def scanHalf (text : Bytes) : Option Rat :=
  if 46 ∈ text then some (3 / 2)
  else if text.head? = some 45 then some (-(digits text.tail : Rat))
  else some (digits text : Rat)

theorem doubles_half : Doubles (fun _ => half) scanHalf where
  printed _ := ⟨⟨[], 49, ascii ".500000000000000", by decide, Or.inl rfl, by decide +kernel⟩,
    by decide +kernel, by decide +kernel⟩
  point _ := by decide +kernel
  scanned _ := by
    rw [scanHalf]
    split
    · rfl
    · split <;> rfl
  whole n _ := by
    rw [scanHalf, if_neg (notMem_decimal (by decide) n)]
    cases n with
    | ofNat n =>
      have positive : (decimal n).head? ≠ some 45 := by
        obtain ⟨b, s, printed, -, unsigned, -⟩ := decimal_head n
        simpa [printed] using unsigned
      change (if (decimal n).head? = some 45 then _ else some (digits (decimal n) : Rat)) = _
      rw [if_neg positive, digits_decimal]
      rfl
    | negSucc n =>
      rw [decimal_negSucc, List.head?_cons, if_pos rfl, List.tail_cons, digits_decimal,
        Int.cast_negSucc]

theorem parse_write_example :
    parse scanHalf (write (fun _ => half) (.object [(ascii "id", .string [97, 9, 34, 1, 0, 98]),
      (ascii "n", .array [.int (-5), .uint 7, .real (3 / 2), .uint 4294967295])]) ++ ascii "]") =
    .ok (.object [(ascii "id", .string [97, 9, 34, 1]),
      (ascii "n", .array [.int (-5), .int 7, .real (3 / 2), .real 4294967295])]) := by
  refine (parse_write doubles_half ?_ (ascii "]")).trans ?_
  · rw [Valid, Formed]
    refine ⟨⟨by decide, by decide⟩, trivial, ⟨⟨by decide, by decide⟩, ?_⟩, trivial⟩
    exact ⟨Nat.lt_of_sub_pos (by decide), trivial, Nat.lt_of_sub_pos (by decide), trivial⟩
  · have number : scanHalf (realToString (fun _ => half) (3 / 2)) = some (3 / 2) := by
      rw [scanHalf, if_pos (by decide)]
    simp [readBack, backMembers, backMember, backItems, back, number, JsonValue.maxInt, cStr]

end Doubles

end JsonRoundTrip
