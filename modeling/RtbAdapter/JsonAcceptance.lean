import Mathlib.Tactic
import RtbAdapter.JsonRoundTrip

/-!
# What the JSON reader accepts

Every token but the end takes something from the document, so its length is fuel enough. A
value that the reader returns has its members sorted and its numbers in their ranges, and
writing it out and reading that again changes nothing but texts with a NUL and doubles.
-/

namespace JsonAcceptance

open ByteWords CText JsonValues JsonWriter JsonReader JsonRoundTrip

section Tokens

variable {s rest : Bytes} {type : TokenType} {pattern : Bytes}

theorem skipSpaces_length (s : Bytes) : (skipSpaces s).length ≤ s.length :=
  (List.dropWhile_sublist _).length_le

theorem readString_length (reads : readString s = some rest) : rest.length ≤ s.length := by
  fun_induction readString s with
  | case1 => cases reads
  | case2 s => cases reads; simp
  | case3 => cases reads
  | case4 c s ih => exact (ih reads).trans (by simp; omega)
  | case5 c s _ _ _ ih => exact (ih reads).trans (by simp)

theorem readCStyleComment_length (reads : readCStyleComment s = some rest) :
    rest.length ≤ s.length := by
  fun_induction readCStyleComment s with
  | case1 => cases reads
  | case2 s => cases reads; simp; omega
  | case3 c s _ ih => exact (ih reads).trans (by simp)

theorem readCppStyleComment_length (s : Bytes) : (readCppStyleComment s).length ≤ s.length := by
  induction s with
  | nil => exact le_rfl
  | cons c s ih =>
    rw [readCppStyleComment]
    split
    · simp
    · exact ih.trans (by simp)

theorem readComment_length (s : Bytes) : (readComment s).2.length ≤ s.length := by
  cases s with
  | nil => exact le_rfl
  | cons c s =>
    rw [readComment]
    split
    · split
      case h_1 reads => exact (readCStyleComment_length reads).trans (by simp)
      case h_2 => simp
    · split
      · exact (readCppStyleComment_length s).trans (by simp)
      · simp

theorem readWord_length : (readWord type pattern s).2.length ≤ s.length := by
  rw [readWord, matches']
  split
  case h_1 reads =>
    split at reads
    · cases reads
      simp
    · cases reads
  case h_2 => exact le_rfl

theorem ite_length {p : Prop} [Decidable p] {one two : TokenType × Bytes} {k : Nat}
    (first : one.2.length ≤ k) (second : two.2.length ≤ k) :
    (if p then one else two).2.length ≤ k := by
  split
  · exact first
  · exact second

/-- A token that is not the end takes its first character. -/
theorem readTokenAt_length (c : UInt8) (s : Bytes) :
    (readTokenAt (c :: s)).2.length ≤ s.length := by
  rw [readTokenAt]
  refine ite_length le_rfl (ite_length le_rfl (ite_length le_rfl (ite_length le_rfl
    (ite_length ?_ (ite_length (readComment_length s)
    (ite_length (List.dropWhile_sublist _).length_le (ite_length readWord_length
    (ite_length readWord_length (ite_length readWord_length (ite_length le_rfl
    (ite_length le_rfl (ite_length le_rfl le_rfl))))))))))))
  split
  case h_1 reads => exact readString_length reads
  case h_2 => exact Nat.zero_le _

theorem readToken_length (s : Bytes) : (readToken s).2.length ≤ s.length ∧
    ((readToken s).1.type ≠ .endOfStream → (readToken s).2.length < s.length) := by
  have blanks := skipSpaces_length s
  rw [readToken]
  cases start : skipSpaces s with
  | nil => exact ⟨Nat.zero_le _, fun other => absurd rfl other⟩
  | cons c later =>
    have taken := readTokenAt_length c later
    rw [start, List.length_cons] at blanks
    exact ⟨taken.trans (by omega), fun _ => lt_of_le_of_lt taken (by omega)⟩

theorem skipComments_length (n : Nat) (s : Bytes) : (skipComments n s).2.length ≤ s.length ∧
    ((skipComments n s).1.type ≠ .endOfStream → (skipComments n s).2.length < s.length) := by
  induction n generalizing s with
  | zero => exact readToken_length s
  | succ n ih =>
    rw [skipComments]
    split
    case isTrue comment =>
      obtain ⟨shorter, other⟩ := ih (readToken s).2
      have taken := (readToken_length s).2 (by simp [comment])
      exact ⟨by omega, fun some' => by have := other some'; omega⟩
    case isFalse => exact readToken_length s

end Tokens

/-- The read does not run out of fuel, and what it returns is as told. -/
def Yields {α : Type} (expected : α → Prop) : Except Failure α → Prop
  | .ok a => expected a
  | .error .fuel => False
  | .error _ => True

section Yields

variable {α β : Type} {p q : α → Prop} {r : β → Prop} {x : Except Failure α}

/-- What fails by running out of fuel is never expected, and other failures always are. -/
theorem Yields.failed {failure : Failure} (first : Yields p (.error failure)) :
    Yields r (.error failure) := by
  cases failure with
  | fuel => exact first
  | _ => trivial

theorem Yields.bind {f : α → Except Failure β} (first : Yields p x)
    (next : ∀ a, p a → Yields r (f a)) : Yields r (x >>= f) := by
  cases x with
  | ok a => exact next a first
  | error failure => exact first.failed

theorem Yields.mono (first : Yields p x) (weaker : ∀ a, p a → q a) : Yields q x := by
  cases x with
  | ok a => exact weaker a first
  | error failure => exact first.failed

theorem Yields.ite {c : Prop} [Decidable c] {y : Except Failure α} (one : c → Yields p x)
    (two : ¬c → Yields p y) : Yields p (if c then x else y) := by
  by_cases here : c
  · rw [if_pos here]
    exact one here
  · rw [if_neg here]
    exact two here

end Yields

section Strings

variable {token : Token} {s : Bytes} {n : Nat}

theorem decodeUnicodeEscapeSequence_yields :
    Yields (fun _ => 4 ≤ s.length) (decodeUnicodeEscapeSequence token s) := by
  rw [decodeUnicodeEscapeSequence]
  split
  case isTrue => trivial
  case isFalse long =>
    split
    · exact not_lt.mp long
    · trivial

theorem decodeSurrogate_yields {unicode : Nat} :
    Yields (fun read => read.2.length ≤ s.length) (decodeSurrogate token unicode s) := by
  rw [decodeSurrogate]
  split
  · trivial
  · split
    · refine decodeUnicodeEscapeSequence_yields.bind fun _ _ => ?_
      change (s.drop 6).length ≤ s.length
      simp
    · trivial

theorem decodeUnicodeCodePoint_yields :
    Yields (fun read => read.2.length ≤ s.length) (decodeUnicodeCodePoint token s) := by
  have shorter : (s.drop 4).length ≤ s.length := by simp
  rw [decodeUnicodeCodePoint]
  refine decodeUnicodeEscapeSequence_yields.bind fun unicode _ => ?_
  split
  · exact decodeSurrogate_yields.mono fun _ behind => behind.trans shorter
  · exact shorter

theorem decodeEscape_yields :
    Yields (fun read => read.2.length ≤ s.length) (decodeEscape token s) := by
  cases s with
  | nil => trivial
  | cons escape s =>
    rw [decodeEscape]
    split
    · refine decodeUnicodeCodePoint_yields.bind fun read shorter => ?_
      exact shorter.trans (by simp)
    · split
      · change s.length ≤ _
        simp
      · trivial

theorem decodeChars_yields (enough : s.length ≤ n) :
    Yields (fun _ => True) (decodeChars token n s) := by
  induction n generalizing s with
  | zero =>
    obtain rfl := List.length_eq_zero_iff.mp (Nat.le_zero.mp enough)
    trivial
  | succ n ih =>
    cases s with
    | nil => trivial
    | cons c s =>
      rw [List.length_cons] at enough
      rw [decodeChars]
      split
      · trivial
      · split
        · refine decodeEscape_yields.bind fun read shorter => ?_
          exact (ih (by omega)).bind fun _ _ => trivial
        · exact (ih (by omega)).bind fun _ _ => trivial

theorem decodeString_yields : Yields (fun _ => True) (decodeString token) := by
  refine decodeChars_yields ?_
  rw [List.length_dropLast, List.length_tail]
  omega

theorem readName_yields : Yields (fun read => read.2.length ≤ s.length) (readName token s) := by
  rw [readName]
  refine decodeString_yields.bind fun name _ => ?_
  dsimp only
  split
  · exact (readToken_length s).1
  · trivial

theorem readSeparator_yields : Yields (fun read => read.2.length ≤ s.length) (readSeparator s) := by
  have taken := (readToken_length s).1
  rw [readSeparator]
  split
  · exact ((skipComments_length _ _).1).trans taken
  · split
    · exact taken
    · trivial

end Strings

section Values

variable {leaf : JsonValue → Prop} {decode : Token → Except Failure JsonValue} {n : Nat}
  {s : Bytes}

theorem formedItems_append {items : List JsonValue} {value : JsonValue}
    (formed : FormedItems leaf items) (last : Formed leaf value) :
    FormedItems leaf (items ++ [value]) := by
  induction items with
  | nil => exact ⟨last, trivial⟩
  | cons item items ih => exact ⟨formed.1, ih formed.2⟩

theorem formedMembers_iff {members : List (Bytes × JsonValue)} :
    FormedMembers leaf members ↔ ∀ member ∈ members, Formed leaf member.2 := by
  induction members with
  | nil => exact iff_of_true trivial (fun _ inside => nomatch inside)
  | cons member rest ih =>
    obtain ⟨name, value⟩ := member
    rw [List.forall_mem_cons, ← ih, FormedMembers, FormedMember]

theorem sorted_set {members : List (Bytes × JsonValue)} {name : Bytes} {value : JsonValue}
    (sorted : Sorted (members.map Prod.fst)) (clean : 0 ∉ name) :
    Sorted ((KeyedFields.set name value members).map Prod.fst) := by
  refine ⟨KeyedFields.set_sorted sorted.1, fun other inside => ?_⟩
  obtain ⟨entry, among, rfl⟩ := List.mem_map.mp inside
  rcases KeyedFields.mem_set among with rfl | old
  · exact clean
  · exact sorted.2 entry.1 (List.mem_map_of_mem old)

theorem formedMembers_set {members : List (Bytes × JsonValue)} {name : Bytes} {value : JsonValue}
    (formed : FormedMembers leaf members) (new : Formed leaf value) :
    FormedMembers leaf (KeyedFields.set name value members) := by
  rw [formedMembers_iff] at formed ⊢
  intro member inside
  rcases KeyedFields.mem_set inside with rfl | old
  · exact new
  · exact formed member old

/-- What a read of a value has done: something is taken, and the value is well formed. -/
def Taken (leaf : JsonValue → Prop) (s : Bytes) (read : JsonValue × Bytes) : Prop :=
  read.2.length < s.length ∧ Formed leaf read.1

/-- The leaves that are not numbers are as told, and so are the numbers. -/
structure Leaves (leaf : JsonValue → Prop) (decode : Token → Except Failure JsonValue) : Prop where
  null : leaf .null
  bool : ∀ b, leaf (.bool b)
  string : ∀ s, leaf (.string s)
  number : ∀ token, Yields (Formed leaf) (decode token)

theorem readValue_yields (leaves : Leaves leaf decode)
    (items : ∀ done s, FormedItems leaf done → 2 * s.length + 2 ≤ n →
      Yields (Taken leaf s) (readItems decode n done s))
    (members : ∀ name done s, Sorted (done.map Prod.fst) → FormedMembers leaf done →
      2 * s.length + 2 ≤ n → Yields (Taken leaf s) (readMembers decode n name done s))
    (enough : 2 * s.length + 1 ≤ n + 1) : Yields (Taken leaf s) (readValue decode (n + 1) s) := by
  have taken := (skipComments_length s.length s).2
  have blanks := skipSpaces_length (skipCommentTokens s).2
  rw [readValue]
  dsimp only [skipCommentTokens] at blanks ⊢
  split
  case h_1 type =>
    have shorter := taken (by simp [type])
    refine (members [] [] _ ⟨List.Pairwise.nil, by simp⟩ trivial (by omega)).mono ?_
    exact fun read inner => ⟨inner.1.trans shorter, inner.2⟩
  case h_2 type =>
    have shorter := taken (by simp [type])
    refine Yields.ite (fun _ => ⟨?_, trivial⟩) fun _ => ?_
    · dsimp only
      rw [List.length_tail]
      omega
    · refine (items [] _ trivial (by omega)).mono ?_
      exact fun read inner => ⟨inner.1.trans shorter, inner.2⟩
  case h_3 type =>
    exact (leaves.number _).bind fun value formed => ⟨taken (by simp [type]), formed⟩
  case h_4 type =>
    exact decodeString_yields.bind fun str _ => ⟨taken (by simp [type]), leaves.string str⟩
  case h_5 type => exact ⟨taken (by simp [type]), leaves.bool true⟩
  case h_6 type => exact ⟨taken (by simp [type]), leaves.bool false⟩
  case h_7 type => exact ⟨taken (by simp [type]), leaves.null⟩
  case h_8 => trivial

/-- One turn of the loop over the items. -/
theorem readItems_yields
    (value : ∀ s, 2 * s.length + 1 ≤ n → Yields (Taken leaf s) (readValue decode n s))
    (items : ∀ done s, FormedItems leaf done → 2 * s.length + 2 ≤ n →
      Yields (Taken leaf s) (readItems decode n done s))
    {done : List JsonValue} (formed : FormedItems leaf done) (enough : 2 * s.length + 2 ≤ n + 1) :
    Yields (Taken leaf s) (readItems decode (n + 1) done s) := by
  rw [readItems]
  refine (value s (by omega)).bind fun read here => ?_
  have more := formedItems_append formed here.2
  have taken := (skipComments_length read.2.length read.2).1
  have shorter := here.1
  dsimp only [skipCommentTokens]
  refine Yields.ite (fun _ => ⟨lt_of_le_of_lt taken shorter, more⟩) fun _ => ?_
  refine (items _ _ more (by omega)).mono fun later inner => ⟨?_, inner.2⟩
  exact (inner.1.trans_le taken).trans shorter

/-- One turn of the loop over the members. -/
theorem readMembers_yields
    (value : ∀ s, 2 * s.length + 1 ≤ n → Yields (Taken leaf s) (readValue decode n s))
    (members : ∀ name done s, Sorted (done.map Prod.fst) → FormedMembers leaf done →
      2 * s.length + 2 ≤ n → Yields (Taken leaf s) (readMembers decode n name done s))
    {name : Bytes} {done : List (Bytes × JsonValue)} (sorted : Sorted (done.map Prod.fst))
    (formed : FormedMembers leaf done) (enough : 2 * s.length + 2 ≤ n + 1) :
    Yields (Taken leaf s) (readMembers decode (n + 1) name done s) := by
  have taken := (skipComments_length s.length s).2
  rw [readMembers]
  dsimp only [skipCommentTokens]
  refine Yields.ite (fun closed => ⟨taken (by simp [closed.1]), sorted, formed⟩) fun _ => ?_
  refine Yields.ite (fun quoted => ?_) fun _ => trivial
  have shorter := taken (by simp [quoted])
  refine readName_yields.bind fun name here => ?_
  refine (value name.2 (by omega)).bind fun read inner => ?_
  have sorted : Sorted ((KeyedFields.set (cStr name.1) read.1 done).map Prod.fst) :=
    sorted_set sorted (cStr_clean name.1)
  have formed : FormedMembers leaf (KeyedFields.set (cStr name.1) read.1 done) :=
    formedMembers_set formed inner.2
  have behind := inner.1
  refine readSeparator_yields.bind fun comma last => ?_
  refine Yields.ite (fun _ => ⟨by dsimp only; omega, sorted, formed⟩) fun _ => ?_
  refine (members _ _ _ sorted formed (by omega)).mono fun later inner => ⟨?_, inner.2⟩
  have := inner.1
  omega

/-- Fuel for twice the document is enough for every value and every loop in it. -/
theorem yields_all (leaves : Leaves leaf decode) (n : Nat) :
    (∀ s, 2 * s.length + 1 ≤ n → Yields (Taken leaf s) (readValue decode n s)) ∧
    (∀ done s, FormedItems leaf done → 2 * s.length + 2 ≤ n →
      Yields (Taken leaf s) (readItems decode n done s)) ∧
    (∀ name done s, Sorted (done.map Prod.fst) → FormedMembers leaf done →
      2 * s.length + 2 ≤ n → Yields (Taken leaf s) (readMembers decode n name done s)) := by
  induction n with
  | zero => exact ⟨fun s enough => by omega, fun _ s _ enough => by omega,
      fun _ _ s _ _ enough => by omega⟩
  | succ n ih =>
    obtain ⟨value, items, members⟩ := ih
    exact ⟨fun s enough => readValue_yields leaves items members enough,
      fun done s formed enough => readItems_yields value items formed enough,
      fun name done s sorted formed enough =>
        readMembers_yields value members sorted formed enough⟩

theorem parseWith_yields (leaves : Leaves leaf decode) (document : Bytes) :
    Yields (Formed leaf) (parseWith decode document) := by
  have read := (yields_all leaves (2 * document.length + 1)).1 document le_rfl
  rw [parseWith]
  cases result : readValue decode (2 * document.length + 1) document with
  | ok pair =>
    rw [result] at read
    exact read.2
  | error failure =>
    rw [result] at read
    cases failure with
    | fuel => exact read
    | _ => trivial

end Values

section Numbers

variable {sprintf : Rat → Bytes} {sscanf : Bytes → Option Rat} {token : Token}

/-- The numbers that a document can give: the ends of the ranges are read as doubles. -/
def ReadRange : JsonValue → Prop
  | .int n => -2147483640 < n ∧ n < 2 ^ 31
  | .uint n => 2 ^ 31 ≤ n ∧ n < 4294967290
  | _ => True

theorem digit_small : ∀ c : UInt8, isDigit c → c.toNat - 48 ≤ 9 := forall_byte (by decide +kernel)

theorem readDigits_yields {threshold value : Nat} (s : Bytes) (below : value < 10 * threshold) :
    Yields (fun read => ∀ w ∈ read, w < 10 * threshold) (readDigits token threshold value s) := by
  induction s generalizing value with
  | nil =>
    rw [readDigits]
    rintro w ⟨⟩
    exact below
  | cons c s ih =>
    rw [readDigits]
    refine Yields.ite (fun _ => trivial) fun digit => ?_
    refine Yields.ite (fun _ w none => by cases none) fun more => ?_
    have small := digit_small c (by simpa using digit)
    exact ih (by omega)

theorem decodeDouble_yields : Yields (Formed ReadRange) (decodeDouble sscanf token) := by
  rw [decodeDouble]
  refine Yields.ite (fun _ => trivial) fun _ => ?_
  split
  · trivial
  · trivial

theorem decodeNumber_yields : Yields (Formed ReadRange) (decodeNumber sscanf token) := by
  rw [decodeNumber]
  refine Yields.ite (fun _ => decodeDouble_yields) fun _ => ?_
  by_cases negative : token.text.head? = some 45
  · simp only [negative, if_true]
    have read : Yields (fun read => ∀ w ∈ read, w < 10 * (2 ^ 31 / 10))
        (readDigits token (2 ^ 31 / 10) 0 token.text.tail) := readDigits_yields _ (by decide)
    generalize readDigits token (2 ^ 31 / 10) 0 token.text.tail = result at read
    rcases result with failure | _ | value
    · exact read.failed
    · exact decodeDouble_yields
    · have small := read value rfl
      constructor <;> omega
  · simp only [negative, if_false]
    have read : Yields (fun read => ∀ w ∈ read, w < 10 * ((2 ^ 32 - 1) / 10))
        (readDigits token ((2 ^ 32 - 1) / 10) 0 token.text) := readDigits_yields _ (by decide)
    generalize readDigits token ((2 ^ 32 - 1) / 10) 0 token.text = result at read
    rcases result with failure | _ | value
    · exact read.failed
    · exact decodeDouble_yields
    · have small := read value rfl
      dsimp only
      refine Yields.ite (fun signed => ?_) fun unsigned => ?_
      · rw [JsonValue.maxInt] at signed
        constructor <;> omega
      · rw [JsonValue.maxInt] at unsigned
        constructor <;> omega

theorem leaves_number (sscanf : Bytes → Option Rat) : Leaves ReadRange (decodeNumber sscanf) where
  null := trivial
  bool _ := trivial
  string _ := trivial
  number _ := decodeNumber_yields

theorem parse_ends (document : Bytes) : parse sscanf document ≠ .error .fuel := by
  intro stuck
  have read := parseWith_yields (leaves_number sscanf) document
  rw [parse] at stuck
  rw [stuck] at read
  exact read

/-- Texts without a NUL, and no doubles. -/
def Kept : JsonValue → Prop
  | .string s => 0 ∉ s
  | .real _ => False
  | _ => True

mutual

theorem valid_of_read (value : JsonValue) (read : Formed ReadRange value) : Valid value := by
  match value with
  | .int n =>
    obtain ⟨lower, upper⟩ := read
    exact ⟨by omega, upper⟩
  | .uint n =>
    obtain ⟨lower, upper⟩ := read
    change n < 2 ^ 32
    omega
  | .array items => exact validItems_of_read items read
  | .object members => exact ⟨read.1, validMembers_of_read members read.2⟩
  | .null | .real _ | .string _ | .bool _ => trivial

theorem validItems_of_read (items : List JsonValue) (read : FormedItems ReadRange items) :
    FormedItems InRange items := by
  match items with
  | [] => trivial
  | item :: rest => exact ⟨valid_of_read item read.1, validItems_of_read rest read.2⟩

theorem validMembers_of_read (members : List (Bytes × JsonValue))
    (read : FormedMembers ReadRange members) : FormedMembers InRange members := by
  match members with
  | [] => trivial
  | (_, value) :: rest => exact ⟨valid_of_read value read.1, validMembers_of_read rest read.2⟩

end

mutual

theorem readBack_read (value : JsonValue) (read : Formed ReadRange value)
    (kept : Formed Kept value) : readBack (back sprintf sscanf) value = value := by
  match value with
  | .int n =>
    rw [readBack, back, if_neg (not_le.mpr read.1)]
  | .uint n =>
    obtain ⟨lower, upper⟩ := read
    rw [readBack, back, if_neg (by rw [JsonValue.maxInt]; omega), if_pos upper]
  | .string s => rw [readBack, cStr_eq_self kept]
  | .array items => rw [readBack, readBackItems_read items read kept]
  | .object members => rw [readBack, readBackMembers_read members read.2 kept.2]
  | .null => rfl
  | .bool _ => rfl
  | .real _ => exact kept.elim

theorem readBackItems_read (items : List JsonValue) (read : FormedItems ReadRange items)
    (kept : FormedItems Kept items) : backItems (back sprintf sscanf) items = items := by
  match items with
  | [] => rfl
  | item :: rest =>
    rw [backItems, readBack_read item read.1 kept.1, readBackItems_read rest read.2 kept.2]

theorem readBackMembers_read (members : List (Bytes × JsonValue))
    (read : FormedMembers ReadRange members) (kept : FormedMembers Kept members) :
    backMembers (back sprintf sscanf) members = members := by
  match members with
  | [] => rfl
  | (name, value) :: rest =>
    rw [backMembers, backMember, readBack_read value read.1 kept.1,
      readBackMembers_read rest read.2 kept.2]

end

/-- What a document gives is well formed, and a value that it gives is given again by the
document that is written of it. -/
theorem parse_accepts (doubles : Doubles sprintf sscanf) {document : Bytes} {value : JsonValue}
    (accepted : parse sscanf document = .ok value) :
    Formed ReadRange value ∧
      (Formed Kept value → ∀ behind, parse sscanf (write sprintf value ++ behind) = .ok value) := by
  have read := parseWith_yields (leaves_number sscanf) document
  rw [parse] at accepted
  rw [accepted] at read
  refine ⟨read, fun kept behind => ?_⟩
  have again := parseWith_write (decodes_doubles doubles) (valid_of_read value read) behind
  rwa [readBack_read value read kept] at again

theorem parse_accepts_example :
    Formed ReadRange (.array [.bool true, .int (-7), .string (ascii "a")]) ∧
      (Formed Kept (.array [.bool true, .int (-7), .string (ascii "a")]) → ∀ behind,
        parse scanHalf (write (fun _ => half) (.array [.bool true, .int (-7),
          .string (ascii "a")]) ++ behind) =
            .ok (.array [.bool true, .int (-7), .string (ascii "a")])) := by
  have accepted : parse scanHalf (ascii "[true:/*,*/-7 , \"a\" ]]") =
      .ok (.array [.bool true, .int (-7), .string (ascii "a")]) := rfl
  exact parse_accepts doubles_half accepted

end Numbers

end JsonAcceptance
