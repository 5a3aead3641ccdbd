import Mathlib.Tactic
import RtbAdapter.JsonAcceptance

/-!
# The JSON reader behind an error

`Reader::parse` with every loop that it runs. Behind an error each object and each array that
is open skips tokens up to its own end, so an inner one may leave nothing to the outer ones.
Comments are skipped by a loop, once more behind the value. The loops change no result: it is
the one of the reader that ends at the first error.
-/

namespace JsonRecovery

open ByteWords CText JsonValues JsonReader JsonAcceptance

/-- The tokens that are skipped, up to the given one or the end. -/
def recoverFromError (skipUntilToken : TokenType) : Nat → Bytes → Option Bytes
  | 0, _ => none
  | n + 1, s =>
    let skip := readToken s
    if skip.1.type = skipUntilToken ∨ skip.1.type = .endOfStream then some skip.2
    else recoverFromError skipUntilToken n skip.2

/-- `skipCommentTokens`, which reads on as long as there are comments. -/
def runComments : Nat → Bytes → Option (Token × Bytes)
  | 0, _ => none
  | n + 1, s =>
    let next := readToken s
    if next.1.type = .comment then runComments n next.2 else some next

/-- What follows a read that was successful, or the way to the end of what is open. -/
def orRecover {α β : Type} (skipUntilToken : TokenType) (n : Nat)
    (read : Except Failure α × Bytes) (next : α → Bytes → Option (Except Failure β × Bytes)) :
    Option (Except Failure β × Bytes) :=
  match read.1 with
  | .ok a => next a read.2
  | .error failure => do return (.error failure, ← recoverFromError skipUntilToken n read.2)

/-- A string whose escapes are wrong is read, and the colon behind it is not. -/
def runName (tokenName : Token) (s : Bytes) : Except Failure Bytes × Bytes :=
  match decodeString tokenName with
  | .error failure => (.error failure, s)
  | .ok name =>
    let colon := readToken s
    if colon.1.type = .memberSeparator then (.ok name, colon.2)
    else (.error (.error (ascii "Missing ':' after object member name") colon.1), colon.2)

def runSeparator (n : Nat) (s : Bytes) : Option (Except Failure Token × Bytes) :=
  let comma := readToken s
  if comma.1.type = .comment then do
    let last ← runComments n comma.2
    return (.ok last.1, last.2)
  else if comma.1.type = .objectEnd ∨ comma.1.type = .arraySeparator then
    some (.ok comma.1, comma.2)
  else
    some (.error (.error (ascii "Missing ',' or '\x7d' in object declaration") comma.1), comma.2)

variable (decode : Token → Except Failure JsonValue)

mutual

/-- `readValue`: what it returns, and the place where it stops. -/
def runValue : Nat → Bytes → Option (Except Failure JsonValue × Bytes)
  | 0, _ => none
  | n + 1, s => do
    let next ← runComments (n + 1) s
    match next.1.type with
    | .objectBegin => runObject n [] [] next.2
    | .arrayBegin =>
      if (skipSpaces next.2).head? = some 93 then
        return (.ok (.array []), (skipSpaces next.2).tail)
      else runArray n [] next.2
    | .number => return (decode next.1, next.2)
    | .string => return ((decodeString next.1).map .string, next.2)
    | .tokenTrue => return (.ok (.bool true), next.2)
    | .tokenFalse => return (.ok (.bool false), next.2)
    | .tokenNull => return (.ok .null, next.2)
    | _ =>
      let message := ascii "Syntax error: value, object or array expected."
      return (.error (.error message next.1), next.2)

def runArray : Nat → List JsonValue → Bytes → Option (Except Failure JsonValue × Bytes)
  | 0, _, _ => none
  | n + 1, items, s => do
    orRecover .arrayEnd n (← runValue n s) fun value rest => do
      let next ← runComments n rest
      if next.1.type = .arrayEnd then return (.ok (.array (items ++ [value])), next.2)
      else runArray n (items ++ [value]) next.2

def runObject : Nat → Bytes → List (Bytes × JsonValue) → Bytes →
    Option (Except Failure JsonValue × Bytes)
  | 0, _, _, _ => none
  | n + 1, name, members, s => do
    let next ← runComments (n + 1) s
    if next.1.type = .objectEnd ∧ name = [] then return (.ok (.object members), next.2)
    else if next.1.type = .string then
      orRecover .objectEnd n (runName next.1 next.2) fun name rest => do
        orRecover .objectEnd n (← runValue n rest) fun value rest => do
          let members := KeyedFields.set (cStr name) value members
          orRecover .objectEnd n (← runSeparator n rest) fun comma rest =>
            if comma.type = .objectEnd then some (.ok (.object members), rest)
            else runObject n name members rest
    else
      let message := ascii "Missing '\x7d' or object member name"
      return (.error (.error message next.1), ← recoverFromError .objectEnd (n + 1) next.2)

end

/-- `Reader::parse`, which reads one token more behind the value. -/
def runParse (n : Nat) (document : Bytes) : Option (Except Failure JsonValue) := do
  let (value, rest) ← runValue decode n document
  let _ ← runComments n rest
  return value

section Loops

variable {n k : Nat} {s : Bytes}

/-- Every token that is skipped takes something, the last one excepted. -/
theorem recoverFromError_ends (type : TokenType) (enough : s.length < n) :
    ∃ rest, recoverFromError type n s = some rest ∧ rest.length ≤ s.length := by
  induction n generalizing s with
  | zero => exact absurd enough (Nat.not_lt_zero _)
  | succ n ih =>
    have taken := readToken_length s
    rw [recoverFromError]
    by_cases stops : (readToken s).1.type = type ∨ (readToken s).1.type = .endOfStream
    · exact ⟨(readToken s).2, if_pos stops, taken.1⟩
    · have shorter := taken.2 (not_or.mp stops).2
      obtain ⟨rest, ends, later⟩ := ih (s := (readToken s).2) (by omega)
      exact ⟨rest, (if_neg stops).trans ends, later.trans taken.1⟩

/-- The bound of the reader on the comments that it skips is never met. -/
theorem runComments_eq (enough : s.length < n) (bound : s.length ≤ k) :
    runComments n s = some (skipComments k s) := by
  induction n generalizing s k with
  | zero => exact absurd enough (Nat.not_lt_zero _)
  | succ n ih =>
    rw [runComments]
    cases k with
    | zero =>
      obtain rfl := List.length_eq_zero_iff.mp (Nat.le_zero.mp bound)
      rfl
    | succ k =>
      rw [skipComments]
      split
      case isTrue comment =>
        have shorter := (readToken_length s).2 (by simp [comment])
        exact ih (by omega) (by omega)
      case isFalse => rfl

end Loops

/-- The run comes to an end, with the result of the reader that stops at the first error, and
a run without an error has taken something from the `k` bytes. -/
def Follows {α : Type} (k : Nat) (read : Except Failure (α × Bytes)) :
    Option (Except Failure α × Bytes) → Prop
  | none => False
  | some (.ok a, rest) => read = .ok (a, rest) ∧ rest.length < k
  | some (.error failure, rest) => read = .error failure ∧ rest.length ≤ k

section Follows

variable {α β : Type} {n k l : Nat} {type : TokenType}
  {read : Except Failure (α × Bytes)} {run : Option (Except Failure α × Bytes)}

theorem Follows.mono (follows : Follows l read run) (shorter : l ≤ k) : Follows k read run := by
  cases run with
  | none => exact follows
  | some last =>
    obtain ⟨outcome, rest⟩ := last
    cases outcome with
    | ok a => exact ⟨follows.1, follows.2.trans_le shorter⟩
    | error failure => exact ⟨follows.1, follows.2.trans shorter⟩

theorem Follows.ends (follows : Follows k read run) :
    ∃ rest, run = some (read.map Prod.fst, rest) ∧ rest.length ≤ k := by
  cases run with
  | none => exact follows.elim
  | some last =>
    obtain ⟨outcome, rest⟩ := last
    cases outcome with
    | ok a =>
      obtain ⟨rfl, shorter⟩ := follows
      exact ⟨rest, rfl, shorter.le⟩
    | error failure =>
      obtain ⟨rfl, shorter⟩ := follows
      exact ⟨rest, rfl, shorter⟩

theorem Follows.ite {p : Prop} [Decidable p] {read' : Except Failure (α × Bytes)}
    {run' : Option (Except Failure α × Bytes)} (one : p → Follows k read run)
    (two : ¬p → Follows k read' run') :
    Follows k (if p then read else read') (if p then run else run') := by
  by_cases here : p
  · rw [if_pos here, if_pos here]
    exact one here
  · rw [if_neg here, if_neg here]
    exact two here

/-- An error stays the result on the way to the end of what is open. -/
theorem Follows.orRecover {last : Except Failure α × Bytes} (follows : Follows k read (some last))
    {next : α → Bytes → Option (Except Failure β × Bytes)}
    {f : α × Bytes → Except Failure (β × Bytes)} (enough : k < n)
    (later : ∀ a rest, rest.length < k → Follows k (f (a, rest)) (next a rest)) :
    Follows k (read >>= f) (orRecover type n last next) := by
  obtain ⟨outcome, rest⟩ := last
  cases outcome with
  | ok a =>
    obtain ⟨rfl, shorter⟩ := follows
    exact later a rest shorter
  | error failure =>
    obtain ⟨rfl, shorter⟩ := follows
    obtain ⟨end', ends, behind⟩ := recoverFromError_ends type (shorter.trans_lt enough)
    change Follows k _ ((recoverFromError type n rest).bind _)
    rw [ends]
    exact ⟨rfl, behind.trans shorter⟩

theorem Follows.bind {next : α → Bytes → Option (Except Failure β × Bytes)}
    {f : α × Bytes → Except Failure (β × Bytes)} (follows : Follows k read run)
    (enough : k < n)
    (later : ∀ a rest, rest.length < k → Follows k (f (a, rest)) (next a rest)) :
    Follows k (read >>= f) (run.bind fun first => JsonRecovery.orRecover type n first next) := by
  cases run with
  | none => exact follows.elim
  | some last => exact Follows.orRecover follows enough later

end Follows

section Values

variable {decode : Token → Except Failure JsonValue} {n : Nat} {s : Bytes} {token : Token}

theorem runName_follows : Follows s.length (readName token s) (some (runName token s)) := by
  have taken := readToken_length s
  rw [readName, runName]
  cases decodeString token with
  | error failure => exact ⟨rfl, le_rfl⟩
  | ok name =>
    by_cases colon : (readToken s).1.type = .memberSeparator
    · simp only [colon, if_true]
      exact ⟨rfl, taken.2 (by simp [colon])⟩
    · simp only [colon, if_false]
      exact ⟨rfl, taken.1⟩

theorem runSeparator_follows (enough : s.length < n) :
    Follows s.length (readSeparator s) (runSeparator n s) := by
  have taken := readToken_length s
  rw [readSeparator, runSeparator]
  refine Follows.ite (fun comment => ?_) fun _ => Follows.ite (fun known => ?_) fun _ => ?_
  · have shorter := taken.2 (by simp [comment])
    rw [runComments_eq (shorter.trans enough) le_rfl]
    exact ⟨rfl, (skipComments_length _ _).1.trans_lt shorter⟩
  · exact ⟨rfl, taken.2 fun last => by simp [last] at known⟩
  · exact ⟨rfl, taken.1⟩

theorem runValue_follows
    (items : ∀ done s, 2 * s.length + 2 ≤ n →
      Follows s.length (readItems decode n done s) (runArray decode n done s))
    (members : ∀ name done s, 2 * s.length + 2 ≤ n →
      Follows s.length (readMembers decode n name done s) (runObject decode n name done s))
    (enough : 2 * s.length + 1 ≤ n + 1) :
    Follows s.length (readValue decode (n + 1) s) (runValue decode (n + 1) s) := by
  have taken := skipComments_length s.length s
  have blanks := skipSpaces_length (skipCommentTokens s).2
  rw [readValue, runValue, runComments_eq (by omega) le_rfl]
  change Follows _ _ (Option.bind (some _) _)
  dsimp only [skipCommentTokens, Option.bind_some] at blanks ⊢
  cases type : (skipComments s.length s).1.type with
  | objectBegin =>
    have shorter := taken.2 (by simp [type])
    exact (members [] [] _ (by omega)).mono shorter.le
  | arrayBegin =>
    have shorter := taken.2 (by simp [type])
    refine Follows.ite (fun _ => ⟨rfl, ?_⟩) fun _ => ?_
    · rw [List.length_tail]
      omega
    · exact (items [] _ (by omega)).mono shorter.le
  | number =>
    have shorter := taken.2 (by simp [type])
    cases read : decode (skipComments s.length s).1 with
    | error failure => exact ⟨rfl, shorter.le⟩
    | ok value => exact ⟨rfl, shorter⟩
  | string =>
    have shorter := taken.2 (by simp [type])
    cases read : decodeString (skipComments s.length s).1 with
    | error failure => exact ⟨rfl, shorter.le⟩
    | ok text => exact ⟨rfl, shorter⟩
  | tokenTrue => exact ⟨rfl, taken.2 (by simp [type])⟩
  | tokenFalse => exact ⟨rfl, taken.2 (by simp [type])⟩
  | tokenNull => exact ⟨rfl, taken.2 (by simp [type])⟩
  | _ => exact ⟨rfl, taken.1⟩

/-- One turn of the loop over the items. -/
theorem runArray_follows
    (value : ∀ s, 2 * s.length + 1 ≤ n →
      Follows s.length (readValue decode n s) (runValue decode n s))
    (items : ∀ done s, 2 * s.length + 2 ≤ n →
      Follows s.length (readItems decode n done s) (runArray decode n done s))
    {done : List JsonValue} (enough : 2 * s.length + 2 ≤ n + 1) :
    Follows s.length (readItems decode (n + 1) done s) (runArray decode (n + 1) done s) := by
  rw [readItems, runArray]
  refine (value s (by omega)).bind (by omega) fun item rest shorter => ?_
  have taken := (skipComments_length rest.length rest).1
  rw [runComments_eq (by omega) le_rfl]
  dsimp only [skipCommentTokens, Option.bind_some]
  refine Follows.ite (fun _ => ⟨rfl, taken.trans_lt shorter⟩) fun _ => ?_
  exact (items _ _ (by omega)).mono (taken.trans shorter.le)

/-- One turn of the loop over the members. -/
theorem runObject_follows
    (value : ∀ s, 2 * s.length + 1 ≤ n →
      Follows s.length (readValue decode n s) (runValue decode n s))
    (members : ∀ name done s, 2 * s.length + 2 ≤ n →
      Follows s.length (readMembers decode n name done s) (runObject decode n name done s))
    {name : Bytes} {done : List (Bytes × JsonValue)} (enough : 2 * s.length + 2 ≤ n + 1) :
    Follows s.length (readMembers decode (n + 1) name done s)
      (runObject decode (n + 1) name done s) := by
  have taken := skipComments_length s.length s
  rw [readMembers, runObject, runComments_eq (by omega) le_rfl]
  dsimp only [skipCommentTokens, Option.bind_some]
  refine Follows.ite (fun closed => ⟨rfl, taken.2 (by simp [closed.1])⟩) fun _ => ?_
  refine Follows.ite (fun quoted => ?_) fun _ => ?_
  · have shorter := taken.2 (by simp [quoted])
    refine Follows.mono ?_ shorter.le
    refine runName_follows.orRecover (by omega) fun name rest later => ?_
    refine Follows.mono ?_ later.le
    refine (value rest (by omega)).bind (by omega) fun item rest' later' => ?_
    refine Follows.mono ?_ later'.le
    refine (runSeparator_follows (by omega)).bind (by omega) fun comma behind last => ?_
    refine Follows.ite (fun _ => ⟨rfl, last⟩) fun _ => ?_
    exact (members _ _ behind (by omega)).mono last.le
  · have room : (skipComments s.length s).2.length < n + 1 := by omega
    obtain ⟨rest, ends, behind⟩ := recoverFromError_ends .objectEnd room
    rw [ends]
    exact ⟨rfl, behind.trans taken.1⟩

/-- Fuel for twice the document is enough for every value and every loop, errors or not. -/
theorem follows_all (decode : Token → Except Failure JsonValue) (n : Nat) :
    (∀ s, 2 * s.length + 1 ≤ n →
      Follows s.length (readValue decode n s) (runValue decode n s)) ∧
    (∀ done s, 2 * s.length + 2 ≤ n →
      Follows s.length (readItems decode n done s) (runArray decode n done s)) ∧
    (∀ name done s, 2 * s.length + 2 ≤ n →
      Follows s.length (readMembers decode n name done s) (runObject decode n name done s)) := by
  induction n with
  | zero => exact ⟨fun s enough => by omega, fun _ s enough => by omega,
      fun _ _ s enough => by omega⟩
  | succ n ih =>
    obtain ⟨value, items, members⟩ := ih
    exact ⟨fun s enough => runValue_follows items members enough,
      fun done s enough => runArray_follows value items enough,
      fun name done s enough => runObject_follows value members enough⟩

theorem runParse_eq (decode : Token → Except Failure JsonValue) (document : Bytes) :
    runParse decode (2 * document.length + 1) document = some (parseWith decode document) := by
  have follows := (follows_all decode (2 * document.length + 1)).1 document le_rfl
  obtain ⟨rest, ends, shorter⟩ := follows.ends
  rw [runParse, ends]
  change (runComments _ rest).bind _ = _
  rw [runComments_eq (by omega) le_rfl]
  rfl

end Values

/-- The reader comes to an end on every document, with what the reader that stops at the first
error returns. -/
theorem parse_recovers (sscanf : Bytes → Option Rat) (document : Bytes) :
    runParse (decodeNumber sscanf) (2 * document.length + 1) document =
        some (parse sscanf document) ∧ parse sscanf document ≠ .error .fuel :=
  ⟨runParse_eq _ document, parse_ends document⟩

-- The first bracket ends the inner array and the second the outer one.
example : (runValue (decodeNumber fun _ => none) 13 (ascii "[[:]]1")).map Prod.snd =
    some (ascii "1") := by decide +kernel

end JsonRecovery
