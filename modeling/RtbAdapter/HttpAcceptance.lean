import Mathlib.Tactic.Common
import RtbAdapter.HttpParser

/-!
# Which requests are accepted

With an empty line in the head all terminators are written inside the received bytes. Without
one the head length of a cleared object puts the first of them before the cache. The check of
the address passes every text, and the length of the body is looked up among the headers of the
response, which are empty. So a known method is accepted with every address and every length.
-/

namespace HttpAcceptance

open ByteWords CText HttpParser

/-- All writes so far are below a bound, and the rest of the head ends before it. -/
structure Within (size : Nat) (buf : Cursor) : Prop where
  ends : buf.pos + buf.rest.length ≤ size
  writes : ∀ i ∈ buf.writes, 0 ≤ i ∧ i < size

/-- A word and what is left of the text behind it. -/
theorem word_length (stop : UInt8 → Bool) (text : Bytes) :
    (text.takeWhile stop).length + (text.dropWhile stop).length = text.length := by
  rw [← List.length_append, List.takeWhile_append_dropWhile]

theorem skipQuoted_end (delimiters whitespace : Bytes) (buf : Cursor) :
    (skipQuoted delimiters whitespace buf).2.pos +
      (skipQuoted delimiters whitespace buf).2.rest.length = buf.pos + buf.rest.length := by
  have parts := word_length (fun b => decide (b ∉ delimiters)) buf.rest
  rw [skipQuoted]
  split
  · rename_i none
    rw [none] at parts
    simp only [List.length_nil] at parts ⊢
    omega
  · rename_i b more some'
    have blanks := word_length (fun b => decide (b ∈ whitespace)) more
    rw [some', List.length_cons] at parts
    dsimp only
    omega

theorem skipQuoted_writes (delimiters whitespace : Bytes) (buf : Cursor) :
    ∃ more, (skipQuoted delimiters whitespace buf).2.writes = buf.writes ++ more ∧
      ∀ i ∈ more, 0 ≤ i ∧ i < ((buf.pos + buf.rest.length : Nat) : Int) := by
  have parts := word_length (fun b => decide (b ∉ delimiters)) buf.rest
  rw [skipQuoted]
  split
  · exact ⟨[], (List.append_nil _).symm, by simp⟩
  · rename_i b more some'
    have blanks := (List.takeWhile_sublist (fun b => decide (b ∈ whitespace)) (l := more)).length_le
    rw [some', List.length_cons] at parts
    refine ⟨_, rfl, fun i inside => ?_⟩
    obtain ⟨k, below, rfl⟩ := List.mem_map.mp inside
    rw [List.mem_range] at below
    omega

/-- What reading a word keeps. -/
def Kept (holds : Cursor → Prop) : Prop :=
  ∀ delimiters whitespace buf, holds buf → holds (skipQuoted delimiters whitespace buf).2

theorem within_kept (size : Nat) : Kept (Within size) := by
  intro delimiters whitespace buf within
  obtain ⟨more, writes, inside⟩ := skipQuoted_writes delimiters whitespace buf
  refine ⟨(skipQuoted_end delimiters whitespace buf).trans_le within.ends, fun i written => ?_⟩
  rw [writes] at written
  rcases List.mem_append.mp written with earlier | later
  · exact within.writes i earlier
  · have := inside i later
    have := within.ends
    omega

theorem written_kept (i : Int) : Kept fun buf => i ∈ buf.writes := by
  intro delimiters whitespace buf here
  obtain ⟨more, writes, -⟩ := skipQuoted_writes delimiters whitespace buf
  rw [writes]
  exact List.mem_append_left _ here

/-- What every word keeps is kept over the header lines. -/
theorem headers_keeps {holds : Cursor → Prop} (keeps : Kept holds) (iLen : Int) :
    ∀ (fuel : Nat) {buf : Cursor} (attrs : Attrs), holds buf →
      holds (headers iLen fuel buf attrs).2
  | 0, _, _, here => here
  | fuel + 1, buf, attrs, here => by
    rw [headers]
    split
    · dsimp only
      split
      · exact keeps _ _ _ here
      · exact headers_keeps keeps iLen fuel _ (keeps _ _ _ (keeps _ _ _ here))
    · exact here

theorem parse_keeps {holds : Cursor → Prop} (keeps : Kept holds) (http : AdHttp) (cache : AdCache)
    (starts : holds (start cache (headLen cache http.iHeadLen - 1))) :
    ∃ buf, holds buf ∧ (parse http cache).writes = buf.writes := by
  have line : holds (requestLine cache (headLen cache http.iHeadLen)).after :=
    keeps _ _ _ (keeps _ _ _ starts)
  have words : holds (version cache (headLen cache http.iHeadLen)).2 := keeps _ _ _ line
  have attrs : ∀ before, holds (requestAttrs cache (headLen cache http.iHeadLen) before).2 :=
    fun before => headers_keeps keeps _ _ _ words
  unfold parse
  dsimp only
  by_cases bad : badUri (requestLine cache (headLen cache http.iHeadLen)).sUri
  · rw [if_pos bad]
    exact ⟨_, line, rfl⟩
  · rw [if_neg bad]
    cases mMethodToInt.lookup (requestLine cache (headLen cache http.iHeadLen)).sMethod with
    | none => exact ⟨_, words, rfl⟩
    | some iMethod =>
      simp only [parseHeaders, withQuery_iHeadLen]
      split
      · exact ⟨_, attrs _, rfl⟩
      · exact ⟨_, attrs _, rfl⟩

theorem emptyLine_lt : ∀ {text : Bytes} {n : Nat}, emptyLine text = some n → n + 4 ≤ text.length
  | [], n, found => by cases found
  | b :: text, n, found => by
    rw [emptyLine] at found
    split at found
    · rename_i here
      obtain rfl := Option.some.inj found
      exact (List.isPrefixOf_iff_prefix.mp here).length_le
    · obtain ⟨m, later, rfl⟩ := Option.map_eq_some_iff.mp found
      have := emptyLine_lt later
      rw [List.length_cons]
      omega

theorem getBody_le {cache : AdCache} {body : Nat} (found : getBody cache = some body) :
    4 ≤ body ∧ body ≤ cache.bytes.length := by
  obtain ⟨n, here, rfl⟩ := Option.map_eq_some_iff.mp found
  have inside := emptyLine_lt here
  have := cStr_length cache.bytes
  omega

theorem Within.mono {size size' : Nat} {buf : Cursor} (within : Within size buf)
    (more : size ≤ size') : Within size' buf :=
  ⟨within.ends.trans more, fun i written => by
    have := within.writes i written
    omega⟩

/-- The head ends where the first terminator is written. -/
theorem terminated_length {cache : AdCache} {body : Nat} (found : getBody cache = some body) :
    (terminated cache (body - 1)).length ≤ body - 1 := by
  obtain ⟨lower, upper⟩ := getBody_le found
  have place : ((body : Int) - 1).toNat = body - 1 := by omega
  rw [terminated, writeNul, if_pos (by omega), place]
  by_contra long
  have inside : body - 1 < (cStr (cache.bytes.set (body - 1) 0)).length := Nat.not_le.mp long
  have zero : (cStr (cache.bytes.set (body - 1) 0))[body - 1] = 0 := by
    have front : cStr (cache.bytes.set (body - 1) 0) <+: cache.bytes.set (body - 1) 0 :=
      List.takeWhile_prefix _
    rw [front.getElem inside, List.getElem_set_self]
  exact cStr_clean _ (zero ▸ List.getElem_mem inside)

theorem start_within {cache : AdCache} {body : Nat} (found : getBody cache = some body) :
    Within body (start cache (body - 1)) := by
  obtain ⟨lower, upper⟩ := getBody_le found
  have parts := word_length isSpace (terminated cache (body - 1))
  have short := terminated_length found
  refine ⟨?_, fun i written => ?_⟩
  · simp only [start]
    omega
  · obtain rfl := List.mem_singleton.mp written
    omega

/-- The Content-Length that a request names itself, 0 when it names none. -/
def ownLength (cache : AdCache) (body : Nat) : Int :=
  match (requestAttrs cache body []).1.lookup (ascii "Content-Length") with
  | none => 0
  | some value => atoi (cStr value)

def AddressOk (sUri : Bytes) : Prop := sUri.head? = some 47 ∨ sUri = [42]

/-- What is promised of a cleared object: terminators are written inside the received bytes, and
a method code stands for a head with an empty line, a known method, an address of one of the two
kinds and a body that has been received. -/
structure Acceptance (cache : AdCache) : Prop where
  inside : ∀ i ∈ (parse {} cache).writes, 0 ≤ i ∧ i < cache.bytes.length
  sound : (parse {} cache).code ≠ adFailure → ∃ body, getBody cache = some body ∧
    mMethodToInt.lookup (requestLine cache body).sMethod = some (parse {} cache).code ∧
    AddressOk (requestLine cache body).sUri ∧ body + ownLength cache body ≤ cache.bytes.length

/-- The head ends, and the promise about address and length is kept by the request itself. -/
def KeptBySender (cache : AdCache) : Prop :=
  ∃ body, getBody cache = some body ∧
    ((mMethodToInt.lookup (requestLine cache body).sMethod).isSome →
      AddressOk (requestLine cache body).sUri ∧ body + ownLength cache body ≤ cache.bytes.length)

theorem badUri_never (sUri : Bytes) : badUri sUri = false := by
  rw [badUri]
  cases star : decide (sUri.headD 0 = 42) with
  | true =>
    have same : sUri.headD 0 = 42 := of_decide_eq_true star
    rw [same]
    rfl
  | false => rw [Bool.false_and, Bool.and_false]

theorem getLen_cleared {http : AdHttp} (cleared : http.mResAttrs = []) :
    getLen http false = adFailure := by
  rw [getLen, if_neg Bool.false_ne_true, cleared]
  rfl

theorem methods_known {sMethod : Bytes} {iMethod : Int}
    (known : mMethodToInt.lookup sMethod = some iMethod) : iMethod ≠ adFailure := by
  have codes : ∀ entry ∈ mMethodToInt, entry.2 ≠ adFailure := by decide
  obtain ⟨before, after, split, -⟩ := List.lookup_eq_some_iff.mp known
  exact codes (sMethod, iMethod) (split ▸ List.mem_append_right _ List.mem_cons_self)

/-- A cleared object after a request whose head ends and whose method is known. -/
theorem parse_known {cache : AdCache} {body : Nat} {iMethod : Int}
    (found : getBody cache = some body)
    (known : mMethodToInt.lookup (requestLine cache body).sMethod = some iMethod) :
    parse {} cache = ⟨{ withQuery {
        pBody := some body, iHeadLen := body, sMethod := (requestLine cache body).sMethod
        sUri := (requestLine cache body).sUri, sHttpVersion := (version cache body).1, iMethod }
      with mAttrs := (requestAttrs cache body []).1, iBodyLen := adFailure },
      iMethod, (requestAttrs cache body []).2.writes⟩ := by
  obtain ⟨lower, upper⟩ := getBody_le found
  have short := cache.fits
  have head : headLen cache adFailure = body := by rw [headLen, found]
  have fits : ¬ toInt32 ((body : Int) + adFailure) > cache.bytes.length := by
    rw [adFailure, toInt32_of_range (by omega) (by omega)]
    omega
  unfold parse
  dsimp only
  rw [head, badUri_never, if_neg Bool.false_ne_true]
  simp only [known, parseHeaders, withQuery_iHeadLen, withQuery_iMethod, withQuery_mAttrs]
  rw [getLen_cleared (by exact withQuery_mResAttrs _), if_neg fits, found]

theorem parse_code {cache : AdCache} {body : Nat} (found : getBody cache = some body) :
    (parse {} cache).code =
      (mMethodToInt.lookup (requestLine cache body).sMethod).getD adFailure := by
  cases known : mMethodToInt.lookup (requestLine cache body).sMethod with
  | none =>
    have head : headLen cache adFailure = body := by rw [headLen, found]
    unfold parse
    dsimp only
    rw [head, badUri_never, if_neg Bool.false_ne_true, known]
    rfl
  | some iMethod => rw [parse_known found known, Option.getD_some]

/-- **Which requests are accepted.** -/
theorem acceptance_iff (cache : AdCache) : Acceptance cache ↔ KeptBySender cache := by
  constructor
  · rintro ⟨inside, sound⟩
    cases found : getBody cache with
    | none =>
      have starts : (-2 : Int) ∈ (start cache (headLen cache adFailure - 1)).writes := by
        rw [headLen, found]
        exact List.mem_singleton_self _
      obtain ⟨buf, written, same⟩ := parse_keeps (written_kept (-2)) {} cache starts
      have := inside (-2) (same ▸ written)
      omega
    | some body =>
      refine ⟨body, found, fun known => ?_⟩
      obtain ⟨iMethod, known⟩ := Option.isSome_iff_exists.mp known
      have code := parse_code found
      rw [known, Option.getD_some] at code
      obtain ⟨body', found', -, ok⟩ := sound (code ▸ methods_known known)
      obtain rfl := Option.some.inj (found'.symm.trans found)
      exact ok
  · rintro ⟨body, found, ok⟩
    have code := parse_code found
    refine ⟨?_, fun accepted => ?_⟩
    · have starts : Within cache.bytes.length (start cache (headLen cache adFailure - 1)) := by
        rw [headLen, found]
        exact (start_within found).mono (getBody_le found).2
      obtain ⟨buf, within, same⟩ := parse_keeps (within_kept _) {} cache starts
      rw [same]
      exact within.writes
    · cases known : mMethodToInt.lookup (requestLine cache body).sMethod with
      | none =>
        rw [known] at code
        exact absurd code accepted
      | some iMethod =>
        rw [known, Option.getD_some] at code
        exact ⟨body, found, by rw [code, known], ok (by rw [known]; rfl)⟩

/-- A body of five bytes is announced, and none was received. -/
def bodyMissing : AdCache where
  bytes := ascii "GET / HTTP/1.1\r\nContent-Length: 5\r\n\r\n"
  fits := by decide

theorem bodyMissing_accepted : ¬ Acceptance bodyMissing := by
  intro acceptance
  have code : (parse {} bodyMissing).code = 1 := by decide +kernel
  obtain ⟨body, found, -, -, received⟩ := acceptance.sound (by rw [code]; decide)
  have here : getBody bodyMissing = some 37 := by decide +kernel
  obtain rfl := Option.some.inj (here.symm.trans found)
  exact absurd received (by decide +kernel)

end HttpAcceptance
