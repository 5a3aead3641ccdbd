import RtbAdapter.HttpAcceptance

/-!
# Messages come back

GetRequest and GetResponse write a first line, three header lines, an empty line and the body.
The parser meets each delimiter where the writer put it, whatever the body holds, because the
head is cut before the words are read.
-/

namespace HttpRoundTrip

open ByteWords CText HttpParser HttpAcceptance

def typeLine (type : Bytes) : Bytes := ascii "Content-Type: " ++ type

def lengthLine (n : Int) : Bytes := ascii "Content-Length: " ++ decimal n

def lastLine : Bytes := ascii "Connection: close"

/-- The lines behind the first one, without the end of the last. -/
def lines (type : Bytes) (n : Int) : Bytes :=
  crlf ++ typeLine type ++ crlf ++ lengthLine n ++ crlf ++ lastLine

theorem emptyLine_skip {b : UInt8} (other : b ≠ 13) (rest : Bytes) :
    emptyLine (b :: rest) = (emptyLine rest).map (· + 1) := by
  have apart : ¬ (crlf ++ crlf).isPrefixOf (b :: rest) := by
    simp [crlf, List.isPrefixOf, other.symm]
  rw [emptyLine, if_neg apart]

theorem emptyLine_append {line : Bytes} (clean : 13 ∉ line) (rest : Bytes) :
    emptyLine (line ++ rest) = (emptyLine rest).map (· + line.length) := by
  induction line with
  | nil => simp
  | cons b line ih =>
    have other : b ≠ 13 := fun same => clean (same ▸ List.mem_cons_self)
    rw [List.cons_append, emptyLine_skip other, ih fun inside => clean (.tail _ inside),
      Option.map_map]
    rfl

/-- A line that is not empty. -/
theorem emptyLine_line {line : Bytes} (some' : line ≠ []) (clean : 13 ∉ line) (rest : Bytes) :
    emptyLine (crlf ++ (line ++ rest)) = (emptyLine rest).map (· + (2 + line.length)) := by
  obtain ⟨b, more, rfl⟩ := List.exists_cons_of_ne_nil some'
  have other : b ≠ 13 := fun same => clean (same ▸ List.mem_cons_self)
  have apart : ¬ (crlf ++ crlf).isPrefixOf (13 :: 10 :: (b :: more ++ rest)) := by
    simp [crlf, List.isPrefixOf, other.symm]
  change emptyLine (13 :: 10 :: (b :: more ++ rest)) = _
  rw [emptyLine, if_neg apart, emptyLine_skip (by decide), emptyLine_append clean, Option.map_map,
    Option.map_map]
  congr 1
  funext k
  simp only [Function.comp_apply]
  omega

theorem emptyLine_here (rest : Bytes) : emptyLine (crlf ++ (crlf ++ rest)) = some 0 := by
  change emptyLine (13 :: 10 :: 13 :: 10 :: rest) = some 0
  rw [emptyLine, if_pos]
  simp [crlf, List.isPrefixOf]

theorem notMem_append {b : UInt8} {s t : Bytes} (first : b ∉ s) (second : b ∉ t) : b ∉ s ++ t :=
  fun inside => (List.mem_append.mp inside).elim first second

def message (first type : Bytes) (n : Int) (body : Bytes) : Bytes :=
  first ++ lines type n ++ crlf ++ crlf ++ body

/-- The first empty line of a message is behind its head. -/
theorem emptyLine_message {first type : Bytes} {n : Int} (clean : 13 ∉ first)
    (clean' : 13 ∉ type) (body : Bytes) :
    emptyLine (message first type n body) = some (first ++ lines type n).length := by
  have one : 13 ∉ typeLine type := notMem_append (by decide) clean'
  have two : 13 ∉ lengthLine n := notMem_append (by decide) (notMem_decimal (by decide) n)
  have three : 13 ∉ lastLine := by decide
  have filled : typeLine type ≠ [] := List.append_ne_nil_of_left_ne_nil (by decide) _
  have filled' : lengthLine n ≠ [] := List.append_ne_nil_of_left_ne_nil (by decide) _
  simp only [message, lines, List.append_assoc]
  rw [emptyLine_append clean, emptyLine_line filled one, emptyLine_line filled' two,
    emptyLine_line (by decide) three, emptyLine_here]
  have ends : crlf.length = 2 := rfl
  simp only [Option.map_some, List.length_append, ends]
  congr 1
  omega

theorem lines_clean {b : UInt8} {type : Bytes} {n : Int} (other : b ∉ ascii "Content-Type: ")
    (other' : b ∉ ascii "Content-Length: ") (other'' : b ∉ lastLine) (ends : b ∉ crlf)
    (sign : ¬ (isDigit b ∨ b = 45)) (clean : b ∉ type) : b ∉ lines type n :=
  notMem_append (notMem_append (notMem_append (notMem_append (notMem_append ends
    (notMem_append other clean)) ends) (notMem_append other' (notMem_decimal sign n))) ends) other''

/-- A cache that holds a message. -/
structure Sent (cache : AdCache) (first type : Bytes) (n : Int) (body : Bytes) : Prop where
  text : cache.bytes = message first type n body
  noEnd : 13 ∉ first
  noEnd' : 13 ∉ type
  noNul : 0 ∉ first
  noNul' : 0 ∉ type
  clean : 0 ∉ body

variable {cache : AdCache} {first type body : Bytes} {n : Int}

theorem Sent.head_clean (sent : Sent cache first type n body) : 0 ∉ first ++ lines type n :=
  notMem_append sent.noNul (lines_clean (by decide) (by decide) (by decide) (by decide) (by decide)
    sent.noNul')

/-- Where the body starts. -/
def headSize (first type : Bytes) (n : Int) : Nat := (first ++ lines type n).length + 4

theorem Sent.getBody_eq (sent : Sent cache first type n body) :
    getBody cache = some (headSize first type n) := by
  have whole : 0 ∉ message first type n body := notMem_append (notMem_append (notMem_append
    sent.head_clean (by decide)) (by decide)) sent.clean
  rw [getBody, sent.text, cStr_eq_self whole, emptyLine_message sent.noEnd sent.noEnd']
  rfl

theorem Sent.drop_eq (sent : Sent cache first type n body) :
    cache.bytes.drop (headSize first type n) = body := by
  have size : (first ++ lines type n ++ crlf ++ crlf).length = headSize first type n := by
    rw [List.length_append, List.length_append, headSize]
    rfl
  rw [sent.text, message, List.drop_left' size]

/-- The head up to its last line break, which the first terminator cuts. -/
theorem Sent.terminated_eq (sent : Sent cache first type n body) :
    terminated cache (headSize first type n - 1) = first ++ lines type n ++ [13, 10, 13] := by
  have place : ((headSize first type n : Int) - 1).toNat =
      (first ++ lines type n ++ [13, 10, 13]).length := by
    rw [headSize]
    generalize first ++ lines type n = head
    rw [List.length_append, List.length_cons, List.length_cons, List.length_cons, List.length_nil]
    omega
  have text : cache.bytes = first ++ lines type n ++ [13, 10, 13] ++ 10 :: body := by
    rw [sent.text, message]
    simp only [crlf, List.append_assoc, List.cons_append, List.nil_append]
  have clean : 0 ∉ first ++ lines type n ++ [13, 10, 13] :=
    notMem_append sent.head_clean (by decide)
  rw [terminated, writeNul, if_pos (by rw [headSize]; omega), place, text,
    List.set_append_right _ _ le_rfl, Nat.sub_self, List.set_cons_zero, cStr_terminated clean]

theorem skipQuoted_word {delimiters word more : Bytes} {d : UInt8} {buf : Cursor}
    (whitespace : Bytes) (rest : buf.rest = word ++ d :: more) (clean : ∀ b ∈ word, b ∉ delimiters)
    (stop : d ∈ delimiters) :
    (skipQuoted delimiters whitespace buf).1 = word ∧
      (skipQuoted delimiters whitespace buf).2.rest = more.dropWhile (· ∈ whitespace) := by
  have letters : ∀ b ∈ word, decide (b ∉ delimiters) = true := fun b inside =>
    decide_eq_true (clean b inside)
  have taken : buf.rest.takeWhile (· ∉ delimiters) = word := by
    rw [rest, List.takeWhile_append_of_pos letters]
    simp [stop]
  have left : buf.rest.dropWhile (· ∉ delimiters) = d :: more := by
    rw [rest, List.dropWhile_append_of_pos letters]
    simp [stop]
  rw [skipQuoted, left]
  exact ⟨taken, rfl⟩

/-- A header line: its name, blanks before the value, the value and the end of the line. -/
theorem headers_line {name more value ends : Bytes} {buf : Cursor} {iLen : Int} (attrs : Attrs)
    (some' : 0 < iLen) (named : name ≠ []) (rest : buf.rest = name ++ 58 :: more)
    (noColon : 58 ∉ name) (blanks : more.dropWhile (· ∈ ([32] : Bytes)) = value ++ 13 :: ends)
    (noEnd : ∀ b ∈ value, b ∉ crlf) (fuel : Nat) :
    ∃ next, next.rest = ends.dropWhile (· ∈ crlf) ∧
      headers iLen (fuel + 1) buf attrs = headers iLen fuel next ((name, value) :: attrs) := by
  obtain ⟨first, after⟩ := skipQuoted_word [32] rest
    (fun b inside => by rintro colon; exact noColon (List.mem_singleton.mp colon ▸ inside))
    (List.mem_singleton_self 58)
  rw [blanks] at after
  obtain ⟨second, next⟩ := skipQuoted_word crlf after noEnd (by decide)
  refine ⟨_, next, ?_⟩
  rw [headers, if_pos (by omega)]
  simp only [first, second, if_neg named]

theorem headers_end {buf : Cursor} {iLen : Int} {attrs : Attrs} (rest : buf.rest = []) :
    ∀ fuel, (headers iLen fuel buf attrs).1 = attrs
  | 0 => rfl
  | fuel + 1 => by
    have none : (skipQuoted [58] [32] buf).1 = [] := by
      rw [skipQuoted, rest]
      rfl
    rw [headers]
    split
    · simp only [none, if_pos]
    · rfl

theorem dropWhile_value (x ends : Bytes) : (x ++ 13 :: ends).dropWhile (· ∈ ([32] : Bytes)) =
    x.dropWhile (· ∈ ([32] : Bytes)) ++ 13 :: ends := by
  induction x with
  | nil => rfl
  | cons b x ih =>
    rw [List.cons_append, List.dropWhile_cons, List.dropWhile_cons, ih]
    split <;> rfl

/-- The blank of the writer and those in front of a value are passed. -/
theorem dropWhile_blanks (x ends : Bytes) :
    (32 :: (x ++ 13 :: ends)).dropWhile (· ∈ ([32] : Bytes)) =
      x.dropWhile (· ∈ ([32] : Bytes)) ++ 13 :: ends := by
  rw [List.dropWhile_cons, if_pos (by decide), dropWhile_value]

theorem dropWhile_decimal (n : Int) :
    (decimal n).dropWhile (· ∈ ([32] : Bytes)) = decimal n := by
  refine List.dropWhile_eq_self_iff.mpr fun some' => ?_
  have clean := notMem_decimal (b := 32) (by decide) n
  simp only [List.mem_singleton, decide_eq_true_eq]
  exact fun blank => clean (blank ▸ List.getElem_mem some')

theorem decimal_noEnd (n : Int) : ∀ b ∈ decimal n, b ∉ crlf := by
  intro b inside ends
  rcases List.mem_cons.mp ends with rfl | feed
  · exact notMem_decimal (by decide) n inside
  · rw [List.mem_singleton.mp feed] at inside
    exact notMem_decimal (by decide) n inside

theorem dropWhile_line {line : Bytes} {b : UInt8} (starts : line.head? = some b) (other : b ∉ crlf)
    (rest : Bytes) : (10 :: (line ++ rest)).dropWhile (· ∈ crlf) = line ++ rest := by
  obtain ⟨more, rfl⟩ := List.head?_eq_some_iff.mp starts
  rw [List.dropWhile_cons, if_pos (by decide), List.cons_append, List.dropWhile_cons,
    if_neg (by simpa using other)]

/-- The header lines of a message are read as they were written. -/
theorem headers_lines {buf : Cursor} {iLen : Int} (some' : 0 < iLen)
    (clean : ∀ b ∈ type, b ∉ crlf)
    (rest : buf.rest = typeLine type ++ crlf ++ lengthLine n ++ crlf ++ lastLine ++ [13, 10, 13])
    (attrs : Attrs) :
    (headers iLen (buf.rest.length + 1) buf attrs).1 =
      (ascii "Connection", ascii "close") :: (ascii "Content-Length", decimal n) ::
        (ascii "Content-Type", type.dropWhile (· ∈ ([32] : Bytes))) :: attrs := by
  obtain ⟨more, fuel⟩ : ∃ more, buf.rest.length + 1 = more + 3 := by
    refine ⟨buf.rest.length - 2, ?_⟩
    have ends : ([13, 10, 13] : Bytes).length = 3 := rfl
    rw [rest, List.length_append, ends]
    omega
  have text₁ : buf.rest = ascii "Content-Type" ++
      58 :: 32 :: (type ++ 13 :: 10 :: (lengthLine n ++ (crlf ++ lastLine ++ [13, 10, 13]))) := by
    rw [rest, typeLine, show ascii "Content-Type: " = ascii "Content-Type" ++ [58, 32] by decide]
    simp [crlf]
  obtain ⟨second, rest₂, step₁⟩ := headers_line attrs some' (by decide) text₁ (by decide)
    (dropWhile_blanks type _)
    (fun b inside => clean b ((List.dropWhile_sublist _).subset inside)) (more + 2)
  have text₂ : second.rest = ascii "Content-Length" ++
      58 :: 32 :: (decimal n ++ 13 :: 10 :: (lastLine ++ [13, 10, 13])) := by
    rw [rest₂, dropWhile_line (b := 67) rfl (by decide), lengthLine,
      show ascii "Content-Length: " = ascii "Content-Length" ++ [58, 32] by decide]
    simp [crlf]
  have blanks₂ := dropWhile_blanks (decimal n) (10 :: (lastLine ++ [13, 10, 13]))
  rw [dropWhile_decimal] at blanks₂
  obtain ⟨third, rest₃, step₂⟩ := headers_line
    ((ascii "Content-Type", type.dropWhile (· ∈ ([32] : Bytes))) :: attrs)
    some' (by decide) text₂ (by decide) blanks₂ (decimal_noEnd n) (more + 1)
  have text₃ : third.rest =
      ascii "Connection" ++ 58 :: 32 :: (ascii "close" ++ 13 :: [10, 13]) := by
    rw [rest₃]
    decide
  obtain ⟨fourth, rest₄, step₃⟩ := headers_line
    ((ascii "Content-Length", decimal n) ::
      (ascii "Content-Type", type.dropWhile (· ∈ ([32] : Bytes))) :: attrs)
    some' (by decide) text₃ (by decide) (dropWhile_blanks (ascii "close") [10, 13])
    (by decide +kernel) more
  rw [fuel, step₁, step₂, step₃, headers_end (by rw [rest₄]; decide)]
  rfl

/-- Blanks in front of a text that starts with something else. -/
theorem dropWhile_filled {s : Bytes} {b : UInt8} (starts : s.head? = some b) (other : b ≠ 32)
    (rest : Bytes) : (s ++ rest).dropWhile (· ∈ ([32] : Bytes)) = s ++ rest := by
  obtain ⟨more, rfl⟩ := List.head?_eq_some_iff.mp starts
  rw [List.cons_append, List.dropWhile_cons, if_neg (by simpa using other)]

/-- A first line of two words and a rest. -/
structure FirstLine (first word word' tail : Bytes) : Prop where
  form : first = word ++ 32 :: (word' ++ 32 :: tail)
  starts : ∃ b, word.head? = some b ∧ isSpace b = false
  starts' : ∃ b, word'.head? = some b ∧ b ≠ 32
  noBlank : 32 ∉ word
  noBlank' : 32 ∉ word'
  noEnd : ∀ b ∈ tail, b ∉ crlf

theorem Sent.start_rest {word word' tail : Bytes} (sent : Sent cache first type n body)
    (line : FirstLine first word word' tail) :
    (start cache (headSize first type n - 1)).rest =
      word ++ 32 :: (word' ++ 32 :: (tail ++ lines type n ++ [13, 10, 13])) := by
  obtain ⟨b, begin', solid⟩ := line.starts
  obtain ⟨more, rfl⟩ := List.head?_eq_some_iff.mp begin'
  rw [start, sent.terminated_eq, line.form]
  simp only [List.append_assoc, List.cons_append, List.dropWhile_cons, solid]
  rfl

/-- The words of the first line, and the header lines behind it. -/
theorem Sent.words {word word' tail : Bytes} (sent : Sent cache first type n body)
    (line : FirstLine first word word' tail) :
    let one := skipQuoted [32] [32] (start cache (headSize first type n - 1))
    let two := skipQuoted [32] [32] one.2
    one.1 = word ∧ two.1 = word' ∧ (skipQuoted crlf crlf two.2).2.rest =
      typeLine type ++ crlf ++ lengthLine n ++ crlf ++ lastLine ++ [13, 10, 13] := by
  intro one two
  have noBlank : ∀ {word : Bytes}, 32 ∉ word → ∀ b ∈ word, b ∉ ([32] : Bytes) :=
    fun clean b inside blank => clean (List.mem_singleton.mp blank ▸ inside)
  obtain ⟨first', after⟩ := skipQuoted_word [32] (sent.start_rest line) (noBlank line.noBlank)
    (List.mem_singleton_self 32)
  obtain ⟨b, begin', other⟩ := line.starts'
  rw [dropWhile_filled begin' other] at after
  obtain ⟨second, after'⟩ := skipQuoted_word [32] after (noBlank line.noBlank')
    (List.mem_singleton_self 32)
  have behind : tail ++ lines type n ++ [13, 10, 13] = tail ++ 13 :: 10 ::
      (typeLine type ++ (crlf ++ lengthLine n ++ crlf ++ lastLine ++ [13, 10, 13])) := by
    simp only [lines, crlf, List.append_assoc, List.cons_append, List.nil_append]
  have ends : two.2.rest = tail.dropWhile (· ∈ ([32] : Bytes)) ++ 13 :: 10 ::
      (typeLine type ++ (crlf ++ lengthLine n ++ crlf ++ lastLine ++ [13, 10, 13])) := by
    rw [after', behind, dropWhile_value]
  obtain ⟨-, last⟩ := skipQuoted_word crlf ends
    (fun b inside => line.noEnd b ((List.dropWhile_sublist _).subset inside)) (by decide)
  have header : (typeLine type).head? = some 67 := rfl
  rw [dropWhile_line header (by decide)] at last
  refine ⟨first', second, ?_⟩
  rw [last]
  simp only [List.append_assoc]

theorem drop_writes {size : Nat} {writes : List Int} (below : ∀ i ∈ writes, 0 ≤ i ∧ i < size)
    (bytes : Bytes) : (writes.foldl writeNul bytes).drop size = bytes.drop size := by
  induction writes generalizing bytes with
  | nil => rfl
  | cons i writes ih =>
    obtain ⟨⟨lower, upper⟩, later⟩ := List.forall_mem_cons.mp below
    rw [List.foldl_cons, ih later, writeNul, if_pos lower, List.drop_set_of_lt (by omega)]

theorem parseResponse_keeps {holds : Cursor → Prop} (keeps : Kept holds) (http : AdHttp)
    (cache : AdCache)
    (starts : holds (start cache (headLen cache cache.bytes.length - 1))) :
    ∃ buf, holds buf ∧ (parseResponse http cache).writes = buf.writes := by
  have line : holds (statusLine cache (headLen cache cache.bytes.length)).2 :=
    keeps _ _ _ (keeps _ _ _ (keeps _ _ _ starts))
  have attrs : ∀ before, holds (responseAttrs cache (headLen cache cache.bytes.length) before).2 :=
    fun before => headers_keeps keeps _ _ _ line
  unfold parseResponse
  dsimp only
  split
  · exact ⟨_, line, rfl⟩
  · split
    · exact ⟨_, attrs _, rfl⟩
    · exact ⟨_, attrs _, rfl⟩

/-- What a call that writes into the head only leaves behind it. -/
theorem Sent.body_stays (sent : Sent cache first type n body) {parsed : Parsed} {buf : Cursor}
    (within : Within (headSize first type n) buf) (same : parsed.writes = buf.writes) :
    (parsed.bytes cache).drop (headSize first type n) = body := by
  rw [Parsed.bytes, same, drop_writes within.writes, sent.drop_eq]

/-- An address without a question mark has no query. -/
theorem withQuery_plain {http : AdHttp} (starts : http.sUri.head? = some 47)
    (plain : 63 ∉ http.sUri) : withQuery http = http := by
  have some' : http.sUri ≠ [] := by
    intro none
    rw [none] at starts
    cases starts
  have split' : strSplit http.sUri (ascii "?") = [http.sUri] := strSplit_whole some' plain
  rw [withQuery, split']

/-- What a request is read as. -/
structure RequestBack (cache : AdCache) (iMethod : Int) (uri body : Bytes) : Prop where
  code : (parse {} cache).code = iMethod
  address : ∀ asked, asked < 0 ∨ asked = iMethod → getUri (parse {} cache).http asked = some uri
  length : getHeader (parse {} cache).http (ascii "Content-Length") = some (decimal body.length)
  points : ∃ place, (parse {} cache).http.getBody false = some place ∧
    ((parse {} cache).bytes cache).drop place = body

/-- The table of the methods is read in both directions, and a name is one word. -/
theorem methods_table : ∀ entry ∈ mMethodToInt, mMethodToStr entry.2 = entry.1 ∧
    mMethodToInt.lookup entry.1 = some entry.2 ∧ (∀ b ∈ ([32, 0, 13] : Bytes), b ∉ entry.1) ∧
    ∃ b ∈ entry.1.head?, isSpace b = false := by decide +kernel

theorem request_message (iMethod : Int) {uri body : Bytes} (noNul : 0 ∉ uri) (clean : 0 ∉ body)
    (n : Int) : requestText iMethod (some uri) body n =
      message (mMethodToStr iMethod ++ 32 :: (uri ++ 32 :: ascii "HTTP/1.1"))
        (ascii "application/Json") n body := by
  have type : ascii "Content-Type: application/Json" =
      ascii "Content-Type: " ++ ascii "application/Json" := by decide
  have version : ascii " HTTP/1.1" = 32 :: ascii "HTTP/1.1" := by decide
  have blank : ascii " " = [32] := rfl
  simp only [requestText, cStr_eq_self noNul, cStr_eq_self clean, type, version, blank, message,
    lines, typeLine, lengthLine, lastLine, List.append_assoc, List.cons_append, List.nil_append]

theorem request_back {sMethod : Bytes} {iMethod : Int} (listed : (sMethod, iMethod) ∈ mMethodToInt)
    {uri : Bytes} (starts : uri.head? = some 47) (noBlank : 32 ∉ uri) (plain : 63 ∉ uri)
    {type : Bytes} (letters : ∀ b ∈ type, b ∉ crlf)
    (sent : Sent cache (sMethod ++ 32 :: (uri ++ 32 :: ascii "HTTP/1.1")) type body.length body) :
    RequestBack cache iMethod uri body := by
  obtain ⟨-, known, letters', b, begin', solid⟩ := methods_table _ listed
  have line : FirstLine (sMethod ++ 32 :: (uri ++ 32 :: ascii "HTTP/1.1")) sMethod uri
      (ascii "HTTP/1.1") :=
    ⟨rfl, ⟨b, begin', solid⟩, ⟨47, starts, by decide⟩, letters' 32 (by decide), noBlank,
      by decide +kernel⟩
  generalize sMethod ++ 32 :: (uri ++ 32 :: ascii "HTTP/1.1") = first at sent line
  have found := sent.getBody_eq
  obtain ⟨one, two, three⟩ := sent.words line
  have method : (requestLine cache (headSize first type body.length)).sMethod = sMethod := one
  have address : (requestLine cache (headSize first type body.length)).sUri = uri := two
  have filled : 0 < (cache.bytes.length : Int) := by
    have := getBody_le found
    omega
  have ends : (version cache (headSize first type body.length)).2.rest = _ := three
  have attrs : (requestAttrs cache (headSize first type body.length) []).1 = _ :=
    headers_lines filled letters ends []
  have result := parse_known found (method ▸ known)
  rw [withQuery_plain (by rw [address]; exact starts) (by rw [address]; exact plain),
    attrs] at result
  have parsedUri : (parse {} cache).http.sUri = uri := by rw [result, address]
  have parsedMethod : (parse {} cache).http.iMethod = iMethod := by rw [result]
  have head : headLen cache adFailure = headSize first type body.length := by
    rw [headLen, found]
  obtain ⟨buf, within, same⟩ := parse_keeps (within_kept _) {} cache (head ▸ start_within found)
  refine ⟨by rw [result], fun asked asks => ?_, ?_, ⟨_, ?_, sent.body_stays within same⟩⟩
  · rw [getUri, parsedMethod, parsedUri, if_pos (asks.imp_right Eq.symm)]
  · rw [getHeader, result]
    rfl
  · rw [result]
    rfl

/-- What a response is read as. -/
structure ResponseBack (http : AdHttp) (cache : AdCache) (iStatus : Int) (body : Bytes) :
    Prop where
  code : (parseResponse http cache).code = iStatus
  points : ∃ place, (parseResponse http cache).http.getBody true = some place ∧
    ((parseResponse http cache).bytes cache).drop place = body

/-- The table of the answers. -/
theorem responses_table : ∀ entry ∈ mResponse, reason entry.1 = entry.2 ∧
    mResponse.lookup entry.1 = some entry.2 ∧ (∀ b ∈ ([0, 13, 10] : Bytes), b ∉ entry.2) ∧
    0 ≤ entry.1 ∧ entry.1 < 1000 := by decide +kernel

theorem response_message (iStatus : Int) {pType : Option Bytes} {body : Bytes}
    (noNul : 0 ∉ pType.getD (ascii "text/plain")) (clean : 0 ∉ body) (n : Int) :
    responseText iStatus pType body n =
      message (ascii "HTTP/1.1" ++ 32 :: (decimal iStatus ++ 32 :: reason iStatus))
        (pType.getD (ascii "text/plain")) n body := by
  have version : ascii "HTTP/1.1 " = ascii "HTTP/1.1" ++ [32] := by decide
  have blank : ascii " " = [32] := rfl
  simp only [responseText, cStr_eq_self noNul, cStr_eq_self clean, version, blank, message,
    lines, typeLine, lengthLine, lastLine, List.append_assoc, List.cons_append, List.nil_append]

/-- An object after a response whose status is known and whose body has been received. -/
theorem parseResponse_known (http : AdHttp) {head : Nat} (found : getBody cache = some head)
    {iStatus : Int} {text : Bytes} (state : atoi (statusLine cache head).1 = iStatus)
    (known : mResponse.lookup iStatus = some text) {size : Nat}
    (length : (responseAttrs cache head http.mResAttrs).1.lookup (ascii "Content-Length") =
      some (decimal size)) (received : head + size ≤ cache.bytes.length) :
    parseResponse http cache = ⟨{ http with
      pResBody := some head, iResHeadLen := head, iResState := iStatus
      mResAttrs := (responseAttrs cache head http.mResAttrs).1, iResBodyLen := size },
      iStatus, (responseAttrs cache head http.mResAttrs).2.writes⟩ := by
  have short := cache.fits
  have value : atoi (decimal size) = size := atoi_decimal (by omega) (by omega)
  have fits : ¬ toInt32 ((head : Int) + size) > cache.bytes.length := by
    rw [toInt32_of_range (by omega) (by omega)]
    omega
  have place : headLen cache cache.bytes.length = head := by rw [headLen, found]
  unfold parseResponse
  simp only [place, state, known, getLen, if_neg Bool.false_ne_true, length, cStr_decimal, value,
    if_neg fits, found]

theorem response_back (http : AdHttp) {iStatus : Int} {text : Bytes}
    (listed : (iStatus, text) ∈ mResponse) {type : Bytes} (letters : ∀ b ∈ type, b ∉ crlf)
    (sent : Sent cache (ascii "HTTP/1.1" ++ 32 :: (decimal iStatus ++ 32 :: text)) type body.length
      body) : ResponseBack http cache iStatus body := by
  obtain ⟨-, known, letters', lower, upper⟩ := responses_table _ listed
  obtain ⟨b, more, printed'⟩ := List.exists_cons_of_ne_nil (decimal_ne_nil iStatus)
  have noBlank : 32 ∉ decimal iStatus := notMem_decimal (by decide) iStatus
  have line : FirstLine (ascii "HTTP/1.1" ++ 32 :: (decimal iStatus ++ 32 :: text))
      (ascii "HTTP/1.1") (decimal iStatus) text := by
    refine ⟨rfl, ⟨72, rfl, by decide⟩, ⟨b, by rw [printed']; rfl, ?_⟩, by decide, noBlank, ?_⟩
    · rintro rfl
      exact noBlank (printed' ▸ List.mem_cons_self)
    · intro b inside ends
      exact letters' b (List.mem_cons_of_mem 0 ends) inside
  have value : atoi (decimal iStatus) = iStatus := atoi_decimal (by omega) (by omega)
  generalize ascii "HTTP/1.1" ++ 32 :: (decimal iStatus ++ 32 :: text) = first at sent line
  have found := sent.getBody_eq
  obtain ⟨-, two, three⟩ := sent.words line
  have state : (statusLine cache (headSize first type body.length)).1 = decimal iStatus := two
  have inside := getBody_le found
  have filled : 0 < (cache.bytes.length : Int) := by omega
  have ends : (statusLine cache (headSize first type body.length)).2.rest = _ := three
  have attrs : (responseAttrs cache (headSize first type body.length) http.mResAttrs).1 = _ :=
    headers_lines filled letters ends http.mResAttrs
  have size : cache.bytes.length = headSize first type body.length + body.length := by
    have := congrArg List.length sent.drop_eq
    rw [List.length_drop] at this
    omega
  have result := parseResponse_known http found (state ▸ value) known
    (attrs ▸ rfl : _ = some (decimal body.length)) size.ge
  have head : headLen cache cache.bytes.length = headSize first type body.length := by
    rw [headLen, found]
  obtain ⟨buf, within, same⟩ := parseResponse_keeps (within_kept _) http cache
    (head ▸ start_within found)
  refine ⟨by rw [result], _, ?_, sent.body_stays within same⟩
  rw [result]
  rfl

theorem printed_message {text : Bytes} (short : text.length ≤ 8191)
    (form : text = message first type n body) (noEnd : 13 ∉ first) (noEnd' : 13 ∉ type)
    (noNul : 0 ∉ first) (noNul' : 0 ∉ type) (clean : 0 ∉ body) :
    ∃ cache, printed text = some cache ∧ Sent cache first type n body :=
  ⟨⟨text, Nat.le_succ_of_le short⟩, dif_pos short, form, noEnd, noEnd', noNul, noNul', clean⟩

theorem crlf_of_ends {s : Bytes} (feed : 10 ∉ s) (cut : 13 ∉ s) : ∀ b ∈ s, b ∉ crlf := by
  intro b inside ends
  rcases List.mem_cons.mp ends with rfl | last
  · exact cut inside
  · exact feed (List.mem_singleton.mp last ▸ inside)

theorem requests_back {sMethod : Bytes} {iMethod : Int} (listed : (sMethod, iMethod) ∈ mMethodToInt)
    {uri body : Bytes} (starts : uri.head? = some 47)
    (letters : ∀ b ∈ ([32, 63, 0, 13, 10] : Bytes), b ∉ uri) (clean : 0 ∉ body)
    (short : (requestText iMethod (some uri) body body.length).length ≤ 8191) :
    ∃ cache, getRequest iMethod (some uri) body body.length = some cache ∧
      RequestBack cache iMethod uri body := by
  obtain ⟨name, -, letters', -⟩ := methods_table _ listed
  have apart : ∀ b ∈ ([0, 13] : Bytes), b ∉ sMethod ++ 32 :: (uri ++ 32 :: ascii "HTTP/1.1") := by
    intro b inside
    have other : b ∉ ascii "HTTP/1.1" ∧ b ≠ 32 := by
      revert b
      decide +kernel
    have inUri : b ∈ ([32, 63, 0, 13, 10] : Bytes) := by
      revert b
      decide +kernel
    have inName : b ∈ ([32, 0, 13] : Bytes) := List.mem_cons_of_mem 32 inside
    simp only [List.mem_append, List.mem_cons, not_or]
    exact ⟨letters' b inName, other.2, letters b inUri, other.2, other.1⟩
  have form := request_message iMethod (letters 0 (by decide)) clean body.length
  rw [show mMethodToStr iMethod = sMethod from name] at form
  obtain ⟨cache, written, sent⟩ := printed_message short form (apart 13 (by decide)) (by decide)
    (apart 0 (by decide)) (by decide) clean
  exact ⟨cache, written, request_back listed starts (letters 32 (by decide))
    (letters 63 (by decide)) (by decide +kernel) sent⟩

theorem responses_back (http : AdHttp) {iStatus : Int} {text : Bytes}
    (listed : (iStatus, text) ∈ mResponse) {pType : Option Bytes} {body : Bytes}
    (letters : ∀ type ∈ pType, ∀ b ∈ ([0, 13, 10] : Bytes), b ∉ type) (clean : 0 ∉ body)
    (short : (responseText iStatus pType body body.length).length ≤ 8191) :
    ∃ cache, getResponse iStatus pType body body.length = some cache ∧
      ResponseBack http cache iStatus body := by
  obtain ⟨name, -, letters', -⟩ := responses_table _ listed
  have type : ∀ b ∈ ([0, 13, 10] : Bytes), b ∉ pType.getD (ascii "text/plain") := by
    cases pType with
    | none => decide +kernel
    | some type => exact letters type rfl
  have apart : ∀ b ∈ ([0, 13] : Bytes),
      b ∉ ascii "HTTP/1.1" ++ 32 :: (decimal iStatus ++ 32 :: text) := by
    intro b inside
    have other : (b ∉ ascii "HTTP/1.1" ∧ b ≠ 32) ∧ ¬ (isDigit b ∨ b = 45) ∧
        b ∈ ([0, 13, 10] : Bytes) := by
      revert b
      decide +kernel
    simp only [List.mem_append, List.mem_cons, not_or]
    exact ⟨other.1.1, other.1.2, notMem_decimal other.2.1 iStatus, other.1.2,
      letters' b other.2.2⟩
  have form := response_message iStatus (type 0 (by decide)) clean body.length
  rw [show reason iStatus = text from name] at form
  obtain ⟨cache, written, sent⟩ := printed_message short form (apart 13 (by decide))
    (type 13 (by decide)) (apart 0 (by decide)) (type 0 (by decide)) clean
  exact ⟨cache, written, response_back http listed
    (crlf_of_ends (type 10 (by decide)) (type 13 (by decide))) sent⟩

/-- **Messages come back.** -/
theorem messages_back :
    (∀ sMethod iMethod, (sMethod, iMethod) ∈ mMethodToInt →
      ∀ uri body : Bytes, uri.head? = some 47 → (∀ b ∈ ([32, 63, 0, 13, 10] : Bytes), b ∉ uri) →
      0 ∉ body → (requestText iMethod (some uri) body body.length).length ≤ 8191 →
      ∃ cache, getRequest iMethod (some uri) body body.length = some cache ∧
        RequestBack cache iMethod uri body) ∧
    (∀ http iStatus text, (iStatus, text) ∈ mResponse → ∀ (pType : Option Bytes) (body : Bytes),
      (∀ type ∈ pType, ∀ b ∈ ([0, 13, 10] : Bytes), b ∉ type) → 0 ∉ body →
      (responseText iStatus pType body body.length).length ≤ 8191 →
      ∃ cache, getResponse iStatus pType body body.length = some cache ∧
        ResponseBack http cache iStatus body) :=
  ⟨fun _ _ listed _ _ starts letters clean short =>
      requests_back listed starts letters clean short,
    fun http _ _ listed _ _ letters clean short => responses_back http listed letters clean short⟩

/-- The body looks like the head of another message. -/
theorem twoHeads_back :
    (∃ cache, getRequest 2 (some (ascii "/bid")) (ascii "a: b\r\n\r\nGET / c") 15 = some cache ∧
      RequestBack cache 2 (ascii "/bid") (ascii "a: b\r\n\r\nGET / c")) ∧
    ∃ cache, getResponse 413 (some (ascii "text/a: b")) (ascii "\r\n\r\n") 4 = some cache ∧
      ResponseBack {} cache 413 (ascii "\r\n\r\n") :=
  ⟨messages_back.1 (ascii "POST") 2 (by decide) _ _ (by decide) (by decide +kernel) (by decide)
      (by decide +kernel),
    messages_back.2 {} 413 (ascii " Request Entity Too Large") (by decide) _ _
      (by decide +kernel) (by decide) (by decide +kernel)⟩

end HttpRoundTrip
