import RtbAdapter.CacheLengths
import RtbAdapter.ExchangeStatus
import RtbAdapter.HttpRoundTrip
import RtbAdapter.MarkupMacros
import RtbAdapter.QueryParameters
import RtbAdapter.UrlCoding

/-!
# Clicks come back

In a markup the exchange writes its own address for a macro, in front of the landing page of the
bidder. A click on the address is a request to the exchange, which counts the click for the
medium and the slot that it wrote, and sends the browser to the page.
-/

namespace ClickRedirects

open ByteMemory ByteWords CText HttpParser HttpRoundTrip UrlCoding TextReplacement MarkupMacros
  QueryParameters
open ExchangeStatus (AdAdxTaskStatus)

def priceMacro : Bytes := ascii "%%WINNING_PRICE%%"

def clickMacro : Bytes := ascii "%%CLICK_URL_ESC%%"

def host : Bytes := ascii "http://114.113.235.101"

/-- The text for `cTemp`, before it is cut. -/
def clickText (sTagId : Bytes) (iMid : Int32) : Bytes :=
  host ++ ascii "/click?pid=" ++ cStr sTagId ++ ascii "&mid=" ++ decimal iMid.toInt ++ ascii "&cu="

def clickUrl (sTagId : Bytes) (iMid : Int32) : Bytes := snprintf 512 (clickText sTagId iMid)

/-- `StrReplace` into an empty string, with as many turns as it can need. -/
def replaceAll (sMatch sNew sSrc : Bytes) : Option Bytes :=
  strReplace sMatch sNew (sSrc.length + 1) sSrc []

/-- What SendResponse leaves in the markup. -/
def sendMarkup (cPrice sAdm sTagId : Bytes) (iMid : Int32) : Option Bytes := do
  let sReplace ← replaceAll priceMacro (cStr cPrice) sAdm
  replaceAll clickMacro (adxUrlEncode (clickUrl sTagId iMid) []) sReplace

/-- The counts after a click, whether an error of the request is counted too, and the cache of the
answer. -/
structure Redirected where
  status : AdAdxTaskStatus
  reqError : Bool
  out : CacheLengths.AdCache

/-- A redirect to nowhere leaves the cache as it is. -/
def getRedirect (iStatus : Int32) (sLocation : Bytes) (cCache : CacheLengths.AdCache) :
    CacheLengths.AdCache :=
  match (CacheLengths.HttpCall.getRedirect iStatus sLocation).text with
  | some text => (cCache.print text).cache
  | none => cCache

/-- What AdSessionWrite hands to the socket. -/
def written (cCache : CacheLengths.AdCache) : Bytes :=
  readBytes cCache.cCache 0 cCache.iLen.toNatClampNeg

/-- `y` is what stands in the local variables of FromHex. -/
def redirectLandingPage (y : Nat → UInt8) (http : AdHttp) (status : AdAdxTaskStatus)
    (ctCacheOut : CacheLengths.AdCache) : Option Redirected := do
  let sUri ← getUri http adFailure
  guard (sUri = ascii "/click")
  let sPid ← http.mParas.lookup (ascii "pid")
  let sMid ← http.mParas.lookup (ascii "mid")
  let sLandingPage ← http.mParas.lookup (ascii "cu")
  let sDec := adxUrlDecode y sLandingPage []
  return ⟨status.statusAddClick (Int32.ofInt (atoi (cStr sMid))) sPid, sDec = [],
    getRedirect 302 sDec ctCacheOut⟩

/-- The sign that macros begin and end with. -/
def sign : Bytes := [37, 37]

variable {t front back str sTagId page : Bytes} {iMid : Int32}

/-- Escapes are apart from each other. -/
theorem encode_apart (apart : ¬ sign <:+: t) : ¬ sign <:+: encode str ++ t := by
  have plains : ∀ b, plain b → b ≠ 37 := forall_byte (by decide +kernel)
  have digits : ∀ b : UInt8, toHex (b >>> 4) ≠ 37 ∧ toHex (b % 16) ≠ 37 :=
    forall_byte (by decide +kernel)
  have skip {b : UInt8} {s : Bytes} (other : b ≠ 37) (rest : ¬ sign <:+: s) :
      ¬ sign <:+: b :: s := by
    rw [sign, List.infix_cons_iff, List.cons_prefix_cons]
    rintro (⟨same, -⟩ | inside)
    · exact other same.symm
    · exact rest inside
  induction str with
  | nil => exact apart
  | cons b str ih =>
    rw [encode, List.flatMap_cons, List.append_assoc, ← encode, encodeByte]
    split
    · next here => exact skip (plains b here) ih
    · split
      · exact skip (by decide) ih
      · have behind := skip (digits b).1 (skip (digits b).2 ih)
        change ¬ sign <:+: 37 :: toHex (b >>> 4) :: toHex (b % 16) :: (encode str ++ t)
        rw [sign, List.infix_cons_iff, List.cons_prefix_cons, List.cons_prefix_cons]
        rintro (⟨-, same, -⟩ | inside)
        · exact (digits b).1 same.symm
        · exact behind inside

theorem priceMacro_form : ∃ name, sign <:+: name ∧ priceMacro = 37 :: 37 :: 87 :: name :=
  ⟨priceMacro.drop 3, by decide, by decide⟩

theorem clickMacro_form : ∃ name, clickMacro = 37 :: 37 :: 67 :: name :=
  ⟨clickMacro.drop 3, by decide⟩

/-- The one macro does not begin in the other, nor in the signs at its end. -/
theorem cutAt_price (apart : ¬ sign <:+: t) : cutAt priceMacro (clickMacro ++ t) = none := by
  obtain ⟨name, ends, first⟩ := priceMacro_form
  have one : ¬ 87 :: name <+: t := fun starts =>
    apart (ends.trans ((List.suffix_cons _ _).isInfix.trans starts.isInfix))
  have two : ¬ 37 :: 87 :: name <+: t := fun starts =>
    apart (ends.trans ((List.suffix_append [37, 87] name).isInfix.trans starts.isInfix))
  have whole : ¬ 37 :: 37 :: 87 :: name <:+: t := fun inside =>
    apart (ends.trans ((List.suffix_append [37, 37, 87] name).isInfix.trans inside))
  have letters : clickMacro =
      [37, 37, 67, 76, 73, 67, 75, 95, 85, 82, 76, 95, 69, 83, 67, 37, 37] := by decide
  rw [cutAt_none, letters, first]
  simp [List.infix_cons_iff, List.cons_prefix_cons, one, two, whole]

theorem replaceAll_absent {sMatch sNew sSrc : Bytes} (absent : cutAt sMatch sSrc = none) :
    replaceAll sMatch sNew sSrc = some sSrc := by
  rw [replaceAll, strReplace_absent absent, List.nil_append]

/-- The click macro between texts without signs is all that is replaced. -/
theorem sendMarkup_link (cPrice : Bytes) (apart : ¬ sign <:+: front) (apart' : ¬ sign <:+: back) :
    sendMarkup cPrice (front ++ (clickMacro ++ back)) sTagId iMid =
      some (front ++ (encode (clickUrl sTagId iMid) ++ back)) := by
  obtain ⟨name, -, first⟩ := priceMacro_form
  obtain ⟨name', first'⟩ := clickMacro_form
  have price : cutAt priceMacro (front ++ (clickMacro ++ back)) = none := by
    have other : ¬ 37 :: 87 :: name <+: clickMacro ++ back := by
      rw [first']
      simp [List.cons_prefix_cons]
    rw [first, cutAt_append apart other, ← first, cutAt_price apart', Option.map_none]
  have here : cutAt clickMacro (clickMacro ++ back) = some ([], back) :=
    cutAt_eq_iff.mpr ⟨rfl, fun _ _ _ => Nat.zero_le _⟩
  have click : cutAt clickMacro (front ++ (clickMacro ++ back)) = some (front, back) := by
    have other : ¬ 37 :: 67 :: name' <+: clickMacro ++ back := by
      rw [first']
      simp [List.cons_prefix_cons]
    have passed := cutAt_append apart other
    rw [← first', here, Option.map_some, List.append_nil] at passed
    exact passed
  have rest : cutAt clickMacro back = none := by
    rw [first']
    exact cutAt_apart apart'
  obtain ⟨fuel, room⟩ : ∃ fuel, (front ++ (clickMacro ++ back)).length = fuel + 1 := by
    rw [first']
    exact ⟨front.length + (name'.length + 2 + back.length), by simp; omega⟩
  rw [sendMarkup, replaceAll_absent price, Option.bind_eq_bind, Option.bind_some, replaceAll, room,
    strReplace_found click, strReplace_absent rest]
  simp only [adxUrlEncode, List.nil_append, List.append_assoc]

variable {cache : AdCache} {sUri tail : Bytes}

/-- The words of a request line are read as they were sent, whatever follows the line. -/
theorem requestLine_get (request : cache.bytes = ascii "GET " ++ sUri ++ ascii " HTTP/1.1" ++ tail)
    (starts : sUri.head? = some 47) (clean : ∀ b ∈ ([0, 13, 32] : Bytes), b ∉ sUri)
    (ends : (emptyLine (cStr tail)).isSome) :
    ∃ body, getBody cache = some body ∧ (requestLine cache body).sMethod = ascii "GET" ∧
      (requestLine cache body).sUri = sUri := by
  obtain ⟨k, empty⟩ := Option.isSome_iff_exists.mp ends
  obtain ⟨line, whole⟩ : ∃ line, line = ascii "GET " ++ sUri ++ ascii " HTTP/1.1" := ⟨_, rfl⟩
  have free {b : UInt8} (listed : b ∈ ([0, 13] : Bytes)) : b ∉ line := by
    have words : ∀ b ∈ ([0, 13] : Bytes), b ∉ ascii "GET " ∧ b ∉ ascii " HTTP/1.1" := by
      decide +kernel
    rw [whole]
    have outside := clean b (List.subset_append_left [0, 13] [32] listed)
    exact notMem_append (notMem_append (words b listed).1 outside) (words b listed).2
  have found : getBody cache = some (k + line.length + 4) := by
    rw [getBody, request, ← whole, cStr_append (free (by decide)),
      emptyLine_append (free (by decide)), empty]
    rfl
  have cut : ∃ rest, terminated cache ((k + line.length + 4 : Nat) - 1) = line ++ rest := by
    have place : (((k + line.length + 4 : Nat) : Int) - 1).toNat = line.length + (k + 3) := by
      omega
    rw [terminated, writeNul, if_pos (by omega), place, request, ← whole,
      List.set_append_right _ _ (Nat.le_add_right _ _), cStr_append (free (by decide))]
    exact ⟨_, rfl⟩
  obtain ⟨rest, cut⟩ := cut
  have text : (start cache ((k + line.length + 4 : Nat) - 1)).rest =
      ascii "GET" ++ 32 :: (sUri ++ 32 :: (ascii "HTTP/1.1" ++ rest)) := by
    have get : ascii "GET " = [71, 69, 84, 32] := by decide
    have name : ascii "GET" = [71, 69, 84] := by decide
    have version : ascii " HTTP/1.1" = 32 :: ascii "HTTP/1.1" := by decide
    have solid : isSpace 71 = false := by decide
    rw [start, cut, whole, get, name, version]
    simp only [List.append_assoc, List.cons_append, List.nil_append, List.dropWhile_cons, solid]
    rfl
  obtain ⟨method, after⟩ :=
    skipQuoted_word [32] text (by decide +kernel) (List.mem_singleton_self 32)
  rw [dropWhile_filled starts (by decide)] at after
  have words : ∀ b ∈ sUri, b ∉ ([32] : Bytes) := fun b inside blank =>
    clean b (by simpa using .inr (.inr (List.mem_singleton.mp blank))) inside
  obtain ⟨uri, -⟩ := skipQuoted_word [32] after words (List.mem_singleton_self 32)
  exact ⟨_, found, method, uri⟩

/-- The pairs of the address. -/
def clickPairs (sTagId : Bytes) (iMid : Int32) (page : Bytes) : List Pair :=
  [(ascii "pid", sTagId), (ascii "mid", decimal iMid.toInt), (ascii "cu", encode page)]

def clickPath (sTagId : Bytes) (iMid : Int32) (page : Bytes) : Bytes :=
  ascii "/click?" ++ query (clickPairs sTagId iMid page)

/-- A slot that can stand in an address as it is. -/
def Tag (sTagId : Bytes) : Prop := ∀ b ∈ ([0, 13, 32, 38, 63] : Bytes), b ∉ sTagId

theorem encode_clean : ∀ b ∈ ([0, 13, 32, 38, 63] : Bytes), b ∉ encode str := by
  have each : ∀ c : UInt8,
      (encodeByte c).all fun b => !([0, 13, 32, 38, 63] : Bytes).contains b :=
    forall_byte (by decide +kernel)
  intro b listed inside
  obtain ⟨c, -, coded⟩ := List.mem_flatMap.mp inside
  have other := List.all_eq_true.mp (each c) b coded
  rw [Bool.not_eq_true', List.contains_eq_mem, decide_eq_false_iff_not] at other
  exact other listed

theorem query_click (sTagId page : Bytes) (iMid : Int32) : query (clickPairs sTagId iMid page) =
    ascii "pid=" ++ sTagId ++ ascii "&mid=" ++ decimal iMid.toInt ++ ascii "&cu=" ++
      encode page := by
  have pid : ascii "pid=" = ascii "pid" ++ [61] := by decide
  have mid : ascii "&mid=" = 38 :: (ascii "mid" ++ [61]) := by decide
  have cu : ascii "&cu=" = 38 :: (ascii "cu" ++ [61]) := by decide
  rw [clickPairs, query_cons, query_cons, query_single, pid, mid, cu]
  simp only [List.append_assoc, List.cons_append, List.nil_append]

theorem query_clean (tag : Tag sTagId) :
    ∀ b ∈ ([0, 13, 32, 63] : Bytes), b ∉ query (clickPairs sTagId iMid page) := by
  have words : ∀ b ∈ ([0, 13, 32, 63] : Bytes), b ∉ ascii "pid=" ∧ b ∉ ascii "&mid=" ∧
      b ∉ ascii "&cu=" ∧ ¬ (isDigit b ∨ b = 45) ∧ b ∈ ([0, 13, 32, 38, 63] : Bytes) := by
    decide +kernel
  intro b listed
  obtain ⟨pid, mid, cu, digit, among⟩ := words b listed
  rw [query_click]
  exact notMem_append (notMem_append (notMem_append (notMem_append (notMem_append pid
    (tag b among)) mid) (notMem_decimal digit _)) cu) (encode_clean b among)

theorem clickPath_clean (tag : Tag sTagId) :
    ∀ b ∈ ([0, 13, 32] : Bytes), b ∉ clickPath sTagId iMid page := by
  have word : ∀ b ∈ ([0, 13, 32] : Bytes), b ∉ ascii "/click?" := by decide +kernel
  exact fun b listed => notMem_append (word b listed)
    (query_clean tag b (List.subset_append_left [0, 13, 32] [63] listed))

theorem clickText_page (tag : Tag sTagId) :
    clickText sTagId iMid ++ encode page = host ++ clickPath sTagId iMid page := by
  have address : ascii "/click?pid=" = ascii "/click?" ++ ascii "pid=" := by decide
  rw [clickText, clickPath, query_click, cStr_eq_self (tag 0 (by decide)), address]
  simp only [List.append_assoc]

theorem plain_pair {name value : Bytes} (named : name ≠ [] ∧ 61 ∉ name ∧ 38 ∉ name)
    (apart : 38 ∉ value) : Pair.Plain (name, value) :=
  ⟨named.1, named.2.1, named.2.2, apart⟩

theorem clickPairs_plain (tag : Tag sTagId) :
    ∀ pair ∈ clickPairs sTagId iMid page, pair.Plain := by
  simp only [clickPairs, List.forall_mem_cons]
  refine ⟨plain_pair (by decide) (tag 38 (by decide)),
    plain_pair (by decide) (notMem_decimal (by decide) _),
    plain_pair (by decide) (encode_clean 38 (by decide)), ?_⟩
  simp

/-- The query is taken off the address, and its pairs are in the map. -/
theorem withQuery_click (tag : Tag sTagId) {http : AdHttp}
    (address : http.sUri = clickPath sTagId iMid page) (none : http.mParas = []) :
    withQuery http = { http with
      sUri := ascii "/click", mParas := (clickPairs sTagId iMid page).reverse } := by
  have noSign : 63 ∉ query (clickPairs sTagId iMid page) := query_clean tag 63 (by decide)
  have filled : query (clickPairs sTagId iMid page) ≠ [] := by
    rw [query_click]
    simp [ascii]
  have path : clickPath sTagId iMid page =
      ascii "/click" ++ 63 :: query (clickPairs sTagId iMid page) := by
    have word : ascii "/click?" = ascii "/click" ++ [63] := by decide
    rw [clickPath, word, List.append_assoc, List.singleton_append]
  have pieces : strSplit http.sUri (ascii "?") =
      [ascii "/click", query (clickPairs sTagId iMid page)] := by
    have sep : ascii "?" = [63] := rfl
    rw [address, path, sep, strSplit_eq (by simp) (by simp [ascii]),
      strSplitFrom_cut (by decide) (by decide), strSplitFrom_whole noSign, List.nil_append,
      List.nil_append, if_neg filled]
  rw [withQuery, pieces]
  simp only [none, parsePara_eq (clickPairs_plain tag), List.append_nil]

/-- A request for an address of the exchange is redirected to the page that stands in it. -/
theorem redirect_click (tag : Tag sTagId)
    (request : cache.bytes =
      ascii "GET " ++ clickPath sTagId iMid page ++ ascii " HTTP/1.1" ++ tail)
    (ends : (emptyLine (cStr tail)).isSome) (y : Nat → UInt8) (status : AdAdxTaskStatus)
    (ctCacheOut : CacheLengths.AdCache) :
    redirectLandingPage y (parse {} cache).http status ctCacheOut =
      some ⟨status.statusAddClick iMid sTagId, page = [], getRedirect 302 page ctCacheOut⟩ := by
  have slash : (clickPath sTagId iMid page).head? = some 47 := rfl
  obtain ⟨body, found, method, uri⟩ := requestLine_get request slash (clickPath_clean tag) ends
  have known : mMethodToInt.lookup (requestLine cache body).sMethod = some 1 := by
    rw [method]
    decide
  have number : Int32.ofInt (atoi (decimal iMid.toInt)) = iMid := by
    rw [atoi_decimal iMid.le_toInt iMid.toInt_lt, Int32.ofInt_toInt]
  have parsed := HttpAcceptance.parse_known found known
  rw [withQuery_click tag (by exact uri) (by rfl)] at parsed
  have address : getUri (parse {} cache).http adFailure = some (ascii "/click") := by
    rw [parsed]
    rfl
  have paras : (parse {} cache).http.mParas = (clickPairs sTagId iMid page).reverse := by
    rw [parsed]
  have pid : (clickPairs sTagId iMid page).reverse.lookup (ascii "pid") = some sTagId := rfl
  have mid : (clickPairs sTagId iMid page).reverse.lookup (ascii "mid") =
      some (decimal iMid.toInt) := rfl
  have cu : (clickPairs sTagId iMid page).reverse.lookup (ascii "cu") = some (encode page) := rfl
  have back : adxUrlDecode y (encode page) [] = page := decodeFrom_encode y page 0
  rw [redirectLandingPage, address, paras, pid, mid, cu]
  simp [number, back]

/-- The answer that leads to a page. -/
def answer (page : Bytes) : Bytes :=
  ascii "HTTP/1.1 302 Move temporarily\r\nContent-Type: text/plain\r\n" ++
    ascii "Content-Length: 0\r\nLocation: " ++ page ++ ascii "\r\nConnection: close\r\n\r\n"

/-- A text that the cache has room for is handed on as it is. -/
theorem written_print {text : Bytes} (room : text.length < PacketReassembly.adCacheMax)
    (c : CacheLengths.AdCache) : written (c.print text).cache = text := by
  have max : PacketReassembly.adCacheMax = 8192 := rfl
  have whole : snprintf PacketReassembly.adCacheMax text = text :=
    List.take_of_length_le (by omega)
  have length : (Int32.ofNat text.length).toNatClampNeg = text.length := by
    rw [Int32.toNatClampNeg, Int32.toInt_ofNat_of_lt (by omega), Int.toNat_natCast]
  have read := readBytes_put_self c.cCache ⟨0, text ++ [0]⟩
  rw [written, CacheLengths.AdCache.print]
  dsimp only
  rw [whole, if_pos (by omega), length]
  exact (readBytes_append_iff.mp read).1

theorem answer_written (clean : 0 ∉ page) (some' : page ≠ []) (short : page.length ≤ 8082)
    (ctCacheOut : CacheLengths.AdCache) :
    written (getRedirect 302 page ctCacheOut) = answer page := by
  have head : CacheLengths.statusLine 302 ++ CacheLengths.contentType none ++
      CacheLengths.contentLength 0 ++ ascii "Location: " =
        ascii "HTTP/1.1 302 Move temporarily\r\nContent-Type: text/plain\r\n" ++
          ascii "Content-Length: 0\r\nLocation: " := by
    decide +kernel
  have foot : ascii "\r\n" ++ CacheLengths.connectionClose =
      ascii "\r\nConnection: close\r\n\r\n" := by
    decide +kernel
  have text : (CacheLengths.HttpCall.getRedirect 302 page).text = some (answer page) := by
    rw [CacheLengths.HttpCall.text, if_neg some', head, cStr_eq_self clean, List.append_assoc _ _
      CacheLengths.connectionClose, foot, answer]
  have room : (answer page).length < PacketReassembly.adCacheMax := by
    have max : PacketReassembly.adCacheMax = 8192 := rfl
    have frame : (ascii "HTTP/1.1 302 Move temporarily\r\nContent-Type: text/plain\r\n" ++
        ascii "Content-Length: 0\r\nLocation: ").length +
          (ascii "\r\nConnection: close\r\n\r\n").length = 109 := by
      decide +kernel
    rw [answer, List.length_append, List.length_append]
    omega
  rw [getRedirect, text]
  exact written_print room ctCacheOut

/-- What a bidder writes behind the macro. -/
def escaped (page : Bytes) : Bytes := adxUrlEncode (adxUrlEncode page []) []

/-- What stands in the markup that is sent. -/
def link (sTagId : Bytes) (iMid : Int32) (page : Bytes) : Bytes :=
  adxUrlEncode (clickUrl sTagId iMid) [] ++ escaped page

theorem escaped_eq (page : Bytes) : escaped page = encode (encode page) := by
  rw [escaped, adxUrlEncode, adxUrlEncode, List.nil_append, List.nil_append]

theorem link_eq (sTagId : Bytes) (iMid : Int32) (page : Bytes) :
    link sTagId iMid page = encode (clickUrl sTagId iMid ++ encode page) := by
  have joined (a b : Bytes) : encode (a ++ b) = encode a ++ encode b := List.flatMap_append
  rw [link, escaped_eq, adxUrlEncode, List.nil_append, joined]

/-- Where a click on the link leads. -/
theorem decode_link (y : Nat → UInt8) (tag : Tag sTagId)
    (room : (clickText sTagId iMid).length ≤ 511) :
    adxUrlDecode y (link sTagId iMid page) [] = host ++ clickPath sTagId iMid page := by
  have uncut : clickUrl sTagId iMid = clickText sTagId iMid := List.take_of_length_le room
  rw [link_eq, uncut, clickText_page tag, adxUrlDecode, List.nil_append, decodeFrom_encode]

/-- **Clicks come back.** The macro in front of the escaped page of a bidder is replaced, and
nothing else is. A click on the link is counted for the medium and the slot of the request, and
answered with the page. -/
theorem click_returns (status : AdAdxTaskStatus) (ctCacheOut : CacheLengths.AdCache)
    (y y' : Nat → UInt8) (cPrice path : Bytes) (tag : Tag sTagId)
    (room : (clickText sTagId iMid).length ≤ 511) (some' : page ≠ []) (clean : 0 ∉ page)
    (short : page.length ≤ 8082)
    (apart : ¬ sign <:+: front) (apart' : ¬ sign <:+: back)
    (address : adxUrlDecode y (link sTagId iMid page) [] = host ++ path)
    (request : cache.bytes = ascii "GET " ++ path ++ ascii " HTTP/1.1" ++ tail)
    (ends : (emptyLine (cStr tail)).isSome) :
    sendMarkup cPrice (front ++ (clickMacro ++ (escaped page ++ back))) sTagId iMid =
        some (front ++ (link sTagId iMid page ++ back)) ∧
      ∃ out, redirectLandingPage y' (parse {} cache).http status ctCacheOut =
        some ⟨status.statusAddClick iMid sTagId, false, out⟩ ∧ written out = answer page := by
  constructor
  · have behind : ¬ sign <:+: escaped page ++ back := by
      rw [escaped_eq]
      exact encode_apart apart'
    rw [sendMarkup_link cPrice apart behind, link, adxUrlEncode, List.nil_append,
      List.append_assoc]
  · rw [decode_link y tag room] at address
    rw [← List.append_cancel_left address] at request
    rw [redirect_click tag request ends y' status ctCacheOut, decide_eq_false some']
    exact ⟨_, rfl, answer_written clean some' short ctCacheOut⟩

/-- A page with escapes in its address. -/
def slotPage : Bytes := ascii "a.com/?q"

def slotPath : Bytes := ascii "/click?pid=slot7&mid=-3&cu=a.com%2F%3Fq"

def slotClick : AdCache where
  bytes := ascii "GET " ++ slotPath ++ ascii " HTTP/1.1" ++ ascii "\r\nHost: b\r\n\r\n"
  fits := by decide +kernel

theorem slot_returns :
    sendMarkup (ascii "00") (ascii "<a href='" ++ (clickMacro ++ (escaped slotPage ++ ascii "'>")))
        (ascii "slot7") (-3) =
      some (ascii "<a href='" ++ (link (ascii "slot7") (-3) slotPage ++ ascii "'>")) ∧
    ∃ out, redirectLandingPage (fun _ => 0) (parse {} slotClick).http { lastTime := ⟨0, 0⟩ }
        ⟨fun _ => 0, 0⟩ = some
      ⟨AdAdxTaskStatus.statusAddClick { lastTime := ⟨0, 0⟩ } (-3) (ascii "slot7"), false, out⟩ ∧
      written out = answer slotPage := by
  have tag : Tag (ascii "slot7") := by
    unfold Tag
    decide +kernel
  exact click_returns { lastTime := ⟨0, 0⟩ } ⟨fun _ => 0, 0⟩ (fun _ => 0) (fun _ => 0)
    (ascii "00") slotPath tag (by decide +kernel) (by decide +kernel) (by decide +kernel)
    (by decide +kernel) (by decide +kernel) (by decide +kernel)
    (by decide +kernel) rfl (by decide +kernel)

end ClickRedirects
