import RtbAdapter.CText

/-!
# Requests and responses of HTTP

The parser cuts the head of a message into words by writing terminators over their delimiters.
A cursor holds what is left of the head, where it stands, and where terminators were written.
-/

namespace HttpParser

open ByteWords CText

/-- The received bytes, which a read may leave up to the end of the array. A terminator is taken to
follow them. -/
structure AdCache where
  bytes : Bytes
  fits : bytes.length ≤ 8192

/-- What snprintf and Set leave. A longer text is cut, but its whole length is set. -/
def printed (text : Bytes) : Option AdCache :=
  if fits : text.length ≤ 8191 then some ⟨text, Nat.le_succ_of_le fits⟩ else none

def adFailure : Int := -1

def mMethodToInt : List (Bytes × Int) :=
  [(ascii "GET", 1), (ascii "POST", 2), (ascii "HEAD", 3), (ascii "CONNECT", 4), (ascii "PUT", 5),
    (ascii "DELETE", 6), (ascii "OPTIONS", 7), (ascii "PROPFIND", 8)]

def mMethodToStr (iMethod : Int) : Bytes :=
  ((mMethodToInt.find? fun entry => entry.2 = iMethod).map Prod.fst).getD []

def mResponse : List (Int × Bytes) :=
  [(200, ascii "Ok"), (204, ascii "No Content"), (301, ascii "Moved Permanently"),
    (302, ascii "Move temporarily"), (400, ascii "Bad Request"), (401, ascii "Unauthorized"),
    (404, ascii "Not Found"), (408, ascii "Request Timeout"),
    (413, ascii " Request Entity Too Large")]

def reason (iStatus : Int) : Bytes := (mResponse.lookup iStatus).getD []

def crlf : Bytes := [13, 10]

structure Cursor where
  rest : Bytes
  pos : Nat
  writes : List Int

/-- `quotechar` is 0 in all calls, which ends no word. -/
def skipQuoted (delimiters whitespace : Bytes) (buf : Cursor) : Bytes × Cursor :=
  let word := buf.rest.takeWhile (· ∉ delimiters)
  match buf.rest.dropWhile (· ∉ delimiters) with
  | [] => (word, { buf with rest := [], pos := buf.pos + word.length })
  | _ :: more =>
    let blanks := (more.takeWhile (· ∈ whitespace)).length
    (word, {
      rest := more.dropWhile (· ∈ whitespace)
      pos := buf.pos + word.length + 1 + blanks
      writes := buf.writes ++
        (List.range (1 + blanks)).map fun k => ((buf.pos + word.length + k : Nat) : Int) })

/-- A header map. The last entry that was set is in front. -/
abbrev Attrs := List (Bytes × Bytes)

/-- The loop over the header lines. A name ends at a colon, a value at the end of the line. -/
def headers (iLen : Int) : Nat → Cursor → Attrs → Attrs × Cursor
  | 0, cBuff, attrs => (attrs, cBuff)
  | fuel + 1, cBuff, attrs =>
    if -(cBuff.pos : Int) < iLen then
      let (name, cBuff) := skipQuoted [58] [32] cBuff
      if name = [] then (attrs, cBuff)
      else
        let (value, cBuff) := skipQuoted crlf crlf cBuff
        headers iLen fuel cBuff ((name, value) :: attrs)
    else (attrs, cBuff)

/-- Where the first empty line starts. -/
def emptyLine : Bytes → Option Nat
  | [] => none
  | b :: rest =>
    if (crlf ++ crlf).isPrefixOf (b :: rest) then some 0 else (emptyLine rest).map (· + 1)

structure AdHttp where
  sMethod : Bytes := []
  iMethod : Int := adFailure
  iHeadLen : Int := adFailure
  iBodyLen : Int := adFailure
  pBody : Option Nat := none
  sUri : Bytes := []
  mParas : Attrs := []
  sHttpVersion : Bytes := []
  mAttrs : Attrs := []
  sStatus : Bytes := []
  iResState : Int := adFailure
  iResHeadLen : Int := adFailure
  iResBodyLen : Int := adFailure
  pResBody : Option Nat := none
  mResAttrs : Attrs := []

/-- A body is an offset into the cache. -/
def getBody (cache : AdCache) : Option Nat := (emptyLine (cStr cache.bytes)).map (· + 4)

/-- The body that the object points at. -/
def AdHttp.getBody (http : AdHttp) (bRes : Bool) : Option Nat :=
  if bRes then http.pResBody else http.pBody

def getLen (http : AdHttp) (bRes : Bool) : Int :=
  match (if bRes then http.mAttrs else http.mResAttrs).lookup (ascii "Content-Length") with
  | none => adFailure
  | some value => atoi (cStr value)

def getUri (http : AdHttp) (iMethod : Int) : Option Bytes :=
  if iMethod < 0 ∨ http.iMethod = iMethod then some http.sUri else none

def getHeader (http : AdHttp) (pHeader : Bytes) : Option Bytes := http.mAttrs.lookup pHeader

/-- The answer to a request that cannot be served, for a status with a body. -/
def error (iStatus : Int) (cExt : Bytes) : Bytes :=
  let cBody := snprintf 2048 (ascii "Error " ++ decimal iStatus ++ ascii ": " ++ reason iStatus) ++
    ascii "\n"
  snprintf 4096 (ascii "HTTP/1.1 " ++ decimal iStatus ++ ascii " " ++ reason iStatus ++ crlf ++
    ascii "Content-Type: text/plain" ++ crlf ++
    ascii "Content-Length: " ++ decimal (cBody.length + cExt.length) ++ crlf ++
    ascii "Connection: close" ++ crlf ++ crlf ++ cBody ++ snprintf (2048 - cBody.length) cExt)

/-- The pairs of a query. -/
def paraPairs : Nat → Bytes → Attrs → Attrs
  | 0, _, paras => paras
  | fuel + 1, sStr, paras =>
    match sStr.dropWhile (· ≠ 61) with
    | [] => paras
    | _ :: value =>
      let name := sStr.takeWhile (· ≠ 61)
      match value.dropWhile (· ≠ 38) with
      | [] => (name, value) :: paras
      | _ :: next => paraPairs fuel next ((name, value.takeWhile (· ≠ 38)) :: paras)

def parsePara (sStr : Bytes) (paras : Attrs) : Attrs :=
  paraPairs (sStr.length + 1) (sStr.dropWhile (· = 61)) paras

/-- A terminator is written at a place that may be outside. -/
def writeNul (bytes : Bytes) (place : Int) : Bytes :=
  if 0 ≤ place then bytes.set place.toNat 0 else bytes

/-- The string in the cache after the head was cut. -/
def terminated (cache : AdCache) (place : Int) : Bytes := cStr (writeNul cache.bytes place)

/-- The start of the head behind white space, with the first write noted. -/
def start (cache : AdCache) (place : Int) : Cursor where
  rest := (terminated cache place).dropWhile isSpace
  pos := ((terminated cache place).takeWhile isSpace).length
  writes := [place]

/-- The check of the code, which no text fails. -/
def badUri (sUri : Bytes) : Bool :=
  sUri.headD 0 ≠ 47 && sUri.headD 0 ≠ 42 && (sUri.headD 0 = 42 && (sUri.drop 1).headD 0 ≠ 0)

/-- The object after the call, what is returned, and where terminators were written. -/
structure Parsed where
  http : AdHttp
  code : Int
  writes : List Int

/-- The cache after the call. -/
def Parsed.bytes (parsed : Parsed) (cache : AdCache) : Bytes :=
  parsed.writes.foldl writeNul cache.bytes

/-- The words of the request line: the method, the address and the cursor behind them. -/
structure RequestLine where
  sMethod : Bytes
  sUri : Bytes
  after : Cursor

def requestLine (cache : AdCache) (iHeadLen : Int) : RequestLine :=
  let method := skipQuoted [32] [32] (start cache (iHeadLen - 1))
  let uri := skipQuoted [32] [32] method.2
  ⟨method.1, uri.1, uri.2⟩

/-- The head length that a call works with: without an empty line the one from before. -/
def headLen (cache : AdCache) (before : Int) : Int :=
  match getBody cache with
  | some body => body
  | none => before

/-- The version and the header lines behind the address. -/
def version (cache : AdCache) (iHeadLen : Int) : Bytes × Cursor :=
  skipQuoted crlf crlf (requestLine cache iHeadLen).after

def requestAttrs (cache : AdCache) (iHeadLen : Int) (attrs : Attrs) : Attrs × Cursor :=
  let cBuff := (version cache iHeadLen).2
  headers cache.bytes.length (cBuff.rest.length + 1) cBuff attrs

/-- A query is taken off the address. -/
def withQuery (http : AdHttp) : AdHttp :=
  match strSplit http.sUri (ascii "?") with
  | [uri, paras] => { http with sUri := uri, mParas := parsePara paras http.mParas }
  | _ => http

@[simp] theorem withQuery_iMethod (http : AdHttp) : (withQuery http).iMethod = http.iMethod := by
  rw [withQuery]
  split <;> rfl

@[simp] theorem withQuery_iHeadLen (http : AdHttp) :
    (withQuery http).iHeadLen = http.iHeadLen := by
  rw [withQuery]
  split <;> rfl

@[simp] theorem withQuery_mAttrs (http : AdHttp) : (withQuery http).mAttrs = http.mAttrs := by
  rw [withQuery]
  split <;> rfl

@[simp] theorem withQuery_mResAttrs (http : AdHttp) :
    (withQuery http).mResAttrs = http.mResAttrs := by
  rw [withQuery]
  split <;> rfl

def refused (http : AdHttp) (iStatus : Int) (cExt : Bytes) (writes : List Int) : Parsed :=
  ⟨{ http with sStatus := error iStatus cExt }, adFailure, writes⟩

/-- The rest of the call for a known method. -/
def parseHeaders (http : AdHttp) (cache : AdCache) : Parsed :=
  let attrs := requestAttrs cache http.iHeadLen http.mAttrs
  let http := { http with mAttrs := attrs.1 }
  let http := { http with iBodyLen := getLen http false }
  if toInt32 (http.iHeadLen + http.iBodyLen) > cache.bytes.length then
    refused http 413 [] attrs.2.writes
  else ⟨http, http.iMethod, attrs.2.writes⟩

def parse (http : AdHttp) (cache : AdCache) : Parsed :=
  let iHeadLen := headLen cache http.iHeadLen
  let line := requestLine cache iHeadLen
  let http :=
    { http with pBody := getBody cache, iHeadLen, sMethod := line.sMethod, sUri := line.sUri }
  let seen := ascii "Cannot parse HTTP request: [" ++
    (terminated cache (iHeadLen - 1)).takeWhile isSpace ++ line.sMethod ++ ascii "]"
  if badUri line.sUri then
    refused http 400 (snprintf 4096 (seen ++ ascii "\n")) line.after.writes
  else
    let http := { http with sHttpVersion := (version cache iHeadLen).1 }
    match mMethodToInt.lookup line.sMethod with
    | none => refused http 400 (snprintf 4096 seen) (version cache iHeadLen).2.writes
    | some iMethod => parseHeaders (withQuery { http with iMethod }) cache

/-- The words of the status line: the status and the cursor behind the line. -/
def statusLine (cache : AdCache) (iResHeadLen : Int) : Bytes × Cursor :=
  let first := skipQuoted [32] [32] (start cache (iResHeadLen - 1))
  let state := skipQuoted [32] [32] first.2
  (state.1, (skipQuoted crlf crlf state.2).2)

def responseAttrs (cache : AdCache) (iResHeadLen : Int) (attrs : Attrs) : Attrs × Cursor :=
  let cBuff := (statusLine cache iResHeadLen).2
  headers cache.bytes.length (cBuff.rest.length + 1) cBuff attrs

def parseResponse (http : AdHttp) (cache : AdCache) : Parsed :=
  let iResHeadLen := headLen cache cache.bytes.length
  let line := statusLine cache iResHeadLen
  let http := { http with pResBody := getBody cache, iResHeadLen, iResState := atoi line.1 }
  match mResponse.lookup http.iResState with
  | none => ⟨http, adFailure, line.2.writes⟩
  | some _ =>
    let attrs := responseAttrs cache iResHeadLen http.mResAttrs
    let http := { http with mResAttrs := attrs.1 }
    let http := { http with iResBodyLen := getLen http false }
    if toInt32 (iResHeadLen + http.iResBodyLen) > cache.bytes.length then
      ⟨http, adFailure, attrs.2.writes⟩
    else ⟨http, http.iResState, attrs.2.writes⟩

def requestText (iMethod : Int) (pUri : Option Bytes) (pBody : Bytes) (iBodyLen : Int) : Bytes :=
  match pUri with
  | some uri => mMethodToStr iMethod ++ ascii " " ++ cStr uri ++ ascii " HTTP/1.1" ++ crlf ++
      ascii "Content-Type: application/Json" ++ crlf ++
      ascii "Content-Length: " ++ decimal iBodyLen ++ crlf ++
      ascii "Connection: close" ++ crlf ++ crlf ++ cStr pBody
  | none => mMethodToStr iMethod ++ ascii "  / HTTP/1.1" ++ crlf ++
      ascii "Content-Type:application/Json" ++ crlf ++
      ascii "Content-Length: " ++ decimal iBodyLen ++ crlf ++
      ascii "Connection: close" ++ crlf ++ crlf ++ cStr pBody

def getRequest (iMethod : Int) (pUri : Option Bytes) (pBody : Bytes) (iBodyLen : Int) :
    Option AdCache := printed (requestText iMethod pUri pBody iBodyLen)

def responseText (iStatus : Int) (pType : Option Bytes) (pBody : Bytes) (iBodyLen : Int) : Bytes :=
  ascii "HTTP/1.1 " ++ decimal iStatus ++ ascii " " ++ reason iStatus ++ crlf ++
    ascii "Content-Type: " ++ cStr (pType.getD (ascii "text/plain")) ++ crlf ++
    ascii "Content-Length: " ++ decimal iBodyLen ++ crlf ++
    ascii "Connection: close" ++ crlf ++ crlf ++ cStr pBody

def getResponse (iStatus : Int) (pType : Option Bytes) (pBody : Bytes) (iBodyLen : Int) :
    Option AdCache := printed (responseText iStatus pType pBody iBodyLen)

end HttpParser
