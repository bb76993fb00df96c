import Cpcf.Inet.CString

/-!
`TinyHttpd::_Response::OnDataRecv`: a request is put together from what the socket gives.

The end of the header is looked for only around what is new, and between two calls nothing is kept but the buffer and
two counters. The request line is cut at the first `HTTP/1.`, so a target that has this text in it is refused.
-/

namespace Cpcf.Inet

open Cpcf.Lib.Search Cpcf.Rt

/-! ### The code -/

def HTTP_REQUEST_SIZEMAX : ℕ := 100 * 1024 * 1024

inductive Verb
  | GET
  | POST
  deriving DecidableEq

/-- The four bytes of the verb, `HTTP_GET` and `HTTP_POST`. -/
def Verb.tag : Verb → Text
  | .GET => ascii "GET "
  | .POST => ascii "POST"

/-- What the members for a request are when it is complete. -/
@[ext]
structure Request where
  HttpVerb : Verb
  URI : Text
  Query : Text
  RemainHeader : Text
  Body : Text
  deriving DecidableEq

/-- What `OnDataRecv` returns. `crash` is a `strchr` that finds nothing where its result is used. -/
inductive Received
  | HTTP_OK (r : Request)
  | HTTP_FALSE
  | HTTP_FAIL
  | HTTP_OUTOFMEMORY
  | HTTP_INVALIDARG
  | crash
  deriving DecidableEq

/-- `_RecvBuf` as far as it is used, `_RecvBufUsedExpected`, `_RequestHeaderSize` and `HttpVerb`. -/
structure RecvBuf where
  buf : Text
  expected : ℕ
  headerSize : ℕ
  HttpVerb : Verb
  deriving DecidableEq

/-- The value of a digit in `_ConvertToUTF8`, whatever the character is. -/
def hexDigit (c : UInt8) : UInt8 := if schar c ≤ 0x39 then c - 0x30 else c - 0x41 + 10

/-- `_ConvertToUTF8`. Behind the text there are a terminator and the `H` of the version, which a `%` at the end reads. -/
def convertToUTF8 : Text → Text
  | [] => []
  | c :: s =>
    if c ≠ 0x25 then c :: convertToUTF8 s
    else
      match s with
      | [] => [hexDigit 0x48 ||| (hexDigit 0 <<< 4)]
      | [a] => [hexDigit 0 ||| (hexDigit a <<< 4)]
      | a :: b :: s => (hexDigit b ||| (hexDigit a <<< 4)) :: convertToUTF8 s

/-- The target at its first `?`: `URI` and `Query`. -/
def splitQuery (target : Text) : Text × Text :=
  match strchr target 0x3f with
  | some pQ => (target.take pQ, target.drop (pQ + 1))
  | none => (target, [])

/-- What follows `REQUEST_DATA_IS_READY`. -/
def requestDataIsReady (st : RecvBuf) : Received :=
  let hlen := st.headerSize
  if hlen ≤ 4 + 1 + 4 + 3 + 4 then .HTTP_INVALIDARG
  else
    match strchr (st.buf.drop 5) CR with
    | none => .HTTP_INVALIDARG
    | some n =>
      let tail := 5 + n
      let hdr := st.buf.set tail 0
      match strstr (hdr.drop 5) (ascii "HTTP/1.") with
      | none => .HTTP_INVALIDARG
      | some n =>
        let http := 5 + n
        if hdr[http - 1]? ≠ some 0x20 then .HTTP_INVALIDARG
        else
          match strchr (hdr.set (http - 1) 0) 0x20 with
          | none => .crash
          | some n =>
            let pURI := n + 1
            let uq := splitQuery (convertToUTF8 ((hdr.drop pURI).take (http - pURI - 1)))
            .HTTP_OK {
              HttpVerb := st.HttpVerb
              URI := uq.1
              Query := uq.2
              RemainHeader := (hdr.drop (tail + 2)).take (hlen - (tail + 2) - 2)
              Body := (hdr.drop st.headerSize).take (st.expected - st.headerSize) }

/-- The verb that the buffer begins with. -/
def verbOf (buf : Text) : Option Verb :=
  if buf.take 4 = Verb.GET.tag then some .GET else if buf.take 4 = Verb.POST.tag then some .POST else none

/-- The end of the header is at `i`: the length of the content is looked up in it. -/
def headerIsEnded (buf : Text) (i : ℕ) (verb : Verb) : RecvBuf × Received :=
  let buf := buf.set (i + 2) 0
  let headerSize := i + 4
  let noContent : RecvBuf := ⟨buf, headerSize, headerSize, verb⟩
  match strstr buf (ascii "Content-Length: ") with
  | none => (noContent, requestDataIsReady noContent)
  | some http =>
    match strchr (buf.drop http) CR with
    | none => (noContent, requestDataIsReady noContent)
    | some tail =>
      let content_length := atoi (((buf.drop http).take tail).drop 16)
      if content_length > HTTP_REQUEST_SIZEMAX then (⟨buf, 0, headerSize, verb⟩, .HTTP_OUTOFMEMORY)
      else
        let st : RecvBuf := ⟨buf, ((content_length + headerSize) % 2 ^ 32).toNat, headerSize, verb⟩
        (st, if st.expected ≤ buf.length then requestDataIsReady st else .HTTP_FALSE)

/-- `OnDataRecv` when the last `newly` bytes of the buffer are new. -/
def onDataRecv (st : RecvBuf) (newly : ℕ) : RecvBuf × Received :=
  let used := st.buf.length
  if st.expected ≠ 0 then (st, if st.expected ≤ used then requestDataIsReady st else .HTTP_FALSE)
  else if used ≤ 4 then (st, .HTTP_FALSE)
  else
    match verbOf st.buf with
    | none => (st, .HTTP_FAIL)
    | some verb =>
      let i := if newly + 3 < used then used - (newly + 3) else 0
      match find (CRLF ++ CRLF) (st.buf.drop i) with
      | some n => headerIsEnded st.buf (i + n) verb
      | none => ({ st with HttpVerb := verb }, if used < HTTP_REQUEST_SIZEMAX then .HTTP_FALSE else .HTTP_FAIL)

/-- One turn of the loop that receives: the bytes of a `Recv`, and `OnDataRecv`. -/
def recv (st : RecvBuf) (bytes : Text) : RecvBuf × Received :=
  onDataRecv { st with buf := st.buf ++ bytes } bytes.length

/-- What the calls of `OnDataRecv` return until one of them does not ask for more. -/
def receive (st : RecvBuf) : List Text → List Received
  | [] => []
  | bytes :: rest =>
    let (st, ret) := recv st bytes
    ret :: if ret = .HTTP_FALSE then receive st rest else []

/-- After `Clear`; the verb is that of the request before. -/
def cleared (v : Verb) : RecvBuf := ⟨[], 0, 0, v⟩

end Cpcf.Inet
