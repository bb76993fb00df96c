import Cpcf.Inet.ResponseHeader

/-!
`HttpSession`: how the client receives a response.

There is one buffer, which parts are cut out of in place. A part that is cut out leaves behind the used bytes what stood
there, and a search for a text stops only at the next terminator. The response is received without callbacks and
timeouts, so nothing of it is removed before it is complete.
-/

namespace Cpcf.Inet

open Cpcf.Lib.Search Cpcf.Rt

/-- `_RecvBufferPool`: the used part, and what stands behind it. `_RecvBuffer_Parsed` may lie behind the used part. -/
structure RecvPool where
  data : Text
  behind : Text
  parsed : ℕ
  deriving DecidableEq

namespace RecvPool

/-- `_RecvBuffer_Used`. -/
def used (b : RecvPool) : ℕ := b.data.length

/-- The cells of the buffer. -/
def cells (b : RecvPool) : Text := b.data ++ b.behind

/-- A receive with the terminator behind it. -/
def recv (b : RecvPool) (bytes : Text) : RecvPool :=
  { b with data := b.data ++ bytes, behind := 0 :: b.behind.drop (bytes.length + 1) }

/-- A receive without one. -/
def recvRaw (b : RecvPool) (bytes : Text) : RecvPool :=
  { b with data := b.data ++ bytes, behind := b.behind.drop bytes.length }

/-- `_RecvBuffer(i) = c`. -/
def write (b : RecvPool) (i : ℕ) (c : UInt8) : RecvPool :=
  if i < b.used then { b with data := b.data.set i c } else { b with behind := b.behind.set (i - b.used) c }

/-- `MakeLower` of the cells between two places. -/
def makeLower (b : RecvPool) (head tail : ℕ) : RecvPool :=
  let cells := b.cells.take head ++ Inet.makeLower ((b.cells.drop head).take (tail - head)) ++ b.cells.drop tail
  { b with data := cells.take b.used, behind := cells.drop b.used }

/-- `_RecvBuffer(_RecvBuffer_Used) = 0`. -/
def terminate (b : RecvPool) : RecvPool := { b with behind := 0 :: b.behind.drop 1 }

/-- `_RecvBuffer_Used -= k` and `memmove(&_RecvBuffer(p), &_RecvBuffer(p + k), _RecvBuffer_Used - p)`. Nothing where the
length would be negative. -/
def remove (b : RecvPool) (p k : ℕ) : Option RecvPool :=
  if p + k ≤ b.used then
    some { b with data := b.data.take p ++ b.data.drop (p + k), behind := b.data.drop (b.used - k) ++ b.behind }
  else none

/-- What `WaitResponse` begins with. -/
def reset (b : RecvPool) : RecvPool := ⟨[], b.cells, 0⟩

/-- One search of `_RecvUntil`. -/
def search (b : RecvPool) (end_token : Text) : Option ℕ × RecvPool :=
  if (end_token.length : ℤ) ≤ (b.used : ℤ) - b.parsed then
    match strstr (b.cells.drop b.parsed) end_token with
    | some k => (some (b.parsed + k), { b with parsed := b.parsed + k + end_token.length })
    | none => (none, { b with parsed := b.used - end_token.length + 1 })
  else (none, b)

end RecvPool

/-- `_RecvUntil`: the offset of the text, the buffer and the receives that are left. A receive of no byte is the end of
the connection, as the end of the list is. -/
def recvUntil (end_token : Text) : List Text → RecvPool → Option ℕ × RecvPool × List Text
  | stream, b =>
    match b.search end_token with
    | (some head, b) => (some head, b, stream)
    | (none, b) =>
      match stream with
      | [] => (none, b, [])
      | bytes :: stream => if bytes = [] then (none, b, stream) else recvUntil end_token stream (b.recv bytes)

/-- `_RecvUntil` with `remove_parsed`, which answers 0 if the text is found. -/
def recvUntilRemove (end_token : Text) (stream : List Text) (b : RecvPool) : Option (Bool × RecvPool × List Text) :=
  match recvUntil end_token stream b with
  | (none, b, stream) => some (false, b, stream)
  | (some head, b, stream) => (b.remove 0 head).map fun b => (true, { b with parsed := b.parsed - head }, stream)

/-- `_RecvUpTo`. -/
def recvUpTo (size_byte : ℕ) : List Text → RecvPool → Bool × RecvPool × List Text
  | stream, b =>
    if b.used < size_byte then
      match stream with
      | [] => (false, b, [])
      | bytes :: stream =>
        if bytes = [] then (false, b, stream)
        else
          let b := b.recvRaw bytes
          recvUpTo size_byte stream { b with parsed := min b.used size_byte }
    else (true, { b.terminate with parsed := size_byte }, stream)

/-- `_RecvUntilClose`. -/
def recvUntilClose : List Text → RecvPool → RecvPool × List Text
  | [], b => (b.terminate, [])
  | bytes :: stream, b =>
    if bytes = [] then (b.terminate, stream)
    else
      let b := b.recvRaw bytes
      recvUntilClose stream { b with parsed := b.used }

/-- A hexadecimal digit in lower case. -/
def hexValue (c : UInt8) : Option ℕ :=
  if 0x30 ≤ c ∧ c ≤ 0x39 then some (c.toNat - 0x30) else if 0x61 ≤ c ∧ c ≤ 0x66 then some (c.toNat - 0x61 + 10) else none

/-- The digits that a text in lower case begins with. -/
def hexDigits (s : Text) : List ℕ := (s.map hexValue).takeWhile Option.isSome |>.reduceOption

/-- `sscanf(s, "%x", &chunk_size)` for a text in lower case. -/
def scanHex (s : Text) : Option ℕ :=
  let signed := scanSign (s.dropWhile isSpace)
  let digits := hexDigits (if ascii "0x" <+: signed.2 then signed.2.drop 2 else signed.2)
  if digits = [] then none
  else
    let v : ℤ := (digits.foldl (fun x d => x * 16 + d) 0 : ℕ)
    some (toUINT (if signed.1 then -v else v))

/-- What `_RecvOneChunk` returns. -/
inductive ChunkRet
  | size (n : ℕ)
  | INFINITE
  deriving DecidableEq

/-- `_RecvOneChunk`. -/
def recvOneChunk (stream : List Text) (b : RecvPool) : Option (ChunkRet × RecvPool × List Text) :=
  let head := b.parsed
  match recvUntil CRLF stream b with
  | (none, b, stream) => some (.size 0, b, stream)
  | (some tail, b, stream) =>
    let b := (b.write tail 0).makeLower head tail
    match scanHex (cstr (b.cells.drop head)) with
    | none => some (.size 0, b, stream)
    | some 0 => some (.size 0, { b with parsed := b.parsed - 3 }, stream)
    | some chunk_size => do
      let b ← b.remove head (tail - head + 2)
      match recvUpTo ((head + chunk_size + 2) % 2 ^ 32) stream { b with parsed := head } with
      | (false, b, stream) => some (.INFINITE, b, stream)
      | (true, b, stream) =>
        let b ← b.remove (b.parsed - 2) 2
        some (.size chunk_size, { b with parsed := b.parsed - 2 }, stream)

/-- `while((ret = _RecvOneChunk()))`, for so many rounds at most: whether it ended without `INFINITE`. Each round takes
bytes away. -/
def recvChunks : ℕ → List Text → RecvPool → Option (Bool × RecvPool × List Text)
  | 0, stream, b => some (false, b, stream)
  | n + 1, stream, b => do
    match ← recvOneChunk stream b with
    | (.INFINITE, b, stream) => some (false, b, stream)
    | (.size 0, b, stream) => some (true, b, stream)
    | (.size _, b, stream) => recvChunks n stream b

/-- What a client has after `WaitResponse`. -/
structure Response where
  pool : RecvPool
  responseStart : ℕ
  header : ResponseHeader
  deriving DecidableEq

namespace Response

/-- `GetResponseLength`. -/
def getResponseLength (r : Response) : ℕ := r.pool.parsed - r.responseStart

/-- `GetResponse`, as far as `GetResponseLength` goes. -/
def getResponse (r : Response) : Text := (r.pool.cells.drop r.responseStart).take r.getResponseLength

/-- `GetResponseHeader`, as far as `GetResponseHeaderLength` goes. -/
def getResponseHeader (r : Response) : Text := r.pool.cells.take r.responseStart

end Response

/-- The body, behind a header that was parsed. -/
def waitBody (header : ResponseHeader) (start : ℕ) (stream : List Text) (b : RecvPool) :
    Option (Bool × RecvPool × List Text) :=
  if header.chunkedTransfer then recvChunks ((b.data ++ stream.flatten).length + 1) stream b
  else if header.contentLength ≠ 0xffffffff then
    let size_byte := (start + header.contentLength) % 2 ^ 32
    let r := recvUpTo size_byte stream b
    some (r.1, if r.1 then r.2.1.write size_byte 0 else r.2.1, r.2.2)
  else if !header.connectPersisent then some (true, recvUntilClose stream b)
  else some (true, b, stream)

/-- What there is when the body was received. -/
def finish (header : ResponseHeader) (start : ℕ) : Bool × RecvPool × List Text → Option (Response × List Text)
  | (false, _, _) => none
  | (true, b, stream) => some (⟨b, start, header⟩, stream)

/-- `WaitResponse`: what there is when it returns true, and the receives that are left; the inner `none` stands for
false. -/
def waitResponse (stream : List Text) (b : RecvPool) : Option (Option (Response × List Text)) := do
  match ← recvUntilRemove (ascii "HTTP/") stream b.reset with
  | (false, _, _) => some none
  | (true, b, stream) =>
    match recvUntil (CRLF ++ CRLF) stream b with
    | (none, _, _) => some none
    | (some header_len, b, stream) =>
      let header ← parseHeader (cstr (b.cells.take (header_len + 2)))
      let start := header_len + 4
      (waitBody header start stream b).map (finish header start)

end Cpcf.Inet
