import Cpcf.Inet.ChunkedBody

/-!
`WaitResponse` on a response whose bytes come in any receives.

The header and the body stand in the buffer one behind the other at the end, whichever of the two ways the length of the
body is announced in.
-/

namespace Cpcf.Inet

open Cpcf.Lib.Search Cpcf.Rt RecvPool

/-- It is the response with this header and this body. -/
structure Response.Answers (h : ResponseHead) (body : Text) (r : Response) : Prop where
  header : r.getResponseHeader = h.bytes
  parsed : parseHeader (joinLines h.lines) = some r.header
  response : r.getResponse = body
  length : r.getResponseLength = body.length

variable {left body rest digits : Text} {h : ResponseHead} {cs : List Chunk} {b : RecvPool} {stream : List Text}
  {header : ResponseHeader}

theorem answers_of (hcells : b.cells.take b.parsed = h.bytes ++ body) (hp : b.parsed = (h.bytes ++ body).length)
    (hparsed : parseHeader (joinLines h.lines) = some header) :
    Response.Answers h body ⟨b, h.bytes.length, header⟩ := by
  have hlen : b.parsed = h.bytes.length + body.length := by rw [hp, List.length_append]
  refine ⟨?_, hparsed, ?_, ?_⟩
  · have := congrArg (List.take h.bytes.length) hcells
    rwa [List.take_take, min_eq_left (by omega), List.take_left] at this
  · have := congrArg (List.drop h.bytes.length) hcells
    rwa [List.drop_take, List.drop_left] at this
  · show b.parsed - h.bytes.length = body.length
    omega

/-- If a line end is seen in the buffer when the header is cut off as well, then it was received. -/
def LineSeen (left : Text) (stream : List Text) (h : ResponseHead) : Prop :=
  left.length + (h.bytes.length + 2) ≤ (seen left stream).length →
    ∀ i ∈ strstr ((shifted left stream).drop h.bytes.length) CRLF,
      left.length + (h.bytes.length + i + 2) ≤ (seen left stream).length

/-- Behind the header, what is done is to receive the body. -/
theorem waitResponse_eq {content : Text} (hstream : stream.flatten = left ++ (h.bytes ++ content)) (hreceived : [] ∉ stream)
    (h0 : 0 ∉ left) (hhttp : ¬ ascii "HTTP/" <:+: left) (hend : HeadSeen left stream h)
    (b : RecvPool) : ∃ b₂ s₂, Feeds (h.bytes ++ content) b₂ s₂ ∧ b₂.parsed = h.bytes.length ∧
      (LineSeen left stream h → FoundInside CRLF b₂) ∧
      waitResponse stream b = (parseHeader (joinLines h.lines)).bind fun header =>
        (waitBody header h.bytes.length s₂ b₂).map (finish header h.bytes.length) := by
  obtain ⟨b₁, s₁, b₂, s₂, hrecv, hr, hf, hp, htake, hcase⟩ := recvUntil_end hstream hreceived h0 hhttp hend b
  have hlen := h.length_bytes
  have hgt := h.length_bytes_gt
  refine ⟨b₂, s₂, hf, hp, ?_, ?_⟩
  · intro hline
    rcases hcase with ⟨ht, -⟩ | ⟨hdata, u, hu⟩
    · exact foundInside_of_terminated (by decide) ht
    · intro hused i hi
      have h2 : CRLF.length = 2 := rfl
      have hcells : b₂.cells = shifted left stream ++ 0 :: u := by simp [cells, hdata, hu, shifted]
      have hu' : b₂.used = (seen left stream).length - left.length := by rw [used, hdata, List.length_drop]
      have hshift : h.bytes.length ≤ (shifted left stream).length := by
        unfold shifted
        rw [List.length_append, List.length_drop]
        omega
      rw [hcells, hp, List.drop_append_of_le_length hshift, strstr, cstr_append_zero_cons] at hi
      have := hline (by omega) i hi
      omega
  · have hcut : cstr (b₂.cells.take (h.bytes.length - 4 + 2)) = joinLines h.lines := by
      have hcut' := congrArg (List.take (h.bytes.length - 4 + 2)) htake
      rw [List.take_take, min_eq_left (by omega)] at hcut'
      rw [hcut', show h.bytes.length - 4 + 2 = (joinLines h.lines).length by omega, ResponseHead.bytes, List.take_left,
        cstr_of_notMem]
      exact notMem_joinLines (by decide) fun l hl => (h.isLine_of_mem l hl).2.1
    unfold waitResponse
    simp only [hrecv, hr, hcut, Option.bind_eq_bind, Option.bind_some]
    rw [show h.bytes.length - 4 + 4 = h.bytes.length by omega]

theorem length_le_flatMap (cs : List Chunk) : cs.length ≤ (cs.flatMap Chunk.bytes).length := by
  induction cs with
  | nil => simp
  | cons c cs ih =>
    have hpos := List.length_pos_iff.mpr c.payload_ne
    rw [List.flatMap_cons, List.length_append, List.length_cons]
    simp only [Chunk.bytes, List.length_append]
    omega

/-- **A body in chunks.** -/
theorem waitResponse_chunked
    (hstream : stream.flatten = left ++ (h.bytes ++ (cs.flatMap Chunk.bytes ++ (lastChunk ++ rest)))) (hreceived : [] ∉ stream)
    (h0 : 0 ∉ left) (hhttp : ¬ ascii "HTTP/" <:+: left) (hend : HeadSeen left stream h) (hline : LineSeen left stream h)
    (hchunked : h.Chunked) (hsize : (h.bytes ++ (cs.flatMap Chunk.bytes ++ (lastChunk ++ rest))).length < 2 ^ 31)
    (b : RecvPool) : ∃ r stream', waitResponse stream b = some (some (r, stream')) ∧ r.Answers h (payloads cs) ∧
      stream'.flatten <:+ rest := by
  have hparsed : parseHeader (joinLines h.lines) = some (h.parsed 1 true) := by
    rw [h.parseHeader_eq, parseContentLength_none hchunked.2.2, parseChunkedTransfer_chunked hchunked]
    rfl
  obtain ⟨b₂, s₂, hf, hp, hin, hwait⟩ := waitResponse_eq hstream hreceived h0 hhttp hend b
  have hfuel : cs.length < (b₂.data ++ s₂.flatten).length + 1 := by
    have := length_le_flatMap cs
    rw [hf.bytes]
    simp only [List.length_append]
    omega
  obtain ⟨b', stream', hr, hpre, hp', hsuf, -⟩ := recvChunks_eq hf hp (hin hline) hsize hfuel
  refine ⟨⟨b', h.bytes.length, h.parsed 1 true⟩, stream', ?_, answers_of ?_ hp' hparsed, hsuf⟩
  · have hbody : waitBody (h.parsed 1 true) h.bytes.length s₂ b₂ = some (true, b', stream') := by
      rw [← hr]
      exact if_pos rfl
    rw [hwait, hparsed, Option.bind_some, hbody]
    rfl
  · obtain ⟨t, ht⟩ := hpre
    rw [cells, ← ht, hp', List.append_assoc, List.take_left]

/-- **A body of a length that is announced.** -/
theorem waitResponse_contentLength (hstream : stream.flatten = left ++ (h.bytes ++ body)) (hreceived : [] ∉ stream)
    (h0 : 0 ∉ left) (hhttp : ¬ ascii "HTTP/" <:+: left) (hend : HeadSeen left stream h)
    (hlength : h.ContentLength digits) (hdigits : digits.length ≤ 19) (hbody : digitsValue 0 digits = body.length)
    (hsize : (h.bytes ++ body).length < 2 ^ 32) (b : RecvPool) :
    ∃ r, waitResponse stream b = some (some (r, [])) ∧ r.Answers h body := by
  rw [List.length_append] at hsize
  have hparsed : parseHeader (joinLines h.lines) = some (h.parsed body.length false) := by
    rw [h.parseHeader_eq, parseContentLength_eq hlength hdigits (by omega), parseChunkedTransfer_none hlength.2.2.2, hbody]
    rfl
  obtain ⟨b₂, s₂, hf, hp, -, hwait⟩ := waitResponse_eq hstream hreceived h0 hhttp hend b
  have hmod : (h.bytes.length + body.length) % 2 ^ 32 = (h.bytes ++ body).length := by
    rw [List.length_append]
    omega
  obtain ⟨b', stream', hr, hf', -, hp', hle⟩ := recvUpTo_eq hf le_rfl
  -- all of it has been received
  have hdata : b'.data = h.bytes ++ body := hf'.received_data.eq_of_length_le hle
  have hnil : stream' = [] := by
    have hflat := hf'.bytes
    rw [hdata] at hflat
    have hempty := List.append_right_eq_self.mp hflat
    cases stream' with
    | nil => rfl
    | cons bytes s =>
      exact absurd (List.append_eq_nil_iff.mp hempty).1 hf'.ne_nil
  subst hnil
  have hwrite : b'.write (h.bytes ++ body).length 0 = { b' with behind := b'.behind.set 0 0 } := by
    have hused : b'.used = (h.bytes ++ body).length := by rw [used, hdata]
    unfold RecvPool.write
    rw [if_neg (by omega), hused, Nat.sub_self]
  refine ⟨⟨{ b' with behind := b'.behind.set 0 0 }, h.bytes.length, h.parsed body.length false⟩, ?_, answers_of ?_ hp' hparsed⟩
  · have hbody' : waitBody (h.parsed body.length false) h.bytes.length s₂ b₂ =
        some (true, { b' with behind := b'.behind.set 0 0 }, []) := by
      have hknown : (h.parsed body.length false).contentLength ≠ 0xffffffff := by
        have hlen := h.length_bytes_gt
        show body.length ≠ 0xffffffff
        omega
      unfold waitBody
      rw [if_neg (show ¬ (h.parsed body.length false).chunkedTransfer = true from Bool.false_ne_true), if_pos hknown]
      simp only [show (h.parsed body.length false).contentLength = body.length from rfl, hmod, hr, hwrite, if_true]
    rw [hwait, hparsed, Option.bind_some, hbody']
    rfl
  · rw [cells, hp', hdata, List.take_left]

/-! ### The first response on a connection -/

theorem heard_of_stream (n : ℕ) (D : Text) (stream : List Text) : heard n D stream <+: D ++ stream.flatten := by
  induction stream generalizing D with
  | nil => simp [heard]
  | cons bytes stream ih =>
    rcases Nat.lt_or_ge D.length n with hlt | hge
    · rw [heard_cons hlt, List.flatten_cons, ← List.append_assoc]
      exact ih (D ++ bytes)
    · rw [heard_of_le hge]
      exact List.prefix_append _ _

theorem seen_of_stream (left : Text) (stream : List Text) : seen left stream <+: stream.flatten :=
  heard_of_stream (left.length + 5) [] stream

theorem shifted_nil (stream : List Text) : shifted [] stream = seen [] stream := by simp [shifted]

/-- Where nothing was cut off, all that is seen was received. -/
theorem headSeen_nil {content : Text} (hstream : stream.flatten = h.bytes ++ content) : HeadSeen [] stream h := by
  intro _ i hi
  rw [shifted_nil] at hi ⊢
  have hpre := seen_of_stream [] stream
  rw [hstream] at hpre
  obtain ⟨t, ht⟩ : cstr ((seen [] stream).drop 5) <+: (h.bytes ++ content).drop 5 :=
    (List.takeWhile_prefix _).trans (hpre.drop 5)
  have hfind := h.find_end content
  rw [← ht, find_append_of_some hi] at hfind
  have hlen := h.length_bytes_gt
  have hle := length_le_of_strstr hi (by decide)
  have hle' := (List.takeWhile_prefix (· ≠ 0) (l := (seen [] stream).drop 5)).length_le
  rw [List.length_drop] at hle'
  have hi9 : i + 9 = h.bytes.length := by
    have := Option.some.inj hfind
    omega
  have hseen : i + 9 ≤ (seen [] stream).length := by
    unfold cstr at hle
    simp only [List.length_append, show CRLF.length = 2 from rfl] at hle
    omega
  obtain ⟨u, hu⟩ := hpre
  have := congrArg (List.take (i + 9)) hu
  rw [List.take_append_of_le_length hseen, hi9, List.take_left] at this
  rw [hi9, this]

theorem lineSeen_nil : LineSeen [] stream h := by
  intro _ i hi
  rw [shifted_nil] at hi
  have hle := length_le_of_strstr hi (by decide)
  have hle' := (List.takeWhile_prefix (· ≠ 0) (l := (seen [] stream).drop h.bytes.length)).length_le
  rw [List.length_drop] at hle'
  unfold cstr at hle
  simp only [show CRLF.length = 2 from rfl] at hle
  rw [List.length_nil]
  omega

/-- **Chunks are put together however they arrive.** -/
theorem waitResponse_chunks (h : ResponseHead) (hchunked : h.Chunked) (cs : List Chunk) (stream : List Text)
    (hstream : stream.flatten = h.bytes ++ (cs.flatMap Chunk.bytes ++ (lastChunk ++ CRLF))) (hreceived : [] ∉ stream)
    (hsize : stream.flatten.length < 2 ^ 31) (b : RecvPool) :
    ∃ r stream', waitResponse stream b = some (some (r, stream')) ∧ r.getResponse = payloads cs ∧
      r.getResponseLength = (payloads cs).length := by
  have hleft : stream.flatten = [] ++ (h.bytes ++ (cs.flatMap Chunk.bytes ++ (lastChunk ++ CRLF))) := hstream
  rw [hstream] at hsize
  obtain ⟨r, stream', hr, hanswers, -⟩ := waitResponse_chunked hleft hreceived (by simp) (by decide)
    (headSeen_nil hstream) lineSeen_nil hchunked hsize b
  exact ⟨r, stream', hr, hanswers.response, hanswers.length⟩

/-- A response of two chunks, received byte by byte. -/
def twoChunks : List Chunk :=
  [⟨ascii "6", [], ascii "Hello ", by decide +kernel, by decide +kernel, by decide +kernel, by decide⟩,
    ⟨ascii "C", [], ascii "chunk\r\nworld", by decide +kernel, by decide +kernel, by decide +kernel, by decide⟩]

theorem waitResponse_chunks_twoChunks : ∃ r stream', waitResponse
      (((okHead [⟨ascii "Transfer-Encoding", ascii " Chunked"⟩] (by decide +kernel)).bytes ++
        (twoChunks.flatMap Chunk.bytes ++ (lastChunk ++ CRLF))).map fun b => [b]) ⟨[], [], 0⟩ = some (some (r, stream')) ∧
    r.getResponse = payloads twoChunks ∧ r.getResponseLength = (payloads twoChunks).length := by
  refine waitResponse_chunks (okHead [⟨ascii "Transfer-Encoding", ascii " Chunked"⟩] (by decide +kernel)) ?_ twoChunks _ ?_ ?_ ?_ _
  · refine ⟨⟨_, List.mem_cons_self, by decide⟩, ?_, by decide⟩
    intro f hf _
    rw [List.mem_singleton.mp hf]
    exact ⟨ascii "Chunked", ⟨[0x20], [], by decide, by decide +kernel, by decide +kernel⟩, by decide +kernel⟩
  · decide
  · decide
  · decide

end Cpcf.Inet
