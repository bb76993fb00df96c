import Cpcf.Inet.WaitResponse
import Cpcf.Lib.Run

/-!
Responses one after the other on a connection that is kept.

A response in chunks is left before its last line end, and what is left comes in front of the next response. It is cut
off by moving the response to the begin of the buffer, and then as much stands once more behind the used part. If the
bytes received so far end with a line of the header, the two line ends together are taken for the end of the header.
-/

namespace Cpcf.Inet

open Cpcf.Lib.Search Cpcf.Lib.Run Cpcf.Rt RecvPool

/-! ### Exchanges -/

/-- How the body of a response is sent. The last chunk has a zero at least, maybe more of them and an extension, and
trailers may follow it. -/
inductive Coding
  | contentLength (digits body : Text)
  | chunked (chunks : List Chunk) (zeros : ℕ) (ext : Text) (trailers : List Text)

namespace Coding

def body : Coding → Text
  | .contentLength _ body => body
  | .chunked chunks _ _ _ => payloads chunks

def bytes : Coding → Text
  | .contentLength _ body => body
  | .chunked chunks zeros ext trailers =>
    chunks.flatMap Chunk.bytes ++ (0x30 :: (List.replicate zeros 0x30 ++ ext ++ CRLF) ++ (joinLines trailers ++ CRLF))

/-- The header says so, and what is sent is well formed. -/
def Announced (h : ResponseHead) : Coding → Prop
  | .contentLength digits body => h.ContentLength digits ∧ digitsValue 0 digits = body.length
  | .chunked _ _ ext trailers => h.Chunked ∧
    ((∀ c ∈ ext.head?, c = 0x3b ∨ c = 0x20 ∨ c = 0x09) ∧ 0 ∉ ext ∧ CR ∉ ext ∧ LF ∉ ext) ∧ ∀ l ∈ trailers, IsLine l

end Coding

/-- A response and the receives that `WaitResponse` gets. -/
structure Exchange where
  head : ResponseHead
  coding : Coding
  receives : List Text
  announced : coding.Announced head
  received : [] ∉ receives

def Exchange.bytes (e : Exchange) : Text := e.head.bytes ++ e.coding.bytes

/-- The buffer, and what the client has not received of the responses so far. -/
structure Connection where
  pool : RecvPool
  left : Text
  deriving DecidableEq

/-- The receives bring what is left and then the response. -/
def Delivers (c : Connection) (e : Exchange) : Prop := e.receives.flatten = c.left ++ e.bytes

/-- One response, if it is received. -/
def exchange (c : Connection) (e : Exchange) : Option Connection :=
  match waitResponse e.receives c.pool with
  | some (some (r, stream)) => some ⟨r.pool, stream.flatten⟩
  | _ => none

/-- The client has the response that was sent. -/
def Answered (c : Connection) (e : Exchange) : Prop :=
  ∃ r stream, waitResponse e.receives c.pool = some (some (r, stream)) ∧ r.Answers e.head e.coding.body

/-- What a body asks for. -/
def Coding.Undisturbed (left : Text) (receives : List Text) (h : ResponseHead) : Coding → Prop
  | .contentLength digits _ => digits.length ≤ 19
  | .chunked _ zeros ext _ => zeros = 0 ∧ ext = [] ∧ LineSeen left receives h

/-- Neither what is left nor what stands behind the used part is taken for a piece of the response, and the last chunk is
a plain zero. -/
structure Undisturbed (c : Connection) (e : Exchange) : Prop where
  size : e.bytes.length < 2 ^ 31
  http : ¬ ascii "HTTP/" <:+: c.left
  head : HeadSeen c.left e.receives e.head
  body : e.coding.Undisturbed c.left e.receives e.head

variable {c : Connection} {e : Exchange} {b : RecvPool}

/-- One response, whatever is left of the one before. -/
theorem answered_of_undisturbed (h0 : 0 ∉ c.left) (hd : Delivers c e) (hu : Undisturbed c e) :
    ∃ r stream, waitResponse e.receives c.pool = some (some (r, stream)) ∧ r.Answers e.head e.coding.body ∧
      0 ∉ stream.flatten := by
  obtain ⟨head, coding, receives, hannounced, hreceived⟩ := e
  have hsize : (head.bytes ++ coding.bytes).length < 2 ^ 31 := hu.size
  have hhttp : ¬ ascii "HTTP/" <:+: c.left := hu.http
  have hhead : HeadSeen c.left receives head := hu.head
  have hbody : coding.Undisturbed c.left receives head := hu.body
  have hreceives : receives.flatten = c.left ++ (head.bytes ++ coding.bytes) := hd
  clear hu hd
  cases coding with
  | contentLength digits body =>
    obtain ⟨hlength, hdigits⟩ := hannounced
    have hsize' : (head.bytes ++ body).length < 2 ^ 32 := lt_trans hsize (by decide)
    obtain ⟨r, hr, hanswers⟩ := waitResponse_contentLength hreceives hreceived h0 hhttp hhead hlength hbody hdigits hsize' c.pool
    exact ⟨r, [], hr, hanswers, by simp⟩
  | chunked chunks zeros ext trailers =>
    obtain ⟨hchunked, -, htrailers⟩ := hannounced
    obtain ⟨rfl, rfl, hline⟩ := hbody
    have hzero : 0 ∉ joinLines trailers ++ CRLF := by
      rw [List.mem_append, not_or]
      exact ⟨notMem_joinLines (by decide) fun l hl => (htrailers l hl).2.1, by decide⟩
    obtain ⟨r, stream, hr, hanswers, hsuf⟩ := waitResponse_chunked hreceives hreceived h0 hhttp hhead hline hchunked hsize c.pool
    exact ⟨r, stream, hr, hanswers, fun hmem => hzero (hsuf.subset hmem)⟩

/-- In every run no terminator is left on the connection. -/
theorem reachable_zero_notMem (h : Reachable exchange (fun c e => Delivers c e ∧ Undisturbed c e) ⟨b, []⟩ c) : 0 ∉ c.left := by
  refine h.invariant (I := fun c => 0 ∉ c.left) (by simp) ?_
  intro c e c' hc ⟨hd, hu⟩ hstep
  obtain ⟨r, stream, hr, -, hzero⟩ := answered_of_undisturbed hc hd hu
  unfold exchange at hstep
  rw [hr] at hstep
  cases hstep
  exact hzero

/-- **Each response is received as it was sent**, in every run whose exchanges are undisturbed. -/
theorem answered_of_reachable (h : Reachable exchange (fun c e => Delivers c e ∧ Undisturbed c e) ⟨b, []⟩ c)
    (hd : Delivers c e) (hu : Undisturbed c e) : Answered c e := by
  obtain ⟨r, stream, hr, hanswers, -⟩ := answered_of_undisturbed (reachable_zero_notMem h) hd hu
  exact ⟨r, stream, hr, hanswers⟩

/-! ### A line end that is taken for two -/

/-- What stands behind the used part repeats its end. -/
theorem shifted_crlf {D : Text} {stream : List Text} (hseen : seen CRLF stream = CRLF ++ D) (hlen : 2 ≤ D.length) :
    shifted CRLF stream = D ++ D.drop (D.length - 2) := by
  unfold shifted
  rw [hseen, List.drop_left, List.length_append, Nat.add_sub_cancel_left]
  congr 1
  rw [List.drop_append, List.drop_of_length_le (show CRLF.length ≤ D.length from hlen), List.nil_append]
  rfl

section HeadSeen

variable {h : ResponseHead} {content D u s : Text} {stream : List Text} {ls₁ ls₂ : List Text} {i : ℕ}

/-- Received up to the end of one of its lines but the last, the header is mistaken. -/
theorem not_headSeen_of_lines (hls : h.lines = ls₁ ++ ls₂) (hne₁ : ls₁ ≠ []) (hne₂ : ls₂ ≠ [])
    (hseen : seen CRLF stream = CRLF ++ joinLines ls₁) : ¬ HeadSeen CRLF stream h := by
  intro hhead
  have h2 : CRLF.length = 2 := rfl
  obtain ⟨s, hs⟩ := joinLines_end hne₁
  have hlong : 9 ≤ (joinLines ls₁).length := by
    obtain ⟨l, ls, rfl⟩ := List.exists_cons_of_ne_nil hne₁
    have hl : h.statusLine = l := (List.cons.inj hls).1
    have hhttp : (ascii "HTTP/").length = 5 := by decide
    have hcode := h.code_ok.1
    rw [joinLines_cons, ← hl, ResponseHead.statusLine]
    simp only [List.length_append, List.length_cons, hhttp, hcode]
    omega
  have hshift : shifted CRLF stream = joinLines ls₁ ++ CRLF := by
    rw [shifted_crlf hseen (by omega)]
    congr 1
    rw [hs, List.length_append, h2, Nat.add_sub_cancel, List.drop_left]
  have hls₁ : ∀ l ∈ ls₁, IsLine l := fun l hl => h.isLine_of_mem l (hls ▸ List.mem_append_left _ hl)
  have hfind := find_end hls₁ hne₁ (t := []) (i := 5) (by rw [List.length_append]; omega)
  rw [List.append_nil] at hfind
  have hzero : 0 ∉ (joinLines ls₁ ++ CRLF).drop 5 := by
    intro hmem
    have hmem := List.mem_of_mem_drop hmem
    rw [List.mem_append] at hmem
    rcases hmem with hmem | hmem
    · exact notMem_joinLines (by decide) (fun l hl => (hls₁ l hl).2.1) hmem
    · exact absurd hmem (by decide)
  have htake := hhead (by rw [hseen, List.length_append]; omega) ((joinLines ls₁ ++ CRLF).length - 4 - 5)
    (by rw [hshift, strstr, cstr_of_notMem hzero]; exact hfind)
  have hall : (joinLines ls₁ ++ CRLF).length - 4 - 5 + 9 = (joinLines ls₁ ++ CRLF).length := by
    rw [List.length_append]
    omega
  rw [hall, hshift, List.take_length, show h.bytes = joinLines h.lines ++ CRLF from rfl, hls, joinLines_append,
    List.append_assoc, List.append_cancel_left_eq] at htake
  have hlen := congrArg List.length htake
  rw [List.length_append] at hlen
  obtain ⟨l, ls, rfl⟩ := List.exists_cons_of_ne_nil hne₂
  rw [joinLines_cons] at hlen
  simp only [List.length_append, List.length_cons] at hlen
  omega

/-- The end of the header is found when all of it was received but for its last character. -/
theorem take_of_cr (hu : D ++ u = h.bytes) (hne : u ≠ []) (hat : CRLF ++ CRLF <+: (D ++ s).drop (i + 5))
    (hin : i + 8 ≤ D.length) : (D ++ s).take (i + 9) = h.bytes := by
  have h2 : CRLF.length = 2 := rfl
  have hbytes : h.bytes = joinLines h.lines ++ CRLF := rfl
  have hulen := List.length_pos_of_ne_nil hne
  have hcr : CRLF ++ [CR] <+: D.drop (i + 5) := by
    rw [List.drop_append_of_le_length (by omega)] at hat
    refine List.prefix_of_prefix_length_le (List.IsPrefix.trans ⟨[LF], rfl⟩ hat) (List.prefix_append _ _) ?_
    rw [List.length_append, List.length_drop, h2, List.length_singleton]
    omega
  have hlast : h.bytes.length ≤ i + 5 + 4 := by
    have hcr' : CRLF ++ [CR] <+: (joinLines h.lines ++ CRLF ++ []).drop (i + 5) := by
      rw [List.append_nil, ← hbytes, ← hu, List.drop_append_of_le_length (by omega)]
      exact hcr.trans (List.prefix_append _ _)
    have := length_le_of_empty h.isLine_of_mem hcr'
    have hlength := h.length_bytes
    omega
  have hone : u.length = 1 ∧ i + 9 = D.length + 1 := by
    have := congrArg List.length hu
    rw [List.length_append] at this
    omega
  have hdrop : D.drop (i + 5) = CRLF ++ [CR] :=
    (hcr.eq_of_length (by rw [List.length_drop]; simp [CRLF]; omega)).symm
  have hs1 : ∃ v, s = LF :: v := by
    rw [List.drop_append_of_le_length (by omega), hdrop, List.append_assoc, List.prefix_append_right_inj] at hat
    obtain ⟨v, hv⟩ := hat
    exact ⟨v, (List.cons.inj hv).2.symm⟩
  obtain ⟨v, hv⟩ := hs1
  obtain ⟨x, rfl⟩ := List.length_eq_one_iff.mp hone.1
  have hx : x = LF := by
    have := congrArg List.getLast? hu
    rw [List.getLast?_concat, hbytes, show CRLF = [CR] ++ [LF] from rfl, ← List.append_assoc,
      List.getLast?_concat] at this
    exact Option.some.inj this
  rw [show i + 9 = D.length + 1 from hone.2, List.take_append, List.take_of_length_le (by omega),
    Nat.add_sub_cancel_left, hv, ← hu, hx]
  rfl

/-- A header of which a part was received that ends with a line end has been received up to the end of a line. -/
theorem lines_of_crlf (hu : D ++ u = h.bytes) (hne : u ≠ []) (hend : CRLF <:+ D) :
    ∃ ls₁ ls₂, h.lines = ls₁ ++ ls₂ ∧ D = joinLines ls₁ := by
  have hlf : D.getLast? = some LF := by
    obtain ⟨t, rfl⟩ := hend
    rw [show CRLF = [CR] ++ [LF] from rfl, ← List.append_assoc, List.getLast?_concat]
  have hulen := List.length_pos_of_ne_nil hne
  have hlength := congrArg List.length hu
  rw [List.length_append, h.length_bytes] at hlength
  have hcut : D <+: joinLines h.lines ++ [CR] := by
    refine List.prefix_of_prefix_length_le ⟨u, hu⟩ ⟨[LF], by rw [List.append_assoc]; rfl⟩ ?_
    rw [List.length_append, List.length_singleton]
    omega
  rcases List.prefix_concat_iff.mp hcut with heq | hpre
  · rw [heq, List.getLast?_concat] at hlf
    exact absurd (Option.some.inj hlf) (by decide)
  · exact joinLines_of_prefix h.isLine_of_mem hpre hlf

/-- Of a header that was received whole the end is found. -/
theorem take_of_whole (hi : strstr ((h.bytes ++ u ++ s).drop 5) (CRLF ++ CRLF) = some i) :
    (h.bytes ++ u ++ s).take (i + 9) = h.bytes := by
  have hzero : 0 ∉ h.bytes.drop 5 := fun hmem => h.zero_notMem_bytes (List.mem_of_mem_drop hmem)
  have hgt := h.length_bytes_gt
  have hend := h.find_end []
  rw [List.append_nil] at hend
  have hfirst : strstr ((h.bytes ++ u ++ s).drop 5) (CRLF ++ CRLF) = some (h.bytes.length - 9) := by
    rw [List.append_assoc, List.drop_append_of_le_length (by omega), strstr, cstr_append hzero]
    exact find_append_of_some hend
  have hi9 : i = h.bytes.length - 9 := Option.some.inj (hi.symm.trans hfirst)
  rw [hi9, Nat.sub_add_cancel (by omega), List.append_assoc, List.take_left]

/-- **The header of the next response is mistaken just where the bytes received end with one of its lines but the last.** -/
theorem headSeen_crlf_iff (hstream : stream.flatten = CRLF ++ (h.bytes ++ content)) : HeadSeen CRLF stream h ↔
    ¬ ∃ ls₁ ls₂, h.lines = ls₁ ++ ls₂ ∧ ls₁ ≠ [] ∧ ls₂ ≠ [] ∧ seen CRLF stream = CRLF ++ joinLines ls₁ := by
  have h2 : CRLF.length = 2 := rfl
  constructor
  · rintro hhead ⟨ls₁, ls₂, hls, hne₁, hne₂, hseen⟩
    exact not_headSeen_of_lines hls hne₁ hne₂ hseen hhead
  · intro hno hlen i hi
    obtain ⟨D, hD⟩ : CRLF <+: seen CRLF stream := by
      refine List.prefix_of_prefix_length_le ?_ (seen_of_stream CRLF stream) (by omega)
      exact ⟨_, hstream.symm⟩
    have hDT : D <+: h.bytes ++ content := by
      have := seen_of_stream CRLF stream
      rw [hstream, ← hD] at this
      exact (List.prefix_append_right_inj CRLF).mp this
    have hn : 9 ≤ D.length := by
      rw [← hD, List.length_append] at hlen
      omega
    have hshift := shifted_crlf hD.symm (by omega)
    rw [hshift] at hi ⊢
    set s := D.drop (D.length - 2) with hs
    have hslen : s.length = 2 := by
      rw [hs, List.length_drop]
      omega
    have hview : cstr ((D ++ s).drop 5) <+: (D ++ s).drop 5 := List.takeWhile_prefix _
    have hat : CRLF ++ CRLF <+: (D ++ s).drop (i + 5) := by
      have := (find_eq_some_iff.mp hi).2.1.trans (hview.drop i)
      rwa [List.drop_drop, Nat.add_comm] at this
    have hle : i + 5 + 4 ≤ D.length + 2 := by
      have := hat.length_le
      rw [List.length_drop, List.length_append, List.length_append, hslen, h2] at this
      omega
    rcases Nat.lt_or_ge D.length h.bytes.length with hlt | hge
    · obtain ⟨u, hu⟩ := List.prefix_of_prefix_length_le hDT (List.prefix_append _ _) hlt.le
      have hne : u ≠ [] := by
        rintro rfl
        rw [← hu, List.append_nil] at hlt
        exact hlt.false
      rcases Nat.lt_or_ge (i + 5 + 3) (D.length + 1) with hin | hout
      · exact take_of_cr hu hne hat (by omega)
      · -- the line end of what was received comes twice
        have hi2 : i + 5 = D.length - 2 := by omega
        rw [hi2, List.drop_append_of_le_length (by omega), ← hs] at hat
        have hcrlf : s = CRLF := (List.append_inj (hat.eq_of_length (by simp [hslen, h2])) (by rw [hslen, h2])).1.symm
        obtain ⟨ls₁, ls₂, hls, hD₁⟩ := lines_of_crlf hu hne (hcrlf ▸ List.drop_suffix _ D)
        by_cases hne₂ : ls₂ = []
        · rw [hne₂, List.append_nil] at hls
          rw [show i + 9 = (D ++ s).length by rw [List.length_append]; omega, List.take_length, hcrlf, hD₁, ← hls]
          rfl
        · refine absurd ⟨ls₁, ls₂, hls, ?_, hne₂, ?_⟩ hno
          · rintro rfl
            rw [hD₁] at hn
            exact absurd hn (by decide)
          · rw [← hD, hD₁]
    · obtain ⟨u, rfl⟩ := List.prefix_of_prefix_length_le (List.prefix_append _ _) hDT hge
      exact take_of_whole hi

end HeadSeen

/-- Behind a line end no line of a chunk is mistaken. -/
theorem lineSeen_of_short {h : ResponseHead} {left line rest : Text} {stream : List Text} (hleft : left.length ≤ 2)
    (hstream : stream.flatten = left ++ (h.bytes ++ (line ++ (CRLF ++ rest)))) (hline : 0 ∉ line ∧ CR ∉ line ∧ LF ∉ line) :
    LineSeen left stream h := by
  intro hlen i hi
  obtain ⟨D, hD⟩ : left <+: seen left stream := by
    refine List.prefix_of_prefix_length_le ?_ (seen_of_stream left stream) (by omega)
    exact ⟨_, hstream.symm⟩
  have hDT : D <+: h.bytes ++ (line ++ (CRLF ++ rest)) := by
    have := seen_of_stream left stream
    rw [hstream, ← hD] at this
    exact (List.prefix_append_right_inj left).mp this
  rw [← hD, List.length_append] at hlen
  have hshift : shifted left stream = D ++ D.drop (D.length - left.length) := by
    unfold shifted
    rw [← hD, List.drop_left, List.length_append, Nat.add_sub_cancel_left, List.drop_append,
      List.drop_of_length_le (by omega), List.nil_append]
  have hecho : Echo ⟨D, D.drop (D.length - left.length) ++ 0 :: [], h.bytes.length⟩ := by
    refine ⟨show h.bytes.length ≤ D.length by omega, _, [], rfl, fun _ => ?_⟩
    have hsplit : D.length - left.length = h.bytes.length + (D.length - left.length - h.bytes.length) := by omega
    rw [hsplit, ← List.drop_drop]
    exact List.drop_suffix _ _
  have hcells : strstr ((⟨D, D.drop (D.length - left.length) ++ 0 :: [], h.bytes.length⟩ : RecvPool).cells.drop
      h.bytes.length) CRLF = some i := by
    have hview : (⟨D, D.drop (D.length - left.length) ++ 0 :: [], h.bytes.length⟩ : RecvPool).cells =
        shifted left stream ++ 0 :: [] := by rw [hshift, cells, List.append_assoc]
    rw [hview, List.drop_append_of_le_length (by rw [hshift, List.length_append]; omega), strstr, cstr_append_zero_cons]
    exact hi
  have hin := hecho.foundInside hDT rfl hline (show h.bytes.length + 2 ≤ D.length by omega) i hcells
  have hin' : h.bytes.length + i + 2 ≤ D.length := hin
  rw [← hD, List.length_append]
  omega

theorem chunkedField_wellFormed : ∀ f ∈ [⟨ascii "Transfer-Encoding", ascii " chunked"⟩], Field.WellFormed f :=
  List.forall_mem_singleton.mpr ⟨Field.isFieldName_of_all (by decide) (by decide), by decide⟩

theorem hello_digits : ∀ c ∈ ascii "5", isHexDigit c = true := by set_option maxRecDepth 20000 in decide

theorem hello_size : hexNumber (ascii "5") = (ascii "Hello").length := by decide

theorem hello_ext : (∀ c ∈ ([] : Text).head?, c = 0x3b ∨ c = 0x20 ∨ c = 0x09) ∧ 0 ∉ ([] : Text) ∧ CR ∉ ([] : Text) ∧
    LF ∉ ([] : Text) := by set_option maxRecDepth 20000 in decide

theorem hello_ne_nil : ascii "Hello" ≠ [] := by decide

theorem oneChunk_announced :
    (Coding.chunked [⟨ascii "5", [], ascii "Hello", hello_digits, hello_size, hello_ext, hello_ne_nil⟩] 0 [] []).Announced
      (okHead [⟨ascii "Transfer-Encoding", ascii " chunked"⟩] chunkedField_wellFormed) := by
  set_option maxRecDepth 20000 in
  refine ⟨⟨⟨_, List.mem_cons_self, by decide⟩, ?_, by decide⟩, by decide, by simp⟩
  intro f hf _
  rw [List.mem_singleton.mp hf]
  set_option maxRecDepth 20000 in
  exact ⟨ascii "chunked", ⟨[0x20], [], by decide, by decide, by decide⟩, by decide⟩

theorem oneChunk_received :
    [] ∉ [ascii "HTTP/1.1 200 OK\r\nTransfer-Encoding: chunked\r\n\r\n5\r\nHello\r\n0\r\n", CRLF] := by
  decide

/-- A body of one chunk, of which the client leaves the last line end. -/
def oneChunk : Exchange where
  head := okHead [⟨ascii "Transfer-Encoding", ascii " chunked"⟩] chunkedField_wellFormed
  coding := .chunked [⟨ascii "5", [], ascii "Hello", hello_digits, hello_size, hello_ext, hello_ne_nil⟩] 0 [] []
  receives := [ascii "HTTP/1.1 200 OK\r\nTransfer-Encoding: chunked\r\n\r\n5\r\nHello\r\n0\r\n", CRLF]
  announced := oneChunk_announced
  received := oneChunk_received

/-- The response behind it, with so many bytes in the first receive. -/
def nextResponse (n : ℕ) (received : [] ∉ [(ascii "\r\nHTTP/1.1 200 OK\r\nContent-Length: 2\r\n\r\nok").take n,
    (ascii "\r\nHTTP/1.1 200 OK\r\nContent-Length: 2\r\n\r\nok").drop n]) : Exchange where
  head := okHead [⟨ascii "Content-Length", ascii " 2"⟩] (by decide +kernel)
  coding := .contentLength (ascii "2") (ascii "ok")
  receives := [(ascii "\r\nHTTP/1.1 200 OK\r\nContent-Length: 2\r\n\r\nok").take n,
    (ascii "\r\nHTTP/1.1 200 OK\r\nContent-Length: 2\r\n\r\nok").drop n]
  announced := by
    refine ⟨⟨⟨_, List.mem_cons_self, by decide +kernel⟩, ?_, by decide +kernel, by decide +kernel⟩, by decide +kernel⟩
    intro f hf _
    rw [List.mem_singleton.mp hf]
    exact ⟨[0x20], [], by decide +kernel, by decide +kernel, by decide +kernel⟩
  received := received

theorem delivers_oneChunk : Delivers ⟨⟨[], [], 0⟩, []⟩ oneChunk := by
  unfold Delivers
  decide

theorem left_oneChunk : (exchange ⟨⟨[], [], 0⟩, []⟩ oneChunk).map Connection.left = some CRLF := by decide

/-- The cut in the status line does no harm. -/
theorem answered_of_reachable_twoResponses : ∃ c, exchange ⟨⟨[], [], 0⟩, []⟩ oneChunk = some c ∧
    Answered c (nextResponse 12 (by decide)) := by
  obtain ⟨c, hc, hleft⟩ := Option.map_eq_some_iff.mp left_oneChunk
  have hfirst : Undisturbed ⟨⟨[], [], 0⟩, []⟩ oneChunk := by
    refine ⟨by decide, by decide, headSeen_nil delivers_oneChunk, ?_⟩
    exact ⟨rfl, rfl, lineSeen_nil⟩
  refine ⟨c, hc, answered_of_reachable (Reachable.start.next ⟨delivers_oneChunk, hfirst⟩ hc) ?_ ⟨?_, ?_, ?_, ?_⟩⟩
  · unfold Delivers
    rw [hleft]
    decide
  · decide
  · rw [hleft]
    decide
  · rw [hleft]
    unfold HeadSeen
    decide
  · show (ascii "2").length ≤ 19
    decide

/-- The cut behind the status line ends the header there. -/
theorem response_mistaken : ¬ ∀ (b : RecvPool) (c : Connection) (e : Exchange),
    Reachable exchange Delivers ⟨b, []⟩ c → Delivers c e → Answered c e := by
  intro h
  obtain ⟨c, hc, hleft⟩ := Option.map_eq_some_iff.mp left_oneChunk
  have hdelivers : Delivers c (nextResponse 19 (by decide)) := by
    unfold Delivers
    rw [hleft]
    decide
  obtain ⟨r, stream, hr, hanswers⟩ := h _ c _ (Reachable.start.next delivers_oneChunk hc) hdelivers
  have hwrong : ∀ c ∈ exchange ⟨⟨[], [], 0⟩, []⟩ oneChunk,
      ∀ x ∈ waitResponse (nextResponse 19 (by decide)).receives c.pool,
      ∀ y ∈ x, y.1.getResponseHeader ≠ (nextResponse 19 (by decide +kernel)).head.bytes := by decide +kernel
  exact hwrong c hc _ hr _ rfl hanswers.header

end Cpcf.Inet
