import Cpcf.Inet.WaitResponse

/-!
Bodies in chunks that break off.

`_RecvOneChunk` answers 0 for the last chunk, and it answers 0 as well where no further line comes or where the line is
not a number. So `WaitResponse` takes the end of the connection for the end of the body, unless it comes inside the
data of a chunk.
-/

namespace Cpcf.Inet

open Cpcf.Lib.Search Cpcf.Rt RecvPool

/-! ### Where a body breaks off -/

/-- A line that may stand in front of a chunk. -/
def PlainLine (line : Text) : Prop := 0 ∉ line ∧ CR ∉ line ∧ LF ∉ line

instance (line : Text) : Decidable (PlainLine line) := inferInstanceAs (Decidable (_ ∧ _))

/-- The line of a chunk of no data. -/
structure ZeroLine where
  digits : Text
  ext : Text
  digits_ne : digits ≠ []
  digits_ok : ∀ c ∈ digits, c = 0x30
  ext_ok : (∀ c ∈ ext.head?, c = 0x3b ∨ c = 0x20 ∨ c = 0x09) ∧ PlainLine ext

/-- A sequence of chunks up to one of no data. -/
inductive Complete : Text → Prop
  | last (z : ZeroLine) (rest : Text) : Complete (z.digits ++ (z.ext ++ (CRLF ++ rest)))
  | chunk (c : Chunk) {rest : Text} : Complete rest → Complete (c.bytes ++ rest)

/-- How reading chunks, from some place of the buffer on, comes to an end: inside the data of a chunk, or else at a line
that is not complete or does not give a size. The size is what `sscanf` makes of the line, and it does not wrap. -/
inductive Ends : Bool → ℕ → Text → Prop
  | closed {head : ℕ} {line u : Text} (hline : PlainLine line) (hu : u = [] ∨ u = [CR]) : Ends true head (line ++ u)
  | unsized {head : ℕ} {line rest : Text} (hline : PlainLine line)
      (hscan : scanHex (makeLower line) = none ∨ scanHex (makeLower line) = some 0) :
      Ends true head (line ++ (CRLF ++ rest))
  | inside {head n : ℕ} {line d : Text} (hline : PlainLine line) (hscan : scanHex (makeLower line) = some n)
      (hpos : n ≠ 0) (hfits : head + n + 2 < 2 ^ 32) (hshort : d.length < n + 2) : Ends false head (line ++ (CRLF ++ d))
  | chunk {ret : Bool} {head : ℕ} {line d e rest : Text} (hline : PlainLine line)
      (hscan : scanHex (makeLower line) = some d.length) (hpos : d ≠ []) (he : e.length = 2)
      (hfits : head + d.length + 2 < 2 ^ 32) (hrest : Ends ret (head + d.length) rest) :
      Ends ret head (line ++ (CRLF ++ (d ++ (e ++ rest))))

variable {A D : Text} {b : RecvPool} {stream : List Text} {ret : Bool} {head n : ℕ}

/-- What is read begins with a line, or with a part of one. -/
theorem Ends.line (h : Ends ret head D) : ∃ line rest, PlainLine line ∧ D <+: line ++ (CRLF ++ rest) := by
  cases h with
  | closed hline hu =>
    refine ⟨_, [], hline, List.prefix_append_right_inj _ |>.mpr ?_⟩
    rcases hu with rfl | rfl <;> decide
  | unsized hline => exact ⟨_, _, hline, List.prefix_rfl⟩
  | inside hline => exact ⟨_, _, hline, List.prefix_rfl⟩
  | chunk hline => exact ⟨_, _, hline, List.prefix_rfl⟩

/-! ### Receives that fall short -/

theorem recvUpTo_short : ∀ {stream : List Text} {b : RecvPool}, Feeds D b stream → D.length < n →
    ∃ b' stream', recvUpTo n stream b = (false, b', stream')
  | [], b, h, hn => by
    have hused : b.used < n := by
      rw [← h.bytes, List.flatten_nil, List.append_nil] at hn
      exact hn
    exact ⟨b, [], by rw [recvUpTo, if_pos hused]⟩
  | bytes :: stream, b, h, hn => by
    have hused : b.used < n := by
      rw [← h.bytes, List.length_append] at hn
      exact (Nat.le_add_right _ _).trans_lt hn
    obtain ⟨b', stream', hr⟩ := recvUpTo_short (h.recvRaw.parsed (min (b.recvRaw bytes).used n)) hn
    refine ⟨b', stream', ?_⟩
    rw [recvUpTo, if_pos hused]
    simp only [if_neg h.ne_nil, hr]

/-- A search finds nothing where there is no line end. -/
theorem search_none (hD : ¬CRLF <:+: D) (hfeeds : Feeds (A ++ D) b stream) (hin : FoundInside CRLF b)
    (hp : A.length ≤ b.parsed) : ∃ p, A.length ≤ p ∧ b.search CRLF = (none, { b with parsed := p }) := by
  by_cases hused : (CRLF.length : ℤ) ≤ (b.used : ℤ) - b.parsed
  · rw [search, if_pos hused]
    cases hstr : strstr (b.cells.drop b.parsed) CRLF with
    | none => exact ⟨b.used - CRLF.length + 1, by omega, rfl⟩
    | some i =>
      have hle := hin (by omega) i hstr
      refine absurd ?_ hD
      have hpre : CRLF <+: b.cells.drop (b.parsed + i) := by
        rw [← List.drop_drop]
        exact (find_eq_some_iff.mp hstr).2.1.trans ((List.takeWhile_prefix _).drop i)
      -- it would be in the data, and so in the text
      rw [cells_drop (by omega)] at hpre
      have hdata : CRLF <+: b.data.drop (b.parsed + i) := by
        refine List.prefix_of_prefix_length_le hpre (List.prefix_append _ _) ?_
        rw [List.length_drop]
        unfold used at hle
        omega
      have htext := hdata.trans (hfeeds.received_data.drop (b.parsed + i))
      rw [List.drop_append, List.drop_of_length_le (by omega), List.nil_append] at htext
      exact htext.isInfix.trans (List.drop_suffix _ _).isInfix
  · rw [search, if_neg hused]
    exact ⟨b.parsed, hp, rfl⟩

theorem recvUntil_none (hD : ¬CRLF <:+: D) : ∀ {stream : List Text} {b : RecvPool}, Feeds (A ++ D) b stream →
    FoundInside CRLF b → A.length ≤ b.parsed → ∃ b', recvUntil CRLF stream b = (none, b', [])
  | [], b, h, hin, hp => by
    obtain ⟨p, -, hs⟩ := search_none hD h hin hp
    exact ⟨_, by rw [recvUntil, hs]⟩
  | bytes :: stream, b, h, hin, hp => by
    obtain ⟨p, hle, hs⟩ := search_none hD h hin hp
    obtain ⟨b', hr⟩ := recvUntil_none hD (h.parsed p).recv
      (foundInside_of_terminated (by decide) (terminated_recv _ _)) hle
    refine ⟨b', ?_⟩
    rw [recvUntil, hs]
    simp only [if_neg h.ne_nil, hr]

/-! ### The rounds of the loop -/

theorem recvOneChunk_closed (hD : ¬CRLF <:+: D) (hfeeds : Feeds (A ++ D) b stream) (hp : b.parsed = A.length)
    (hin : FoundInside CRLF b) : ∃ b', recvOneChunk stream b = some (.size 0, b', []) := by
  obtain ⟨b', hr⟩ := recvUntil_none hD hfeeds hin hp.ge
  exact ⟨b', by rw [recvOneChunk, hr]⟩

theorem recvOneChunk_inside {line d : Text} (hline : PlainLine line) (hscan : scanHex (makeLower line) = some n)
    (hpos : n ≠ 0) (hfits : A.length + n + 2 < 2 ^ 32) (hshort : d.length < n + 2)
    (hfeeds : Feeds (A ++ (line ++ (CRLF ++ d))) b stream) (hp : b.parsed = A.length) (hin : FoundInside CRLF b) :
    ∃ b' stream', recvOneChunk stream b = some (.INFINITE, b', stream') := by
  obtain ⟨r, behind, s₁, hr, hs₁, hchunk⟩ := recvOneChunk_line hfeeds hp hin hline
  have hfeeds₁ : Feeds (A ++ d) ⟨A ++ r,
      (A ++ (makeLower line ++ 0 :: LF :: r)).drop (A.length + r.length) ++ behind, A.length⟩ s₁ :=
    ⟨by rw [List.append_assoc, hr], hs₁⟩
  obtain ⟨b', stream', hup⟩ := recvUpTo_short (n := A.length + n + 2) hfeeds₁ (by rw [List.length_append]; omega)
  obtain ⟨m, rfl⟩ := Nat.exists_eq_succ_of_ne_zero hpos
  refine ⟨b', stream', ?_⟩
  rw [hchunk, hscan]
  simp only [behindLine, Option.bind_eq_bind, remove_line, Option.bind_some]
  rw [Nat.mod_eq_of_lt hfits, hup]

theorem not_infix_of_plain {line u : Text} (hline : PlainLine line) (hu : u = [] ∨ u = [CR]) : ¬CRLF <:+: line ++ u := by
  intro h
  have hmem : LF ∈ line ++ u := h.subset (by decide)
  rcases List.mem_append.mp hmem with hmem | hmem
  · exact hline.2.2 hmem
  · rcases hu with rfl | rfl
    · cases hmem
    · exact absurd hmem (by decide)

/-- **The rounds come to the end that the body has.** -/
theorem recvChunks_ends (h : Ends ret head D) : ∀ {A : Text} {b : RecvPool} {stream : List Text} {n : ℕ},
    A.length = head → Feeds (A ++ D) b stream → b.parsed = A.length → FoundInside CRLF b → D.length < n →
    ∃ b' stream', recvChunks n stream b = some (ret, b', stream') := by
  induction h with
  | closed hline hu =>
    intro A b stream n hhead hfeeds hp hin hn
    obtain ⟨b', hr⟩ := recvOneChunk_closed (not_infix_of_plain hline hu) hfeeds hp hin
    obtain ⟨n, rfl⟩ := Nat.exists_eq_add_of_lt hn
    exact ⟨b', [], by rw [recvChunks, hr]; rfl⟩
  | unsized hline hscan =>
    intro A b stream n hhead hfeeds hp hin hn
    obtain ⟨r, behind, s₁, -, -, hchunk⟩ := recvOneChunk_line hfeeds hp hin hline
    obtain ⟨n, rfl⟩ := Nat.exists_eq_add_of_lt hn
    rcases hscan with hscan | hscan
    · rw [hscan] at hchunk
      exact ⟨_, _, by rw [recvChunks, hchunk]; rfl⟩
    · rw [hscan] at hchunk
      exact ⟨_, _, by rw [recvChunks, hchunk]; rfl⟩
  | inside hline hscan hpos hfits hshort =>
    intro A b stream n hhead hfeeds hp hin hn
    subst hhead
    obtain ⟨b', stream', hr⟩ := recvOneChunk_inside hline hscan hpos hfits hshort hfeeds hp hin
    obtain ⟨n, rfl⟩ := Nat.exists_eq_add_of_lt hn
    exact ⟨b', stream', by rw [recvChunks, hr]; rfl⟩
  | @chunk ret head line d e rest hline hscan hpos he hfits hrest ih =>
    intro A b stream n hhead hfeeds hp hin hn
    subst hhead
    obtain ⟨b₁, s₁, hr, hf₁, hp₁, hecho⟩ := recvOneChunk_sized hfeeds hp hin hline hscan hpos he hfits
    rw [← List.append_assoc] at hf₁
    -- the next line is found inside the used part
    have hin₁ : FoundInside CRLF b₁ := by
      obtain ⟨line', rest', hline', hpre⟩ := hrest.line
      exact hecho.foundInside (hf₁.received_data.trans ((List.prefix_append_right_inj _).mpr hpre)) hp₁ hline'
    obtain ⟨n, rfl⟩ := Nat.exists_eq_add_of_lt hn
    simp only [List.length_append] at hn
    obtain ⟨b', stream', hr'⟩ := ih (List.length_append) hf₁ hp₁ hin₁
      (n := (line ++ (CRLF ++ (d ++ (e ++ rest)))).length + n) (by simp only [List.length_append, he]; omega)
    obtain ⟨m, hm⟩ := Nat.exists_eq_succ_of_ne_zero fun h0 => hpos (List.eq_nil_of_length_eq_zero h0)
    refine ⟨b', stream', ?_⟩
    rw [recvChunks, hr, hm]
    exact hr'

/-- The response is taken for complete where the body does not end inside the data of a chunk. -/
theorem waitResponse_ends {h : ResponseHead} (hchunked : h.Chunked) (hstream : stream.flatten = h.bytes ++ D)
    (hreceived : [] ∉ stream) (hends : Ends ret h.bytes.length D) (b : RecvPool) :
    ∃ x, waitResponse stream b = some x ∧ x.isSome = ret := by
  have hleft : stream.flatten = [] ++ (h.bytes ++ D) := hstream
  obtain ⟨b₂, s₂, hf, hp, hin, hwait⟩ := waitResponse_eq hleft hreceived (by simp) (by decide) (headSeen_nil hstream) b
  have hparsed : parseHeader (joinLines h.lines) = some (h.parsed 1 true) := by
    rw [h.parseHeader_eq, parseContentLength_none hchunked.2.2, parseChunkedTransfer_chunked hchunked]
    rfl
  obtain ⟨b', stream', hr⟩ := recvChunks_ends hends rfl hf hp (hin lineSeen_nil)
    (n := (b₂.data ++ s₂.flatten).length + 1) (by rw [hf.bytes, List.length_append]; omega)
  have hbody : waitBody (h.parsed 1 true) h.bytes.length s₂ b₂ = some (ret, b', stream') := by
    rw [← hr]
    exact if_pos rfl
  refine ⟨_, by rw [hwait, hparsed, Option.bind_some, hbody, Option.map_some], ?_⟩
  cases ret <;> rfl

/-- A sequence of chunks begins with a digit. -/
theorem Complete.firstDigit (h : Complete D) : ∃ d, D.head? = some d ∧ isHexDigit d = true := by
  cases h with
  | last z rest =>
    obtain ⟨d, ds, hds⟩ := List.exists_cons_of_ne_nil z.digits_ne
    exact ⟨d, by rw [hds]; rfl, z.digits_ok d (hds ▸ List.mem_cons_self) ▸ by decide⟩
  | chunk c =>
    obtain ⟨d, ds, hds⟩ := List.exists_cons_of_ne_nil c.digits_ne
    exact ⟨d, by rw [Chunk.bytes, Chunk.line, hds]; rfl, c.digits_ok d (hds ▸ List.mem_cons_self)⟩

section Fixed

theorem transferEncoding_wellFormed : ∀ f ∈ [⟨ascii "Transfer-Encoding", ascii " chunked"⟩], Field.WellFormed f :=
  List.forall_mem_singleton.mpr ⟨Field.isFieldName_of_all (by decide) (by decide), by decide⟩

def chunkedHead : ResponseHead := okHead [⟨ascii "Transfer-Encoding", ascii " chunked"⟩] transferEncoding_wellFormed

theorem chunkedHead_chunked : chunkedHead.Chunked := by
  refine ⟨⟨_, List.mem_cons_self, by decide⟩, ?_, by decide⟩
  intro f hf _
  rw [List.mem_singleton.mp hf]
  exact ⟨ascii "chunked", ⟨[0x20], [], by decide, by simp, by simp⟩, by decide⟩

/-- The connection is closed inside the data of the second chunk. -/
def brokenInside : Text := ascii "5\r\nhello\r\nA;x\r\nwor"

theorem ends_brokenInside : Ends false chunkedHead.bytes.length brokenInside :=
  @Ends.chunk false _ (ascii "5") (ascii "hello") CRLF (ascii "A;x\r\nwor") (by decide) (by decide) (by decide) rfl
    (by decide) (@Ends.inside _ 10 (ascii "A;x") (ascii "wor") (by decide) (by decide) (by decide) (by decide) (by decide))

/-- The connection is closed between two chunks. -/
def brokenBetween : Text := ascii "5\r\nhello\r\n"

/-- A line that is not a number. -/
def noNumber : Text := ascii "zz\r\n"

theorem not_complete_brokenBetween : ¬Complete brokenBetween := by
  intro h
  generalize hD : brokenBetween = D at h
  cases h with
  | last z rest =>
    obtain ⟨d, ds, hds⟩ := List.exists_cons_of_ne_nil z.digits_ne
    have hzero := z.digits_ok d (hds ▸ List.mem_cons_self)
    have hhead := congrArg List.head? hD
    rw [hds, hzero] at hhead
    cases hhead
  | @chunk c rest hrest =>
    -- the line is the first one, and the data fill the text
    have hbytes : brokenBetween = c.line ++ (CRLF ++ (c.payload ++ (CRLF ++ rest))) := by
      rw [hD, Chunk.bytes]
      simp only [List.append_assoc]
    have hfind := find_line c.line_ok.2.1 (c.payload ++ (CRLF ++ rest))
    rw [← hbytes, show find CRLF brokenBetween = some 1 by decide] at hfind
    have hone : c.line.length = 1 := (Option.some.inj hfind).symm
    have hline : c.line = ascii "5" := by
      have := congrArg (List.take 1) hbytes
      rw [List.take_append_of_le_length hone.ge, List.take_of_length_le hone.le] at this
      exact this.symm
    have hdigits : c.digits = ascii "5" := by
      rw [Chunk.line] at hline hone
      rw [List.length_append] at hone
      have hpos := List.length_pos_iff.mpr c.digits_ne
      have hext : c.ext = [] := List.eq_nil_of_length_eq_zero (by omega)
      rwa [hext, List.append_nil] at hline
    have hpayload : c.payload.length = 5 := by
      rw [← c.size_ok, hdigits]
      rfl
    have hlen := congrArg List.length hbytes
    simp only [List.length_append, hone, hpayload, show CRLF.length = 2 from rfl,
      show brokenBetween.length = 10 from rfl] at hlen
    obtain rfl : rest = [] := List.eq_nil_of_length_eq_zero (by omega)
    obtain ⟨d, hd, -⟩ := hrest.firstDigit
    cases hd

end Fixed

end Cpcf.Inet
