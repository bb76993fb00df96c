import Cpcf.Inet.WaitResponse

/-!
`HttpResponse::Send` against the client: what the server writes for a payload, and what `HttpSession` makes of it.

Both variants put a header together in a buffer of 256 characters. The one for a part of a document has no line end
behind the length and a second one behind the range, so that the range is a piece of the length and the rest of the
header a piece of the body.
-/

namespace Cpcf.Inet

open Cpcf.Lib.Search Cpcf.Rt Cpcf.Rt.Lines RecvPool

/-! ### The server -/

/-- `char header[256]`. -/
def HEADER_SIZE : ℕ := 256

/-- The header of `Send` for a whole document. -/
def sendHeader (len : ℕ) (mime : Text) (maxage : ℕ) : Text :=
  ascii "HTTP/1.1 200 OK\r\nConnection: close\r\nAccess-Control-Allow-Origin: *\r\nContent-Type: " ++ mime ++
    ascii "\r\nContent-Length: " ++ itoa len ++ ascii "\r\nCache-Control: " ++
    (if maxage ≠ 0 then ascii "max-age=" ++ itoaUnsigned maxage ++ [CR, LF]
      else ascii "no-cache, no-store\r\nPragma: no-cache\r\n") ++ [CR, LF]

/-- The header of `Send` for a part of a document. -/
def sendPartialHeader (len : ℕ) (mime : Text) (partial_from partial_to total_size : ℕ) : Text :=
  ascii "HTTP/1.1 200 Partial Content\r\nAccess-Control-Allow-Origin: *\r\nConnection: close\r\nContent-Type: " ++ mime ++
    ascii "\r\nContent-Length: " ++ itoa len ++ ascii "Content-Range: bytes " ++ itoaUnsigned partial_from ++ [Ch.minus] ++
    itoaUnsigned partial_to ++ [Ch.slash] ++ itoaUnsigned total_size ++ ascii "\r\n" ++
    ascii "\r\nCache-Control: no-cache, no-store\r\nPragma: no-cache\r\n\r\n"

/-- The two variants of `Send`, with the arguments that they do not share. -/
inductive SendVariant
  | full (maxage : ℕ)
  | part (partial_from partial_to total_size : ℕ)
  deriving DecidableEq

namespace SendVariant

def header (len : ℕ) (mime : Text) : SendVariant → Text
  | .full maxage => sendHeader len mime maxage
  | .part partial_from partial_to total_size => sendPartialHeader len mime partial_from partial_to total_size

/-- What is sent; nothing where the header does not fit. -/
def send (p mime : Text) (v : SendVariant) : Option Text :=
  if (v.header p.length mime).length ≤ HEADER_SIZE then some (v.header p.length mime ++ p) else none

/-- The arguments are of their types, and a range lies in the document. -/
def InRange : SendVariant → Prop
  | .full maxage => maxage < 2 ^ 32
  | .part partial_from partial_to total_size =>
    partial_from ≤ partial_to ∧ partial_to < total_size ∧ total_size < 2 ^ 64

instance : DecidablePred InRange
  | .full maxage => inferInstanceAs (Decidable (maxage < 2 ^ 32))
  | .part partial_from partial_to total_size =>
    inferInstanceAs (Decidable (partial_from ≤ partial_to ∧ partial_to < total_size ∧ total_size < 2 ^ 64))

/-- The start of the range and the size of the document that the client is to find. -/
def range : SendVariant → ℕ × ℕ
  | .full _ => (0xffffffff, 0xffffffff)
  | .part partial_from _ total_size => (partial_from, total_size)

/-- The client makes of what is sent what was meant, however it arrives. -/
def Decodes (p mime : Text) (v : SendVariant) : Prop := ∃ bytes, v.send p mime = some bytes ∧
  ∀ stream b, stream.flatten = bytes → [] ∉ stream → ∃ r stream', waitResponse stream b = some (some (r, stream')) ∧
    r.header.contentType = mime ∧ r.header.contentLength = p.length ∧
    (r.header.contentPartialStart, r.header.contentPartialTotal) = v.range ∧ r.getResponse = p

/-- The header fits for this length of the payload. -/
def Fits (len : ℕ) (mime : Text) : SendVariant → Prop
  | .full maxage =>
    if maxage ≠ 0 then mime.length + (itoaUnsigned len).length + (itoaUnsigned maxage).length ≤ 127
    else mime.length + (itoaUnsigned len).length ≤ 99
  | .part .. => False

instance (len : ℕ) (mime : Text) : DecidablePred (Fits len mime)
  | .full maxage => inferInstanceAs (Decidable (if maxage ≠ 0 then _ else _))
  | .part .. => instDecidableFalse

end SendVariant

/-- A content type that the client keeps as it is: one line, no blank in front, one field of `Split`, and no quotation marks
around it. -/
structure PlainMime (mime : Text) : Prop where
  line : CR ∉ mime ∧ LF ∉ mime
  front : ∀ b ∈ mime.head?, isSkipped b = false
  single : fieldLength 0x3b none none mime = mime.length
  bare : ¬ (2 ≤ mime.length ∧ mime.head? = mime.getLast? ∧ (mime.head? = some 0x22 ∨ mime.head? = some 0x27))

variable {p mime s t value : Text} {fs : List Field} {v : SendVariant} {h : ResponseHead} {b : RecvPool}
  {stream stream' : List Text} {r : Response} {hdr : ResponseHeader} {maxage len : ℕ}

/-! ### Content types -/

theorem length_unquote_le (s : Text) : (unquote s).length ≤ s.length := by
  unfold unquote
  split
  · rw [List.length_dropLast, List.length_drop]
    omega
  · exact le_rfl

theorem unquote_sublist (s : Text) : (unquote s).Sublist s := by
  unfold unquote
  split
  · exact (List.dropLast_sublist _).trans (List.drop_sublist _ _)
  · exact List.Sublist.refl _

/-- What is read from a value that has been trimmed. -/
def firstField (value : Text) : Text := (splitText 0x3b 4 value).head?.getD []

theorem firstField_eq (value : Text) : firstField value = unquote (value.take (fieldLength 0x3b none none value)) := by
  unfold firstField splitText
  split
  · rename_i hnil
    rw [hnil]
    rfl
  · rfl

theorem firstField_sublist (value : Text) : (firstField value).Sublist value := by
  rw [firstField_eq]
  exact (unquote_sublist _).trans (List.take_sublist _ _)

theorem trimLeftSpace_blank (s : Text) : trimLeftSpace (0x20 :: s) = trimLeftSpace s :=
  List.dropWhile_cons_of_pos (by decide)

theorem fieldLength_le (sep : UInt8) (quote prev : Option UInt8) (s : Text) : fieldLength sep quote prev s ≤ s.length := by
  induction s generalizing quote prev with
  | nil => simp [fieldLength]
  | cons b s ih =>
    rw [List.length_cons]
    cases quote with
    | some q =>
      have hrec := ih (if b = q ∧ prev ≠ some 0x5c then none else some q) (some b)
      simp only [fieldLength]
      omega
    | none =>
      have hopen := ih (some b) (some b)
      have hgo := ih none (some b)
      simp only [fieldLength]
      split
      · omega
      · split <;> omega

/-- Nothing is taken away from a plain one only. -/
theorem firstField_eq_self_iff (hline : CR ∉ mime ∧ LF ∉ mime) :
    firstField (trimLeftSpace (0x20 :: mime)) = mime ↔ PlainMime mime := by
  rw [trimLeftSpace_blank]
  constructor
  · intro heq
    have hsub := firstField_sublist (trimLeftSpace mime)
    rw [heq] at hsub
    have htrim : trimLeftSpace mime = mime := (hsub.antisymm (List.dropWhile_sublist _)).symm
    rw [htrim, firstField_eq] at heq
    have hle := length_unquote_le (mime.take (fieldLength 0x3b none none mime))
    rw [heq, List.length_take] at hle
    have hfield : mime.take (fieldLength 0x3b none none mime) = mime := List.take_of_length_le (by omega)
    rw [hfield] at heq
    refine ⟨hline, ?_, ?_, ?_⟩
    · intro b hb
      cases hm : mime with
      | nil => simp [hm] at hb
      | cons c s =>
        rw [hm] at hb htrim
        cases hb
        by_contra hskip
        rw [Bool.not_eq_false] at hskip
        rw [trimLeftSpace, List.dropWhile_cons_of_pos hskip] at htrim
        have := (List.dropWhile_sublist isSkipped (l := s)).length_le
        rw [htrim, List.length_cons] at this
        omega
    · refine le_antisymm (fieldLength_le _ _ _ _) ?_
      omega
    · intro hquote
      rw [unquote, if_pos hquote] at heq
      have := congrArg List.length heq
      rw [List.length_dropLast, List.length_drop] at this
      omega
  · rintro ⟨-, hfront, hsingle, hbare⟩
    have htrim : trimLeftSpace mime = mime := by
      cases mime with
      | nil => rfl
      | cons c s => exact List.dropWhile_cons_of_neg (by simp [hfront c rfl])
    rw [htrim, firstField_eq, hsingle, List.take_length, unquote, if_neg hbare]

theorem parseContentType_eq (hn : ∃ f ∈ fs, f.Named (ascii "content-type"))
    (hall : ∀ f ∈ fs, f.Named (ascii "content-type") → f.value = value) :
    parseContentType (fieldsOf fs) = firstField (trimLeftSpace value) := by
  obtain ⟨f, hf, hfn, t, ht⟩ := getHeaderField_eq hn
  rw [hall f hf hfn] at ht
  unfold parseContentType
  rw [ht, Option.filter_some]
  by_cases hnil : trimLeftSpace value = []
  · rw [if_neg (by simp [hnil]), hnil]
    rfl
  · rw [if_pos (by simp [hnil])]
    rfl

/-- No line end gets into a content type. -/
theorem notMem_value_of_mem_fieldsFrom {f : HeaderField} {n : ℕ} (hf : f ∈ fieldsFrom n t) : CR ∉ f.value ∧ LF ∉ f.value := by
  induction n generalizing t with
  | zero => simp [fieldsFrom] at hf
  | succ n ih =>
    rw [fieldsFrom] at hf
    cases hline : getNextLine true t with
    | none => simp [hline] at hf
    | some lr =>
      obtain ⟨line, rest⟩ := lr
      simp only [hline, List.mem_append, Option.mem_toList] at hf
      rcases hf with hf | hf
      · obtain ⟨i, -, rfl⟩ := Option.map_eq_some_iff.mp hf
        have hsub : (trimLeftSpace (line.drop (i + 1))).Sublist line :=
          (List.dropWhile_sublist _).trans (List.drop_sublist _ _)
        have hno : ∀ b ∈ line, isNewline b = false := by
          have hl : line = (t.dropWhile isNewline).takeWhile fun b => !isNewline b := by
            unfold getNextLine at hline
            simp only [if_true] at hline
            split at hline
            · cases hline
            · exact (Prod.mk.inj (Option.some.inj hline)).1.symm
          intro b hb
          rw [hl] at hb
          simpa using List.mem_takeWhile_imp hb
        refine ⟨fun hb => ?_, fun hb => ?_⟩
        · exact absurd (hno _ (hsub.subset hb)) (by decide)
        · exact absurd (hno _ (hsub.subset hb)) (by decide)
      · exact ih hf

theorem notMem_contentType (hh : parseHeader t = some hdr) : CR ∉ hdr.contentType ∧ LF ∉ hdr.contentType := by
  have hfields : ∀ fields : List HeaderField, (∀ f ∈ fields, CR ∉ f.value ∧ LF ∉ f.value) →
      CR ∉ parseContentType fields ∧ LF ∉ parseContentType fields := by
    intro fields hall
    unfold parseContentType
    cases hget : getHeaderField fields (ascii "content-type") with
    | none => simp
    | some f =>
      have hmem : f ∈ fields := by
        unfold getHeaderField at hget
        exact List.mem_of_find?_eq_some (Option.filter_eq_some_iff.mp hget).1
      have hsub := firstField_sublist f.value
      exact ⟨fun hb => (hall f hmem).1 (hsub.subset hb), fun hb => (hall f hmem).2 (hsub.subset hb)⟩
  unfold parseHeader at hh
  cases hline : getNextLine true t with
  | none =>
    simp only [hline, Option.some.injEq] at hh
    subst hh
    exact ⟨by simp [ResponseHeader.init], by simp [ResponseHeader.init]⟩
  | some lr =>
    obtain ⟨line, rest⟩ := lr
    simp only [hline] at hh
    cases hstatus : scanStatus (t.dropWhile isNewline) with
    | none =>
      simp only [hstatus, Option.some.injEq] at hh
      subst hh
      exact ⟨by simp [ResponseHeader.init], by simp [ResponseHeader.init]⟩
    | some st =>
      obtain ⟨major, minor, code⟩ := st
      simp only [hstatus, Option.bind_eq_bind, Option.bind_eq_some_iff, Option.some.injEq] at hh
      obtain ⟨_, -, _, -, rfl⟩ := hh
      refine hfields _ ?_
      split
      · simp
      · exact fun f hf => notMem_value_of_mem_fieldsFrom hf

/-- What `WaitResponse` has as header was parsed. -/
theorem parseHeader_of_waitResponse (hr : waitResponse stream b = some (some (r, stream'))) :
    ∃ t, parseHeader t = some r.header := by
  unfold waitResponse at hr
  simp only [Option.bind_eq_bind, Option.bind_eq_some_iff] at hr
  obtain ⟨⟨found, b₁, s₁⟩, -, hr⟩ := hr
  cases found with
  | false => simp at hr
  | true =>
    simp only at hr
    rcases hu : recvUntil (CRLF ++ CRLF) s₁ b₁ with ⟨_ | n, b₂, s₂⟩
    · simp [hu] at hr
    · simp only [hu, Option.bind_eq_some_iff, Option.map_eq_some_iff] at hr
      obtain ⟨header, hparse, ⟨done, b₃, s₃⟩, -, hfin⟩ := hr
      cases done with
      | false => cases hfin
      | true =>
        cases hfin
        exact ⟨_, hparse⟩

/-! ### The two headers as fields -/

theorem itoa_natCast (n : ℕ) : itoa n = itoaUnsigned n := itoa_of_nonneg (Int.natCast_nonneg n)

theorem digit_ok {n : ℕ} {b : UInt8} (hb : b ∈ itoaUnsigned n) : b ≠ 0 ∧ b ≠ CR ∧ b ≠ LF := by
  have hd := isDigit_of_mem_itoaUnsigned hb
  refine ⟨?_, ?_, ?_⟩ <;> rintro rfl <;> exact absurd hd (by decide)

theorem notMem_itoaUnsigned (n : ℕ) : 0 ∉ itoaUnsigned n ∧ CR ∉ itoaUnsigned n ∧ LF ∉ itoaUnsigned n :=
  ⟨fun hb => (digit_ok hb).1 rfl, fun hb => (digit_ok hb).2.1 rfl, fun hb => (digit_ok hb).2.2 rfl⟩

/-- The last fields of the header for a whole document. -/
def cacheFields (maxage : ℕ) : List Field :=
  if maxage ≠ 0 then [⟨ascii "Cache-Control", ascii " max-age=" ++ itoaUnsigned maxage⟩]
  else [⟨ascii "Cache-Control", ascii " no-cache, no-store"⟩, ⟨ascii "Pragma", ascii " no-cache"⟩]

def fullFields (len : ℕ) (mime : Text) (maxage : ℕ) : List Field :=
  [⟨ascii "Connection", ascii " close"⟩, ⟨ascii "Access-Control-Allow-Origin", ascii " *"⟩,
    ⟨ascii "Content-Type", 0x20 :: mime⟩, ⟨ascii "Content-Length", 0x20 :: itoaUnsigned len⟩] ++ cacheFields maxage

theorem wellFormed_number {name blank : Text} (hname : IsFieldName name) (hblank : 0 ∉ blank ∧ CR ∉ blank ∧ LF ∉ blank)
    (n : ℕ) : Field.WellFormed ⟨name, blank ++ itoaUnsigned n⟩ := by
  obtain ⟨d0, dcr, dlf⟩ := notMem_itoaUnsigned n
  refine ⟨hname, ?_⟩
  simp only [List.mem_append, not_or]
  exact ⟨⟨hblank.1, d0⟩, ⟨hblank.2.1, dcr⟩, hblank.2.2, dlf⟩

theorem wellFormed_mime (hmime : 0 ∉ mime ∧ CR ∉ mime ∧ LF ∉ mime) :
    Field.WellFormed ⟨ascii "Content-Type", 0x20 :: mime⟩ := by
  have hname : IsFieldName (ascii "Content-Type") := Field.isFieldName_of_all (by decide) (by decide)
  refine ⟨hname, ?_⟩
  simp only [List.mem_cons, not_or]
  exact ⟨⟨by decide, hmime.1⟩, ⟨by decide, hmime.2.1⟩, by decide, hmime.2.2⟩

theorem fullFields_ok (hmime : 0 ∉ mime ∧ CR ∉ mime ∧ LF ∉ mime) : ∀ f ∈ fullFields len mime maxage, f.WellFormed := by
  have hcache : ∀ f ∈ cacheFields maxage, f.WellFormed := by
    unfold cacheFields
    split
    · intro f hf
      rw [List.mem_singleton] at hf
      subst hf
      have hname : IsFieldName (ascii "Cache-Control") := Field.isFieldName_of_all (by decide) (by decide)
      exact wellFormed_number hname (by decide) maxage
    · intro f hf
      simp only [List.mem_cons, List.not_mem_nil, or_false] at hf
      rcases hf with rfl | rfl
      · exact ⟨Field.isFieldName_of_all (by decide) (by decide), by decide⟩
      · exact ⟨Field.isFieldName_of_all (by decide) (by decide), by decide⟩
  intro f hf
  simp only [fullFields, List.mem_append, List.mem_cons, List.not_mem_nil, or_false] at hf
  rcases hf with (rfl | rfl | rfl | rfl) | hf
  · exact ⟨Field.isFieldName_of_all (by decide) (by decide), by decide⟩
  · exact ⟨Field.isFieldName_of_all (by decide) (by decide), by decide⟩
  · exact wellFormed_mime hmime
  · have hname : IsFieldName (ascii "Content-Length") := Field.isFieldName_of_all (by decide) (by decide)
    exact @wellFormed_number _ [0x20] hname (by decide) len
  · exact hcache f hf

theorem sendHeader_eq (hmime : 0 ∉ mime ∧ CR ∉ mime ∧ LF ∉ mime) :
    sendHeader len mime maxage = (okHead (fullFields len mime maxage) (fullFields_ok hmime)).bytes := by
  have hstart : ascii "HTTP/1.1 200 OK\r\nConnection: close\r\nAccess-Control-Allow-Origin: *\r\nContent-Type: " =
      joinLines [ascii "HTTP/1.1 200 OK", ascii "Connection: close", ascii "Access-Control-Allow-Origin: *"] ++
        ascii "Content-Type: " := by decide
  have hlength : ascii "\r\nContent-Length: " = CRLF ++ ascii "Content-Length: " := by decide
  have hcache : ascii "\r\nCache-Control: " = CRLF ++ ascii "Cache-Control: " := by decide
  have hnone : ascii "no-cache, no-store\r\nPragma: no-cache\r\n" =
      ascii "no-cache, no-store" ++ CRLF ++ ascii "Pragma: no-cache" ++ CRLF := by decide
  have hlast : ascii "Cache-Control: " ++ ((if maxage ≠ 0 then ascii "max-age=" ++ itoaUnsigned maxage ++ [CR, LF]
      else ascii "no-cache, no-store\r\nPragma: no-cache\r\n")) = joinLines ((cacheFields maxage).map Field.line) := by
    unfold cacheFields
    split
    · have h1 : ascii "Cache-Control: " ++ ascii "max-age=" = ascii "Cache-Control" ++ Ch.colon :: ascii " max-age=" := by
        decide
      rw [List.append_assoc (ascii "max-age="), ← List.append_assoc (ascii "Cache-Control: "), h1]
      simp [joinLines, Field.line, CRLF]
    · rw [hnone]
      decide
  have htype : Field.line ⟨ascii "Content-Type", 0x20 :: mime⟩ = ascii "Content-Type: " ++ mime := by
    rw [show ascii "Content-Type: " = ascii "Content-Type" ++ [Ch.colon, 0x20] by decide]
    simp [Field.line]
  have hlen : Field.line ⟨ascii "Content-Length", 0x20 :: itoaUnsigned len⟩ = ascii "Content-Length: " ++ itoaUnsigned len := by
    rw [show ascii "Content-Length: " = ascii "Content-Length" ++ [Ch.colon, 0x20] by decide]
    simp [Field.line]
  have hlines : (okHead (fullFields len mime maxage) (fullFields_ok hmime)).lines =
      [ascii "HTTP/1.1 200 OK", ascii "Connection: close", ascii "Access-Control-Allow-Origin: *"] ++
        ([ascii "Content-Type: " ++ mime, ascii "Content-Length: " ++ itoaUnsigned len] ++
          (cacheFields maxage).map Field.line) := by
    have hfirst : (okHead [] (by simp)).statusLine :: [Field.line ⟨ascii "Connection", ascii " close"⟩,
        Field.line ⟨ascii "Access-Control-Allow-Origin", ascii " *"⟩] =
        [ascii "HTTP/1.1 200 OK", ascii "Connection: close", ascii "Access-Control-Allow-Origin: *"] := by decide
    rw [← hfirst, ← htype, ← hlen]
    rfl
  rw [ResponseHead.bytes, hlines, joinLines_append, joinLines_append, ← hlast, sendHeader, hstart, hlength, hcache,
    itoa_natCast]
  simp [joinLines, CRLF]

/-- The header for a part, up to its second empty line. -/
def partFields (len : ℕ) (mime : Text) (partial_from partial_to total_size : ℕ) : List Field :=
  [⟨ascii "Access-Control-Allow-Origin", ascii " *"⟩, ⟨ascii "Connection", ascii " close"⟩,
    ⟨ascii "Content-Type", 0x20 :: mime⟩,
    ⟨ascii "Content-Length", 0x20 :: itoaUnsigned len ++ ascii "Content-Range: bytes " ++ itoaUnsigned partial_from ++
      [Ch.minus] ++ itoaUnsigned partial_to ++ [Ch.slash] ++ itoaUnsigned total_size⟩]

variable {partial_from partial_to total_size : ℕ}

theorem partFields_ok (hmime : 0 ∉ mime ∧ CR ∉ mime ∧ LF ∉ mime) :
    ∀ f ∈ partFields len mime partial_from partial_to total_size, f.WellFormed := by
  intro f hf
  simp only [partFields, List.mem_cons, List.not_mem_nil, or_false] at hf
  rcases hf with rfl | rfl | rfl | rfl
  · exact ⟨Field.isFieldName_of_all (by decide) (by decide), by decide⟩
  · exact ⟨Field.isFieldName_of_all (by decide) (by decide), by decide⟩
  · exact wellFormed_mime hmime
  · have hname : IsFieldName (ascii "Content-Length") := Field.isFieldName_of_all (by decide) (by decide)
    have hrange : 0 ∉ ascii "Content-Range: bytes " ∧ CR ∉ ascii "Content-Range: bytes " ∧
        LF ∉ ascii "Content-Range: bytes " := by decide
    have h1 := notMem_itoaUnsigned len
    have h2 := notMem_itoaUnsigned partial_from
    have h3 := notMem_itoaUnsigned partial_to
    have h4 := notMem_itoaUnsigned total_size
    refine ⟨hname, ?_⟩
    simp only [List.mem_append, List.mem_cons, List.not_mem_nil, or_false, not_or]
    exact ⟨⟨⟨⟨⟨⟨⟨⟨by decide, h1.1⟩, hrange.1⟩, h2.1⟩, by decide⟩, h3.1⟩, by decide⟩, h4.1⟩,
      ⟨⟨⟨⟨⟨⟨⟨by decide, h1.2.1⟩, hrange.2.1⟩, h2.2.1⟩, by decide⟩, h3.2.1⟩, by decide⟩, h4.2.1⟩,
      ⟨⟨⟨⟨⟨⟨by decide, h1.2.2⟩, hrange.2.2⟩, h2.2.2⟩, by decide⟩, h3.2.2⟩, by decide⟩, h4.2.2⟩

def partHead (len : ℕ) (mime : Text) (partial_from partial_to total_size : ℕ) (hmime : 0 ∉ mime ∧ CR ∉ mime ∧ LF ∉ mime) :
    ResponseHead :=
  { okHead (partFields len mime partial_from partial_to total_size) (partFields_ok hmime) with
    reason := ascii " Partial Content"
    reason_ok := by decide +kernel }

theorem sendPartialHeader_eq (hmime : 0 ∉ mime ∧ CR ∉ mime ∧ LF ∉ mime) :
    sendPartialHeader len mime partial_from partial_to total_size =
      (partHead len mime partial_from partial_to total_size hmime).bytes ++
        ascii "Cache-Control: no-cache, no-store\r\nPragma: no-cache\r\n\r\n" := by
  have hstart : ascii "HTTP/1.1 200 Partial Content\r\nAccess-Control-Allow-Origin: *\r\nConnection: close\r\nContent-Type: " =
      joinLines [ascii "HTTP/1.1 200 Partial Content", ascii "Access-Control-Allow-Origin: *", ascii "Connection: close"] ++
        ascii "Content-Type: " := by decide
  have hlength : ascii "\r\nContent-Length: " = CRLF ++ ascii "Content-Length: " := by decide
  have hrest : ascii "\r\n" ++ ascii "\r\nCache-Control: no-cache, no-store\r\nPragma: no-cache\r\n\r\n" =
      CRLF ++ (CRLF ++ ascii "Cache-Control: no-cache, no-store\r\nPragma: no-cache\r\n\r\n") := by decide
  have hcolon : ascii "Content-Type: " = ascii "Content-Type" ++ [Ch.colon, 0x20] := by decide
  have hcolon' : ascii "Content-Length: " = ascii "Content-Length" ++ [Ch.colon, 0x20] := by decide
  have hlines : (partHead len mime partial_from partial_to total_size hmime).lines =
      [ascii "HTTP/1.1 200 Partial Content", ascii "Access-Control-Allow-Origin: *", ascii "Connection: close"] ++
        [ascii "Content-Type: " ++ mime, ascii "Content-Length: " ++ itoaUnsigned len ++ ascii "Content-Range: bytes " ++
          itoaUnsigned partial_from ++ [Ch.minus] ++ itoaUnsigned partial_to ++ [Ch.slash] ++ itoaUnsigned total_size] := by
    have hfirst : (partHead 0 [] 0 0 0 (by simp)).statusLine :: [Field.line ⟨ascii "Access-Control-Allow-Origin", ascii " *"⟩,
        Field.line ⟨ascii "Connection", ascii " close"⟩] =
        [ascii "HTTP/1.1 200 Partial Content", ascii "Access-Control-Allow-Origin: *", ascii "Connection: close"] := by
      decide
    rw [← hfirst, hcolon, hcolon']
    simp [ResponseHead.lines, partHead, okHead, partFields, Field.line, ResponseHead.statusLine]
  rw [ResponseHead.bytes, hlines, joinLines_append, sendPartialHeader, hstart, hlength, itoa_natCast, List.append_assoc,
    hrest]
  simp [joinLines]

/-! ### What the client makes of them -/

theorem length_sendHeader : (sendHeader len mime maxage).length =
    if maxage ≠ 0 then mime.length + (itoaUnsigned len).length + (itoaUnsigned maxage).length + 129
    else mime.length + (itoaUnsigned len).length + 157 := by
  have hstart : (ascii "HTTP/1.1 200 OK\r\nConnection: close\r\nAccess-Control-Allow-Origin: *\r\nContent-Type: ").length =
      82 := by decide
  have hlength : (ascii "\r\nContent-Length: ").length = 18 := by decide
  have hcache : (ascii "\r\nCache-Control: ").length = 17 := by decide
  have hage : (ascii "max-age=").length = 8 := by decide
  have hnone : (ascii "no-cache, no-store\r\nPragma: no-cache\r\n").length = 38 := by decide
  unfold sendHeader
  split
  · simp only [List.length_append, hstart, hlength, hcache, hage, itoa_natCast, List.length_cons, List.length_nil]
    omega
  · simp only [List.length_append, hstart, hlength, hcache, hnone, itoa_natCast, List.length_cons, List.length_nil]
    omega

theorem fits_iff : (SendVariant.full maxage).Fits len mime ↔ (sendHeader len mime maxage).length ≤ HEADER_SIZE := by
  rw [length_sendHeader]
  unfold SendVariant.Fits HEADER_SIZE
  by_cases h : maxage ≠ 0
  · simp only [if_pos h]
    omega
  · simp only [if_neg h]
    omega

theorem parseContentRange_none (hn : ∀ f ∈ fs, ¬ f.Named (ascii "content-range")) :
    parseContentRange (fieldsOf fs) = (0xffffffff, 0xffffffff) := by
  unfold parseContentRange
  rw [getHeaderField_eq_none hn]

/-- The name alone tells whether a field is one of that name. -/
theorem not_named {f : Field} {n name : Text} (hf : f.name = name) (hn : makeLower name ≠ n) : ¬ f.Named n := by
  intro h
  unfold Field.Named at h
  rw [hf] at h
  exact hn h

theorem mem_cacheFields {f : Field} (hf : f ∈ cacheFields maxage) :
    f.name = ascii "Cache-Control" ∨ f.name = ascii "Pragma" := by
  unfold cacheFields at hf
  split at hf
  · exact .inl (congrArg Field.name (List.mem_singleton.mp hf))
  · simp only [List.mem_cons, List.not_mem_nil, or_false] at hf
    rcases hf with rfl | rfl
    · exact .inl rfl
    · exact .inr rfl

/-- Each field that the client looks for is there once or not at all. -/
theorem mem_fullFields {f : Field} (hf : f ∈ fullFields len mime maxage) :
    (f.Named (ascii "content-type") → f.value = 0x20 :: mime) ∧
    (f.Named (ascii "content-length") → f.value = 0x20 :: itoaUnsigned len) ∧
    ¬ f.Named (ascii "transfer-encoding") ∧ ¬ f.Named (ascii "content-range") := by
  have hother : ∀ name : Text, makeLower name ≠ ascii "content-type" ∧ makeLower name ≠ ascii "content-length" ∧
      makeLower name ≠ ascii "transfer-encoding" ∧ makeLower name ≠ ascii "content-range" → f.name = name →
      (f.Named (ascii "content-type") → f.value = 0x20 :: mime) ∧
      (f.Named (ascii "content-length") → f.value = 0x20 :: itoaUnsigned len) ∧
      ¬ f.Named (ascii "transfer-encoding") ∧ ¬ f.Named (ascii "content-range") := by
    rintro name ⟨h1, h2, h3, h4⟩ hname
    exact ⟨fun h => absurd h (not_named hname h1), fun h => absurd h (not_named hname h2), not_named hname h3,
      not_named hname h4⟩
  have htype : makeLower (ascii "Content-Type") ≠ ascii "content-length" ∧
      makeLower (ascii "Content-Type") ≠ ascii "transfer-encoding" ∧
      makeLower (ascii "Content-Type") ≠ ascii "content-range" := by decide
  have hlength : makeLower (ascii "Content-Length") ≠ ascii "content-type" ∧
      makeLower (ascii "Content-Length") ≠ ascii "transfer-encoding" ∧
      makeLower (ascii "Content-Length") ≠ ascii "content-range" := by decide
  simp only [fullFields, List.mem_append, List.mem_cons, List.not_mem_nil, or_false] at hf
  rcases hf with (hf | hf | hf | hf) | hf
  · exact hother _ (by decide) (congrArg Field.name hf)
  · exact hother _ (by decide) (congrArg Field.name hf)
  · have hname := congrArg Field.name hf
    exact ⟨fun _ => congrArg Field.value hf, fun h => absurd h (not_named hname htype.1), not_named hname htype.2.1,
      not_named hname htype.2.2⟩
  · have hname := congrArg Field.name hf
    exact ⟨fun h => absurd h (not_named hname hlength.1), fun _ => congrArg Field.value hf, not_named hname hlength.2.1,
      not_named hname hlength.2.2⟩
  · rcases mem_cacheFields hf with hname | hname
    · exact hother _ (by decide) hname
    · exact hother _ (by decide) hname

theorem contentType_mem_fullFields (len : ℕ) (mime : Text) (maxage : ℕ) :
    ∃ f ∈ fullFields len mime maxage, f.Named (ascii "content-type") := by
  have hname : makeLower (ascii "Content-Type") = ascii "content-type" := by decide
  exact ⟨⟨ascii "Content-Type", 0x20 :: mime⟩, by simp [fullFields], hname⟩

theorem contentLength_full (hmime : 0 ∉ mime ∧ CR ∉ mime ∧ LF ∉ mime) :
    (okHead (fullFields len mime maxage) (fullFields_ok hmime)).ContentLength (itoaUnsigned len) := by
  have hname : makeLower (ascii "Content-Length") = ascii "content-length" := by decide
  refine ⟨⟨⟨ascii "Content-Length", 0x20 :: itoaUnsigned len⟩, by simp [okHead, fullFields], hname⟩, ?_, ?_, ?_⟩
  · intro f hf hfn
    rw [(mem_fullFields hf).2.1 hfn]
    exact ⟨[0x20], [], by simp, by simp, by simp⟩
  · exact ⟨itoaUnsigned_ne_nil len, fun b hb => isDigit_of_mem_itoaUnsigned hb⟩
  · exact fun f hf => (mem_fullFields hf).2.2.1

/-- No field for the range comes out of the header for a part. -/
theorem mem_partFields {f : Field} (hf : f ∈ partFields len mime partial_from partial_to total_size) :
    ¬ f.Named (ascii "content-range") := by
  simp only [partFields, List.mem_cons, List.not_mem_nil, or_false] at hf
  have hnames : makeLower (ascii "Access-Control-Allow-Origin") ≠ ascii "content-range" ∧
      makeLower (ascii "Connection") ≠ ascii "content-range" ∧ makeLower (ascii "Content-Type") ≠ ascii "content-range" ∧
      makeLower (ascii "Content-Length") ≠ ascii "content-range" := by decide
  rcases hf with hf | hf | hf | hf
  · exact not_named (congrArg Field.name hf) hnames.1
  · exact not_named (congrArg Field.name hf) hnames.2.1
  · exact not_named (congrArg Field.name hf) hnames.2.2.1
  · exact not_named (congrArg Field.name hf) hnames.2.2.2

theorem length_itoaLoop_le {m v j : ℕ} (hj : 0 < j) (hv : v < 10 ^ j) : (itoaLoop m v).length ≤ j := by
  induction m generalizing v j with
  | zero => simp [itoaLoop]
  | succ m ih =>
    rw [itoaLoop, List.length_cons]
    split
    · rw [List.length_nil]
      omega
    · rename_i hne
      obtain ⟨j, rfl⟩ := Nat.exists_eq_succ_of_ne_zero hj.ne'
      have hdiv : v / 10 < 10 ^ j := by
        rw [Nat.div_lt_iff_lt_mul (by decide), ← pow_succ]
        exact hv
      have hj' : 0 < j := by
        by_contra h0
        rw [show j = 0 by omega, pow_zero] at hdiv
        omega
      have := ih hj' hdiv
      omega

theorem length_itoaUnsigned_le {n : ℕ} (hn : n < 2 ^ 32) : (itoaUnsigned n).length ≤ 19 := by
  rw [itoaUnsigned, List.length_reverse]
  exact length_itoaLoop_le (by decide) (hn.trans (by decide))

/-- The header that is found at the begin of a connection. -/
theorem parsed_of_waitResponse {content : Text} (hstream : stream.flatten = h.bytes ++ content) (hreceived : [] ∉ stream)
    (hr : waitResponse stream b = some (some (r, stream'))) : ∃ n c, r.header = h.parsed n c := by
  have hleft : stream.flatten = [] ++ (h.bytes ++ content) := hstream
  obtain ⟨b₂, s₂, -, -, -, hwait⟩ := waitResponse_eq hleft hreceived (by simp) (by decide) (headSeen_nil hstream) b
  rw [hr, h.parseHeader_eq] at hwait
  obtain ⟨hdr, hparse, hbody⟩ := Option.bind_eq_some_iff.mp hwait.symm
  obtain ⟨n, -, hmap⟩ := Option.bind_eq_some_iff.mp hparse
  obtain ⟨c, -, rfl⟩ := Option.map_eq_some_iff.mp hmap
  obtain ⟨⟨done, b₃, s₃⟩, -, hfin⟩ := Option.map_eq_some_iff.mp hbody
  refine ⟨n, c, ?_⟩
  cases done with
  | false => cases hfin
  | true =>
    cases hfin
    rfl

theorem not_decodes_part (h0 : 0 ∉ mime) (hv : (SendVariant.part partial_from partial_to total_size).InRange) :
    ¬ (SendVariant.part partial_from partial_to total_size).Decodes p mime := by
  rintro ⟨bytes, hsend, hall⟩
  unfold SendVariant.send at hsend
  split at hsend
  · cases hsend
    set bytes := (SendVariant.part partial_from partial_to total_size).header p.length mime ++ p with hbytes
    have hne : bytes ≠ [] := by
      have hlen : (ascii "\r\n").length = 2 := by decide
      intro hnil
      have := congrArg List.length hnil
      rw [hbytes, SendVariant.header, sendPartialHeader] at this
      simp only [List.length_append, hlen, List.length_nil] at this
      omega
    obtain ⟨r, stream', hr, htype, -, hrange, -⟩ := hall [bytes] ⟨[], [], 0⟩ (by simp) (by simpa using hne.symm)
    obtain ⟨t, hparse⟩ := parseHeader_of_waitResponse hr
    obtain ⟨hcr, hlf⟩ := notMem_contentType hparse
    rw [htype] at hcr hlf
    have hstream : [bytes].flatten = (partHead p.length mime partial_from partial_to total_size ⟨h0, hcr, hlf⟩).bytes ++
        (ascii "Cache-Control: no-cache, no-store\r\nPragma: no-cache\r\n\r\n" ++ p) := by
      rw [← List.append_assoc, ← sendPartialHeader_eq ⟨h0, hcr, hlf⟩]
      simp [hbytes, SendVariant.header]
    obtain ⟨n, c, hhdr⟩ := parsed_of_waitResponse hstream (by simpa using hne.symm) hr
    have hnone : parseContentRange (fieldsOf (partFields p.length mime partial_from partial_to total_size)) =
        (0xffffffff, 0xffffffff) := parseContentRange_none fun f hf => mem_partFields hf
    have hstart : r.header.contentPartialStart = 0xffffffff := by
      rw [hhdr]
      exact congrArg Prod.fst hnone
    have htotal : r.header.contentPartialTotal = 0xffffffff := by
      rw [hhdr]
      exact congrArg Prod.snd hnone
    rw [hstart, htotal] at hrange
    have hfrom : 0xffffffff = partial_from := congrArg Prod.fst hrange
    have htotal' : 0xffffffff = total_size := congrArg Prod.snd hrange
    obtain ⟨hle, hlt, -⟩ := hv
    omega
  · cases hsend

/-- What is found in the header for a whole document. -/
theorem contentType_full :
    parseContentType (fieldsOf (fullFields len mime maxage)) = firstField (trimLeftSpace (0x20 :: mime)) :=
  parseContentType_eq (contentType_mem_fullFields len mime maxage) fun _ hf => (mem_fullFields hf).1

theorem not_decodes_of_mime (h0 : 0 ∉ mime) (hplain : ¬ PlainMime mime) :
    ¬ (SendVariant.full maxage).Decodes p mime := by
  rintro ⟨bytes, hsend, hall⟩
  unfold SendVariant.send at hsend
  split at hsend
  · cases hsend
    set bytes := (SendVariant.full maxage).header p.length mime ++ p with hbytes
    have hne : bytes ≠ [] := by
      intro hnil
      have := congrArg List.length hnil
      rw [hbytes, SendVariant.header, sendHeader] at this
      simp at this
    obtain ⟨r, stream', hr, htype, -, -, -⟩ := hall [bytes] ⟨[], [], 0⟩ (by simp) (by simpa using hne.symm)
    obtain ⟨t, hparse⟩ := parseHeader_of_waitResponse hr
    have hline := notMem_contentType hparse
    rw [htype] at hline
    have hstream : [bytes].flatten = (okHead (fullFields p.length mime maxage) (fullFields_ok ⟨h0, hline⟩)).bytes ++ p := by
      rw [← sendHeader_eq ⟨h0, hline⟩]
      simp [hbytes, SendVariant.header]
    obtain ⟨n, c, hhdr⟩ := parsed_of_waitResponse hstream (by simpa using hne.symm) hr
    rw [hhdr] at htype
    exact hplain ((firstField_eq_self_iff hline).mp (contentType_full.symm.trans htype))
  · cases hsend

theorem decodes_full (hp : p.length < 2 ^ 31) (h0 : 0 ∉ mime) (hfits : (SendVariant.full maxage).Fits p.length mime)
    (hplain : PlainMime mime) : (SendVariant.full maxage).Decodes p mime := by
  have hmime : 0 ∉ mime ∧ CR ∉ mime ∧ LF ∉ mime := ⟨h0, hplain.line⟩
  have hheader := fits_iff.mp hfits
  refine ⟨sendHeader p.length mime maxage ++ p, if_pos hheader, ?_⟩
  intro stream b hstream hreceived
  rw [sendHeader_eq hmime] at hstream hheader
  have hsize : ((okHead (fullFields p.length mime maxage) (fullFields_ok hmime)).bytes ++ p).length < 2 ^ 32 := by
    unfold HEADER_SIZE at hheader
    rw [List.length_append]
    omega
  have hleft : stream.flatten = [] ++ ((okHead (fullFields p.length mime maxage) (fullFields_ok hmime)).bytes ++ p) := hstream
  have hannounced : (okHead (fullFields p.length mime maxage) (fullFields_ok hmime)).ContentLength (itoaUnsigned p.length) :=
    contentLength_full hmime
  obtain ⟨r, hr, hanswers⟩ := waitResponse_contentLength hleft hreceived (by simp) (by decide) (headSeen_nil hstream)
    hannounced (length_itoaUnsigned_le (by omega)) (digitsValue_itoaUnsigned _) hsize b
  have hhdr : (okHead (fullFields p.length mime maxage) (fullFields_ok hmime)).parsed p.length false = r.header := by
    have hlength := parseContentLength_eq hannounced (length_itoaUnsigned_le (by omega))
      (by rw [digitsValue_itoaUnsigned]; omega)
    have := hanswers.parsed
    rw [ResponseHead.parseHeader_eq, hlength, digitsValue_itoaUnsigned,
      parseChunkedTransfer_none hannounced.2.2.2] at this
    exact Option.some.inj this
  have hnone : parseContentRange (fieldsOf (fullFields p.length mime maxage)) = (0xffffffff, 0xffffffff) :=
    parseContentRange_none fun f hf => (mem_fullFields hf).2.2.2
  refine ⟨r, [], hr, ?_, ?_, ?_, hanswers.response⟩
  · rw [← hhdr]
    exact contentType_full.trans ((firstField_eq_self_iff hplain.line).mpr hplain)
  · rw [← hhdr]
    rfl
  · rw [← hhdr]
    exact hnone

/-- **The client makes of a response what the server meant** for whole documents whose header fits and whose type is plain,
and for no part of one. -/
theorem send_decodes_iff (p mime : Text) (v : SendVariant) (hp : p.length < 2 ^ 31) (h0 : 0 ∉ mime) (hv : v.InRange) :
    v.Decodes p mime ↔ v.Fits p.length mime ∧ PlainMime mime := by
  cases v with
  | full maxage =>
    constructor
    · intro h
      refine ⟨?_, by_contra fun hplain => not_decodes_of_mime h0 hplain h⟩
      obtain ⟨bytes, hsend, -⟩ := h
      unfold SendVariant.send at hsend
      split at hsend
      · rename_i hle
        exact fits_iff.mpr hle
      · cases hsend
    · rintro ⟨hfits, hplain⟩
      exact decodes_full hp h0 hfits hplain
  | part partial_from partial_to total_size =>
    constructor
    · intro h
      exact absurd h (not_decodes_part h0 hv)
    · rintro ⟨hfits, -⟩
      exact hfits.elim

theorem send_decodes_iff_html : (SendVariant.full 0).Decodes (ascii "<p>Hello</p>") (ascii "text/html") :=
  (send_decodes_iff (ascii "<p>Hello</p>") (ascii "text/html") (.full 0) (by decide) (by decide)
    (by decide +kernel)).mpr ⟨by decide +kernel, by decide +kernel, by decide +kernel, by decide +kernel, by decide +kernel⟩

/-- The first five bytes of a document of ten. -/
theorem send_not_decoded : ¬ ∀ (p mime : Text) (v : SendVariant), p.length < 2 ^ 31 → 0 ∉ mime → v.InRange →
    v.Decodes p mime := by
  intro h
  have hv : (SendVariant.part 0 4 10).InRange := by decide
  have hmime : 0 ∉ ascii "text/html" := by decide
  exact not_decodes_part hmime hv (h (ascii "Hello") (ascii "text/html") (.part 0 4 10) (by decide) hmime hv)

end Cpcf.Inet
