import Cpcf.Inet.HeaderLines
import Cpcf.Inet.Request

/-!
A well-formed request comes out of `OnDataRecv` the same however its bytes arrive.

What is kept between two calls is either a part of the header, as it was sent, or the whole header with a terminator in
its last line end. The last call gives the request, and each one before it asks for more.
-/

namespace Cpcf.Inet

open Cpcf.Lib.Search Cpcf.Rt

/-! ### Well-formed requests -/

/-- The verb and the blank behind it. -/
def Verb.text : Verb → Text
  | .GET => ascii "GET "
  | .POST => ascii "POST "

def requestLine (verb : Verb) (target version : Text) : Text :=
  verb.text ++ target ++ 0x20 :: ascii "HTTP/1." ++ version

/-- A request. `contentLength` is what stands in the field of that name, if there is one. -/
structure Message where
  verb : Verb
  target : Text
  version : Text
  before : List Text
  contentLength : Option Text
  after : List Text
  body : Text
  target_ok : target ≠ [] ∧ 0 ∉ target ∧ CR ∉ target ∧ LF ∉ target ∧ 0x20 ∉ target
  version_ok : 0 ∉ version ∧ CR ∉ version ∧ LF ∉ version
  fields_ok : ∀ l ∈ before ++ after, IsLine l
  number_ok : ∀ n ∈ contentLength, ∀ b ∈ n, isDigit b = true
  announced : (contentLength.map (digitsValue 0)).getD 0 = body.length
  limited : body.length ≤ HTTP_REQUEST_SIZEMAX
  only : ∀ l ∈ requestLine verb target version :: (before ++ after), ¬ ascii "Content-Length: " <:+: l

namespace Message

variable (m : Message)

def fields : List Text :=
  m.before ++ (m.contentLength.map (ascii "Content-Length: " ++ ·)).toList ++ m.after

def lines : List Text := requestLine m.verb m.target m.version :: m.fields

def header : Text := joinLines m.lines ++ CRLF

def bytes : Text := m.header ++ m.body

/-- What is to be read from it. -/
def request : Request where
  HttpVerb := m.verb
  URI := (splitQuery (convertToUTF8 m.target)).1
  Query := (splitQuery (convertToUTF8 m.target)).2
  RemainHeader := joinLines m.fields
  Body := m.body

/-- The request line has no second `HTTP/1.` behind its fifth byte. -/
def VersionOnce : Prop := ¬ ascii "HTTP/1." <:+: (m.verb.text ++ m.target).drop 5

end Message

namespace Message

variable {m : Message} {p b c sent : Text} {st : RecvBuf} {i : ℕ}

theorem isLine_requestLine (m : Message) : IsLine (requestLine m.verb m.target m.version) := by
  obtain ⟨-, t0, tcr, tlf, -⟩ := m.target_ok
  obtain ⟨v0, vcr, vlf⟩ := m.version_ok
  have hv : 0 ∉ m.verb.text ∧ CR ∉ m.verb.text ∧ LF ∉ m.verb.text := by cases m.verb <;> decide
  have hh : 0 ∉ ascii "HTTP/1." ∧ CR ∉ ascii "HTTP/1." ∧ LF ∉ ascii "HTTP/1." := by decide
  unfold requestLine
  refine ⟨by simp, ?_, ?_, ?_⟩
  · simp [hv.1, hh.1, t0, v0]
  · simp [hv.2.1, hh.2.1, tcr, vcr]
    decide
  · simp [hv.2.2, hh.2.2, tlf, vlf]
    decide

theorem isLine_contentLength {n : Text} (h : ∀ b ∈ n, isDigit b = true) : IsLine (ascii "Content-Length: " ++ n) := by
  have hn : 0 ∉ n ∧ CR ∉ n ∧ LF ∉ n :=
    ⟨fun h0 => absurd (h _ h0) (by decide), fun h0 => absurd (h _ h0) (by decide), fun h0 => absurd (h _ h0) (by decide)⟩
  have hc : 0 ∉ ascii "Content-Length: " ∧ CR ∉ ascii "Content-Length: " ∧ LF ∉ ascii "Content-Length: " := by decide
  refine ⟨?_, ?_, ?_, ?_⟩
  · intro h
    exact absurd (List.append_eq_nil_iff.mp h).1 (by decide)
  all_goals rw [List.mem_append, not_or]
  · exact ⟨hc.1, hn.1⟩
  · exact ⟨hc.2.1, hn.2.1⟩
  · exact ⟨hc.2.2, hn.2.2⟩

theorem isLine_of_mem (m : Message) : ∀ l ∈ m.lines, IsLine l := by
  intro l hl
  unfold lines fields at hl
  simp only [List.mem_cons, List.mem_append, Option.mem_toList, Option.map_eq_some_iff] at hl
  rcases hl with rfl | (hl | ⟨n, hn, rfl⟩) | hl
  · exact m.isLine_requestLine
  · exact m.fields_ok l (List.mem_append_left _ hl)
  · exact isLine_contentLength (m.number_ok n hn)
  · exact m.fields_ok l (List.mem_append_right _ hl)

theorem zero_notMem_lines (m : Message) : 0 ∉ joinLines m.lines :=
  notMem_joinLines (by decide) fun l hl => (m.isLine_of_mem l hl).2.1

theorem length_header (m : Message) : m.header.length = (joinLines m.lines).length + 2 := by
  simp [header, CRLF]

/-! ### The end of the header -/

theorem end_prefix (hp : p <+: m.bytes) (h : CRLF ++ CRLF <+: p.drop i) : m.header.length ≤ i + 4 := by
  have := length_le_of_end m.isLine_of_mem (t := m.body) (j := i) (h.trans (hp.drop i))
  rw [length_header]
  omega

/-- No end is found in a part of the header. -/
theorem find_end_eq_none (hp : p <+: m.bytes) (hlen : p.length < m.header.length) :
    find (CRLF ++ CRLF) (p.drop i) = none := by
  cases hf : find (CRLF ++ CRLF) (p.drop i) with
  | none => rfl
  | some n =>
    obtain ⟨-, hpre, -⟩ := find_eq_some_iff.mp hf
    rw [List.drop_drop] at hpre
    have h1 := end_prefix hp hpre
    have h2 : 4 ≤ (p.drop (i + n)).length := hpre.length_le
    rw [List.length_drop] at h2
    omega

theorem find_end (hp : p <+: m.bytes) (hlen : m.header.length ≤ p.length) (hi : i + 4 ≤ m.header.length) :
    find (CRLF ++ CRLF) (p.drop i) = some (m.header.length - 4 - i) := by
  obtain ⟨t, rfl⟩ := List.prefix_of_prefix_length_le (List.prefix_append _ _) hp hlen
  exact Inet.find_end m.isLine_of_mem (by simp [lines]) hi

/-! ### The length of the content -/

/-- The buffer when the end of the header was seen. -/
def stored (m : Message) (b : Text) : Text := joinLines m.lines ++ 0 :: LF :: b

@[simp] theorem length_stored (m : Message) (b : Text) : (m.stored b).length = m.header.length + b.length := by
  simp [stored, length_header]
  omega

theorem stored_append (m : Message) (b c : Text) : m.stored b ++ c = m.stored (b ++ c) := by simp [stored]

/-- What is kept while the body is not complete. -/
def awaitingBody (m : Message) (b : Text) : RecvBuf :=
  ⟨m.stored b, m.header.length + m.body.length, m.header.length, m.verb⟩

theorem set_header (m : Message) (b : Text) : (m.header ++ b).set (m.header.length - 4 + 2) 0 = m.stored b := by
  have h : m.header.length - 4 + 2 = (joinLines m.lines).length := by
    obtain ⟨s, hs⟩ := joinLines_end (show m.lines ≠ [] by simp [lines])
    rw [length_header, hs]
    simp [CRLF]
  rw [h]
  unfold header stored
  rw [List.append_assoc, List.set_append_right _ _ le_rfl, Nat.sub_self]
  rfl

theorem strstr_none (hn : m.contentLength = none) : strstr (m.stored b) (ascii "Content-Length: ") = none := by
  have hlines : ∀ l ∈ m.lines, ¬ ascii "Content-Length: " <:+: l := by
    simpa [lines, fields, hn] using m.only
  rw [stored, strstr_append_zero m.zero_notMem_lines, ← List.append_nil (joinLines m.lines),
    find_joinLines (by decide) (by decide) hlines, find_nil (by decide)]
  rfl

/-- The field is found at the place of its line, and what is read from it is its number. -/
theorem strstr_some {n : Text} (hn : m.contentLength = some n) :
    ∃ http, strstr (m.stored b) (ascii "Content-Length: ") = some http ∧
      ∃ tail, strchr ((m.stored b).drop http) CR = some tail ∧ (((m.stored b).drop http).take tail).drop 16 = n := by
  obtain ⟨-, hn0, hncr, -⟩ := isLine_contentLength (m.number_ok n hn)
  have hlines : m.lines = (requestLine m.verb m.target m.version :: m.before) ++ (ascii "Content-Length: " ++ n) :: m.after := by
    simp [lines, fields, hn]
  have honly : ∀ l ∈ requestLine m.verb m.target m.version :: m.before, ¬ ascii "Content-Length: " <:+: l := by
    intro l hl
    apply m.only l
    rw [List.mem_cons] at hl ⊢
    exact hl.imp_right (List.mem_append_left _)
  have hstored : m.stored b = joinLines (requestLine m.verb m.target m.version :: m.before) ++
      (ascii "Content-Length: " ++ n ++ CR :: LF :: joinLines m.after ++ 0 :: LF :: b) := by
    rw [stored, hlines, joinLines_append, joinLines_cons (l := ascii "Content-Length: " ++ n)]
    simp only [List.append_assoc]
  have hdrop : (m.stored b).drop (joinLines (requestLine m.verb m.target m.version :: m.before)).length =
      ascii "Content-Length: " ++ n ++ CR :: LF :: joinLines m.after ++ 0 :: LF :: b := by
    rw [hstored, List.drop_left]
  refine ⟨(joinLines (requestLine m.verb m.target m.version :: m.before)).length, ?_,
    (ascii "Content-Length: " ++ n).length, ?_, ?_⟩
  · rw [stored, strstr_append_zero m.zero_notMem_lines, hlines, joinLines_append,
      find_joinLines (by decide) (by decide) honly,
      joinLines_cons (l := ascii "Content-Length: " ++ n), List.append_assoc, find_of_prefix (List.prefix_append _ _)]
    rfl
  · rw [hdrop, List.append_assoc, List.cons_append]
    exact strchr_append hn0 hncr (by decide)
  · rw [hdrop, List.append_assoc _ (CR :: _), List.take_left]
    exact List.drop_left' (by decide)

theorem length_header_gt (m : Message) : 4 + 1 + 4 + 3 + 4 < m.header.length := by
  have htarget := List.length_pos_iff.mpr m.target_ok.1
  have hverb : 4 ≤ m.verb.text.length := by cases m.verb <;> decide
  have hversion : (ascii "HTTP/1.").length = 7 := by decide
  rw [length_header, lines, joinLines_cons]
  simp only [requestLine, List.length_append, List.length_cons]
  omega

theorem headerIsEnded_eq (hlen : m.header.length ≤ HTTP_REQUEST_SIZEMAX) :
    headerIsEnded (m.header ++ b) (m.header.length - 4) m.verb = (m.awaitingBody b,
      if m.body.length ≤ b.length then requestDataIsReady (m.awaitingBody b) else .HTTP_FALSE) := by
  have h4 : m.header.length - 4 + 4 = m.header.length := Nat.sub_add_cancel (by have := m.length_header_gt; omega)
  have hlimit := m.limited
  unfold HTTP_REQUEST_SIZEMAX at hlen hlimit
  unfold headerIsEnded
  simp only [set_header, h4]
  cases hn : m.contentLength with
  | none =>
    have hbody : m.body.length = 0 := by simpa [hn] using m.announced.symm
    rw [strstr_none hn]
    simp [awaitingBody, hbody]
  | some n =>
    obtain ⟨http, hstr, tail, hchr, hnum⟩ := strstr_some (b := b) hn
    have hbody : digitsValue 0 n = m.body.length := by simpa [hn] using m.announced
    have hexp : (((m.body.length : ℤ) + (m.header.length : ℤ)) % 2 ^ 32).toNat = m.header.length + m.body.length := by
      rw [Int.emod_eq_of_lt (by omega) (by omega)]
      omega
    simp only [hstr, hchr, hnum, atoi_digits (m.number_ok n hn), hbody, hexp]
    rw [if_neg (by unfold HTTP_REQUEST_SIZEMAX; omega)]
    simp only [length_stored, Nat.add_le_add_iff_left]
    rfl

/-! ### The request line -/

/-- The verb without the blank. -/
def word (m : Message) : Text := m.verb.text.dropLast

theorem text_eq (m : Message) : m.verb.text = m.word ++ [0x20] := by
  unfold word
  cases m.verb <;> decide

/-- What is searched for the version: the request line behind its fifth byte. -/
theorem requestLine_drop (m : Message) : ∃ s, s.length = 5 ∧ m.verb.text ++ m.target = s ++ (m.verb.text ++ m.target).drop 5 := by
  refine ⟨(m.verb.text ++ m.target).take 5, ?_, (List.take_append_drop 5 _).symm⟩
  have hverb : 4 ≤ m.verb.text.length := by cases m.verb <;> decide
  have htarget := List.length_pos_iff.mpr m.target_ok.1
  rw [List.length_take, List.length_append]
  omega

theorem requestDataIsReady_awaitingBody (honce : m.VersionOnce) :
    requestDataIsReady (m.awaitingBody m.body) = .HTTP_OK m.request := by
  obtain ⟨hline, h0, hcr, hlf⟩ := m.isLine_requestLine
  obtain ⟨s, hs5, hs⟩ := m.requestLine_drop
  unfold VersionOnce at honce
  generalize (m.verb.text ++ m.target).drop 5 = a at hs honce
  -- the two ways to cut the buffer
  set r := LF :: joinLines m.fields ++ 0 :: LF :: m.body with hr
  set v := ascii "HTTP/1." ++ m.version with hv
  have hrl : requestLine m.verb m.target m.version = s ++ (a ++ 0x20 :: v) := by
    rw [requestLine, hs]
    simp [hv]
  have hstored : m.stored m.body = s ++ ((a ++ 0x20 :: v) ++ CR :: r) := by
    rw [stored, lines, joinLines_cons, hrl]
    simp [hr]
  have hlen : m.header.length = 5 + (a ++ 0x20 :: v).length + 2 + (joinLines m.fields).length + 2 := by
    rw [length_header, lines, joinLines_cons, hrl]
    simp [hs5]
    omega
  have htail : strchr ((m.stored m.body).drop 5) CR = some (a ++ 0x20 :: v).length := by
    rw [hstored, ← hs5, List.drop_left]
    rw [hrl, List.mem_append, not_or] at h0 hcr
    exact strchr_append h0.2 hcr.2 (by decide)
  have hset : (m.stored m.body).set (5 + (a ++ 0x20 :: v).length) 0 = s ++ ((a ++ 0x20 :: v) ++ 0 :: r) := by
    rw [hstored, ← hs5, List.set_append_right _ _ (by omega), Nat.add_sub_cancel_left, List.set_append_right _ _ le_rfl,
      Nat.sub_self, List.set_cons_zero]
  have hhttp : strstr ((s ++ ((a ++ 0x20 :: v) ++ 0 :: r)).drop 5) (ascii "HTTP/1.") = some (a.length + 1) := by
    rw [hrl, List.mem_append, not_or] at h0
    rw [← hs5, List.drop_left, strstr_append_zero h0.2, find_append_cons_of_not_infix (by decide) honce,
      find_of_prefix (List.prefix_append _ _)]
    rfl
  have hblank : (s ++ ((a ++ 0x20 :: v) ++ 0 :: r))[5 + (a.length + 1) - 1]? = some 0x20 := by
    rw [show 5 + (a.length + 1) - 1 = (s ++ a).length by simp [hs5], List.append_assoc a, ← List.append_assoc s]
    simp
  -- the target is what is between the verb and the version
  have hcut : (s ++ ((a ++ 0x20 :: v) ++ 0 :: r)).set (5 + (a.length + 1) - 1) 0 =
      m.word ++ 0x20 :: (m.target ++ 0 :: (v ++ 0 :: r)) := by
    rw [show 5 + (a.length + 1) - 1 = (s ++ a).length by simp [hs5], List.append_assoc a, ← List.append_assoc s,
      List.set_append_right _ _ le_rfl, Nat.sub_self, ← hs, m.text_eq]
    simp
  have hword : 0 ∉ m.word ∧ 0x20 ∉ m.word := by
    unfold word
    cases m.verb <;> decide
  have hpURI : strchr (m.word ++ 0x20 :: (m.target ++ 0 :: (v ++ 0 :: r))) 0x20 = some m.word.length :=
    strchr_append hword.1 hword.2 (by decide)
  have htarget : ((s ++ ((a ++ 0x20 :: v) ++ 0 :: r)).drop (m.word.length + 1)).take
      (5 + (a.length + 1) - (m.word.length + 1) - 1) = m.target := by
    have hcons : s ++ ((a ++ 0x20 :: v) ++ 0 :: r) = (m.word ++ [0x20]) ++ (m.target ++ 0x20 :: (v ++ 0 :: r)) := by
      rw [← List.append_assoc (m.word ++ [0x20]), ← m.text_eq, hs]
      simp
    have hcount : 5 + (a.length + 1) - (m.word.length + 1) - 1 = m.target.length := by
      have h := congrArg List.length hs
      rw [m.text_eq] at h
      simp only [List.length_append, List.length_cons, List.length_nil] at h
      omega
    rw [hcons, List.drop_left' (by simp), hcount, List.take_left]
  have hremain : ((s ++ ((a ++ 0x20 :: v) ++ 0 :: r)).drop (5 + (a ++ 0x20 :: v).length + 2)).take
      (m.header.length - (5 + (a ++ 0x20 :: v).length + 2) - 2) = joinLines m.fields := by
    have hcons : s ++ ((a ++ 0x20 :: v) ++ 0 :: r) =
        (s ++ (a ++ 0x20 :: v) ++ [0, LF]) ++ (joinLines m.fields ++ 0 :: LF :: m.body) := by simp [hr]
    have hcount : m.header.length - (5 + (a ++ 0x20 :: v).length + 2) - 2 = (joinLines m.fields).length := by omega
    rw [hcons, List.drop_left' (by simp [hs5]; omega), hcount, List.take_left]
  have hbody : ((s ++ ((a ++ 0x20 :: v) ++ 0 :: r)).drop m.header.length).take
      (m.header.length + m.body.length - m.header.length) = m.body := by
    have hcons : s ++ ((a ++ 0x20 :: v) ++ 0 :: r) =
        (s ++ (a ++ 0x20 :: v) ++ [0, LF] ++ joinLines m.fields ++ [0, LF]) ++ m.body := by simp [hr]
    rw [hcons, List.drop_left' (by rw [hlen]; simp [hs5]; omega), Nat.add_sub_cancel_left, List.take_length]
  unfold requestDataIsReady awaitingBody
  simp only [if_neg m.length_header_gt.not_ge, htail, hset, hhttp, hblank, hcut, hpURI, htarget, hremain, hbody, ne_eq, not_true_eq_false,
    if_false]
  rfl

/-! ### From call to call -/

/-- What is kept when so much was sent and the request is not complete. -/
inductive Awaiting (m : Message) : Text → RecvBuf → Prop
  | header {p : Text} {v : Verb} : p.length < m.header.length → m.Awaiting p ⟨p, 0, 0, v⟩
  | body {b : Text} : m.Awaiting (m.header ++ b) (m.awaitingBody b)

theorem verbOf_eq (hp : p <+: m.bytes) (hlen : 4 ≤ p.length) : verbOf p = some m.verb := by
  obtain ⟨t, ht⟩ : m.verb.tag <+: m.bytes := by
    unfold bytes header lines
    rw [joinLines_cons, requestLine]
    simp only [List.append_assoc]
    cases m.verb with
    | GET => exact List.prefix_append _ _
    | POST => exact ⟨_, (List.append_assoc _ [0x20] _).symm⟩
  have htag : m.verb.tag.length = 4 := by cases m.verb <;> rfl
  have htake : p.take 4 = m.verb.tag := by
    obtain ⟨u, hu⟩ := hp
    have happend : (p ++ u).take 4 = p.take 4 := List.take_append_of_le_length hlen
    rw [← happend, hu, ← ht, List.take_left' htag]
  unfold verbOf
  rw [htake]
  cases m.verb <;> decide

/-- What a call gives when the bytes sent so far are `p`. -/
def returned (m : Message) (p : Text) : Received := if p = m.bytes then .HTTP_OK m.request else .HTTP_FALSE

theorem eq_bytes_iff (hp : m.header ++ b <+: m.bytes) : m.header ++ b = m.bytes ↔ m.body.length ≤ b.length := by
  rw [bytes, List.prefix_append_right_inj] at hp
  rw [bytes, List.append_cancel_left_eq]
  constructor
  · rintro rfl
    exact le_rfl
  · intro h
    exact hp.eq_of_length_le h

theorem awaitingBody_ready (honce : m.VersionOnce) (hp : m.header ++ b <+: m.bytes) :
    (if m.body.length ≤ b.length then requestDataIsReady (m.awaitingBody b) else .HTTP_FALSE) =
      m.returned (m.header ++ b) := by
  unfold returned
  simp only [eq_bytes_iff hp]
  split
  · rename_i h
    rw [bytes, List.prefix_append_right_inj] at hp
    rw [hp.eq_of_length_le h, requestDataIsReady_awaitingBody honce]
  · rfl

/-- A call while the body is awaited. -/
theorem recv_body (honce : m.VersionOnce) (hp : m.header ++ (b ++ c) <+: m.bytes) :
    recv (m.awaitingBody b) c = (m.awaitingBody (b ++ c), m.returned (m.header ++ (b ++ c))) := by
  have hexp : (m.awaitingBody (b ++ c)).expected ≠ 0 := by
    have := m.length_header_gt
    exact Nat.ne_of_gt (show 0 < m.header.length + m.body.length by omega)
  have hbuf : { m.awaitingBody b with buf := (m.awaitingBody b).buf ++ c } = m.awaitingBody (b ++ c) := by
    simp [awaitingBody, stored_append]
  unfold recv onDataRecv
  rw [hbuf, if_pos hexp, ← awaitingBody_ready honce hp]
  simp [awaitingBody]

/-- A call that gives the end of the header. -/
theorem recv_end {v : Verb} (honce : m.VersionOnce) (hlen : m.header.length ≤ HTTP_REQUEST_SIZEMAX)
    (hsent : sent.length < m.header.length) (hb : sent ++ c = m.header ++ b) (hp : m.header ++ b <+: m.bytes) :
    recv ⟨sent, 0, 0, v⟩ c = (m.awaitingBody b, m.returned (m.header ++ b)) := by
  have hgt := m.length_header_gt
  have hused := congrArg List.length hb
  simp only [List.length_append] at hused
  unfold recv onDataRecv
  simp only [hb, List.length_append]
  rw [if_neg (by simp), if_neg (by omega), verbOf_eq hp (by simp; omega)]
  set i := if c.length + 3 < m.header.length + b.length then m.header.length + b.length - (c.length + 3) else 0 with hi
  have hi4 : i + 4 ≤ m.header.length := by
    rw [hi]
    split <;> omega
  simp only [find_end hp (by simp) hi4]
  rw [show i + (m.header.length - 4 - i) = m.header.length - 4 by omega, headerIsEnded_eq hlen, awaitingBody_ready honce hp]

/-- A call that gives a part of the header. -/
theorem recv_header {v : Verb} (hlen : m.header.length ≤ HTTP_REQUEST_SIZEMAX) (hp : sent ++ c <+: m.bytes)
    (hused : (sent ++ c).length < m.header.length) :
    ∃ w, recv ⟨sent, 0, 0, v⟩ c = (⟨sent ++ c, 0, 0, w⟩, .HTTP_FALSE) := by
  unfold recv onDataRecv
  simp only [ne_eq, not_true_eq_false, if_false]
  by_cases h4 : (sent ++ c).length ≤ 4
  · exact ⟨v, by rw [if_pos h4]⟩
  · rw [if_neg h4, verbOf_eq hp (by omega)]
    simp only [find_end_eq_none hp hused]
    exact ⟨m.verb, by rw [if_pos (by omega)]⟩

/-- One call: what it returns depends only on the bytes sent so far. -/
theorem recv_step (honce : m.VersionOnce) (hlen : m.header.length ≤ HTTP_REQUEST_SIZEMAX) (h : m.Awaiting sent st)
    (hp : sent ++ c <+: m.bytes) :
    (recv st c).2 = m.returned (sent ++ c) ∧ m.Awaiting (sent ++ c) (recv st c).1 := by
  cases h with
  | body =>
    rw [List.append_assoc] at hp ⊢
    rw [recv_body honce hp]
    exact ⟨rfl, .body⟩
  | header hlt =>
    by_cases hused : (sent ++ c).length < m.header.length
    · obtain ⟨w, hw⟩ := recv_header hlen hp hused
      rw [hw]
      refine ⟨(if_neg fun heq => ?_).symm, .header hused⟩
      rw [heq, bytes, List.length_append] at hused
      omega
    · obtain ⟨b, hb⟩ := List.prefix_of_prefix_length_le (List.prefix_append m.header m.body) hp (by omega)
      rw [← hb] at hp ⊢
      rw [recv_end honce hlen hlt hb.symm hp]
      exact ⟨rfl, .body⟩

/-- All calls, from a state in which a part was sent. -/
theorem receive_eq (honce : m.VersionOnce) (hlen : m.header.length ≤ HTTP_REQUEST_SIZEMAX) (chunks : List Text)
    (hne : ∀ c ∈ chunks, c ≠ []) (hnil : chunks ≠ []) (h : m.Awaiting sent st)
    (hp : sent ++ chunks.flatten = m.bytes) :
    receive st chunks = List.replicate (chunks.length - 1) .HTTP_FALSE ++ [.HTTP_OK m.request] := by
  induction chunks generalizing sent st with
  | nil => exact absurd rfl hnil
  | cons c rest ih =>
    rw [List.flatten_cons, ← List.append_assoc] at hp
    obtain ⟨hret, hawait⟩ := recv_step honce hlen h (c := c) ⟨_, hp⟩
    rw [receive]
    cases hrest : rest with
    | nil =>
      rw [hrest, List.flatten_nil, List.append_nil] at hp
      simp [hret, returned, hp]
    | cons d ds =>
      have hmore : sent ++ c ≠ m.bytes := by
        intro heq
        have hd := hne d (by simp [hrest])
        rw [heq, hrest, List.flatten_cons, List.append_right_eq_self, List.append_eq_nil_iff] at hp
        exact hd hp.1
      rw [returned, if_neg hmore] at hret
      have := ih (fun c hc => hne c (List.mem_cons_of_mem _ hc)) (by simp [hrest]) hawait hp
      simp only [hret, if_true, ← hrest, this]
      simp [hrest, List.replicate_succ]

end Message

/-- Whatever the receives are, each but the last asks for more and the last gives the request. -/
def Message.Assembled (m : Message) : Prop :=
  ∀ (v : Verb) (chunks : List Text), (∀ c ∈ chunks, c ≠ []) → chunks.flatten = m.bytes →
    receive (cleared v) chunks = List.replicate (chunks.length - 1) .HTTP_FALSE ++ [.HTTP_OK m.request]

theorem receive_request (m : Message) (hlen : m.header.length ≤ HTTP_REQUEST_SIZEMAX) (honce : m.VersionOnce) :
    m.Assembled := by
  intro v chunks hne hbytes
  have hgt := m.length_header_gt
  have hnil : chunks ≠ [] := by
    rintro rfl
    have := congrArg List.length hbytes
    simp only [List.flatten_nil, List.length_nil, Message.bytes, List.length_append] at this
    omega
  exact m.receive_eq honce hlen chunks hne hnil (.header (p := []) (by simp; omega)) (by simpa using hbytes)

/-- A post with a body of two bytes. -/
def post : Message where
  verb := .POST
  target := ascii "/a"
  version := ascii "1"
  before := [ascii "Host: a"]
  contentLength := some (ascii "2")
  after := []
  body := ascii "hi"
  target_ok := by decide
  version_ok := by decide
  fields_ok := by
    intro l hl
    rw [List.mem_singleton.mp hl]
    unfold IsLine
    decide
  number_ok := by
    rintro n ⟨⟩ b hb
    rw [List.mem_singleton.mp (show b ∈ [0x32] from hb)]
    rfl
  announced := by decide
  limited := by decide
  only := by decide

theorem receive_request_post : receive (cleared .GET) [post.header ++ ascii "h", ascii "i"] =
    [.HTTP_FALSE, .HTTP_OK ⟨.POST, ascii "/a", [], ascii "Host: a\r\nContent-Length: 2\r\n", ascii "hi"⟩] := by
  rw [receive_request post (by decide) (by unfold Message.VersionOnce; decide) .GET
    [post.header ++ ascii "h", ascii "i"] (by decide) (by decide)]
  decide

/-! ### What is refused -/

/-- Receives that stop inside a header behind the limit. -/
theorem receive_header_limit {m : Message} (hlen : HTTP_REQUEST_SIZEMAX < m.header.length) (v : Verb) (rest : List Text) :
    receive (cleared v) (m.bytes.take HTTP_REQUEST_SIZEMAX :: rest) = [.HTTP_FAIL] := by
  have hp : m.bytes.take HTTP_REQUEST_SIZEMAX <+: m.bytes := List.take_prefix _ _
  have hused : (m.bytes.take HTTP_REQUEST_SIZEMAX).length = HTTP_REQUEST_SIZEMAX := by
    rw [List.length_take, Message.bytes, List.length_append]
    omega
  have hlimit : 4 < HTTP_REQUEST_SIZEMAX := by decide
  have hret : (recv (cleared v) (m.bytes.take HTTP_REQUEST_SIZEMAX)).2 = .HTTP_FAIL := by
    unfold recv onDataRecv cleared
    simp only [List.nil_append, ne_eq, not_true_eq_false, if_false]
    rw [if_neg (by omega), Message.verbOf_eq hp (by omega)]
    simp only [Message.find_end_eq_none hp (hused.trans_lt hlen), hused, lt_irrefl, if_false]
  rw [receive]
  simp [hret]

/-- A target that looks like the end of a request line. -/
def targetWithVersion : Message where
  verb := .GET
  target := ascii "/HTTP/1.0"
  version := ascii "1"
  before := []
  contentLength := none
  after := []
  body := []
  target_ok := by decide
  version_ok := by decide
  fields_ok := by simp
  number_ok := by simp
  announced := rfl
  limited := Nat.zero_le _
  only := by decide

/-- A field that is longer than a header may be. -/
def longField : Text := List.replicate HTTP_REQUEST_SIZEMAX 0x61

theorem notMem_longField {b : UInt8} (h : b ≠ 0x61) : b ∉ longField := fun hm => h (List.eq_of_mem_replicate hm)

def longHeader : Message where
  verb := .GET
  target := ascii "/"
  version := ascii "1"
  before := [longField]
  contentLength := none
  after := []
  body := []
  target_ok := by decide
  version_ok := by decide
  fields_ok := by
    intro l hl
    rw [List.mem_singleton.mp hl]
    refine ⟨?_, notMem_longField (by decide), notMem_longField (by decide), notMem_longField (by decide)⟩
    exact List.ne_nil_of_length_pos (by rw [longField, List.length_replicate]; decide)
  number_ok := by simp
  announced := rfl
  limited := Nat.zero_le _
  only := by
    intro l hl
    rcases List.mem_cons.mp hl with rfl | hl
    · decide
    · rw [List.mem_singleton.mp hl]
      intro h
      exact notMem_longField (b := 0x43) (by decide) (h.subset (by decide))

/-- Either condition is needed. -/
theorem receive_request_refused :
    (targetWithVersion.header.length ≤ HTTP_REQUEST_SIZEMAX ∧ ¬ targetWithVersion.Assembled) ∧
      (longHeader.VersionOnce ∧ ¬ longHeader.Assembled) := by
  refine ⟨⟨by decide, fun h => ?_⟩, by unfold Message.VersionOnce; decide, fun h => ?_⟩
  · have h := h .GET [targetWithVersion.bytes] (by decide) (by simp)
    have hret : receive (cleared .GET) [targetWithVersion.bytes] = [.HTTP_INVALIDARG] := by decide
    rw [hret] at h
    cases h
  · have hlong : HTTP_REQUEST_SIZEMAX < longHeader.header.length := by
      have hf : longField.length = HTTP_REQUEST_SIZEMAX := List.length_replicate
      have hlines : longHeader.lines = [requestLine .GET (ascii "/") (ascii "1"), longField] := rfl
      rw [Message.length_header, hlines, joinLines_cons, joinLines_cons, List.length_append, List.length_cons,
        List.length_cons, List.length_append, hf]
      omega
    have hbytes : HTTP_REQUEST_SIZEMAX < longHeader.bytes.length := by
      rw [Message.bytes, List.length_append]
      omega
    have hne : ∀ c ∈ [longHeader.bytes.take HTTP_REQUEST_SIZEMAX, longHeader.bytes.drop HTTP_REQUEST_SIZEMAX], c ≠ [] := by
      intro c hc
      simp only [List.mem_cons, List.not_mem_nil, or_false] at hc
      have hpos : 0 < HTTP_REQUEST_SIZEMAX := by decide
      apply List.ne_nil_of_length_pos
      rcases hc with hc | hc
      · rw [hc, List.length_take]
        exact lt_min hpos (hpos.trans hbytes)
      · rw [hc, List.length_drop]
        exact Nat.sub_pos_of_lt hbytes
    have hflat : ∀ (s : Text) (n : ℕ), [s.take n, s.drop n].flatten = s := fun s n => by simp
    have h := h .GET _ hne (hflat _ _)
    rw [receive_header_limit hlong] at h
    exact absurd (List.head_eq_of_cons_eq h) (by simp)

end Cpcf.Inet
