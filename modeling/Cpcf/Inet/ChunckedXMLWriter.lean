import Mathlib.Data.List.Basic
import Mathlib.Tactic

/-!
`HttpChunckedXMLWriter`: what is written is collected in blocks and handed to the response.

The loop of `Write` takes whole blocks off the length and leaves the pointer where it is, and what it hands over goes
before what is in the buffer. Up to a block at a time nothing of this is seen.
-/

namespace Cpcf.Inet.ChunckedXMLWriter

variable {α : Type}

/-! ### The writer -/

/-- `TinyHttpd::HTTP_SEND_BLOCK`, the size of `_Buf`. -/
def HTTP_SEND_BLOCK : ℕ := 1024

/-- The first `_BufUsed` bytes of `_Buf`, and what `SendChuncked` was called with. -/
structure Writer (α : Type) where
  buf : List α
  sent : List (List α)

/-- The loop of `Write` over `len`: `p` is not advanced. -/
def writeLoop (p : List α) (len : ℕ) (sent : List (List α)) : ℕ × List (List α) :=
  if HTTP_SEND_BLOCK ≤ len then writeLoop p (len - HTTP_SEND_BLOCK) (sent ++ [p.take HTTP_SEND_BLOCK]) else (len, sent)
termination_by len
decreasing_by simp only [HTTP_SEND_BLOCK] at *; omega

/-- `Write`. -/
def Writer.write (s : Writer α) (p : List α) : Writer α :=
  let (len, sent) := writeLoop p p.length s.sent
  if s.buf.length + len ≤ HTTP_SEND_BLOCK then ⟨s.buf ++ p.take len, sent⟩
  else ⟨p.take len, sent ++ [s.buf]⟩

/-- A new writer. -/
def Writer.new : Writer α := ⟨[], []⟩

/-- The destructor: all that was handed to the response. -/
def Writer.finish (s : Writer α) : List (List α) := if 0 < s.buf.length then s.sent ++ [s.buf] else s.sent

/-- What the response gets of some calls of `Write`. -/
def handed (ws : List (List α)) : List (List α) := (ws.foldl Writer.write .new).finish

/-! ### One call -/

section Write

variable {s : Writer α} {p : List α}

theorem writeLoop_eq (p : List α) (len : ℕ) (sent : List (List α)) : writeLoop p len sent =
    (len % HTTP_SEND_BLOCK, sent ++ List.replicate (len / HTTP_SEND_BLOCK) (p.take HTTP_SEND_BLOCK)) := by
  fun_induction writeLoop p len sent with
  | case1 len sent hle ih =>
    have hpos : 0 < HTTP_SEND_BLOCK := by decide
    rw [ih, Nat.mod_eq_sub_mod hle, Nat.div_eq_sub_div hpos hle, List.append_assoc, List.replicate_succ]
    rfl
  | case2 len sent hlt =>
    rw [Nat.mod_eq_of_lt (not_le.mp hlt), Nat.div_eq_of_lt (not_le.mp hlt)]
    simp

/-- The whole blocks are handed over, the first one again and again. -/
theorem write_eq (s : Writer α) (p : List α) : s.write p =
    if s.buf.length + p.length % HTTP_SEND_BLOCK ≤ HTTP_SEND_BLOCK then
      ⟨s.buf ++ p.take (p.length % HTTP_SEND_BLOCK),
        s.sent ++ List.replicate (p.length / HTTP_SEND_BLOCK) (p.take HTTP_SEND_BLOCK)⟩
    else
      ⟨p.take (p.length % HTTP_SEND_BLOCK),
        s.sent ++ List.replicate (p.length / HTTP_SEND_BLOCK) (p.take HTTP_SEND_BLOCK) ++ [s.buf]⟩ := by
  rw [Writer.write, writeLoop_eq]

/-- What was handed over and what is in the buffer. -/
def Writer.content (s : Writer α) : List α := s.sent.flatten ++ s.buf

theorem flatten_finish (s : Writer α) : s.finish.flatten = s.content := by
  unfold Writer.finish Writer.content
  split
  · simp
  · rename_i h
    rw [List.length_eq_zero_iff.mp (Nat.le_zero.mp (not_lt.mp h)), List.append_nil]

theorem content_write (s : Writer α) (p : List α) : (s.write p).content =
    s.sent.flatten ++ ((List.replicate (p.length / HTTP_SEND_BLOCK) (p.take HTTP_SEND_BLOCK)).flatten ++
      (s.buf ++ p.take (p.length % HTTP_SEND_BLOCK))) := by
  rw [write_eq]
  unfold Writer.content
  split <;> simp

theorem length_buf_write (s : Writer α) (p : List α) : (s.write p).buf.length =
    if s.buf.length + p.length % HTTP_SEND_BLOCK ≤ HTTP_SEND_BLOCK then s.buf.length + p.length % HTTP_SEND_BLOCK
    else p.length % HTTP_SEND_BLOCK := by
  have hle : p.length % HTTP_SEND_BLOCK ≤ p.length := Nat.mod_le _ _
  rw [write_eq]
  split
  · rw [List.length_append, List.length_take, min_eq_left hle]
  · rw [List.length_take, min_eq_left hle]

end Write

/-! ### Blocks -/

/-- The buffer does not overflow, and what was handed over is not empty and at most a block. -/
structure Writer.Fits (s : Writer α) : Prop where
  buf_le : s.buf.length ≤ HTTP_SEND_BLOCK
  sent_le : ∀ c ∈ s.sent, 0 < c.length ∧ c.length ≤ HTTP_SEND_BLOCK

theorem fits_write {s : Writer α} (h : s.Fits) (p : List α) : (s.write p).Fits := by
  have hmod : p.length % HTTP_SEND_BLOCK < HTTP_SEND_BLOCK := Nat.mod_lt _ (by decide)
  have hblocks : ∀ c ∈ List.replicate (p.length / HTTP_SEND_BLOCK) (p.take HTTP_SEND_BLOCK),
      0 < c.length ∧ c.length ≤ HTTP_SEND_BLOCK := by
    intro c hc
    obtain ⟨hne, rfl⟩ := List.mem_replicate.mp hc
    have hle : HTTP_SEND_BLOCK ≤ p.length := by
      by_contra hlt
      exact hne (Nat.div_eq_of_lt (not_le.mp hlt))
    rw [List.length_take, min_eq_left hle]
    exact ⟨by decide, le_rfl⟩
  constructor
  · rw [length_buf_write]
    split
    · assumption
    · exact hmod.le
  · rw [write_eq]
    split <;> rename_i hroom
    · intro c hc
      exact (List.mem_append.mp hc).elim (h.sent_le c) (hblocks c)
    · intro c hc
      simp only [List.mem_append, List.mem_singleton, or_assoc] at hc
      obtain hc | hc | rfl := hc
      · exact h.sent_le c hc
      · exact hblocks c hc
      · exact ⟨by omega, h.buf_le⟩

theorem fits_foldl (ws : List (List α)) {s : Writer α} (h : s.Fits) : (ws.foldl Writer.write s).Fits := by
  induction ws generalizing s with
  | nil => exact h
  | cons w ws ih => exact ih (fits_write h w)

theorem fits_new : (Writer.new : Writer α).Fits := ⟨Nat.zero_le _, by simp [Writer.new]⟩

theorem Writer.Fits.finish {s : Writer α} (h : s.Fits) : ∀ c ∈ s.finish, 0 < c.length ∧ c.length ≤ HTTP_SEND_BLOCK := by
  unfold Writer.finish
  split <;> rename_i hpos
  · intro c hc
    obtain hc | hc := List.mem_append.mp hc
    · exact h.sent_le c hc
    · rw [List.mem_singleton.mp hc]
      exact ⟨hpos, h.buf_le⟩
  · exact h.sent_le

/-! ### Sizes -/

/-- `_BufUsed` behind a call with `n` bytes. -/
def usedNext (used n : ℕ) : ℕ :=
  if used + n % HTTP_SEND_BLOCK ≤ HTTP_SEND_BLOCK then used + n % HTTP_SEND_BLOCK else n % HTTP_SEND_BLOCK

/-- The calls are shorter than a block each, or a block with nothing in the buffer. -/
def Orderly : ℕ → List ℕ → Prop
  | _, [] => True
  | used, n :: ns => (n < HTTP_SEND_BLOCK ∨ n = HTTP_SEND_BLOCK ∧ used = 0) ∧ Orderly (usedNext used n) ns

instance decidableOrderly : ∀ used ns, Decidable (Orderly used ns)
  | _, [] => isTrue trivial
  | used, n :: ns =>
    have := decidableOrderly (usedNext used n) ns
    inferInstanceAs (Decidable ((n < HTTP_SEND_BLOCK ∨ n = HTTP_SEND_BLOCK ∧ used = 0) ∧ Orderly (usedNext used n) ns))

/-- A call that is shorter than a block, or a block with nothing in the buffer, adds its bytes at the end. -/
theorem content_write_of_orderly {s : Writer α} {p : List α}
    (h : p.length < HTTP_SEND_BLOCK ∨ p.length = HTTP_SEND_BLOCK ∧ s.buf.length = 0) :
    (s.write p).content = s.content ++ p := by
  rw [content_write]
  unfold Writer.content
  obtain hlt | ⟨heq, hempty⟩ := h
  · rw [Nat.mod_eq_of_lt hlt, Nat.div_eq_of_lt hlt, List.take_length]
    simp
  · have hone : p.length / HTTP_SEND_BLOCK = 1 := by rw [heq]; decide
    have hzero : p.length % HTTP_SEND_BLOCK = 0 := by rw [heq]; decide
    rw [hone, hzero, List.length_eq_zero_iff.mp hempty, List.take_of_length_le heq.le]
    simp

theorem content_foldl_of_orderly (ws : List (List α)) {s : Writer α}
    (h : Orderly s.buf.length (ws.map List.length)) : (ws.foldl Writer.write s).content = s.content ++ ws.flatten := by
  induction ws generalizing s with
  | nil => simp
  | cons w ws ih =>
    obtain ⟨hw, hrest⟩ := h
    rw [List.foldl_cons, ih (by rw [length_buf_write]; exact hrest), content_write_of_orderly hw, List.flatten_cons,
      List.append_assoc]

/-! ### What goes wrong -/

section Wrong

variable [DecidableEq α]

/-- Nothing that was written is lost. -/
theorem count_le_write (x : α) (s : Writer α) (p : List α) : s.content.count x ≤ (s.write p).content.count x := by
  rw [content_write]
  unfold Writer.content
  simp only [List.count_append]
  omega

theorem count_le_foldl (x : α) (ws : List (List α)) (s : Writer α) :
    s.content.count x ≤ (ws.foldl Writer.write s).content.count x := by
  induction ws generalizing s with
  | nil => exact le_rfl
  | cons w ws ih => exact (count_le_write x s w).trans (ih (s.write w))

omit [DecidableEq α] in
/-- What was handed over stays in front. -/
theorem sent_prefix_write (s : Writer α) (p : List α) : s.sent.flatten <+: (s.write p).sent.flatten := by
  rw [write_eq]
  split
  · rw [List.flatten_append]
    exact List.prefix_append _ _
  · rw [List.append_assoc, List.flatten_append]
    exact List.prefix_append _ _

omit [DecidableEq α] in
theorem sent_prefix_foldl (ws : List (List α)) (s : Writer α) :
    s.sent.flatten <+: (ws.foldl Writer.write s).content := by
  induction ws generalizing s with
  | nil => exact List.prefix_append _ _
  | cons w ws ih => exact (sent_prefix_write s w).trans (ih (s.write w))

/-- More than a block: the first byte is handed over twice. -/
theorem two_le_count_of_lt (x : α) (rest : List α) (s : Writer α) (h : HTTP_SEND_BLOCK < (x :: rest).length) :
    2 ≤ (s.write (x :: rest)).content.count x := by
  rw [content_write]
  set n := (x :: rest).length with hn
  have hpos : 0 < HTTP_SEND_BLOCK := by decide
  have hblock : 1 ≤ ((x :: rest).take HTTP_SEND_BLOCK).count x := by
    rw [HTTP_SEND_BLOCK, List.take_succ_cons, List.count_cons_self]
    omega
  have hdiv : 1 ≤ n / HTTP_SEND_BLOCK := (Nat.one_le_div_iff hpos).mpr h.le
  have hfirst : n / HTTP_SEND_BLOCK * 1 ≤
      ((List.replicate (n / HTTP_SEND_BLOCK) ((x :: rest).take HTTP_SEND_BLOCK)).flatten).count x := by
    rw [List.count_flatten, List.map_replicate, List.sum_replicate, smul_eq_mul]
    exact Nat.mul_le_mul_left _ hblock
  simp only [List.count_append]
  by_cases hmod : n % HTTP_SEND_BLOCK = 0
  · -- at least two blocks
    have hn2 := Nat.div_add_mod n HTTP_SEND_BLOCK
    have : 2 ≤ n / HTTP_SEND_BLOCK := by
      by_contra hlt
      have hone : n / HTTP_SEND_BLOCK = 1 := by omega
      rw [hone, hmod] at hn2
      omega
    omega
  · -- the rest begins with the first byte again
    obtain ⟨m, hm⟩ := Nat.exists_eq_succ_of_ne_zero hmod
    have htake : 1 ≤ ((x :: rest).take (n % HTTP_SEND_BLOCK)).count x := by
      rw [hm, Nat.succ_eq_add_one, List.take_succ_cons, List.count_cons_self]
      omega
    omega

end Wrong

/-- A block with something in the buffer: it is handed over first. -/
theorem sent_write_of_block {s : Writer α} {p : List α} (hp : p.length = HTTP_SEND_BLOCK) (hs : s.Fits) :
    (s.write p).sent.flatten = s.sent.flatten ++ p := by
  have hone : p.length / HTTP_SEND_BLOCK = 1 := by rw [hp]; decide
  have hzero : p.length % HTTP_SEND_BLOCK = 0 := by rw [hp]; decide
  rw [write_eq, hzero, if_pos (by simpa using hs.buf_le), hone, List.take_of_length_le hp.le]
  simp

theorem length_buf_foldl (ws : List (List α)) (s : Writer α) :
    (ws.foldl Writer.write s).buf.length = (ws.map List.length).foldl usedNext s.buf.length := by
  induction ws generalizing s with
  | nil => rfl
  | cons w ws ih =>
    rw [List.foldl_cons, ih, length_buf_write]
    rfl

/-- The first call that is not in order. -/
theorem exists_first_of_not_orderly (ns : List ℕ) {used : ℕ} (h : ¬ Orderly used ns) : ∃ before n behind,
    ns = before ++ n :: behind ∧ Orderly used before ∧
      (HTTP_SEND_BLOCK < n ∨ n = HTTP_SEND_BLOCK ∧ before.foldl usedNext used ≠ 0) := by
  induction ns generalizing used with
  | nil => exact absurd trivial h
  | cons n ns ih =>
    by_cases hn : n < HTTP_SEND_BLOCK ∨ n = HTTP_SEND_BLOCK ∧ used = 0
    · obtain ⟨before, m, behind, rfl, hbefore, hm⟩ := ih fun hrest => h ⟨hn, hrest⟩
      exact ⟨n :: before, m, behind, rfl, ⟨hn, hbefore⟩, hm⟩
    · refine ⟨[], n, ns, rfl, trivial, ?_⟩
      rw [List.foldl_nil]
      omega

def zeros (n : ℕ) : List UInt8 := List.replicate n 0

theorem mem_zeros {ns : List ℕ} {b : UInt8} (h : b ∈ (ns.map zeros).flatten) : b = 0 := by
  obtain ⟨l, hl, hb⟩ := List.mem_flatten.mp h
  obtain ⟨n, -, rfl⟩ := List.mem_map.mp hl
  exact (List.mem_replicate.mp hb).2

theorem map_length_zeros (ns : List ℕ) : (ns.map zeros).map List.length = ns := by
  rw [List.map_map]
  exact (List.map_congr_left fun n _ => List.length_replicate).trans (List.map_id ns)

/-- Calls of such lengths that come out wrong: a single byte that is not zero, the first one of the first call that is not
in order. -/
theorem exists_wrong_of_not_orderly {ns : List ℕ} (h : ¬ Orderly 0 ns) :
    ∃ ws : List (List UInt8), ws.map List.length = ns ∧ (handed ws).flatten ≠ ws.flatten := by
  obtain ⟨before, n, behind, rfl, hbefore, hn⟩ := exists_first_of_not_orderly ns h
  obtain ⟨m, rfl⟩ : ∃ m, n = m + 1 := Nat.exists_eq_succ_of_ne_zero (by unfold HTTP_SEND_BLOCK at hn; omega)
  set w : List UInt8 := 1 :: zeros m with hw
  have hlen : w.length = m + 1 := by rw [hw, List.length_cons, zeros, List.length_replicate]
  refine ⟨before.map zeros ++ w :: behind.map zeros, ?_, ?_⟩
  · rw [List.map_append, List.map_cons, map_length_zeros, map_length_zeros, hlen]
  intro heq
  set s := (before.map zeros).foldl Writer.write .new with hs
  have hcontent : s.content = (before.map zeros).flatten := by
    rw [hs, content_foldl_of_orderly _ (by rw [map_length_zeros]; exact hbefore)]
    rfl
  have hused : s.buf.length = before.foldl usedNext 0 := by
    rw [hs, length_buf_foldl, map_length_zeros]
    rfl
  have hall : ((behind.map zeros).foldl Writer.write (s.write w)).content =
      (before.map zeros).flatten ++ (w ++ (behind.map zeros).flatten) := by
    rw [handed, flatten_finish, List.foldl_append, List.foldl_cons] at heq
    rw [heq, List.flatten_append, List.flatten_cons]
  have hzero : ∀ l : List ℕ, (l.map zeros).flatten.count 1 = 0 := by
    intro l
    exact List.count_eq_zero_of_not_mem fun hmem => absurd (mem_zeros hmem) (by decide)
  obtain hlt | ⟨hblock, hne⟩ := hn
  · have htwo : 2 ≤ (s.write w).content.count 1 := two_le_count_of_lt 1 (zeros m) s (by rw [← hw, hlen]; exact hlt)
    have hkept := count_le_foldl (1 : UInt8) (behind.map zeros) (s.write w)
    have hone : w.count 1 = 1 := by
      rw [hw, List.count_cons_self, zeros, List.count_replicate]
      rfl
    rw [hall, List.count_append, List.count_append, hzero, hzero, hone] at hkept
    omega
  · have hfits : s.Fits := fits_foldl _ fits_new
    have hprefix := sent_prefix_foldl (behind.map zeros) (s.write w)
    rw [sent_write_of_block (hlen.trans hblock) hfits, hall, ← hcontent, Writer.content, List.append_assoc,
      List.prefix_append_right_inj] at hprefix
    obtain ⟨b, rest, hbuf⟩ := List.exists_cons_of_ne_nil fun hnil : s.buf = [] => hne (by rw [← hused, hnil]; rfl)
    rw [hbuf, hw, List.cons_append, List.cons_append, List.cons_prefix_cons] at hprefix
    have hmem : b ∈ (before.map zeros).flatten := by
      rw [← hcontent, Writer.content, hbuf]
      simp
    rw [mem_zeros hmem] at hprefix
    exact absurd hprefix.1 (by decide)

/-! ### Every run -/

/-- **What the response gets.** For every sequence of calls what is handed over at a time is not empty and at most a
block. All that is written is handed over in order, whatever it is, if and only if each call is shorter than a block, or
a block with nothing in the buffer. -/
theorem handed_in_order_iff (ns : List ℕ) :
    (∀ ws : List (List UInt8), ∀ c ∈ handed ws, 0 < c.length ∧ c.length ≤ HTTP_SEND_BLOCK) ∧
      ((∀ ws : List (List UInt8), ws.map List.length = ns → (handed ws).flatten = ws.flatten) ↔ Orderly 0 ns) := by
  refine ⟨fun ws => (fits_foldl ws fits_new).finish, ?_, ?_⟩
  · intro h
    by_contra hno
    obtain ⟨ws, hlen, hne⟩ := exists_wrong_of_not_orderly hno
    exact hne (h ws hlen)
  · rintro h ws rfl
    rw [handed, flatten_finish, content_foldl_of_orderly ws (s := Writer.new) h]
    rfl

/-- Three calls with the buffer sent in between, then a block and a half. -/
example : Orderly 0 [1024, 1000, 24, 1] ∧ ¬ Orderly 0 [1, 1024] ∧ ¬ Orderly 0 [1536] := by decide

end Cpcf.Inet.ChunckedXMLWriter
