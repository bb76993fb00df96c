import Cpcf.Inet.RecvHead

/-!
A body in chunks, put together in the receive buffer.

The line with the size is cut out in front of the data, and the line end behind it. What is cut out last stands again
behind the used part when the next line is searched. It repeats the end of the used part, so that a line feed is seen
there only if one was received.
-/

namespace Cpcf.Inet

open Cpcf.Lib.Search Cpcf.Rt RecvPool

/-! ### Chunks -/

/-- A hexadecimal digit in either case. -/
def isHexDigit (c : UInt8) : Bool := isDigit c || (0x41 ≤ c && c ≤ 0x46) || (0x61 ≤ c && c ≤ 0x66)

def hexDigitValue (c : UInt8) : ℕ :=
  if c ≤ 0x39 then c.toNat - 0x30 else if c ≤ 0x46 then c.toNat - 0x41 + 10 else c.toNat - 0x61 + 10

/-- The number that hexadecimal digits stand for. -/
def hexNumber (s : Text) : ℕ := s.foldl (fun x c => x * 16 + hexDigitValue c) 0

/-- A chunk. The digits of the size are in either case, and an extension may stand behind them. -/
structure Chunk where
  digits : Text
  ext : Text
  payload : Text
  digits_ok : ∀ c ∈ digits, isHexDigit c = true
  size_ok : hexNumber digits = payload.length
  ext_ok : (∀ c ∈ ext.head?, c = 0x3b ∨ c = 0x20 ∨ c = 0x09) ∧ 0 ∉ ext ∧ CR ∉ ext ∧ LF ∉ ext
  payload_ne : payload ≠ []

namespace Chunk

def line (c : Chunk) : Text := c.digits ++ c.ext

def bytes (c : Chunk) : Text := c.line ++ (CRLF ++ (c.payload ++ CRLF))

end Chunk

/-- The line of the last chunk. -/
def lastChunk : Text := 0x30 :: CRLF

/-- The body that comes in these chunks. -/
def payloads (cs : List Chunk) : Text := cs.flatMap Chunk.payload

variable {T A line rest l s t x y : Text} {b : RecvPool} {c : Chunk} {cs : List Chunk} {stream : List Text} {n p : ℕ}
  {d : UInt8}

/-! ### The size -/

theorem hexValue_makeLower : ∀ d : UInt8, isHexDigit d = true → (makeLower [d]).map hexValue = [some (hexDigitValue d)] ∧
    isSpace d = false ∧ d ≠ 0x2d ∧ d ≠ 0x2b := by
  set_option maxRecDepth 20000 in decide

theorem hexValue_ext : ∀ d : UInt8, d = 0x3b ∨ d = 0x20 ∨ d = 0x09 → makeLower [d] = [d] ∧ hexValue d = none ∧ d ≠ 0x78 := by
  rintro d (rfl | rfl | rfl) <;> decide

theorem makeLower_cons : makeLower (d :: s) = makeLower [d] ++ makeLower s := rfl

theorem makeLower_append : makeLower (s ++ t) = makeLower s ++ makeLower t := List.map_append

@[simp] theorem length_makeLower (s : Text) : (makeLower s).length = s.length := List.length_map _

theorem zero_makeLower : ∀ d : UInt8, makeLower [d] = [0] → d = 0 := by set_option maxRecDepth 20000 in decide

theorem zero_notMem_makeLower (h : 0 ∉ s) : 0 ∉ makeLower s := by
  unfold makeLower
  rw [List.mem_map]
  rintro ⟨d, hd, h0⟩
  exact h (zero_makeLower d (congrArg (fun b => [b]) h0) ▸ hd)

theorem map_hexValue (h : ∀ c ∈ s, isHexDigit c = true) : (makeLower s).map hexValue = (s.map hexDigitValue).map some := by
  induction s with
  | nil => rfl
  | cons d s ih =>
    rw [makeLower_cons, List.map_append, (hexValue_makeLower d (h d List.mem_cons_self)).1,
      ih fun c hc => h c (List.mem_cons_of_mem _ hc)]
    rfl

theorem hexDigits_eq (hs : ∀ c ∈ s, isHexDigit c = true) (ht : ∀ d ∈ t.head?, hexValue d = none) :
    hexDigits (makeLower s ++ t) = s.map hexDigitValue := by
  have hstop : (t.map hexValue).takeWhile Option.isSome = [] := by
    cases t with
    | nil => rfl
    | cons d t => rw [List.map_cons, List.takeWhile_cons_of_neg (by simp [ht d rfl])]
  unfold hexDigits
  rw [List.map_append, map_hexValue hs, List.takeWhile_append_of_pos (by simp), hstop, List.append_nil]
  simp [List.reduceOption, List.filterMap_map]

namespace Chunk

theorem digits_ne (c : Chunk) : c.digits ≠ [] := by
  intro hnil
  have := c.size_ok
  rw [hnil] at this
  exact c.payload_ne (List.eq_nil_of_length_eq_zero this.symm)

theorem hexDigit_facts (h : isHexDigit d = true) : d ≠ 0 ∧ d ≠ CR ∧ d ≠ LF := by
  refine ⟨?_, ?_, ?_⟩ <;> rintro rfl <;> exact absurd h (by decide)

theorem line_ok (c : Chunk) : 0 ∉ c.line ∧ CR ∉ c.line ∧ LF ∉ c.line := by
  obtain ⟨-, e0, ecr, elf⟩ := c.ext_ok
  unfold line
  simp only [List.mem_append, not_or]
  refine ⟨⟨fun h => ?_, e0⟩, ⟨fun h => ?_, ecr⟩, fun h => ?_, elf⟩
  · exact (hexDigit_facts (c.digits_ok _ h)).1 rfl
  · exact (hexDigit_facts (c.digits_ok _ h)).2.1 rfl
  · exact (hexDigit_facts (c.digits_ok _ h)).2.2 rfl

theorem ext_head (c : Chunk) : ∀ d ∈ (makeLower c.ext).head?, hexValue d = none ∧ d ≠ 0x78 := by
  intro d hd
  cases he : c.ext with
  | nil => simp [he, makeLower] at hd
  | cons e es =>
    obtain ⟨hsame, hnone, hx⟩ := hexValue_ext e (c.ext_ok.1 e (by rw [he]; rfl))
    rw [he, makeLower_cons, hsame] at hd
    cases hd
    exact ⟨hnone, hx⟩

/-- **The size is read from the line of the chunk.** -/
theorem scanHex_line (c : Chunk) (hlt : c.payload.length < 2 ^ 32) :
    scanHex (makeLower c.line) = some c.payload.length := by
  obtain ⟨d, ds, hds⟩ := List.exists_cons_of_ne_nil c.digits_ne
  have hall : ∀ e ∈ d :: ds, isHexDigit e = true := hds ▸ c.digits_ok
  obtain ⟨hval, -, -, -⟩ := hexValue_makeLower d (hall d List.mem_cons_self)
  have hline : makeLower c.line = makeLower (d :: ds) ++ makeLower c.ext := by rw [line, makeLower_append, hds]
  obtain ⟨d', hd'⟩ : ∃ d', makeLower [d] = [d'] := ⟨_, rfl⟩
  have hletters : ∀ e : UInt8, isHexDigit e = true → (makeLower [e]).all (fun e' => isSpace e' = false ∧ e' ≠ 0x2d ∧
      e' ≠ 0x2b ∧ e' ≠ 0x78) = true := by set_option maxRecDepth 20000 in decide
  have hlower : ∀ e : UInt8, isHexDigit e = true → ∀ e' ∈ makeLower [e], isSpace e' = false ∧ e' ≠ 0x2d ∧ e' ≠ 0x2b ∧
      e' ≠ 0x78 := fun e he e' he' => of_decide_eq_true (List.all_eq_true.mp (hletters e he) e' he')
  obtain ⟨hspace, hminus, hplus, -⟩ := hlower d (hall d List.mem_cons_self) d' (by simp [hd'])
  have hcons : makeLower c.line = d' :: (makeLower ds ++ makeLower c.ext) := by
    rw [hline, makeLower_cons, hd']
    rfl
  have hdrop : (makeLower c.line).dropWhile isSpace = makeLower c.line := by
    rw [hcons, List.dropWhile_cons_of_neg (by simp [hspace])]
  have hsign : scanSign (makeLower c.line) = (false, makeLower c.line) := by
    rw [hcons, scanSign, if_neg hminus, if_neg hplus]
  -- behind the first digit there is no x
  have hx : ¬ ascii "0x" <+: makeLower c.line := by
    rintro ⟨t, ht⟩
    have h1 : (makeLower ds ++ makeLower c.ext).head? = some 0x78 := by
      rw [hcons] at ht
      rw [← (List.cons.inj ht).2]
      rfl
    cases hds' : ds with
    | nil =>
      rw [hds'] at h1
      exact (c.ext_head _ h1).2 rfl
    | cons e es =>
      rw [hds', makeLower_cons] at h1
      have he : isHexDigit e = true := hall e (by simp [hds'])
      have h78 : (0x78 : UInt8) ∈ makeLower [e] := List.mem_of_head? h1
      exact (hlower e he _ h78).2.2.2 rfl
  have hdigits : hexDigits (makeLower c.line) = (d :: ds).map hexDigitValue := by
    rw [hline]
    exact hexDigits_eq hall fun e he => (c.ext_head e he).1
  have hsize : ((d :: ds).map hexDigitValue).foldl (fun x e => x * 16 + e) 0 = c.payload.length := by
    rw [List.foldl_map, ← hds]
    exact c.size_ok
  unfold scanHex
  simp only [hdrop, hsign, if_neg hx, hdigits, hsize]
  rw [if_neg (by simp), if_neg (by simp), toUINT]
  congr 1
  omega

end Chunk

/-! ### Cutting out -/

theorem write_at (x y : Text) (v w : UInt8) (behind : Text) (p : ℕ) :
    RecvPool.write ⟨x ++ v :: y, behind, p⟩ x.length w = ⟨x ++ w :: y, behind, p⟩ := by
  unfold RecvPool.write used
  rw [if_pos (by simp), List.set_append_right _ _ le_rfl, Nat.sub_self, List.set_cons_zero]

theorem makeLower_at (x l y behind : Text) (p : ℕ) :
    RecvPool.makeLower ⟨x ++ (l ++ y), behind, p⟩ x.length (x.length + l.length) = ⟨x ++ (makeLower l ++ y), behind, p⟩ := by
  have hused : (⟨x ++ (l ++ y), behind, p⟩ : RecvPool).used = (x ++ (makeLower l ++ y)).length := by simp [used]
  have hcells : (⟨x ++ (l ++ y), behind, p⟩ : RecvPool).cells = x ++ (l ++ (y ++ behind)) := by simp [cells]
  have hdrop : (x ++ (l ++ (y ++ behind))).drop (x.length + l.length) = y ++ behind := by
    rw [← List.append_assoc, ← List.length_append, List.drop_left]
  unfold RecvPool.makeLower
  simp only [hcells, hused, List.take_left, List.drop_left, Nat.add_sub_cancel_left, hdrop]
  rw [show x ++ makeLower l ++ (y ++ behind) = (x ++ (makeLower l ++ y)) ++ behind by simp, List.take_left, List.drop_left]

theorem remove_at (x l y behind : Text) (p : ℕ) : RecvPool.remove ⟨x ++ (l ++ y), behind, p⟩ x.length l.length =
    some ⟨x ++ y, (x ++ (l ++ y)).drop (x.length + y.length) ++ behind, p⟩ := by
  have hused : (⟨x ++ (l ++ y), behind, p⟩ : RecvPool).used = x.length + l.length + y.length := by
    simp [used]
    omega
  have hdrop : (x ++ (l ++ y)).drop (x.length + l.length) = y := by
    rw [← List.append_assoc, ← List.length_append, List.drop_left]
  unfold RecvPool.remove
  rw [if_pos (by omega), hused]
  simp only [List.take_left, hdrop]
  rw [show x.length + l.length + y.length - l.length = x.length + y.length by omega]

/-! ### The line of a chunk -/

/-- What the next search finds is in the used part. -/
def FoundInside (end_token : Text) (b : RecvPool) : Prop := b.parsed + end_token.length ≤ b.used →
  ∀ i, strstr (b.cells.drop b.parsed) end_token = some i → b.parsed + i + end_token.length ≤ b.used

theorem FoundInside.sound {tok : Text} (h : FoundInside tok b) (hT : b.data <+: T) : b.Sound T tok := by
  intro hused i hi
  rw [cells_take (h hused i hi)]
  exact (List.take_prefix _ _).trans hT

theorem foundInside_of_terminated {tok : Text} (htok : tok ≠ []) (h : b.Terminated) : FoundInside tok b := by
  intro hused i hi
  exact h.le_used (by omega) htok hi

theorem find_line (hline : CR ∉ line) (rest : Text) : find CRLF (line ++ (CRLF ++ rest)) = some line.length := by
  have hno : ¬ CR :: [LF] <:+: line := fun hin => hline (hin.subset List.mem_cons_self)
  exact find_append_self (by decide) hno

/-- What stands behind the used part repeats its end, from where the next search begins. -/
def Echo (b : RecvPool) : Prop := b.parsed ≤ b.used ∧
  ∃ s u, b.behind = s ++ 0 :: u ∧ (b.parsed + 2 ≤ b.used → s <:+ b.data.drop b.parsed)

/-- **No line end is seen that was not received.** -/
theorem Echo.foundInside (h : Echo b) (hT : b.data <+: A ++ (line ++ (CRLF ++ rest))) (hp : b.parsed = A.length)
    (hline : 0 ∉ line ∧ CR ∉ line ∧ LF ∉ line) : FoundInside CRLF b := by
  obtain ⟨hle, s, u, hbehind, hs⟩ := h
  intro hused i hi
  have h2 : CRLF.length = 2 := rfl
  obtain ⟨m, hm⟩ := hs hused
  have hR : b.data.drop b.parsed <+: line ++ (CRLF ++ rest) := by
    have := hT.drop A.length
    rwa [List.drop_left, ← hp] at this
  have hlen : (b.data.drop b.parsed).length = b.used - b.parsed := List.length_drop
  rw [cells_drop hle, hbehind] at hi
  rcases Nat.lt_or_ge (b.data.drop b.parsed).length (line.length + 2) with hlt | hge
  · -- no line feed was received
    have hcut : b.data.drop b.parsed <+: line ++ [CR] := by
      refine List.prefix_of_prefix_length_le hR ⟨LF :: rest, by simp [CRLF]⟩ ?_
      rw [List.length_append, List.length_singleton]
      omega
    have hlf : LF ∉ b.data.drop b.parsed := by
      intro hmem
      have := hcut.subset hmem
      rw [List.mem_append, List.mem_singleton] at this
      rcases this with hmem | hmem
      · exact hline.2.2 hmem
      · exact absurd hmem (by decide)
    have hlfs : LF ∉ s := fun hmem => hlf (hm ▸ List.mem_append_right _ hmem)
    have hin : LF ∈ cstr (b.data.drop b.parsed ++ (s ++ 0 :: u)) := by
      have hpre := (find_eq_some_iff.mp hi).2.1
      exact List.mem_of_mem_drop (hpre.subset (by decide))
    rw [← List.append_assoc, cstr_append_zero_cons] at hin
    rcases List.mem_append.mp (List.takeWhile_prefix _ |>.subset hin) with hmem | hmem
    · exact absurd hmem hlf
    · exact absurd hmem hlfs
  · obtain ⟨v, hv⟩ : line ++ CRLF <+: b.data.drop b.parsed := by
      refine List.prefix_of_prefix_length_le ?_ hR (by rw [List.length_append, h2]; exact hge)
      exact ⟨rest, by simp⟩
    have hzero : 0 ∉ line ++ CRLF := by
      rw [List.mem_append, not_or]
      exact ⟨hline.1, by decide⟩
    rw [← hv, strstr, List.append_assoc, cstr_append hzero, List.append_assoc, find_line hline.2.1] at hi
    cases hi
    omega

/-- The line of a chunk is found, and the text behind it is still to come or has come. -/
theorem recvUntil_line (hfeeds : Feeds (A ++ (line ++ (CRLF ++ rest))) b stream) (hp : b.parsed = A.length)
    (hin : FoundInside CRLF b) (hline : 0 ∉ line ∧ CR ∉ line ∧ LF ∉ line) :
    ∃ d behind stream', recvUntil CRLF stream b = (some (A.length + line.length),
      ⟨A ++ (line ++ (CRLF ++ d)), behind, A.length + line.length + 2⟩, stream') ∧
      d ++ stream'.flatten = rest ∧ [] ∉ stream' := by
  have hdrop : (A ++ (line ++ (CRLF ++ rest))).drop b.parsed = line ++ (CRLF ++ rest) := by rw [hp, List.drop_left]
  have hzero : 0 ∉ ((A ++ (line ++ (CRLF ++ rest))).drop b.parsed).take (line.length + CRLF.length) := by
    rw [hdrop, ← List.append_assoc, ← List.length_append, List.take_left, List.mem_append, not_or]
    exact ⟨hline.1, by decide⟩
  obtain ⟨b', stream', hr, hf, hp', hcase⟩ := recvUntil_eq (by decide) (hin.sound hfeeds.received_data) hfeeds
    (by rw [hdrop]; exact find_line hline.2.1 rest) hzero
  have h2 : CRLF.length = 2 := rfl
  have hle : A.length + line.length + 2 ≤ b'.data.length := by
    rcases hcase with ⟨-, hle, -⟩ | ⟨rfl, hused, hstr⟩
    · rw [hp', hp] at hle
      exact hle
    · have := hin hused _ hstr
      rw [hp] at this
      exact this
  obtain ⟨d, hd⟩ : A ++ (line ++ CRLF) <+: b'.data := by
    refine List.prefix_of_prefix_length_le ?_ hf.received_data ?_
    · exact ⟨rest, by simp⟩
    · simp only [List.length_append, h2]
      omega
  obtain ⟨data, behind, parsed⟩ := b'
  simp only at hd hp'
  subst hd
  rw [hp] at hr hp'
  subst hp'
  have hbytes := hf.bytes
  simp only [List.append_assoc, List.append_cancel_left_eq] at hr hbytes
  exact ⟨d, behind, stream', hr, hbytes, hf.received⟩

/-! ### One chunk -/

/-- What is done when the line of a chunk has been read, with its size if there is one. -/
def behindLine (head tail : ℕ) (b : RecvPool) (stream : List Text) :
    Option ℕ → Option (ChunkRet × RecvPool × List Text)
  | none => some (.size 0, b, stream)
  | some 0 => some (.size 0, { b with parsed := b.parsed - 3 }, stream)
  | some chunk_size => do
    let b ← b.remove head (tail - head + 2)
    match recvUpTo ((head + chunk_size + 2) % 2 ^ 32) stream { b with parsed := head } with
    | (false, b, stream) => some (.INFINITE, b, stream)
    | (true, b, stream) =>
      let b ← b.remove (b.parsed - 2) 2
      some (.size chunk_size, { b with parsed := b.parsed - 2 }, stream)

/-- The line is read where it stands, with a terminator behind it. -/
theorem recvOneChunk_line (hfeeds : Feeds (A ++ (line ++ (CRLF ++ rest))) b stream) (hp : b.parsed = A.length)
    (hin : FoundInside CRLF b) (hline : 0 ∉ line ∧ CR ∉ line ∧ LF ∉ line) :
    ∃ d behind stream', d ++ stream'.flatten = rest ∧ [] ∉ stream' ∧ recvOneChunk stream b =
      behindLine A.length (A.length + line.length)
        ⟨A ++ (makeLower line ++ 0 :: LF :: d), behind, A.length + line.length + 2⟩ stream' (scanHex (makeLower line)) := by
  obtain ⟨d, behind, s₁, hr, hd, hs₁⟩ := recvUntil_line hfeeds hp hin hline
  have hwrite : RecvPool.write ⟨A ++ (line ++ (CRLF ++ d)), behind, A.length + line.length + 2⟩
      (A.length + line.length) 0 = ⟨A ++ (line ++ 0 :: LF :: d), behind, A.length + line.length + 2⟩ := by
    have := write_at (A ++ line) (LF :: d) CR 0 behind (A.length + line.length + 2)
    rw [List.length_append, List.append_assoc, List.append_assoc] at this
    exact this
  have hlower := makeLower_at A line (0 :: LF :: d) behind (A.length + line.length + 2)
  have hcells : cstr ((⟨A ++ (makeLower line ++ 0 :: LF :: d), behind, A.length + line.length + 2⟩ : RecvPool).cells.drop
      A.length) = makeLower line := by
    have hsplit : (⟨A ++ (makeLower line ++ 0 :: LF :: d), behind, A.length + line.length + 2⟩ : RecvPool).cells =
        A ++ (makeLower line ++ 0 :: LF :: (d ++ behind)) := by simp [cells]
    rw [hsplit, List.drop_left, cstr_append_zero (zero_notMem_makeLower hline.1)]
  refine ⟨d, behind, s₁, hd, hs₁, ?_⟩
  unfold recvOneChunk
  rw [hr, hp]
  simp only [hwrite, hlower, hcells]
  rcases scanHex (makeLower line) with _ | _ | n <;> rfl

/-- The line is cut out. -/
theorem remove_line (A line d behind : Text) :
    RecvPool.remove ⟨A ++ (makeLower line ++ 0 :: LF :: d), behind, A.length + line.length + 2⟩
      A.length (A.length + line.length - A.length + 2) =
      some ⟨A ++ d, (A ++ (makeLower line ++ 0 :: LF :: d)).drop (A.length + d.length) ++ behind,
        A.length + line.length + 2⟩ := by
  have := remove_at A (makeLower line ++ [0, LF]) d behind (A.length + line.length + 2)
  rw [List.length_append, length_makeLower, List.append_assoc] at this
  rw [show A.length + line.length - A.length + 2 = line.length + [(0 : UInt8), LF].length by simp]
  exact this

/-- **Behind its line, a chunk leaves as much as the line says**, whatever stands where its end should. -/
theorem recvOneChunk_sized {d e : Text} (hfeeds : Feeds (A ++ (line ++ (CRLF ++ (d ++ (e ++ rest))))) b stream)
    (hp : b.parsed = A.length) (hin : FoundInside CRLF b) (hline : 0 ∉ line ∧ CR ∉ line ∧ LF ∉ line)
    (hscan : scanHex (makeLower line) = some d.length) (hpos : d ≠ []) (he : e.length = 2)
    (hsize : A.length + d.length + 2 < 2 ^ 32) :
    ∃ b' stream', recvOneChunk stream b = some (.size d.length, b', stream') ∧ Feeds (A ++ (d ++ rest)) b' stream' ∧
      b'.parsed = (A ++ d).length ∧ Echo b' := by
  obtain ⟨r, behind, s₁, hr, hs₁, hchunk⟩ := recvOneChunk_line hfeeds hp hin hline
  have hmod : (A.length + d.length + 2) % 2 ^ 32 = (A ++ (d ++ e)).length := by
    simp only [List.length_append, he]
    omega
  have hfeeds₁ : Feeds (A ++ (d ++ (e ++ rest))) ⟨A ++ r,
      (A ++ (makeLower line ++ 0 :: LF :: r)).drop (A.length + r.length) ++ behind, A.length⟩ s₁ := by
    refine ⟨?_, hs₁⟩
    rw [List.append_assoc, hr]
  obtain ⟨b₂, s₂, hup, hf₂, ⟨u, hu⟩, hp₂, hle₂⟩ := recvUpTo_eq (n := (A ++ (d ++ e)).length) hfeeds₁
    (by simp only [List.length_append]; omega)
  obtain ⟨f, hf⟩ : A ++ (d ++ e) <+: b₂.data :=
    List.prefix_of_prefix_length_le ⟨rest, by simp⟩ hf₂.received_data hle₂
  obtain ⟨data, behind₂, parsed⟩ := b₂
  simp only at hf hp₂ hu
  subst hf hp₂ hu
  -- the line end is cut out
  have hend : (A ++ (d ++ e)).length - 2 = (A ++ d).length := by
    simp only [List.length_append, he]
    omega
  have hcut : RecvPool.remove ⟨A ++ (d ++ e) ++ f, 0 :: u, (A ++ (d ++ e)).length⟩ ((A ++ (d ++ e)).length - 2) 2 =
      some ⟨A ++ d ++ f, (A ++ d ++ (e ++ f)).drop ((A ++ d).length + f.length) ++ 0 :: u, (A ++ (d ++ e)).length⟩ := by
    have := remove_at (A ++ d) e f (0 :: u) (A ++ (d ++ e)).length
    rw [he] at this
    rw [hend, show A ++ (d ++ e) ++ f = A ++ d ++ (e ++ f) by simp]
    exact this
  refine ⟨⟨A ++ d ++ f, (A ++ d ++ (e ++ f)).drop ((A ++ d).length + f.length) ++ 0 :: u, (A ++ d).length⟩, s₂, ?_,
    ⟨?_, hf₂.received⟩, rfl, ?_, _, u, rfl, ?_⟩
  · obtain ⟨m, hm⟩ := Nat.exists_eq_succ_of_ne_zero fun h0 => hpos (List.eq_nil_of_length_eq_zero h0)
    rw [hchunk, hscan, hm]
    simp only [behindLine, Option.bind_eq_bind]
    rw [← hm]
    simp only [remove_line, Option.bind_some, hmod, hup, hcut]
    rw [hend]
  · have := hf₂.bytes
    simpa using this
  · simp [used]
  · intro h
    simp only [used, List.length_append] at h
    have hdrop : (A ++ d ++ (e ++ f)).drop ((A ++ d).length + f.length) = f.drop (f.length - 2) := by
      rw [← List.drop_drop, List.drop_left, List.drop_append, List.drop_of_length_le (by omega), List.nil_append, he]
    rw [hdrop]
    simp only [List.drop_left]
    exact List.drop_suffix _ _

/-- **A chunk leaves its payload.** -/
theorem recvOneChunk_eq (hfeeds : Feeds (A ++ (c.bytes ++ rest)) b stream) (hp : b.parsed = A.length)
    (hin : FoundInside CRLF b) (hsize : (A ++ (c.bytes ++ rest)).length < 2 ^ 31) :
    ∃ b' stream', recvOneChunk stream b = some (.size c.payload.length, b', stream') ∧
      Feeds (A ++ (c.payload ++ rest)) b' stream' ∧ b'.parsed = (A ++ c.payload).length ∧ Echo b' := by
  have hbytes : A ++ (c.bytes ++ rest) = A ++ (c.line ++ (CRLF ++ (c.payload ++ (CRLF ++ rest)))) := by simp [Chunk.bytes]
  rw [hbytes] at hfeeds hsize
  simp only [List.length_append] at hsize
  exact recvOneChunk_sized hfeeds hp hin c.line_ok (c.scanHex_line (by omega)) c.payload_ne rfl (by omega)

/-- The last chunk ends the body where it is. -/
theorem recvOneChunk_last (hfeeds : Feeds (A ++ (lastChunk ++ rest)) b stream) (hp : b.parsed = A.length)
    (hin : FoundInside CRLF b) : ∃ b' stream', recvOneChunk stream b = some (.size 0, b', stream') ∧ A <+: b'.data ∧
      b'.parsed = A.length ∧ stream'.flatten <:+ rest ∧ [] ∉ stream' := by
  have hlast : lastChunk ++ rest = [0x30] ++ (CRLF ++ rest) := rfl
  rw [hlast] at hfeeds
  obtain ⟨d, behind, s₁, hd, hs₁, hchunk⟩ := recvOneChunk_line hfeeds hp hin (by decide)
  have hscan : scanHex (makeLower [0x30]) = some 0 := by decide
  rw [hscan] at hchunk
  exact ⟨_, s₁, hchunk, List.prefix_append _ _, rfl, ⟨d, hd⟩, hs₁⟩

/-! ### The whole body -/

theorem payloads_cons : payloads (c :: cs) = c.payload ++ payloads cs := List.flatMap_cons

/-- **The rounds of the loop leave the payloads one behind the other.** -/
theorem recvChunks_eq (hfeeds : Feeds (A ++ (cs.flatMap Chunk.bytes ++ (lastChunk ++ rest))) b stream)
    (hp : b.parsed = A.length) (hin : FoundInside CRLF b)
    (hsize : (A ++ (cs.flatMap Chunk.bytes ++ (lastChunk ++ rest))).length < 2 ^ 31) (hn : cs.length < n) :
    ∃ b' stream', recvChunks n stream b = some (true, b', stream') ∧ A ++ payloads cs <+: b'.data ∧
      b'.parsed = (A ++ payloads cs).length ∧ stream'.flatten <:+ rest ∧ [] ∉ stream' := by
  induction cs generalizing A b stream n with
  | nil =>
    obtain ⟨n, rfl⟩ := Nat.exists_eq_add_of_lt hn
    obtain ⟨b', stream', hr, hpre, hp', hsuf, hs⟩ := recvOneChunk_last hfeeds hp hin
    refine ⟨b', stream', ?_, by simpa [payloads] using hpre, by simpa [payloads] using hp', hsuf, hs⟩
    rw [recvChunks, hr]
    rfl
  | cons c cs ih =>
    obtain ⟨n, rfl⟩ := Nat.exists_eq_add_of_lt hn
    rw [List.flatMap_cons, List.append_assoc] at hfeeds hsize
    obtain ⟨b₁, s₁, hr, hf₁, hp₁, hecho⟩ := recvOneChunk_eq hfeeds hp hin hsize
    -- the next line, of a chunk or the last one, is found inside the used part
    have hin₁ : FoundInside CRLF b₁ := by
      have hpre := hf₁.received_data
      rw [← List.append_assoc] at hpre
      cases cs with
      | nil =>
        have hlast : b₁.data <+: A ++ c.payload ++ ([0x30] ++ (CRLF ++ rest)) := hpre
        exact hecho.foundInside hlast hp₁ (by decide)
      | cons c' cs =>
        have hnext : b₁.data <+: A ++ c.payload ++ (c'.line ++ (CRLF ++
            (c'.payload ++ (CRLF ++ (cs.flatMap Chunk.bytes ++ (lastChunk ++ rest)))))) := by
          simpa [Chunk.bytes] using hpre
        exact hecho.foundInside hnext hp₁ c'.line_ok
    have hsize₁ : (A ++ c.payload ++ (cs.flatMap Chunk.bytes ++ (lastChunk ++ rest))).length < 2 ^ 31 := by
      refine lt_of_le_of_lt ?_ hsize
      simp only [Chunk.bytes, List.length_append]
      omega
    rw [← List.append_assoc] at hf₁
    obtain ⟨b', stream', hr', hpre', hp', hsuf, hs⟩ := ih hf₁ hp₁ hin₁ hsize₁ (n := cs.length + 1 + n) (by omega)
    have hne : c.payload.length ≠ 0 := fun h0 => c.payload_ne (List.eq_nil_of_length_eq_zero h0)
    obtain ⟨m, hm⟩ := Nat.exists_eq_succ_of_ne_zero hne
    rw [payloads_cons, ← List.append_assoc]
    refine ⟨b', stream', ?_, hpre', hp', hsuf, hs⟩
    rw [List.length_cons, show cs.length + 1 + n + 1 = (cs.length + 1 + n) + 1 by omega, recvChunks, hr, hm]
    exact hr'

end Cpcf.Inet
