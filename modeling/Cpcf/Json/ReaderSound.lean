import Cpcf.Json.Enumerate
import Cpcf.Json.Reader

/-!
The parser reads nothing else.

`readText_value` says that every text is read as the tree it was written from; here is the converse. When the
parser accepts a text, there is a tree with layout of which this is the text. Binary values are left out: the
parser takes any spelling of their length.
-/

namespace Cpcf.Json

open Cpcf.Rt

/-! ### What is read was written -/

theorem exists_ws (s : List UInt8) : ∃ ws : Ws, s = ws.text ++ dropWs s :=
  ⟨⟨s.takeWhile isWs, List.all_eq_true.mpr fun _ hb => List.mem_takeWhile_imp hb⟩,
    (List.takeWhile_append_dropWhile).symm⟩

theorem escaped_cons {q b : UInt8} (hb : b ≠ Ch.backslash) (hq : b ≠ q) {s : List UInt8} (h : escaped q s = true) :
    escaped q (b :: s) = true := by
  cases s with
  | nil =>
    rw [escaped, Bool.and_eq_true, bne_iff_ne, bne_iff_ne]
    exact ⟨hb, hq⟩
  | cons c s =>
    rw [escaped, if_neg hb, Bool.and_eq_true, bne_iff_ne]
    exact ⟨hq, h⟩

theorem readString_sound {q : UInt8} {s body rest : List UInt8} (h : readString q s = some (body, rest)) :
    escaped q body = true ∧ s = body ++ q :: rest := by
  induction s using readString.induct q generalizing body with
  | case1 => simp [readString] at h
  | case2 =>
    simp only [readString, if_true, Option.some.injEq, Prod.mk.injEq] at h
    obtain ⟨rfl, rfl⟩ := h
    exact ⟨rfl, rfl⟩
  | case3 b hb => simp [readString, hb] at h
  | case4 c s =>
    simp only [readString, if_true, Option.some.injEq, Prod.mk.injEq] at h
    obtain ⟨rfl, rfl⟩ := h
    exact ⟨rfl, rfl⟩
  | case5 c s hq ih =>
    simp only [readString, if_neg hq, if_true, Option.map_eq_some_iff, Prod.mk.injEq] at h
    obtain ⟨r, hr, rfl, rfl⟩ := h
    obtain ⟨h1, rfl⟩ := ih hr
    exact ⟨by simpa [escaped] using h1, rfl⟩
  | case6 b c s hq hb ih =>
    simp only [readString, if_neg hq, if_neg hb, Option.map_eq_some_iff, Prod.mk.injEq] at h
    obtain ⟨r, hr, rfl, rfl⟩ := h
    obtain ⟨h1, h2⟩ := ih hr
    exact ⟨escaped_cons hb hq h1, by rw [h2]; rfl⟩

theorem readWord_sound {s word rest : List UInt8} (h : readWord s = some (word, rest)) :
    ∃ w : Word, w.text = word ∧ s = word ++ rest := by
  rw [readWord] at h
  split at h
  · cases h
  · rename_i h0
    cases h
    exact ⟨⟨s.takeWhile isBare, by simpa using h0, List.all_eq_true.mpr fun _ hb => List.mem_takeWhile_imp hb⟩, rfl,
      (List.takeWhile_append_dropWhile).symm⟩

theorem readString_str {b : UInt8} {s body rest : List UInt8} (hb : b = Ch.dquote ∨ b = Ch.squote)
    (h : readString b s = some (body, rest)) : ∃ st : Str, st.body = body ∧ b :: s = st.text ++ rest := by
  obtain ⟨h1, rfl⟩ := readString_sound h
  rcases hb with rfl | rfl
  · exact ⟨⟨.double, body, h1⟩, rfl, by simp [Str.text, Quote.char]⟩
  · exact ⟨⟨.single, body, h1⟩, rfl, by simp [Str.text, Quote.char]⟩

theorem readKey_sound {s name rest : List UInt8} (h : readKey s = some (name, rest)) :
    ∃ key : Key, key.name = name ∧ s = key.text ++ rest := by
  cases s with
  | nil => simp [readKey] at h
  | cons b t =>
    rw [readKey] at h
    split at h
    · rename_i hb
      obtain ⟨st, h1, h2⟩ := readString_str hb h
      exact ⟨.quoted st, h1, h2⟩
    · obtain ⟨w, h1, h2⟩ := readWord_sound h
      exact ⟨.bare w, h1, by rw [h2, ← h1]; rfl⟩

theorem readHead_sound {k : Kind} {s name rest : List UInt8} (h : readHead k s = some (name, rest)) :
    ∃ hd : Head k, hd.name = name ∧ s = hd.text ++ rest := by
  obtain ⟨pre, hpre⟩ := exists_ws s
  cases k with
  | array =>
    simp only [readHead, Option.some.injEq, Prod.mk.injEq] at h
    obtain ⟨rfl, rfl⟩ := h
    exact ⟨.item pre, rfl, hpre⟩
  | object =>
    rw [readHead] at h
    split at h
    · cases h
    · rename_i key t hkey
      split at h
      · cases h
      · rename_i b u hcolon
        split at h
        · rename_i hb
          cases h
          obtain ⟨mid, hmid⟩ := exists_ws t
          obtain ⟨post, hpost⟩ := exists_ws u
          obtain ⟨key', h1, h2⟩ := readKey_sound hkey
          refine ⟨.member pre key' mid post, h1, ?_⟩
          rw [hpre, h2, hmid, hcolon, hb, hpost]
          simp [Head.text, ← hpost]
        · cases h

/-- What one step of `readEntries` has read. -/
theorem readEntries_inv {n : ℕ} {k : Kind} {s rest : List UInt8} {l : List (List UInt8 × Tree)}
    (h : readEntries (n + 1) k s = some (l, rest)) :
    ∃ name t s1 s2, readHead k s = some (name, s1) ∧ readValue n s1 = some (t, s2) ∧
      ((∃ u r, dropWs s2 = Ch.comma :: u ∧ readEntries n k u = some (r, rest) ∧ l = (name, t) :: r) ∨
        (dropWs s2 = k.closing :: rest ∧ l = [(name, t)])) := by
  rw [readEntries] at h
  split at h
  · cases h
  · rename_i name s1 hhead
    split at h
    · cases h
    · rename_i t s2 hval
      refine ⟨name, t, s1, s2, hhead, hval, ?_⟩
      split at h
      · cases h
      · rename_i b u hws
        split at h
        · rename_i hb
          simp only [Option.map_eq_some_iff, Prod.mk.injEq] at h
          obtain ⟨⟨r, rest'⟩, hr, rfl, rfl⟩ := h
          exact Or.inl ⟨u, r, by rw [hws, hb], hr, rfl⟩
        · split at h
          · rename_i hb
            simp only [Option.some.injEq, Prod.mk.injEq] at h
            obtain ⟨rfl, rfl⟩ := h
            exact Or.inr ⟨by rw [hws, hb], rfl⟩
          · cases h

theorem readEntries_ne_nil {n : ℕ} {k : Kind} {s rest : List UInt8} {l : List (List UInt8 × Tree)}
    (h : readEntries n k s = some (l, rest)) : l ≠ [] := by
  cases n with
  | zero => simp [readEntries] at h
  | succ n =>
    obtain ⟨name, t, s1, s2, -, -, ⟨u, r, -, -, rfl⟩ | ⟨-, rfl⟩⟩ := readEntries_inv h
    · simp
    · simp

/-- A reader that found the tree of a value without binary parts has read a text of this tree. -/
def SoundValue (n : ℕ) : Prop := ∀ (v : Value) (s rest : List UInt8), v.noBinary = true →
  readValue n s = some (v.tree, rest) → ∃ w : Value, s = w.text ++ rest ∧ w.tree = v.tree ∧ w.noBinary = true

/-- The same from behind an opening bracket. -/
def SoundNode (n : ℕ) : Prop := ∀ (k : Kind) (v : Value) (s rest : List UInt8), v.noBinary = true →
  readNode n k s = some (v.tree, rest) →
  ∃ w : Value, k.opening :: s = w.text ++ rest ∧ w.tree = v.tree ∧ w.noBinary = true

/-- The same for entries and the closing bracket. -/
def SoundEntries (n : ℕ) : Prop := ∀ (k : Kind) (es : Entries k) (s rest : List UInt8), es.noBinary = true →
  readEntries n k s = some (es.trees, rest) →
  ∃ es' : Entries k, s = es'.text ++ k.closing :: rest ∧ es'.trees = es.trees ∧ es'.noBinary = true

theorem soundValue_succ {n : ℕ} (ih : SoundNode n) : SoundValue (n + 1) := by
  intro v s rest hn h
  cases s with
  | nil => simp [readValue] at h
  | cons b s =>
    rw [readValue] at h
    split at h
    · rename_i hb
      simp only [Option.map_eq_some_iff, Prod.mk.injEq] at h
      obtain ⟨⟨body, rest'⟩, hr, ht, rfl⟩ := h
      obtain ⟨st, rfl, h2⟩ := readString_str hb hr
      exact ⟨.str st, h2, ht, rfl⟩
    · split at h
      · simp only [Option.map_eq_some_iff, Prod.mk.injEq] at h
        obtain ⟨r, -, ht, -⟩ := h
        cases v <;> simp [Value.tree, Value.noBinary] at ht hn
      · split at h
        · rename_i hb
          rw [hb]
          exact ih .array v s rest hn h
        · split at h
          · rename_i hb
            rw [hb]
            exact ih .object v s rest hn h
          · simp only [Option.map_eq_some_iff, Prod.mk.injEq] at h
            obtain ⟨⟨word, rest'⟩, hr, ht, rfl⟩ := h
            obtain ⟨w, rfl, h2⟩ := readWord_sound hr
            exact ⟨.lit w, h2, ht, rfl⟩

theorem soundNode_succ {n : ℕ} (ih : SoundEntries n) : SoundNode (n + 1) := by
  intro k v s rest hn h
  rw [readNode] at h
  split at h
  · rename_i hclose
    simp only [Option.some.injEq, Prod.mk.injEq] at h
    obtain ⟨ht, rfl⟩ := h
    obtain ⟨ws, hws⟩ := exists_ws s
    refine ⟨.empty k ws, ?_, ht, rfl⟩
    rw [Value.text, List.cons_append, List.append_assoc, List.singleton_append, List.cons_inj_right]
    conv_lhs => rw [hws]
    rw [List.append_cancel_left_eq]
    exact (List.cons_head?_tail hclose).symm
  · simp only [Option.map_eq_some_iff, Prod.mk.injEq] at h
    obtain ⟨⟨trees, rest'⟩, hr, ht, rfl⟩ := h
    cases v with
    | node k' es =>
      simp only [Value.tree, Tree.node.injEq] at ht
      obtain ⟨rfl, rfl⟩ := ht
      obtain ⟨es', h1, h2, h3⟩ := ih k es s rest' hn hr
      exact ⟨.node k es', by simp [Value.text, h1], by rw [Value.tree, h2, Value.tree], h3⟩
    | empty k' ws =>
      simp only [Value.tree, Tree.node.injEq] at ht
      exact absurd ht.2 (readEntries_ne_nil hr)
    | _ => simp [Value.tree] at ht

theorem soundEntries_succ {n : ℕ} (ih : SoundValue n) (ih' : SoundEntries n) : SoundEntries (n + 1) := by
  intro k es s rest hn h
  obtain ⟨name, t, s1, s2, hhead, hval, htail⟩ := readEntries_inv h
  obtain ⟨hd, rfl, rfl⟩ := readHead_sound hhead
  obtain ⟨post, hpost⟩ := exists_ws s2
  cases es with
  | one hd' v ws =>
    obtain ⟨u, r, -, hr, hl⟩ | ⟨hend, hl⟩ := htail
    · simp only [Entries.trees, List.cons.injEq] at hl
      exact absurd hl.2.symm (readEntries_ne_nil hr)
    · simp only [Entries.trees, List.cons.injEq, Prod.mk.injEq, and_true] at hl
      rw [← hl.2] at hval
      obtain ⟨w, rfl, hw, hwn⟩ := ih v s1 s2 hn hval
      refine ⟨.one hd w post, ?_, by simp only [Entries.trees, hl.1, hw], hwn⟩
      rw [hend] at hpost
      simp [Entries.text, hpost]
  | cons hd' v ws es =>
    simp only [Entries.noBinary, Bool.and_eq_true] at hn
    obtain ⟨u, r, hcomma, hr, hl⟩ | ⟨-, hl⟩ := htail
    · simp only [Entries.trees, List.cons.injEq, Prod.mk.injEq] at hl
      obtain ⟨⟨h1, h2⟩, rfl⟩ := hl
      rw [← h2] at hval
      obtain ⟨w, rfl, hw, hwn⟩ := ih v s1 s2 hn.1 hval
      obtain ⟨es', rfl, hes, hesn⟩ := ih' k es u rest hn.2 hr
      refine ⟨.cons hd w post es', ?_, by simp only [Entries.trees, h1, hw, hes], ?_⟩
      swap
      · rw [Entries.noBinary, hwn, hesn]
        rfl
      rw [hcomma] at hpost
      simp [Entries.text, hpost]
    · rw [Entries.trees] at hl
      exact absurd (List.cons.inj hl).2 es.trees_ne_nil

theorem read_sound (n : ℕ) : SoundValue n ∧ SoundNode n ∧ SoundEntries n := by
  induction n with
  | zero => simp [SoundValue, SoundNode, SoundEntries, readValue, readNode, readEntries]
  | succ n ih =>
    obtain ⟨ih1, ih2, ih3⟩ := ih
    exact ⟨soundValue_succ ih2, soundNode_succ ih3, soundEntries_succ ih1 ih3⟩

/-- **What is read was written.** When the parser finds the tree of a value without binary parts, the text is one
of this tree, with whitespace around it. -/
theorem readText_sound {v : Value} {s : List UInt8} (hn : v.noBinary = true) (h : readText s = some v.tree) :
    ∃ (w : Value) (pre post : Ws), s = pre.text ++ (w.text ++ post.text) ∧ w.tree = v.tree ∧ w.noBinary = true := by
  rw [readText] at h
  split at h
  · cases h
  · rename_i t rest hval
    split at h
    · rename_i hrest
      cases h
      obtain ⟨pre, hpre⟩ := exists_ws s
      obtain ⟨w, hw, ht, hwn⟩ := (read_sound _).1 v _ rest hn hval
      exact ⟨w, pre, ⟨rest, hrest⟩, by rw [← hw]; exact hpre, ht, hwn⟩
    · cases h

end Cpcf.Json
