import Cpcf.Rt.StringRef

/-!
`String` of `rt/string_type.h`: a `String_Ref` that owns its buffer.

Allocation always succeeds, and a new block lies behind all others; what it holds is what the memory held there
from the start, which may be anything. A block that is freed is not used again. Sizes are sizes of blocks, so no
sum of them wraps.

A reference that is an argument may lie anywhere, also in the buffer of the string itself. Access through the null
pointer is `none`, and so is a loop or a move whose size is a negative number read as a `SIZE_T`.
-/

namespace Cpcf.Rt.StringOwned

open Cpcf.Lib.Memory Cpcf.Lib.Word Cpcf.Rt.StringRef

/-- The memory, and where the next block is allocated. -/
structure Heap where
  mem : Mem
  brk : ℕ
  brk_pos : 0 < brk

/-- A change to the memory. -/
def Heap.set (h : Heap) (m : Mem) : Heap := { h with mem := m }

/-- `_Malloc32AL`; the block is the memory from the old `brk` on. -/
def Heap.malloc (h : Heap) (n : ℕ) : Heap := ⟨h.mem, h.brk + n, Nat.add_pos_left h.brk_pos n⟩

/-- A text at 1, and nothing allocated yet. -/
def Heap.ofText (xs : List UInt8) : Heap := ⟨ofBytes 1 xs, xs.length + 2, Nat.succ_pos _⟩

/-- A string: `_p`, `_len` and `_len_reserved`. -/
structure Str extends Ref where
  reserved : ℕ

/-- `String()`. -/
def Str.new : Str := ⟨⟨0, 0⟩, 0⟩

/-! ### Sizes -/

/-- `_ChangeSize(new_size)`. -/
def changeSize (h : Heap) (s : Str) (new_size : ℕ) : Heap × Str :=
  if new_size ≤ s.reserved then (h, { s with len := new_size })
  else
    let reserved := max (max 16 new_size) (s.reserved * 2)
    let p := h.brk
    ((h.malloc reserved).set (memcpy h.mem p (read h.mem s.p s.len)), ⟨⟨p, new_size⟩, reserved⟩)

/-- `SetLength(sz)`. -/
def setLength (h : Heap) (s : Str) (sz : ℕ) : Heap × Str :=
  if sz = 0 then
    if s.p ≠ 0 ∧ 1 < s.len then (h.set (poke h.mem s.p 0), { s with len := 1 }) else (h, s)
  else
    let t := changeSize h s (sz + 1)
    (t.1.set (poke t.1.mem (t.2.p + sz) 0), t.2)

/-- `Empty()`. -/
def empty (h : Heap) (s : Str) : Heap × Str := setLength h s 0

/-- `Shorten(n)`. -/
def shorten (h : Heap) (s : Str) (n : ℕ) : Heap × Str := setLength h s (s.getLength - n)

/-! ### Assignment and `+=` -/

/-- `operator = (char)`. -/
def assignChar (h : Heap) (s : Str) (x : UInt8) : Heap × Str :=
  let t := setLength h s 1
  (t.1.set (poke t.1.mem t.2.p x), t.2)

/-- `operator = (const String_Ref&)`. -/
def assign (h : Heap) (s : Str) (x : Ref) : Heap × Str :=
  if x.isEmpty then empty h s
  else
    let t := changeSize h s (x.getLength + 1)
    let m := memcpy t.1.mem t.2.p (read t.1.mem x.p t.2.getLength)
    (t.1.set (poke m (t.2.p + x.getLength) 0), t.2)

/-- A string expression: `String_AddExpr` over references. -/
inductive Expr
  | ref (x : Ref)
  | add (left right : Expr)

/-- `GetLength()`. -/
def Expr.getLength : Expr → ℕ
  | .ref x => x.getLength
  | .add left right => left.getLength + right.getLength

/-- `CopyTo(p)`: the memory and the number of characters. -/
def Expr.copyTo : Expr → Mem → ℕ → Mem × ℕ
  | .ref x, m, p => (memcpy m p (read m x.p x.getLength), x.getLength)
  | .add left right, m, p =>
    let l := left.copyTo m p
    let r := right.copyTo l.1 (p + l.2)
    (r.1, l.2 + r.2)

/-- `operator = (const T&)` for an expression. The new block has exactly the size of the text. -/
def assignExpr (h : Heap) (_ : Str) (e : Expr) : Heap × Str :=
  let len := e.getLength
  let p := h.brk
  ((h.malloc (len + 1)).set (e.copyTo (poke h.mem (p + len) 0) p).1, ⟨⟨p, len + 1⟩, len + 1⟩)

/-- `operator += (const T&)` for an expression. -/
def appendExpr (h : Heap) (s : Str) (e : Expr) : Heap × Str :=
  let len := e.getLength
  let total := len + s.getLength
  if total + 1 > s.reserved then
    let p := h.brk
    let m := memcpy h.mem p (read h.mem s.p s.getLength)
    let m := (e.copyTo m (p + s.getLength)).1
    ((h.malloc (total + 1)).set (poke m (p + total) 0), ⟨⟨p, total + 1⟩, total + 1⟩)
  else
    let m := (e.copyTo h.mem (s.p + s.getLength)).1
    (h.set (poke m (s.p + total) 0), { s with len := total + 1 })

/-- `operator += (char)`. -/
def appendChar (h : Heap) (s : Str) (x : UInt8) : Heap × Str :=
  let t := setLength h s (s.getLength + 1)
  (t.1.set (poke t.1.mem (t.2.p + s.getLength) x), t.2)

/-! ### `Replace` -/

/-- `Replace(a, b)` for two characters. -/
def replaceChar (h : Heap) (s : Str) (a b : UInt8) : Heap × Str :=
  (h.set (replaceLoop a b s.getLength h.mem s.p), s)

/-- The loop of `Replace(a, b)` for a character and a text, from `p` on. -/
def replaceCharByLoop (a : UInt8) (b : Ref) : ℕ → ℕ → Heap → Str → Heap × Str
  | 0, _, h, tmp => (h, tmp)
  | n + 1, p, h, tmp =>
    let t := if h.mem p = a then appendExpr h tmp (.ref b) else appendChar h tmp (h.mem p)
    replaceCharByLoop a b n (p + 1) t.1 t.2

/-- `Replace(a, b)` for a character and a text; the loop counts with an `int`. -/
def replaceCharBy (h : Heap) (s : Str) (a : UInt8) (b : Ref) : Heap × Str :=
  let t := setLength h Str.new (s.getLength * b.getLength)
  let t := setLength t.1 t.2 0
  replaceCharByLoop a b (intOf s.getLength).toNat s.p t.1 t.2

/-- `strstr(hay, sub)`, for a text that ends within `n` characters. -/
def strstr (m : Mem) (sub : List UInt8) : ℕ → ℕ → Option ℕ
  | 0, _ => none
  | n + 1, hay =>
    if Holds m hay sub then some hay else if m hay = 0 then none else strstr m sub n (hay + 1)

/-- `FindString(sub, skip_first)`, or a negative number. -/
def findString (m : Mem) (s : Str) (sub : List UInt8) (skip_first : ℕ) : ℤ :=
  if skip_first < s.getLength then
    match strstr m sub (s.getLength - skip_first + 1) (s.p + skip_first) with
    | some q => intOf (q - s.p)
    | none => -1
  else -1

/-- The loop of `Replace(a, b)` for two texts: `sub` is what `strstr` looks for, `a_len` the length of `a`. As long
as the offsets are those of an `int`, each round leaves fewer characters to be searched. -/
def replaceTextLoop (sub : List UInt8) (a_len : ℕ) (b : Ref) : ℕ → ℕ → Heap → Str → Heap × Str
  | 0, _, h, tmp => (h, tmp)
  | n + 1, s, h, tmp =>
    let p := findString h.mem tmp sub s
    if p < 0 then (h, tmp)
    else
      let e := Expr.add (.add (.ref (tmp.subStrHead p.toNat)) (.ref b)) (.ref (tmp.subStr (p.toNat + a_len)))
      let t := assignExpr h tmp e
      replaceTextLoop sub a_len b n (p.toNat + b.getLength) t.1 t.2

/-- `Replace(a, b)` for two texts. -/
def replaceText (h : Heap) (s : Str) (sub : List UInt8) (a_len : ℕ) (b : Ref) : Heap × Str :=
  if a_len = 0 then (h, s)
  else
    let t := assign h Str.new s.toRef
    replaceTextLoop sub a_len b (s.getLength + 1) 0 t.1 t.2

/-! ### Escaping -/

/-- `UnescapeCharacters(escape_sign)`. -/
def unescapeCharacters (h : Heap) (s : Str) (sign : UInt8) : Heap × Str :=
  if s.isEmpty then (h, s)
  else
    let t := unescapeLoop id sign s.getLength h.mem s.p s.p
    (h.set (poke t.1 t.2 0), { s with len := t.2 - s.p + 1 })

/-- `UnescapeCharacters(input, escape, escape_sign)`, where `f` is `escape.Mapped`, and `UnescapeCharacters(input,
escape_sign)`, where `f` is the identity. -/
def unescapeFrom (f : UInt8 → UInt8) (h : Heap) (s : Str) (input : Ref) (sign : UInt8) : Option (Heap × Str) :=
  let t := setLength h s input.getLength
  if input.p = 0 ∨ t.2.p = 0 then none
  else
    let u := unescapeLoop f sign input.getLength t.1.mem input.p t.2.p
    some (t.1.set (poke u.1 u.2 0), { t.2 with len := u.2 - t.2.p + 1 })

/-- `*s == escape_sign || characters_to_be_escaped.Has(*s)`. -/
def isEscaped (set : CharacterSet) (sign c : UInt8) : Bool := c = sign || set.has c

/-- `replace_count`, over the `n` characters from `p` on. -/
def replaceCount (set : CharacterSet) (sign : UInt8) (m : Mem) (p n : ℕ) : ℕ :=
  (read m p n).countP (isEscaped set sign)

/-- The loop of `EscapeCharacters(input, ...)`. -/
def escapeLoop (set : CharacterSet) (sign : UInt8) : ℕ → Mem → ℕ → ℕ → Mem
  | 0, m, _, _ => m
  | n + 1, m, s, p =>
    if isEscaped set sign (m s) then
      let m := poke m p sign
      escapeLoop set sign n (poke m (p + 1) (set.mapped (m s))) (s + 1) (p + 2)
    else escapeLoop set sign n (poke m p (m s)) (s + 1) (p + 1)

/-- `EscapeCharacters(input, characters_to_be_escaped, escape_sign)`. -/
def escapeFrom (h : Heap) (s : Str) (input : Ref) (set : CharacterSet) (sign : UInt8) : Heap × Str :=
  let count := replaceCount set sign h.mem input.p input.getLength
  if count = 0 then assign h s input
  else
    let t := setLength h s (input.getLength + count)
    (t.1.set (escapeLoop set sign input.getLength t.1.mem input.p t.2.p), t.2)

/-- The loop of `EscapeCharacters(...)` over the `n` characters from `base` on, from the last one to the first;
`p` is behind the next place. -/
def escapeBackLoop (set : CharacterSet) (sign : UInt8) (base : ℕ) : ℕ → Mem → ℕ → Mem
  | 0, m, _ => m
  | n + 1, m, p =>
    let c := m (base + n)
    if isEscaped set sign c then
      let m := poke m (p - 1) (set.mapped c)
      escapeBackLoop set sign base n (poke m (p - 2) sign) (p - 2)
    else escapeBackLoop set sign base n (poke m (p - 1) c) (p - 1)

/-- `EscapeCharacters(characters_to_be_escaped, escape_sign)`. -/
def escapeCharacters (h : Heap) (s : Str) (set : CharacterSet) (sign : UInt8) : Heap × Str :=
  let n := s.getLength
  let count := replaceCount set sign h.mem s.p n
  if count = 0 then (h, s)
  else
    let t := setLength h s (n + count)
    (t.1.set (escapeBackLoop set sign t.2.p n t.1.mem (t.2.p + t.2.getLength)), t.2)

/-! ### `TrimCodeComments` -/

/-- The number of backslashes right before an address. -/
def backslashes (m : Mem) : ℕ → ℕ
  | 0 => 0
  | a + 1 => if m a = Ch.backslash then backslashes m a + 1 else 0

/-- A literal is copied up to a quotation mark behind an even number of backslashes, with `n` characters left at
`p`: the memory, `p`, `out`, and whether there is such a mark. -/
def quotedLoop (quotation : UInt8) : ℕ → Mem → ℕ → ℕ → Mem × ℕ × ℕ × Bool
  | 0, m, p, out => (m, p, out, false)
  | n + 1, m, p, out =>
    let m := poke m out (m p)
    if m p = quotation ∧ backslashes m p % 2 = 0 then (m, p, out + 1, true)
    else quotedLoop quotation n m (p + 1) (out + 1)

/-- The last character of a comment, or the end of the text. -/
def closeLoop (m : Mem) : ℕ → ℕ → ℕ
  | 0, p => p
  | n + 1, p => if m (p - 1) = 0x2a ∧ m p = Ch.slash then p else closeLoop m n (p + 1)

/-- `c == '\r' || c == '\n'`. -/
def isLineEnd (c : UInt8) : Bool := c = 0x0d || c = Ch.newline

/-- The main loop of `TrimCodeComments`; it ends at `e - 1`. -/
def trimLoop (e : ℕ) : ℕ → Mem → ℕ → ℕ → Mem × ℕ × ℕ
  | 0, m, p, out => (m, p, out)
  | k + 1, m, p, out =>
    if p + 1 < e then
      if m p = Ch.dquote ∨ m p = Ch.squote then
        let t := quotedLoop (m p) (e - (p + 1)) (poke m out (m p)) (p + 1) (out + 1)
        if t.2.2.2 then trimLoop e k t.1 (t.2.1 + 1) t.2.2.1 else (t.1, t.2.1, t.2.2.1)
      else if m p = Ch.slash ∧ m (p + 1) = Ch.slash then
        let p := scanWhile m (fun c => !isLineEnd c) (p + 2) (e - (p + 2))
        let p := if isLineEnd (m (out - 1)) then scanWhile m isLineEnd p (e - p) else p
        trimLoop e k m p out
      else
        -- the character behind a comment is copied without a look at it
        let p := if m p = Ch.slash ∧ m (p + 1) = 0x2a then closeLoop m (e - (p + 2)) (p + 2) + 1 else p
        trimLoop e k (poke m out (m p)) (p + 1) (out + 1)
    else (m, p, out)

/-- `TrimCodeComments(code)`. -/
def trimCodeComments (h : Heap) (s : Str) (code : Ref) : Heap × Str :=
  if code.isEmpty then empty h s
  else
    let o := setLength h Str.new code.getLength
    let t := trimLoop code.stop code.getLength o.1.mem code.p o.2.p
    let u := if t.2.1 < code.stop then (poke t.1 t.2.2 (t.1 t.2.1), t.2.2 + 1) else (t.1, t.2.2)
    assign (o.1.set u.1) s (Ref.ofEnds o.2.p u.2)

/-! ### `Insert` -/

/-- `Insert(pos, c)`. -/
def insertChar (h : Heap) (s : Str) (pos : ℕ) (c : UInt8) : Option (Heap × Str) :=
  let org_len := s.getLength
  let t := setLength h s (s.getLength + 1)
  if org_len < pos then none
  else
    let m := memcpy t.1.mem (t.2.p + pos + 1) (read t.1.mem (t.2.p + pos) (org_len - pos))
    some (t.1.set (poke m (t.2.p + pos) c), t.2)

/-- `Insert(pos, sub_str)`. -/
def insert (h : Heap) (s : Str) (pos : ℕ) (sub_str : Ref) : Option (Heap × Str) :=
  let org_len := s.getLength
  let t := setLength h s (org_len + sub_str.getLength)
  if org_len < pos then none
  else
    let m := memcpy t.1.mem (t.2.p + pos + sub_str.getLength) (read t.1.mem (t.2.p + pos) (org_len - pos))
    some (t.1.set (memcpy m (t.2.p + pos) (read m sub_str.p sub_str.getLength)), t.2)

/-! ### Functions of `String_Ref` with a zero byte behind them -/

/-- `RemoveCharacters(s)`. -/
def removeCharacters (h : Heap) (s : Str) (set : CharacterSet) : Heap × Str :=
  let t := removeLoop set s.getLength h.mem s.p s.p
  let s := { s with len := t.2 - s.p + 1 }
  (h.set (if s.isEmpty then t.1 else poke t.1 (s.p + s.len - 1) 0), s)

/-- `RegularizeUTF8()`. -/
def regularizeUTF8 (h : Heap) (s : Str) : Option (Heap × Str) :=
  if s.p = 0 ∨ s.len = 0 then none
  else
    let t := regularizeLoop s.p (s.len - 1) (s.len - 1) h.mem 0 s.p
    some (h.set (poke t.1 t.2 0), { s with len := t.2 - s.p + 1 })

/-- `DecodedURL()`. -/
def decodedURL (h : Heap) (s : Str) : Option (Heap × Str) :=
  if s.p = 0 then none
  else
    let t := decodedURLLoop s.p s.getLength s.getLength h.mem 0 s.p
    some (h.set (poke t.1 t.2 0), { s with len := t.2 - s.p + 1 })

/-- The inherited `ResolveRelativePath()`. -/
def resolvePath (h : Heap) (s : Str) : Heap × Str :=
  let t := resolveRelativePath h.mem s.toRef
  (h.set t.1, { s with toRef := t.2 })

end Cpcf.Rt.StringOwned
