import Cpcf.Rt.Number

/-!
The JSON dialect of the library, as concrete syntax.

A value is a string in double or single quotes with backslash escapes, a bare word (a literal or a
number), a binary value `<n/` … `>` with `n` raw bytes between the slash and the bracket, an array
or an object. A tree keeps the layout: every stretch of whitespace and the quotes of every string
and key, so that `Value.text` gives the text byte by byte. A key is quoted or a bare word.

The pieces carry their own conditions: a string body holds no unescaped quote of its own kind, a
bare word is not empty and holds none of the characters that end it, and a binary value is short
enough for its length to be stepped over in a `UINT` (the composer itself asserts `0xffffff`).
-/

namespace Cpcf.Json

open Cpcf.Rt

/-! ### Characters -/

/-- Whitespace of a layout. -/
def isWs (b : UInt8) : Bool := b == 0x20 || (0x09 ≤ b && b ≤ 0x0d)

/-- The characters of a bare word: visible, and neither a quote nor a separator nor a bracket, nor
one of the two that enclose a binary value. -/
def isBare (b : UInt8) : Bool :=
  decide (0x20 < b) && !(b == Ch.dquote || b == Ch.squote || b == Ch.comma || b == Ch.colon || b == Ch.lt ||
    b == Ch.gt || b == Ch.lbracket || b == Ch.rbracket || b == Ch.lbrace || b == Ch.rbrace)

/-- The two quotes. -/
inductive Quote
  | double | single
  deriving DecidableEq, Repr

/-- The character of a quote. -/
def Quote.char : Quote → UInt8
  | .double => Ch.dquote
  | .single => Ch.squote

/-- No byte of the text is a `q` that is not escaped, and no backslash is left open at its end. -/
def escaped (q : UInt8) : List UInt8 → Bool
  | [] => true
  | [b] => b != Ch.backslash && b != q
  | b :: c :: s => if b = Ch.backslash then escaped q s else b != q && escaped q (c :: s)

/-! ### Pieces -/

/-- A stretch of whitespace. -/
@[ext] structure Ws where
  text : List UInt8
  wf : text.all isWs = true

/-- No whitespace. -/
def Ws.none : Ws := ⟨[], rfl⟩

/-- One blank. -/
def Ws.blank : Ws := ⟨[0x20], rfl⟩

/-- A bare word. -/
structure Word where
  text : List UInt8
  ne_nil : text ≠ []
  wf : text.all isBare = true

/-- The bytes of a binary value. -/
structure Payload where
  bytes : List UInt8
  fits : bytes.length + 1 < 2 ^ 32

/-- A quoted string. -/
structure Str where
  quote : Quote
  body : List UInt8
  wf : escaped quote.char body = true

/-- The empty string. -/
def Str.empty (q : Quote) : Str := ⟨q, [], rfl⟩

/-- The string `a`. -/
def Str.a (q : Quote) : Str := ⟨q, [0x61], by cases q <;> rfl⟩

/-- The number `1`. -/
def Word.one : Word := ⟨[0x31], List.cons_ne_nil _ _, rfl⟩

/-- A key. -/
inductive Key
  | quoted (s : Str)
  | bare (w : Word)

/-- The two kinds of container. -/
inductive Kind
  | array | object
  deriving DecidableEq, Repr

/-- The opening bracket. -/
def Kind.opening : Kind → UInt8
  | .array => Ch.lbracket
  | .object => Ch.lbrace

/-- The closing bracket. -/
def Kind.closing : Kind → UInt8
  | .array => Ch.rbracket
  | .object => Ch.rbrace

/-- What stands before the value of an entry: whitespace in an array, and in an object the key and
the colon with the whitespace around them. -/
inductive Head : Kind → Type
  | item (pre : Ws) : Head .array
  | member (pre : Ws) (key : Key) (mid post : Ws) : Head .object

mutual
/-- A value with its layout. -/
inductive Value : Type
  | str (s : Str)
  | lit (w : Word)
  | bin (p : Payload)
  | empty (k : Kind) (ws : Ws)
  | node (k : Kind) (es : Entries k)
/-- The entries of a container that is not empty. -/
inductive Entries : Kind → Type
  | one {k : Kind} (h : Head k) (v : Value) (post : Ws) : Entries k
  | cons {k : Kind} (h : Head k) (v : Value) (post : Ws) (rest : Entries k) : Entries k
end

/-! ### Texts -/

/-- A string with its quotes. -/
def Str.text (s : Str) : List UInt8 := s.quote.char :: (s.body ++ [s.quote.char])

/-- A key as written. -/
def Key.text : Key → List UInt8
  | .quoted s => s.text
  | .bare w => w.text

/-- The bytes a key stands for. -/
def Key.name : Key → List UInt8
  | .quoted s => s.body
  | .bare w => w.text

/-- A binary value as written. -/
def Payload.text (p : Payload) : List UInt8 :=
  Ch.lt :: (itoaUnsigned p.bytes.length ++ Ch.slash :: (p.bytes ++ [Ch.gt]))

/-- The text before the value of an entry. -/
def Head.text : {k : Kind} → Head k → List UInt8
  | _, .item pre => pre.text
  | _, .member pre key mid post => pre.text ++ (key.text ++ (mid.text ++ Ch.colon :: post.text))

mutual
/-- The text of a value. -/
def Value.text : Value → List UInt8
  | .str s => s.text
  | .lit w => w.text
  | .bin p => p.text
  | .empty k ws => k.opening :: (ws.text ++ [k.closing])
  | .node k es => k.opening :: (es.text ++ [k.closing])
/-- The text between the brackets. -/
def Entries.text : {k : Kind} → Entries k → List UInt8
  | _, .one h v post => h.text ++ (v.text ++ post.text)
  | _, .cons h v post rest => h.text ++ (v.text ++ (post.text ++ Ch.comma :: rest.text))
end

/-- The text a value stands for when it is read: a string without its quotes, the raw bytes of a
binary value, and any other value as written. -/
def Value.cooked : Value → List UInt8
  | .str s => s.body
  | .bin p => p.bytes
  | v => v.text

/-- The key of a member. -/
def Head.key : Head .object → Key
  | .member _ key _ _ => key

/-- The members of an object, as keys and values in order. -/
def Entries.members : {k : Kind} → Entries k → List (Key × Value)
  | .object, .one h v _ => [(h.key, v)]
  | .object, .cons h v _ rest => (h.key, v) :: rest.members
  | .array, _ => []

/-! ### First bytes -/

theorem Word.exists_cons (w : Word) : ∃ b s, w.text = b :: s ∧ isBare b = true := by
  obtain ⟨_ | ⟨b, s⟩, h0, hb⟩ := w
  · exact absurd rfl h0
  · exact ⟨b, s, rfl, by simpa using (List.all_eq_true.mp hb) b (by simp)⟩

theorem Word.isBare_of_mem (w : Word) {b : UInt8} (h : b ∈ w.text) : isBare b = true :=
  List.all_eq_true.mp w.wf b h

theorem Ws.isWs_of_mem (w : Ws) {b : UInt8} (h : b ∈ w.text) : isWs b = true := List.all_eq_true.mp w.wf b h

theorem Value.text_ne_nil (v : Value) : v.text ≠ [] := by
  cases v with
  | str s => simp [Value.text, Str.text]
  | lit w => simpa [Value.text] using w.ne_nil
  | bin p => simp [Value.text, Payload.text]
  | empty k ws => simp [Value.text]
  | node k es => simp [Value.text]

end Cpcf.Json
