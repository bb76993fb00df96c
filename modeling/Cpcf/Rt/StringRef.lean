import Cpcf.Lib.Word
import Cpcf.Rt.Chars

/-!
`String_Ref` of `rt/string_type.h`: a text in memory that is given by its start and its length, and the functions
of `String_Base` that work in place.

`_len` is one more than the number of characters, and 0 or 1 for an empty text. What a function reads behind the
text or through overlapping references is what stands in the memory at that moment.
-/

namespace Cpcf.Rt.StringRef

open Cpcf.Lib.Memory Cpcf.Lib.Word

/-! ### Sets of characters -/

/-- `CharacterSet`: what the characters from 1 to 127 are mapped to, and 0 for those that are not in the set. -/
def CharacterSet := Fin 127 → UInt8

/-- `_Set[c-1]`, and 0 where there is no such place; a `char` from 0x80 on is negative. -/
def CharacterSet.entry (set : CharacterSet) (c : UInt8) : UInt8 :=
  if h : 0 < c.toNat ∧ c.toNat < 128 then set ⟨c.toNat - 1, by omega⟩ else 0

/-- `Has(c)`. -/
def CharacterSet.has (set : CharacterSet) (c : UInt8) : Bool := set.entry c ≠ 0

/-- `Mapped(c)`, as a `char`. -/
def CharacterSet.mapped (set : CharacterSet) (c : UInt8) : UInt8 := if set.has c then set.entry c else c

/-- `Init(p, mapped)`; of two entries for a character the last one counts. -/
def CharacterSet.init (p mapped : List UInt8) : CharacterSet := fun i =>
  (((p.zip mapped).reverse.find? fun x => x.1.toNat = i.val + 1).map Prod.snd).getD 0

/-- `CharacterSet(c)`. -/
def CharacterSet.single (c : UInt8) : CharacterSet := CharacterSet.init [c] [c]

/-! ### References -/

/-- `_StringPtrStore`; the null pointer is 0. -/
structure Ref where
  p : ℕ
  len : ℕ

/-- `GetLength`. -/
def Ref.getLength (r : Ref) : ℕ := r.len - 1

/-- `IsEmpty`. -/
def Ref.isEmpty (r : Ref) : Bool := r.p = 0 || r.len < 2

theorem Ref.not_isEmpty_iff (r : Ref) : ¬ r.isEmpty = true ↔ r.p ≠ 0 ∧ 2 ≤ r.len := by
  unfold Ref.isEmpty
  rw [Bool.or_eq_true, decide_eq_true_eq, decide_eq_true_eq, not_or, not_lt]

/-- `End()`. -/
def Ref.stop (r : Ref) : ℕ := r.p + r.getLength

/-- `String_Ref(p, end)`; the length goes through an `int`. -/
def Ref.ofEnds (p e : ℕ) : Ref := ⟨p, (intOf (e - p + 1) % 2 ^ 64).toNat⟩

/-- The number of characters that `String_Ref(p, p + n)` has is `n`: one more than `n` is an `int`, or what a negative
`int` becomes as a `SIZE_T`, which no text is long enough for. -/
def IntLength (n : ℕ) : Prop := n + 1 < 2 ^ 31 ∨ 2 ^ 64 - 2 ^ 31 ≤ n + 1 ∧ n + 1 < 2 ^ 64

instance (n : ℕ) : Decidable (IntLength n) := inferInstanceAs (Decidable (_ ∨ _ ∧ _))

theorem ofEnds_p (p e : ℕ) : (Ref.ofEnds p e).p = p := rfl

theorem ofEnds_getLength_iff (p n : ℕ) : (Ref.ofEnds p (p + n)).getLength = n ↔ IntLength n := by
  have hcast : ((p + n : ℕ) : ℤ) - p + 1 = n + 1 := by omega
  unfold IntLength Ref.getLength Ref.ofEnds
  rw [hcast, intOf, Int.bmod_def]
  split
  · simp only
    omega
  · simp only
    omega

theorem ofEnds_getLength {n : ℕ} (p : ℕ) (hn : IntLength n) : (Ref.ofEnds p (p + n)).getLength = n :=
  (ofEnds_getLength_iff p n).mpr hn

/-- The characters of a text. -/
def Ref.text (r : Ref) (m : Mem) : List UInt8 := read m r.p r.getLength

/-- `SubStrHead(len)`. -/
def Ref.subStrHead (r : Ref) (len : ℕ) : Ref := ⟨r.p, min len r.getLength + 1⟩

/-- `SubStr(start)`. -/
def Ref.subStr (r : Ref) (start : ℕ) : Ref :=
  if start < r.getLength then ⟨r.p + start, r.getLength - start + 1⟩ else ⟨0, 0⟩

/-! ### Functions that work in place -/

/-- `Replace(a, b)` for two characters, over the `n` characters from `p` on. -/
def replaceLoop (a b : UInt8) : ℕ → Mem → ℕ → Mem
  | 0, m, _ => m
  | n + 1, m, p => replaceLoop a b n (if m p = a then poke m p b else m) (p + 1)

/-- The loop of `RemoveCharacters` from `p` on, with the place of the next character that stays. -/
def removeLoop (set : CharacterSet) : ℕ → Mem → ℕ → ℕ → Mem × ℕ
  | 0, m, _, out => (m, out)
  | n + 1, m, p, out =>
    if set.has (m p) then removeLoop set n m (p + 1) out
    else removeLoop set n (poke m out (m p)) (p + 1) (out + 1)

/-- The loop of `UnescapeCharacters` with `n` characters left at `s`, and what follows it: the last character is
copied unless it is the escape sign, also when the loop has gone past it. `f` is applied to what is escaped. -/
def unescapeLoop (f : UInt8 → UInt8) (sign : UInt8) : ℕ → Mem → ℕ → ℕ → Mem × ℕ
  | n + 2, m, s, p =>
    if m s = sign then unescapeLoop f sign n (poke m p (f (m (s + 1)))) (s + 2) (p + 1)
    else unescapeLoop f sign (n + 1) (poke m p (m s)) (s + 1) (p + 1)
  | _, m, s, p => if m s ≠ sign then (poke m p (m s), p + 1) else (m, p)

/-- A digit in `DecodedURL`. -/
def urlDigit (c : UInt8) : UInt8 := if schar c ≥ 0x41 then c - 0x41 + 10 else c - 0x30

/-- The loop of `DecodedURL` at the character `i` of the `n` characters from `p` on. -/
def decodedURLLoop (p n : ℕ) : ℕ → Mem → ℕ → ℕ → Mem × ℕ
  | 0, m, _, out => (m, out)
  | k + 1, m, i, out =>
    if i < n then
      if m (p + i) ≠ Ch.percent then decodedURLLoop p n k (poke m out (m (p + i))) (i + 1) (out + 1)
      else
        let x := (urlDigit (m (p + i + 1)) <<< 4) ||| urlDigit (m (p + i + 2))
        decodedURLLoop p n k (poke m out x) (i + 3) (out + 1)
    else (m, out)

/-- A continuation byte. -/
def continuation (c : UInt8) : UInt8 := 0x80 ||| (0x3f &&& c)

/-- The loop of `RegularizeUTF8` at the byte `i` of the `n` bytes from `p` on. -/
def regularizeLoop (p n : ℕ) : ℕ → Mem → ℕ → ℕ → Mem × ℕ
  | 0, m, _, out => (m, out)
  | k + 1, m, i, out =>
    if i < n then
      let c := m (p + i)
      if c &&& 0x80 = 0 then regularizeLoop p n k (poke m out c) (i + 1) (out + 1)
      else if c &&& 0xe0 = 0xc0 then
        let m := poke m out c
        let m := poke m (out + 1) (continuation (m (p + i + 1)))
        regularizeLoop p n k m (i + 2) (out + 2)
      else if c &&& 0xf0 = 0xe0 then
        let m := poke m out c
        let m := poke m (out + 1) (continuation (m (p + i + 1)))
        let m := poke m (out + 2) (continuation (m (p + i + 2)))
        regularizeLoop p n k m (i + 3) (out + 3)
      else regularizeLoop p n k m (i + 1) out
    else (m, out)

/-! ### `Split` -/

/-- A field; quotation marks around it are taken off. -/
def field (m : Mem) (quote1 quote2 : UInt8) (start p : ℕ) : Ref :=
  let v := Ref.ofEnds start p
  if 2 ≤ v.getLength ∧ m v.p = m (v.p + v.getLength - 1) ∧ (m v.p = quote1 ∨ m v.p = quote2) then
    ⟨v.p + 1, v.getLength - 1⟩
  else v

/-- The loop of `Split` at `p`, in a field from `start` on and with room for `count` fields; `quote` is `quote_cur`.
A step goes on by a character at least or is the last one. -/
def splitLoop (m : Mem) (tail : ℕ) (merge : Bool) (quote1 quote2 : UInt8) (seps : CharacterSet) :
    ℕ → ℕ → ℕ → ℕ → UInt8 → List Ref
  | 0, _, _, _, _ => []
  | n + 1, count, start, p, quote =>
    if p < tail ∧ quote ≠ 0 then
      let closes : Bool := quote = m p ∧ start < p ∧ m (p - 1) ≠ Ch.backslash
      splitLoop m tail merge quote1 quote2 seps n count start (p + 1) (if closes then 0 else quote)
    else if p < tail ∧ (m p = quote1 ∨ quote2 = m p) then
      splitLoop m tail merge quote1 quote2 seps n count start (p + 1) (m p)
    else if p < tail ∧ seps.has (m p) = false then
      splitLoop m tail merge quote1 quote2 seps n count start (p + 1) 0
    else
      let v := field m quote1 quote2 start p
      if count ≤ 1 ∨ p = tail then [v]
      else
        let next := if merge then scanWhile m seps.has (p + 1) (tail - (p + 1)) else p + 1
        v :: splitLoop m tail merge quote1 quote2 seps n (count - 1) next next 0

/-- `Split<merge_adjecent_sep, quote1, quote2>(fields, fields_count, seps)`. -/
def split (m : Mem) (r : Ref) (merge : Bool) (quote1 quote2 : UInt8) (count : ℕ) (seps : CharacterSet) : List Ref :=
  if r.isEmpty then []
  else splitLoop m r.stop merge quote1 quote2 seps (r.getLength + 1) count r.p r.p 0

/-! ### `ResolveRelativePath` -/

def dot : UInt8 := 0x2e

/-- The segments that stay, after those of `kept`. The source compares the first character of a segment of two
twice. -/
def resolveLoop (m : Mem) : List Ref → List Ref → List Ref
  | kept, [] => kept
  | kept, d :: ds =>
    if d.getLength = 1 ∧ m d.p = dot then resolveLoop m kept ds
    else if d.getLength = 2 ∧ m d.p = dot ∧ m d.p = dot then resolveLoop m kept.dropLast ds
    else resolveLoop m (kept ++ [d]) ds

/-- The segments that are in their place already. -/
def skipLoop : ℕ → List Ref → ℕ × List Ref
  | p, [] => (p, [])
  | p, d :: ds => if p = d.p then skipLoop (p + (d.getLength + 1)) ds else (p, d :: ds)

/-- The other ones are moved, with a separator behind each but the last. -/
def placeLoop : Mem → ℕ → List Ref → Mem × ℕ
  | m, p, [] => (m, p)
  | m, p, d :: ds =>
    let m := memcpy m p (read m d.p d.getLength)
    let p := p + (d.getLength + 1)
    placeLoop (if ds.isEmpty then m else poke m (p - 1) Ch.slash) p ds

/-- The segments of a path that stay. -/
def segments (m : Mem) (r : Ref) : List Ref :=
  resolveLoop m [] (split m r true Ch.dquote Ch.squote 256 (CharacterSet.single Ch.slash))

/-- `ResolveRelativePath()`. -/
def resolveRelativePath (m : Mem) (r : Ref) : Mem × Ref :=
  let s := skipLoop r.p (segments m r)
  let t := placeLoop m s.1 s.2
  (t.1, { r with len := t.2 - r.p })

end Cpcf.Rt.StringRef
