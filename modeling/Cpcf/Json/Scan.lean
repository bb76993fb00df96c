import Cpcf.Lib.Memory
import Cpcf.Rt.Number

/-!
The scanners of `JsonObject` in `rt/json.h` and `rt/json.cpp`: `_skip_whitespace`, `_scan_text`,
`_seek_char`, `_seek_char_escape`, `_match_closure` and `_seek_json_object_closure`.

A pointer is an address of a memory and `nullptr`, where a function can return it, is `none`. The
scanners stop at `end` but read the byte under their pointer without asking, so a text stands in a
memory that goes on behind it.
-/

namespace Cpcf.Json

open Cpcf.Rt Cpcf.Lib.Memory

/-! ### Loops over characters -/

/-- `_skip_whitespace`. -/
def skipWhitespace (m : Mem) (p e : ℕ) : ℕ := scanWhile m isSkipped p (e - p)

/-- The characters of the set `sep` of `_is_text`. -/
def textSeps : List UInt8 :=
  [0x07, 0x09, 0x0a, 0x0b, 0x0c, 0x0d, Ch.space, Ch.squote, Ch.dquote, Ch.comma, Ch.colon,
    Ch.lbrace, Ch.rbrace, Ch.lbracket, Ch.rbracket]

/-- `_is_text`. The set `sep` has an entry for every character from 1 to 127 and no other. -/
def isText (b : UInt8) : Bool := !(decide (1 ≤ schar b) && textSeps.contains b)

/-- `_scan_text`. -/
def scanText (m : Mem) (p e : ℕ) : ℕ := scanWhile m isText p (e - p)

/-- `_seek_char`. -/
def seekChar (m : Mem) (p e : ℕ) (c : UInt8) : ℕ := scanWhile m (fun b => b != c) p (e - p)

/-- The number of backslashes directly before `p`: `LPCSTR s = p-1; for(;*s == '\\';s--);` ends with
`s = p - 1 - backslashes`. -/
def backslashes (m : Mem) : ℕ → ℕ
  | 0 => 0
  | p + 1 => if m p = Ch.backslash then backslashes m p + 1 else 0

/-- The loop of `_seek_char_escape` with `n` cells before `end`. The test `((int)(s-p))&1` asks for
an even number of backslashes. -/
def seekCharEscapeLoop (m : Mem) (c : UInt8) (e : ℕ) : ℕ → ℕ → ℕ
  | 0, _ => e
  | n + 1, p => if m p = c ∧ backslashes m p % 2 = 0 then p else seekCharEscapeLoop m c e n (p + 1)

/-- `_seek_char_escape`. -/
def seekCharEscape (m : Mem) (p e : ℕ) (c : UInt8) : ℕ := seekCharEscapeLoop m c e (e - p) p

/-- `_match_closure`. -/
def matchClosure (c : UInt8) : UInt8 :=
  if c = Ch.dquote ∨ c = Ch.squote then c
  else if c = Ch.lbracket then Ch.rbracket
  else if c = Ch.lbrace then Ch.rbrace
  else 0

/-! ### The end of a value -/

/-- `_seek_json_object_closure` at a `<`: the length is read, then as many bytes and the slash are
stepped over. -/
def seekBinaryClosure (m : Mem) (p e : ℕ) : Option ℕ :=
  let p := p + 1
  let r := toNumber m p e
  let p := ((p : ℤ) + r.2).toNat
  let p := p + (1 + r.1) % 2 ^ 32
  if m p = Ch.gt then some (p + 1) else none

/-- The loop `while(p<end)` of `_seek_json_object_closure` inside a bracket. A recursive call is made
at a `<` only. The first argument bounds the number of turns. -/
def closureLoop (m : Mem) (e : ℕ) (depth_inc depth_dec : UInt8) : ℕ → ℕ → ℕ → Option ℕ
  | 0, _, _ => none
  | n + 1, p, closure_depth =>
    if p < e then
      if m p = depth_inc then closureLoop m e depth_inc depth_dec n (p + 1) (closure_depth + 1)
      else if m p = depth_dec then
        if closure_depth - 1 = 0 then some (p + 1)
        else closureLoop m e depth_inc depth_dec n (p + 1) (closure_depth - 1)
      else if m p = Ch.dquote ∨ m p = Ch.squote then
        let q := seekCharEscape m (p + 1) e (m p)
        if q = e then none else closureLoop m e depth_inc depth_dec n (q + 1) closure_depth
      else if m p = Ch.lt then
        match seekBinaryClosure m p e with
        | none => none
        | some q => closureLoop m e depth_inc depth_dec n (q + 1) closure_depth
      else closureLoop m e depth_inc depth_dec n (p + 1) closure_depth
    else none

/-- `_seek_json_object_closure`. -/
def seekJsonObjectClosure (m : Mem) (p e : ℕ) : Option ℕ :=
  if m p = Ch.dquote ∨ m p = Ch.squote then
    let q := seekCharEscape m (p + 1) e (m p)
    if q ≠ e then some (q + 1) else none
  else if m p = Ch.lt then seekBinaryClosure m p e
  else
    let c := matchClosure (m p)
    if c ≠ 0 then closureLoop m e (m p) c (e - (p + 1)) (p + 1) 1
    else some (scanText m p e)

end Cpcf.Json
