import Cpcf.Inet.HeaderLines
import Cpcf.Rt.Lines

/-!
`HttpSession::ResponseHeader::ParseHeader`: what the client reads from the header of a response.

The members are set in one chained assignment that goes through a `bool`, so a length that is not announced is one and
not unknown. Numbers are looked for from the start of a value on and not only in it; where none is found before the end
of the header, the search goes on behind it.
-/

namespace Cpcf.Inet

open Cpcf.Lib.Search Cpcf.Rt Cpcf.Rt.Lines

/-! ### Pieces of a text -/

/-- `MakeLower`. -/
def makeLower (s : Text) : Text := s.map fun b => if 0x41 ≤ schar b && schar b ≤ 0x5a then b + 0x20 else b

/-- `isalpha`. -/
def isAlpha (b : UInt8) : Bool := (0x41 ≤ b && b ≤ 0x5a) || (0x61 ≤ b && b ≤ 0x7a)

/-- Whether there is a minus, and what is behind the sign. -/
def scanSign : Text → Bool × Text
  | [] => (false, [])
  | b :: s => if b = 0x2d then (true, s) else if b = 0x2b then (false, s) else (false, b :: s)

/-- `%d` of `sscanf`: the number, and what is behind it. -/
def scanInt (s : Text) : Option (ℤ × Text) :=
  let signed := scanSign (s.dropWhile isSpace)
  let digits := signed.2.takeWhile isDigit
  if digits = [] then none
  else
    some (if signed.1 then -(digitsValue 0 digits : ℤ) else digitsValue 0 digits, signed.2.drop digits.length)

/-- A character that the format has. -/
def scanLiteral (lit s : Text) : Option Text := if lit <+: s then some (s.drop lit.length) else none

/-- `sscanf(line.Begin(),"HTTP/%d.%d %d",…)`, when it is 3. -/
def scanStatus (s : Text) : Option (ℤ × ℤ × ℤ) := do
  let s ← scanLiteral (ascii "HTTP/") s
  let (major, s) ← scanInt s
  let s ← scanLiteral (ascii ".") s
  let (minor, s) ← scanInt s
  let (code, _) ← scanInt (s.dropWhile isSpace)
  some (major, minor, code)

/-- A `UINT` that is given an `int`. -/
def toUINT (v : ℤ) : ℕ := (v % 2 ^ 32).toNat

/-- `ToNumber(UINT&)`: from the first digit on, and past separators of groups. -/
def toNumber (s : Text) : ℕ :=
  let d := s.dropWhile fun b => decide (10 ≤ toNum b)
  let x := (d.takeWhile fun b => b = Ch.comma || decide (toNum b < 10)).filter (· ≠ Ch.comma)
  x.foldl (fun x b => (x * 10 + (toNum b).toNat) % 2 ^ 32) 0

/-- The length of the first field of `Split`. `quote` is the quotation mark that is open and `prev` the character in
front. -/
def fieldLength (sep : UInt8) (quote prev : Option UInt8) : Text → ℕ
  | [] => 0
  | b :: s =>
    match quote with
    | some q => 1 + fieldLength sep (if b = q ∧ prev ≠ some 0x5c then none else some q) (some b) s
    | none =>
      if b = 0x22 ∨ b = 0x27 then 1 + fieldLength sep (some b) (some b) s
      else if b = sep then 0
      else 1 + fieldLength sep none (some b) s

/-- A field without the quotation marks around it. -/
def unquote (v : Text) : Text :=
  if 2 ≤ v.length ∧ v.head? = v.getLast? ∧ (v.head? = some 0x22 ∨ v.head? = some 0x27) then (v.drop 1).dropLast else v

/-- `Split` into so many fields at most. -/
def split (sep : UInt8) : ℕ → Text → List Text
  | 0, _ => []
  | n + 1, s =>
    let l := fieldLength sep none none s
    unquote (s.take l) :: if l = s.length then [] else split sep n (s.drop (l + 1))

/-- The fields of a text; there are none in an empty one. -/
def splitText (sep : UInt8) (n : ℕ) (s : Text) : List Text := if s = [] then [] else split sep n s

/-! ### The header -/

/-- `HeaderField`. With the value there is the header from its begin on. -/
structure HeaderField where
  name : Text
  value : Text
  begin_ : Text
  deriving DecidableEq

/-- What `ParseHeader` finds. -/
structure ResponseHeader where
  stateCode : ℕ
  versionMajor : ℕ
  versionMinor : ℕ
  connectPersisent : Bool
  contentLength : ℕ
  chunkedTransfer : Bool
  contentPartialStart : ℕ
  contentPartialTotal : ℕ
  contentType : Text
  fields : List HeaderField
  deriving DecidableEq

namespace ResponseHeader

/-- After `m_StateCode = … = 0xffffffff`, from right to left. -/
def init : ResponseHeader where
  contentPartialTotal := 0xffffffff
  contentPartialStart := 0xffffffff
  chunkedTransfer := true
  contentLength := 1
  connectPersisent := true
  versionMinor := 1
  versionMajor := 1
  stateCode := 1
  contentType := []
  fields := []

end ResponseHeader

/-- The field on a line; `begin_` is the header from the begin of the line on. -/
def fieldOf (line begin_ : Text) : Option HeaderField :=
  (find [Ch.colon] line).map fun colon_pos =>
    let value := trimLeftSpace (line.drop (colon_pos + 1))
    { name := makeLower (line.take colon_pos)
      value := value
      begin_ := begin_.drop (line.length - value.length) }

/-- The fields on the lines from some place on. There are no more lines than characters. -/
def fieldsFrom : ℕ → Text → List HeaderField
  | 0, _ => []
  | n + 1, rest =>
    match getNextLine true rest with
    | none => []
    | some (line, rest') => (fieldOf line (rest.dropWhile isNewline)).toList ++ fieldsFrom n rest'

/-- `GetHeaderField`, for a name in lower case, when the value is not empty. -/
def getHeaderField (fields : List HeaderField) (name : Text) : Option HeaderField :=
  (fields.find? (·.name = name)).filter (·.value ≠ [])

/-- `m_ContentLength`; nothing where no digit is found. -/
def parseContentLength (fields : List HeaderField) : Option ℕ :=
  match getHeaderField fields (ascii "content-length") with
  | none => some ResponseHeader.init.contentLength
  | some f =>
    match f.begin_.dropWhile (!isDigit ·) with
    | [] => none
    | d => some (toUINT (atoi ((d.takeWhile isDigit).take 19)))

/-- `m_ChunkedTransfer`; nothing where no letter is found. -/
def parseChunkedTransfer (fields : List HeaderField) : Option Bool :=
  match getHeaderField fields (ascii "transfer-encoding") with
  | none => some false
  | some f =>
    match f.begin_.dropWhile (!isAlpha ·) with
    | [] => none
    | c :: _ => some (c = 0x63 || c = 0x43)

def parseConnection (fields : List HeaderField) : Bool :=
  match getHeaderField fields (ascii "connection") with
  | none => false
  | some f => f.value.head? ≠ some 0x43 && f.value.head? ≠ some 0x63

/-- `m_ContentPartial_Start` and `m_ContentPartial_Total`. -/
def parseContentRange (fields : List HeaderField) : ℕ × ℕ :=
  match getHeaderField fields (ascii "content-range") with
  | none => (0xffffffff, 0xffffffff)
  | some f =>
    if ¬ ascii "bytes " <+: f.value then (0xffffffff, 0xffffffff)
    else
      let range := (f.begin_.drop 6).takeWhile (· ≠ CR)
      let partial_ := splitText Ch.slash 2 range
      let start := (splitText Ch.minus 2 (partial_.head?.getD [])).head?.getD []
      let total := partial_[1]?.getD []
      (if start = [] then 0xffffffff else toNumber start, if total = [] then 0xffffffff else toNumber total)

def parseContentType (fields : List HeaderField) : Text :=
  match getHeaderField fields (ascii "content-type") with
  | none => []
  | some f => (splitText 0x3b 4 f.value).head?.getD []

/-- `ParseHeader`; nothing where a search leaves the header. -/
def parseHeader (header_text : Text) : Option ResponseHeader :=
  match getNextLine true header_text with
  | none => some { ResponseHeader.init with stateCode := 0xffffffff }
  | some (_, rest) =>
    match scanStatus (header_text.dropWhile isNewline) with
    | none => some { ResponseHeader.init with stateCode := 0xffffffff }
    | some (major, minor, code) =>
      let fields := fieldsFrom rest.length rest
      -- a state code of -1 counts as a failure, and no field is found then
      let seen := if toUINT code = 0xffffffff then [] else fields
      do
        let contentLength ← parseContentLength seen
        let chunkedTransfer ← parseChunkedTransfer seen
        let range := parseContentRange seen
        some {
          stateCode := toUINT code
          versionMajor := toUINT major
          versionMinor := toUINT minor
          connectPersisent := parseConnection seen
          contentLength := contentLength
          chunkedTransfer := chunkedTransfer
          contentPartialStart := range.1
          contentPartialTotal := range.2
          contentType := parseContentType seen
          fields := fields }

end Cpcf.Inet
