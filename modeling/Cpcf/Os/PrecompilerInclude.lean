import Cpcf.Rt.Lines
import Mathlib.Data.List.AList

/-!
`os::Precompiler::_Compile` and `_MergeIncludedFile`: the files that a file includes are compiled into it.

`_Compiled` has each file from the moment it is entered, so none is entered twice, and a file that is found there
without being finished is one that is still being compiled, or one whose compilation was broken off.
-/

namespace Cpcf.Os.Include

open Cpcf.Rt Cpcf.Rt.Lines

/-! ### The lines of a source -/

/-- The text from the first place on that is not a separator, as `Split` with quotes finds it: the field and the text
from its end. -/
def scanField (seps quotes : UInt8 → Bool) : Option UInt8 → UInt8 → Text → Text × Text
  | _, _, [] => ([], [])
  | some quote_cur, before, b :: t =>
    let r := scanField seps quotes (if b = quote_cur && before ≠ 0x5c then none else some quote_cur) b t
    (b :: r.1, r.2)
  | none, _, b :: t =>
    if quotes b then
      let r := scanField seps quotes (some b) b t
      (b :: r.1, r.2)
    else if seps b then ([], b :: t)
    else
      let r := scanField seps quotes none b t
      (b :: r.1, r.2)

/-- A field without the quotes around it. -/
def unquote (quotes : UInt8 → Bool) (v : Text) : Text :=
  if 2 ≤ v.length && v.head? = v.getLast? && v.head?.any quotes then v.tail.dropLast else v

/-- `"` and `'`. -/
def isQuote (b : UInt8) : Bool := b = 0x22 || b = 0x27

/-- A blank or a tab. -/
def isBlank (b : UInt8) : Bool := b = 0x20 || b = 0x9

/-- `t.Split(f, 3, sep_pragma) == 2 && f[1] == "once"`. -/
def isOnce (t : Text) : Bool :=
  match (scanField isBlank isQuote none 0 t).2 with
  | [] => false
  | _ :: r =>
    let f := scanField isBlank isQuote none 0 r
    f.2.isEmpty && unquote isQuote f.1 = [0x6f, 0x6e, 0x63, 0x65]

/-- One of `<>"`. -/
def isDelimiter (b : UInt8) : Bool := b = 0x3c || b = 0x3e || b = 0x22

/-- `t.Split<false, 0, 0>(f, 3, sep) == 3`: the second field, with the separators around it. -/
def delimited (t : Text) : Option (UInt8 × Text × UInt8) :=
  match t.dropWhile fun b => !isDelimiter b with
  | [] => none
  | b :: r =>
    match r.dropWhile fun b => !isDelimiter b with
    | [] => none
    | c :: _ => some (b, r.takeWhile fun b => !isDelimiter b, c)

def _include : Text := [0x23, 0x69, 0x6e, 0x63, 0x6c, 0x75, 0x64, 0x65]
def _import : Text := [0x23, 0x69, 0x6d, 0x70, 0x6f, 0x72, 0x74]
def _pragma : Text := [0x23, 0x70, 0x72, 0x61, 0x67, 0x6d, 0x61]

/-- What a round of the loop in `_Compile` has read. -/
inductive Item
  /-- Text that is copied. -/
  | text (piece : Text)
  /-- An include directive: the name, the separators around it and the line. -/
  | includes (first : UInt8) (name : Text) (last : UInt8) (t : Text)
  /-- An include directive without a name. -/
  | skipped
  | once
  /-- Any other pragma. -/
  | pragma (t : Text)
  deriving DecidableEq

/-- The last character is a backslash. -/
def continued (line : Text) : Bool := line.getLast? = some 0x5c

/-- The lines that a line with a backslash at its end goes on with. -/
def connect : ℕ → Text → Text × Text
  | 0, rest => ([], rest)
  | n + 1, rest =>
    match getNextLine false rest with
    | none => ([], rest)
    | some (line, rest) =>
      if continued line then
        let r := connect n rest
        (trimSpace line.dropLast ++ 0x20 :: r.1, r.2)
      else (trimSpace line, rest)

/-- What stands in a line, and where the next one is read from. -/
def readItem (line rest : Text) : Item × Text :=
  let t := trimSpace line
  if _include.isPrefixOf t || _import.isPrefixOf t then
    match delimited t with
    | some (first, name, last) => (.includes first name last t, rest)
    | none => (.skipped, rest)
  else if _pragma.isPrefixOf t then (if isOnce t then .once else .pragma t, rest)
  else if continued line then
    let r := connect rest.length rest
    (.text (trimRightSpace line.dropLast ++ 0x20 :: r.1), r.2)
  else (.text line, rest)

/-- What the rounds of the loop read one after the other. It depends on the source alone. -/
def itemsFrom : ℕ → Text → List Item
  | 0, _ => []
  | n + 1, rest =>
    match getNextLine false rest with
    | none => []
    | some (line, rest) =>
      let r := readItem line rest
      r.1 :: itemsFrom n r.2

/-! ### Compiling -/

/-- What `PrintError` is called for. -/
inductive Error
  /-- Looped header dependency detected on the file. -/
  | looped (file : Text)
  /-- Failed to find the header file. -/
  | notFound (fn : Text)
  /-- Illegal header file include directive. -/
  | illegalInclude (t : Text)
  /-- Unknown pragma statement. -/
  | unknownPragma (t : Text)
  deriving DecidableEq

/-- `Code`. -/
structure Code where
  content : Text
  /-- `CST_INCLUDE_ONCE`. -/
  once : Bool
  /-- `CST_FINALIZED`. -/
  finalized : Bool

structure State where
  /-- `_Compiled`. -/
  compiled : AList fun _ : Text => Code
  errors : List Error
  warningCount : ℕ
  /-- The files that `_Compile` was called for, in order. -/
  entered : List Text
  /-- The files that were compiled to their end, in order. -/
  finished : List Text
  /-- The files whose compilation was broken off. -/
  broken : List Text

/-- What the compilation works with and does not change. -/
structure Env where
  /-- What the loader has, by the resolved name. -/
  files : AList fun _ : Text => Text
  /-- `_LoadFileSearchDirs`. -/
  searchDirs : List Text
  /-- `ResolveRelativePath` and `NormalizePathSeparator`. -/
  resolve : Text → Text
  /-- `_SubsituteMacrosInline` with no macro defined. -/
  subsitute : Text → Text
  /-- `TrimCodeComments`. -/
  trimCodeComments : Text → Text

variable (env : Env)

/-- `GetDirectoryName`. -/
def getDirectoryName (filename : Text) : Text :=
  match filename.reverse.dropWhile fun b => !(b = 0x5c || b = 0x2f) with
  | [] => [0x2e, 0x2f]
  | d => d.reverse

/-- What the loop of `_Compile` reads from a source. -/
def items (source_in : Text) : List Item :=
  itemsFrom ((env.trimCodeComments source_in).length + 1) (env.trimCodeComments source_in)

/-- The separators around the name of a header are a pair. -/
def isPair (first last : UInt8) : Bool := first = 0x22 && last = 0x22 || first = 0x3c && last = 0x3e

/-- The names under which a header is looked for, in order. -/
def candidates (filename : Text) (first : UInt8) (name : Text) : List Text :=
  let fn := env.subsitute name
  let found := env.searchDirs.map fun dir => env.resolve (dir ++ fn)
  if first = 0x3c && !env.searchDirs.isEmpty then found
  else env.resolve (getDirectoryName filename ++ fn) :: found

def State.printError (st : State) (e : Error) : State := { st with errors := st.errors ++ [e] }

/-- Changes the `Code` of a file that is being compiled. -/
def State.modify (st : State) (filename : Text) (f : Code → Code) : State :=
  match st.compiled.lookup filename with
  | none => st
  | some c => { st with compiled := st.compiled.insert filename (f c) }

/-- `code.Content += piece`. -/
def State.append (st : State) (filename piece : Text) : State :=
  st.modify filename fun c => { c with content := c.content ++ piece }

/-- `_MergeIncludedFile`: what it returns, and the text to be appended. -/
def mergeIncludedFile (compile : Text → Text → State → Option (State × Text)) (import_filename : Text) (st : State) :
    Option (State × Int × Text) :=
  match st.compiled.lookup import_filename with
  | some c =>
    if c.once then some (st, 1, [])
    else if c.finalized then some (st, 1, c.content)
    else some (st.printError (.looped import_filename), -1, [])
  | none =>
    match env.files.lookup import_filename with
    | none => some (st, 0, [])
    | some str =>
      (compile import_filename str st).map fun (st, content) =>
        let imported := trimSpace content
        (if imported.isEmpty then { st with warningCount := st.warningCount + 1 } else st, 1, imported)

/-- The search for a header: what the last `_MergeIncludedFile` returns. -/
def search (compile : Text → Text → State → Option (State × Text)) (filename : Text) :
    List Text → State → Option (State × Int)
  | [], st => some (st, 0)
  | c :: cs, st =>
    (mergeIncludedFile env compile c st).bind fun (st, ret, text) =>
      let st := st.append filename text
      if ret = 0 then search compile filename cs st else some (st, ret)

/-- The loop of `_Compile`; false when the function is left in it. -/
def compileItems (compile : Text → Text → State → Option (State × Text)) (filename : Text) :
    List Item → State → Option (State × Bool)
  | [], st => some (st, true)
  | .text piece :: rest, st => compileItems compile filename rest (st.append filename (piece ++ [0xa]))
  | .skipped :: rest, st => compileItems compile filename rest (st.append filename [0xa])
  | .once :: rest, st =>
    compileItems compile filename rest ((st.modify filename fun c => { c with once := true }).append filename [0xa])
  | .pragma t :: rest, st =>
    compileItems compile filename rest ((st.printError (.unknownPragma t)).append filename [0xa])
  | .includes first name last t :: rest, st =>
    if isPair first last then
      (search env compile filename (candidates env filename first name) st).bind fun (st, ret) =>
        if ret = -1 then some (st, false)
        else if ret = 1 then compileItems compile filename rest (st.append filename [0xa])
        else some (st.printError (.notFound (env.subsitute name)), false)
    else some (st.printError (.illegalInclude t), false)

/-- `_Compile`, when files are nested no deeper than `n`. -/
def compile : ℕ → Text → Text → State → Option (State × Text)
  | 0, _, _, _ => none
  | n + 1, filename, source_in, st =>
    let st := { st with
      compiled := st.compiled.insert filename ⟨[], false, false⟩
      entered := st.entered ++ [filename] }
    (compileItems env (compile n) filename (items env source_in) st).map fun (st, completed) =>
      if completed then
        let st := { st.modify filename (fun c => { c with finalized := true }) with
          finished := st.finished ++ [filename] }
        (st, ((st.compiled.lookup filename).map Code.content).getD [])
      else ({ st with broken := st.broken ++ [filename] }, [])

end Cpcf.Os.Include
