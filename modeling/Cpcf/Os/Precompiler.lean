import Cpcf.Rt.Lines
import Mathlib.Data.List.AList

/-!
`os::Precompiler::_SubsituteFile`: conditional compilation and the macro table.

The lines are read from a text by two loops that share the place in it. The main loop keeps no stack: it only counts
the branches that it has entered. The other one, `_SeekToNextCloseDirective`, counts the groups inside what it skips.
The expansion of macros in a line, the definition of macros with arguments and the evaluation of expressions are
arbitrary functions here.
-/

namespace Cpcf.Os.Precompiler

open Cpcf.Rt Cpcf.Rt.Lines

/-- A text of the source. -/
def bytes (s : String) : Text := s.toList.map fun c => UInt8.ofNat c.toNat

def _if : Text := [0x23, 0x69, 0x66]
def _ifdef : Text := [0x23, 0x69, 0x66, 0x64, 0x65, 0x66]
def _ifndef : Text := [0x23, 0x69, 0x66, 0x6e, 0x64, 0x65, 0x66]
def _elif : Text := [0x23, 0x65, 0x6c, 0x69, 0x66]
def _else : Text := [0x23, 0x65, 0x6c, 0x73, 0x65]
def _endif : Text := [0x23, 0x65, 0x6e, 0x64, 0x69, 0x66]
def _define : Text := [0x23, 0x64, 0x65, 0x66, 0x69, 0x6e, 0x65]
def _undefine : Text := [0x23, 0x75, 0x6e, 0x64, 0x65, 0x66]

example : [_if, _ifdef, _ifndef, _elif, _else, _endif, _define, _undefine]
    = ["#if", "#ifdef", "#ifndef", "#elif", "#else", "#endif", "#define", "#undef"].map bytes := by decide

/-- What `PrintError` is called for. -/
inductive Error
  /-- The macro is reserved as predefined macro. -/
  | reserved (macroName : Text)
  /-- The macro has already been defined as a macro function. -/
  | definedAsFunction (macroName : Text)
  /-- The macro has already been defined as something else. -/
  | definedAs (macroName value : Text)
  /-- The macro is a predefined macro. -/
  | predefined (macroName : Text)
  /-- Unknown directive. -/
  | unknownDirective (expr : Text)
  /-- Illegal directive. -/
  | illegalDirective (control_line : Text)
  /-- No matching `#endif` is found for the directive. -/
  | noMatchingEndifFor (directive : Text)
  /-- No matching `#endif` found. -/
  | noMatchingEndif
  /-- The directive is not matched with `#if`. -/
  | notMatched (directive : Text)
  /-- What the functions that are left open here report. -/
  | other (msg : Text)
  deriving DecidableEq

/-- `_macro`; `ArgmentCount` is -1 for a macro without arguments. -/
structure Macro where
  argmentCount : Int
  value : Text
  deriving DecidableEq

/-- The members that `_SubsituteFile` works with. -/
structure State where
  /-- `_pPredefined->IsDefined`. -/
  isPredefined : Text → Bool
  macros : AList fun _ : Text => Macro
  /-- What `PrintError` was called for, in order. -/
  errors : List Error
  warningCount : ℕ
  output : Text

/-- What a function that is left open reports: the texts given to `PrintError`, and the number of warnings. -/
structure Report where
  errors : List Text
  warnings : ℕ

/-- The functions that are left open. One that gives nothing does not return. -/
structure Calls where
  /-- `_DefineMacroFunction(macro, value, arg)`: the macros after it. -/
  defineMacroFunction : State → Text → Text → Text → Option ((AList fun _ : Text => Macro) × Report)
  /-- The last branch of `_EvalueMacroIf`, for the expression of `#if` or `#elif`: nothing in place of the result when it
  returns false. -/
  evaluate : State → Text → Option (Option Bool × Report)
  /-- `_SubsituteMacrosInline(content, output)`: the output after it. -/
  subsituteMacrosInline : State → Text → Option (Text × Report)

def State.printError (s : State) (e : Error) : State := { s with errors := s.errors ++ [e] }

def State.printWarning (s : State) : State := { s with warningCount := s.warningCount + 1 }

def State.report (s : State) (r : Report) : State :=
  { s with errors := s.errors ++ r.errors.map .other, warningCount := s.warningCount + r.warnings }

/-! ### The macro table -/

def isMacroDefined (s : State) (macro_name : Text) : Bool :=
  s.isPredefined macro_name || (s.macros.lookup macro_name).isSome

def defineMacro (s : State) (macroName value : Text) : State :=
  if s.isPredefined macroName then s.printError (.reserved macroName)
  else
    match s.macros.lookup macroName with
    | some m =>
      if 0 ≤ m.argmentCount then s.printError (.definedAsFunction macroName)
      else if m.argmentCount = -1 && m.value ≠ value then s.printError (.definedAs macroName m.value)
      else { s with macros := s.macros.insert macroName ⟨-1, value⟩ }
    | none => { s with macros := s.macros.insert macroName ⟨-1, value⟩ }

def undefineMacro (s : State) (key : Text) : State :=
  if s.isPredefined key then s.printError (.predefined key)
  else if (s.macros.lookup key).isSome then { s with macros := s.macros.erase key }
  else s.printWarning

/-! ### Directives -/

def isMacroBranchCloseDirective (directive : Text) : Bool :=
  directive = _elif || directive = _else || directive = _endif

/-- `_EvalueMacroIf`; nothing in place of the result when it returns false. -/
def evalueMacroIf (calls : Calls) (s : State) (directive expr : Text) : Option (State × Option Bool) :=
  if directive = _ifdef then some (s, some (isMacroDefined s expr))
  else if directive = _ifndef then some (s, some !isMacroDefined s expr)
  else if directive = _else then some (s, some true)
  else if directive = _if || directive = _elif then (calls.evaluate s expr).map fun (go_if, r) => (s.report r, go_if)
  else some (s.printError (.unknownDirective expr), none)

/-- `_SeekToNextCloseDirective`, for at most so many lines: the line it stops at, and the text from where the last line
that it read ends. -/
def seekToNextCloseDirective : ℕ → ℕ → Text → Option Text × Text
  | 0, _, rest => (none, rest)
  | n + 1, enclosure_level, rest =>
    match getNextLine true rest with
    | none => (none, rest)
    | some (line, rest) =>
      let directive := trimSpace (trimAfter line)
      if directive.head? = some 0x23 then
        if enclosure_level = 0 && isMacroBranchCloseDirective directive then (some line, rest)
        else if _if.isPrefixOf directive then seekToNextCloseDirective n (enclosure_level + 1) rest
        else if directive = _endif then seekToNextCloseDirective n (enclosure_level - 1) rest
        else seekToNextCloseDirective n enclosure_level rest
      else seekToNextCloseDirective n enclosure_level rest

/-- The first field of a line. -/
def word (control_line : Text) : Text := trimAfter control_line

/-- The line from its second field on, if it has one. -/
def argument (control_line : Text) : Text := (((split 3 control_line)[1]?).map Prod.snd).getD []

/-- A `#define` line. -/
def define (calls : Calls) (s : State) (control_line : Text) : Option State :=
  match split 3 control_line with
  | _ :: (name, start) :: more =>
    match name.idxOf? 0x28 with
    | some (func + 1) =>
      -- without a `)` the arguments would end in front of the line
      match (start.drop (func + 2)).idxOf? 0x29 with
      | none => none
      | some k =>
        (calls.defineMacroFunction s (name.take (func + 1)) (trimSpace ((start.drop (func + 2)).drop (k + 1)))
          ((start.drop (func + 2)).take k)).map fun (macros, r) => { s.report r with macros := macros }
    | _ => some (defineMacro s name ((more.head?.map Prod.snd).getD []))
  | _ => some (defineMacro s [] [])

/-- The loop over the branches of a group, from the directive in `control_line` on. It gives the place after it and
whether a branch was entered. -/
def iterateBranches (calls : Calls) : ℕ → State → Text → Text → Option (State × Bool × Text)
  | 0, s, _, rest => some (s, false, rest)
  | n + 1, s, control_line, rest =>
    match evalueMacroIf calls s (word control_line) (argument control_line) with
    | none => none
    | some (s, go_if) =>
      let s := if go_if.isNone then s.printError (.illegalDirective control_line) else s
      if go_if.getD false then some (s, true, rest)
      else
        match seekToNextCloseDirective rest.length 0 rest with
        | (none, rest) => some (s.printError (.noMatchingEndifFor (word control_line)), false, rest)
        | (some line, rest) =>
          let control_line := trimSpace line
          if word control_line = _endif then some (s, false, rest)
          else iterateBranches calls n s control_line rest

/-- The loop over the branches that are left when one has ended: the directive it stops at, and the place after it. -/
def skipBranches : ℕ → State → Text → Text → State × Text × Text
  | 0, s, f, rest => (s, f, rest)
  | n + 1, s, f, rest =>
    if f = _endif then (s, f, rest)
    else
      match seekToNextCloseDirective rest.length 0 rest with
      | (none, rest) => (s.printError .noMatchingEndif, f, rest)
      | (some line, rest) => skipBranches n s (word (trimSpace line)) rest

/-- A line of the output. -/
def outputLine (calls : Calls) (s : State) (line : Text) : Option State :=
  (calls.subsituteMacrosInline s line).map fun (output, r) => { s.report r with output := output ++ [0xd, 0xa] }

/-- The main loop, for at most so many lines. -/
def subsituteLoop (calls : Calls) : ℕ → ℕ → State → Text → Option State
  | 0, _, s, _ => some s
  | n + 1, branch_level, s, rest =>
    match getNextLine false rest with
    | none => some s
    | some (line, rest) =>
      let control_line := trimSpace line
      let f := word control_line
      let output := (outputLine calls s line).bind fun s => subsituteLoop calls n branch_level s rest
      if control_line.head? = some 0x23 then
        if f = _define then (define calls s control_line).bind fun s => subsituteLoop calls n branch_level s rest
        else if f = _undefine && (split 3 control_line).length = 2 then
          subsituteLoop calls n branch_level (undefineMacro s (argument control_line)) rest
        else if _if.isPrefixOf f then
          (iterateBranches calls (rest.length + 1) s control_line rest).bind fun (s, entered, rest) =>
            subsituteLoop calls n (if entered then branch_level + 1 else branch_level) s rest
        else if isMacroBranchCloseDirective f then
          let (s, f, rest) := skipBranches (rest.length + 1) s f rest
          if 0 < branch_level then subsituteLoop calls n (branch_level + 1) s rest
          else subsituteLoop calls n branch_level (s.printError (.notMatched f)) rest
        else output
      else output

/-- `_SubsituteFile`. -/
def subsituteFile (calls : Calls) (s : State) (content : Text) : Option State :=
  subsituteLoop calls (content.length + 1) 0 { s with output := [] } content

end Cpcf.Os.Precompiler
