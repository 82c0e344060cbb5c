import JarIndex.CommandLine.Basic

/-!
# Reading a command line

Options may stand between and after the words they do not belong to. An option
waits for its value: it is settled, and its value checked, when the next option
or word that is not its value comes, or at the end. A word that is no option of
the subcommand is an error at once, whatever waits.
-/

set_option autoImplicit false

namespace JarIndex.CommandLine

inductive ValueName where
  | jarsFile
  | dir
  | format
  | output
  | order
  deriving DecidableEq, Repr

inductive FlagName where
  | parallel
  | strict
  | verbose
  | help
  deriving DecidableEq, Repr

inductive OptionName where
  | value (v : ValueName)
  | flag (f : FlagName)
  deriving DecidableEq, Repr

inductive Subcommand where
  | extract
  | inspect
  deriving DecidableEq, Repr

structure Given where
  words : List String
  jarsFile : Option String
  dir : Option String
  format : Option Format
  output : Option String
  order : Option EntryOrder
  parallel : Bool
  strict : Bool
  verbose : Bool
  deriving DecidableEq, Repr

/-- What waits to be settled: an option, with its value if it has come, or a path. -/
inductive Waiting where
  | nothing
  | option (name : ValueName) (value : Option String)
  | path (word : String)
  deriving DecidableEq, Repr

structure ParseState where
  given : Given
  waiting : Waiting
  onlyWords : Bool
  deriving DecidableEq, Repr

abbrev Parsing := Except UsageError

def Subcommand.long (c : Subcommand) (name : String) : Option OptionName :=
  match name, c with
  | "verbose", _ => some (.flag .verbose)
  | "help", _ => some (.flag .help)
  | "jars-file", .extract => some (.value .jarsFile)
  | "dir", .extract => some (.value .dir)
  | "format", .extract => some (.value .format)
  | "output", .extract => some (.value .output)
  | "order", .extract => some (.value .order)
  | "parallel", .extract => some (.flag .parallel)
  | "strict", .extract => some (.flag .strict)
  | _, _ => none

def Subcommand.short (c : Subcommand) (name : Char) : Option OptionName :=
  match name, c with
  | 'v', _ => some (.flag .verbose)
  | 'h', _ => some (.flag .help)
  | 'f', .extract => some (.value .format)
  | 'o', .extract => some (.value .output)
  | _, _ => none

def formatOfText : String → Option Format
  | "json" => some .json
  | "text" => some .text
  | _ => none

def orderOfText : String → Option EntryOrder
  | "native" => some .native
  | "canonical" => some .canonical
  | _ => none

def pathOfText (s : String) : Option String := if s = "" then none else some s

def once {α : Type} (before value : Option α) : Parsing (Option α) :=
  if before.isSome then .error .argumentConflict
  else if value.isNone then .error .invalidValue
  else .ok value

def onceFlag (before : Bool) : Parsing Bool :=
  if before then .error .argumentConflict else .ok true

namespace Given

def nothing : Given := ⟨[], none, none, none, none, none, false, false, false⟩

def addValue (g : Given) (name : ValueName) (value : String) : Parsing Given := do
  match name with
  | .jarsFile => return { g with jarsFile := ← once g.jarsFile (pathOfText value) }
  | .dir => return { g with dir := ← once g.dir (pathOfText value) }
  | .format => return { g with format := ← once g.format (formatOfText value) }
  | .output => return { g with output := ← once g.output (pathOfText value) }
  | .order => return { g with order := ← once g.order (orderOfText value) }

def addFlag (g : Given) (name : FlagName) : Parsing Given := do
  match name with
  | .parallel => return { g with parallel := ← onceFlag g.parallel }
  | .strict => return { g with strict := ← onceFlag g.strict }
  | .verbose => return { g with verbose := ← onceFlag g.verbose }
  | .help => throw .help

def addWord (g : Given) (word : String) : Given := { g with words := g.words ++ [word] }

end Given

namespace ParseState

def start : ParseState := ⟨.nothing, .nothing, false⟩

def settle (s : ParseState) : Parsing ParseState :=
  match s.waiting with
  | .nothing => .ok s
  | .option _ none => .error .invalidValue
  | .option name (some value) => do
    return { s with given := ← s.given.addValue name value, waiting := .nothing }
  | .path word =>
    if word = "" then .error .invalidValue
    else .ok { s with given := s.given.addWord word, waiting := .nothing }

def addValue (s : ParseState) (name : ValueName) (value : Option String) : Parsing ParseState := do
  let s ← s.settle
  match value with
  | none => return { s with waiting := .option name none }
  | some value => return { s with given := ← s.given.addValue name value }

def addFlag (s : ParseState) (name : FlagName) : Parsing ParseState := do
  let s ← s.settle
  return { s with given := ← s.given.addFlag name }

def addWord (s : ParseState) (c : Subcommand) (word : String) : Parsing ParseState :=
  match c with
  | .extract => do
    let s ← s.settle
    return { s with given := s.given.addWord word }
  | .inspect =>
    match s.waiting, s.given.words with
    | .path _, _ => .error .unknownArgument
    | _, _ :: _ => .error .unknownArgument
    | _, [] => do
      let s ← s.settle
      return { s with waiting := .path word }

def addLong (s : ParseState) (c : Subcommand) (text : List Char) : Parsing ParseState :=
  let name := text.takeWhile (· ≠ '=')
  let value :=
    match text.drop name.length with
    | [] => none
    | _ :: value => some (String.ofList value)
  match c.long (String.ofList name), value with
  | none, _ => .error .unknownArgument
  | some (.flag _), some _ => .error .tooManyValues
  | some (.flag f), none => s.addFlag f
  | some (.value v), value => s.addValue v value

/-- Options by their letters; what follows the letter of an option with a value is its
value, less one equals sign. -/
def addLetters (s : ParseState) (c : Subcommand) : List Char → Parsing ParseState
  | [] => .ok s
  | letter :: rest =>
    match c.short letter with
    | none => .error .unknownArgument
    | some (.flag f) => do
      let s ← s.addFlag f
      s.addLetters c rest
    | some (.value v) =>
      match rest with
      | [] => s.addValue v none
      | '=' :: value => s.addValue v (some (String.ofList value))
      | value => s.addValue v (some (String.ofList value))

def add (s : ParseState) (c : Subcommand) (word : String) : Parsing ParseState :=
  if s.onlyWords then s.addWord c word
  else match word.toList with
    | ['-', '-'] => .ok { s with onlyWords := true }
    | '-' :: '-' :: text => s.addLong c text
    | '-' :: letter :: letters => s.addLetters c (letter :: letters)
    | _ =>
      match s.waiting with
      | .option name none => .ok { s with waiting := .option name (some word) }
      | _ => s.addWord c word

def addAll (s : ParseState) (c : Subcommand) (words : List String) : Parsing ParseState :=
  words.foldlM (fun s word => s.add c word) s

end ParseState

def extractOptions (g : Given) : ExtractOptions :=
  ⟨g.words, g.jarsFile, g.dir, g.format.getD .json, g.output, g.order, g.parallel, g.strict⟩

def parseSubcommand (c : Subcommand) (verbose : Bool) (words : List String) :
    Parsing Invocation := do
  let s ← ParseState.start.addAll c words
  let s ← s.settle
  match c, s.given.words with
  | .extract, _ => return ⟨.extract (extractOptions s.given), verbose || s.given.verbose⟩
  | .inspect, path :: _ => return ⟨.inspect path, verbose || s.given.verbose⟩
  | .inspect, [] => throw .missingArgument

/-- What the words after `help` come to: help, if they name at most one subcommand. -/
def helpFor : List String → UsageError
  | [] => .help
  | [c] => if c ∈ subcommands then .help else .invalidSubcommand
  | _ => .invalidSubcommand

def parseWords (verbose : Bool) : List String → Parsing Invocation
  | [] => .error (if verbose then .missingSubcommand else .helpForMissingSubcommand)
  | word :: words =>
    match word with
    | "-v" | "--verbose" => if verbose then .error .argumentConflict else parseWords true words
    | "-h" | "--help" => .error .help
    | "extract" => parseSubcommand .extract verbose words
    | "inspect" => parseSubcommand .inspect verbose words
    | "help" => .error (helpFor words)
    | _ => .error .invalidSubcommand

/-- Reads a command line, the program's name first. -/
def parse (args : List String) : Parsing Invocation :=
  parseWords false ((implicitExtract args).drop 1)

end JarIndex.CommandLine
