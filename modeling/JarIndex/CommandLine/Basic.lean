import JarIndex.Report

/-!
# What a command line asks for
-/

set_option autoImplicit false

namespace JarIndex.CommandLine

structure ExtractOptions where
  jars : List String
  jarsFile : Option String
  dir : Option String
  format : Format
  output : Option String
  order : Option EntryOrder
  parallel : Bool
  strict : Bool
  deriving DecidableEq, Repr

inductive Command where
  | extract (options : ExtractOptions)
  | inspect (path : String)
  deriving DecidableEq, Repr

structure Invocation where
  command : Command
  verbose : Bool
  deriving DecidableEq, Repr

inductive UsageError where
  | help
  | helpForMissingSubcommand
  | missingSubcommand
  | invalidSubcommand
  | unknownArgument
  | invalidValue
  | argumentConflict
  | missingArgument
  | tooManyValues
  deriving DecidableEq, Repr

def UsageError.isHelp : UsageError → Bool
  | .help => true
  | _ => false

def subcommands : List String := ["extract", "inspect", "help"]

def globalFlags : List String := ["-v", "--verbose", "-h", "--help"]

/-- A command line whose first word that is no global flag names no subcommand, with
`extract` in front of that word. -/
def withSubcommand : List String → List String
  | [] => []
  | a :: as =>
    if a ∈ globalFlags then a :: withSubcommand as
    else if a ∈ subcommands then a :: as
    else "extract" :: a :: as

def implicitExtract : List String → List String
  | [] => []
  | program :: as => program :: withSubcommand as

end JarIndex.CommandLine
