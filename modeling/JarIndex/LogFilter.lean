import JarIndex.Log
import JarIndex.Text.Blank

/-!
# Which events are shown

A filter is a list of directives, each with a level up to which events are shown
and perhaps a target that the origin of an event must start with. Of the
directives that apply to an event the one with the longest target decides, and
of equal ones the last. An event to which none applies is not shown.
-/

set_option autoImplicit false

namespace JarIndex

def Level.rank : Level → Nat
  | .error => 1
  | .warn => 2
  | .info => 3
  | .debug => 4
  | .trace => 5

def Level.name : Level → String
  | .error => "ERROR"
  | .warn => "WARN"
  | .info => "INFO"
  | .debug => "DEBUG"
  | .trace => "TRACE"

def Origin.target : Origin → String
  | .archive => "jvm_name_extractor::archive"
  | .extract => "jvm_name_extractor::extract"

def Event.line (e : Event) : String := e.level.name ++ " " ++ e.message

/-- Events up to the rank are shown, of the target if one is given. A directive about spans
concerns no event. -/
structure Directive where
  target : Option String
  rank : Nat
  onSpans : Bool
  deriving DecidableEq, Repr

abbrev LogFilter := List Directive

namespace Directive

def ofRank (rank : Nat) : Directive := ⟨none, rank, false⟩

def rankOfNumber? (s : String) : Option Nat :=
  let digits := match s.toList with
    | '+' :: cs => cs
    | cs => cs
  if digits ≠ [] && digits.all Char.isDigit then
    let n := digits.foldl (fun n c => 10 * n + (c.toNat - '0'.toNat)) 0
    if n ≤ 5 then some n else none
  else none

/-- A level by its number or its name in any case; `off` shows nothing. -/
def rankOfText? (s : String) : Option Nat :=
  match rankOfNumber? s with
  | some n => some n
  | none =>
    match Text.lowerAscii s with
    | "off" => some 0
    | "error" => some 1
    | "warn" => some 2
    | "info" => some 3
    | "debug" => some 4
    | "trace" => some 5
    | _ => none

/-- The level after an equals sign; if nothing is there, every event is shown. -/
def rankAfterEquals? (cs : List Char) : Option Nat :=
  if cs = [] then some 5 else rankOfText? (String.ofList cs)

def isTargetStart (c : Char) : Bool := c.isAlphanum || c ∈ ['-', ':', '_'] || 0x80 ≤ c.toNat

def ofSpan? (cs : List Char) : Option Directive :=
  match cs.dropWhile (· ≠ ']') with
  | [_] => some ⟨none, 5, true⟩
  | _ :: '=' :: level => (rankAfterEquals? level).map fun rank => ⟨none, rank, true⟩
  | _ => none

def parse? (s : String) : Option Directive :=
  let cs := s.toList
  let shown := (Text.trim s).toList
  let front := shown.takeWhile fun c => c ≠ '=' && c ≠ '['
  match shown with
  | [] => none
  | '[' :: rest => ofSpan? rest
  | c :: _ =>
    if !isTargetStart c then none
    else match shown.drop front.length with
      | '[' :: rest => ofSpan? rest
      | _ :: _ =>
        (rankAfterEquals? (cs.drop (front.length + 1))).map fun rank =>
          ⟨some (String.ofList (cs.take front.length)), rank, false⟩
      | [] =>
        match rankOfText? s with
        | some rank => some (ofRank rank)
        | none => some ⟨some s, 5, false⟩

def appliesTo (d : Directive) (e : Event) : Bool :=
  !d.onSpans &&
    match d.target with
    | none => true
    | some target => target.toList.isPrefixOf e.origin.target.toList

/-- How specific a directive is. -/
def weight (d : Directive) : Nat :=
  match d.target with
  | none => 0
  | some target => target.utf8ByteSize + 1

end Directive

namespace LogFilter

/-- The filter that a text asks for; the empty text asks for errors only. -/
def parse? (s : String) : Option LogFilter :=
  match ((s.toList.splitOn ',').filter (· ≠ [])).mapM fun cs => Directive.parse? (String.ofList cs) with
  | none => none
  | some [] => some [Directive.ofRank 1]
  | some ds => some ds

def heavier (best : Option Directive) (d : Directive) : Option Directive :=
  match best with
  | none => some d
  | some b => if b.weight ≤ d.weight then some d else some b

def shows (f : LogFilter) (e : Event) : Bool :=
  match (f.filter (·.appliesTo e)).foldl heavier none with
  | none => false
  | some d => e.level.rank ≤ d.rank

/-- The filter in force: what is asked for if that can be read, else warnings, or
with `verbose` everything down to debugging. -/
def resolve (asked : Option String) (verbose : Bool) : LogFilter :=
  match asked.bind parse? with
  | some f => f
  | none => [Directive.ofRank (if verbose then 4 else 2)]

def lines (f : LogFilter) (es : List Event) : List String := (es.filter (shows f)).map Event.line

end LogFilter

end JarIndex
