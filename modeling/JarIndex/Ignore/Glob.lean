import JarIndex.Ignore.Pattern

/-!
# Globs

A question mark is one byte and an asterisk any number of bytes, neither of them
a slash. Two asterisks between slashes are any number of whole names. Brackets
give a set of bytes, braces a choice, and a backslash takes the next character
as it is. A bracket that is not closed stands for itself, as does every bracket
after it.
-/

set_option autoImplicit false

namespace JarIndex.Ignore

inductive Token where
  | literal (c : Char)
  | any
  | star
  | anyNamesBefore
  | anyNamesBetween
  | anyNamesAfter
  | set (s : ByteSet)
  | choice (p : Option Pattern)
  deriving DecidableEq, Repr

namespace Token

def slash : Pattern := .one (.single ByteSet.slash)

def anything : Pattern := .many .all

/-- The pattern of a token, none for a choice of nothing. -/
def pattern : Token → Option Pattern
  | .literal c => some (.literal (utf8Bytes (String.singleton c)))
  | .any => some (.one .notSlash)
  | .star => some (.many .notSlash)
  | .anyNamesBefore => some (.alt (.alt slash .empty) (.seq anything slash))
  | .anyNamesBetween => some (.alt slash (.seq slash (.seq anything slash)))
  | .anyNamesAfter => some (.seq slash anything)
  | .set s => some (.one s)
  | .choice p => p

def sequence (ts : List Token) : Option Pattern :=
  match ts.filterMap pattern with
  | [] => none
  | ps => some (ps.foldr .seq .empty)

def choiceOf (branches : List (List Token)) : Token :=
  match branches.filterMap sequence with
  | [] => .choice none
  | p :: ps => .choice (some (ps.foldl .alt p))

end Token

/-- The bytes between two characters as a set reads them: their own bytes, and those between
the last of the one and the first of the other. -/
def byteRanges (r : Char × Char) : List (UInt8 × UInt8) :=
  let bytes := fun c => utf8Bytes (String.singleton c)
  let single := fun b : UInt8 => (b, b)
  if r.1 = r.2 then (bytes r.1).map single
  else
    match (bytes r.1).reverse, bytes r.2 with
    | last :: before, first :: after =>
      before.reverse.map single ++ (last, first) :: after.map single
    | _, _ => []

inductive SetScan where
  | closed (ranges : List (Char × Char)) (rest : List Char)
  | unclosed
  | invalid
  deriving DecidableEq, Repr

/-- The ranges of a set up to its closing bracket. A bracket or a dash at the start stands
for itself, and so does a dash at the end. -/
def scanSet (first ranging : Bool) (ranges : List (Char × Char)) : List Char → SetScan
  | [] => .unclosed
  | c :: cs =>
    if c = ']' && !first then
      .closed (if ranging then ranges ++ [('-', '-')] else ranges) cs
    else if c = '-' && !first && !ranging then scanSet false true ranges cs
    else if ranging then
      match ranges.getLast? with
      | some (low, _) =>
        if c < low then .invalid
        else scanSet false false (ranges.dropLast ++ [(low, c)]) cs
      | none => .invalid
    else scanSet false false (ranges ++ [(c, c)]) cs

theorem length_scanSet {first ranging : Bool} {ranges found : List (Char × Char)}
    {cs rest : List Char} (h : scanSet first ranging ranges cs = .closed found rest) :
    rest.length < cs.length := by
  induction cs generalizing first ranging ranges with
  | nil => cases h
  | cons c cs ih =>
    unfold scanSet at h
    split at h
    · cases h
      simp
    · split at h
      · have := ih h
        simp
        omega
      · split at h
        · split at h
          · split at h
            · cases h
            · have := ih h
              simp
              omega
          · cases h
        · have := ih h
          simp
          omega

def scanBracket : List Char → Bool × SetScan
  | '!' :: cs => (true, scanSet true false [] cs)
  | '^' :: cs => (true, scanSet true false [] cs)
  | cs => (false, scanSet true false [] cs)

theorem length_scanBracket {cs rest : List Char} {negated : Bool} {found : List (Char × Char)}
    (h : scanBracket cs = (negated, .closed found rest)) : rest.length < cs.length := by
  unfold scanBracket at h
  split at h
  · have := length_scanSet (Prod.mk.inj h).2
    simp
    omega
  · have := length_scanSet (Prod.mk.inj h).2
    simp
    omega
  · exact length_scanSet (Prod.mk.inj h).2

/-- Where the reading of a glob stands: the character before, the branches of the braces that
are open, innermost first and each in reverse, how many there are in each of them, and
whether a bracket stands for itself. -/
structure GlobState where
  previous : Option Char
  branch : List Token
  outer : List (List (List Token) × List Token)
  finished : List (List Token)
  plainBrackets : Bool

namespace GlobState

def start : GlobState := ⟨none, [], [], [], false⟩

def push (g : GlobState) (t : Token) (c : Char) : GlobState :=
  { g with previous := some c, branch := t :: g.branch }

def opened (g : GlobState) : GlobState :=
  { g with
    previous := some '\x7b', branch := [], finished := []
    outer := (g.finished, g.branch) :: g.outer }

def comma (g : GlobState) : GlobState :=
  if g.outer = [] then g.push (.literal ',') ','
  else { g with
    previous := some ',', branch := [], finished := g.finished ++ [g.branch.reverse] }

def close? (g : GlobState) : Option GlobState :=
  match g.outer with
  | [] => none
  | (finished, branch) :: outer =>
    some { g with
      previous := some '\x7d', finished, outer
      branch := Token.choiceOf (g.finished ++ [g.branch.reverse]) :: branch }

/-- Two asterisks after which `next` comes: the tokens of the branch with them, and whether
the next character belongs to them. -/
def doubleStar (g : GlobState) (next : Option Char) : List Token × Bool :=
  let plain := (.star :: .star :: g.branch, false)
  if g.branch = [] then
    match next with
    | none => ([.anyNamesBefore], false)
    | some '/' => ([.anyNamesBefore], true)
    | some _ => plain
  else if g.previous ≠ some '/' &&
      (g.outer = [] || (g.previous ≠ some ',' && g.previous ≠ some '\x7b')) then plain
  else
    let replace := fun t : Token =>
      match g.branch with
      | .anyNamesBefore :: _ => g.branch
      | .anyNamesAfter :: _ => g.branch
      | _ :: before => t :: before
      | [] => [t]
    match next with
    | none => (replace .anyNamesAfter, false)
    | some '/' => (replace .anyNamesBetween, true)
    | some c =>
      if (c = ',' || c = '\x7d') && g.outer ≠ [] then (replace .anyNamesAfter, false) else plain

end GlobState

namespace GlobState

def step (g : GlobState) (c : Char) (cs : List Char) : Option (GlobState × List Char) :=
  match c, cs with
  | '?', cs => some (g.push .any '?', cs)
  | '*', '*' :: cs =>
    match g.doubleStar cs.head? with
    | (branch, true) => some ({ g with previous := some '/', branch }, cs.tail)
    | (branch, false) => some ({ g with previous := some '*', branch }, cs)
  | '*', cs => some (g.push .star '*', cs)
  | '[', cs =>
    if g.plainBrackets then some (g.push (.literal '[') '[', cs)
    else match scanBracket cs with
      | (negated, .closed ranges rest) =>
        some (g.push (.set ⟨negated, ranges.flatMap byteRanges⟩) ']', rest)
      | (_, .unclosed) => some ({ g.push (.literal '[') '[' with plainBrackets := true }, cs)
      | (_, .invalid) => none
  | '\x7b', cs => some (g.opened, cs)
  | '\x7d', cs => g.close?.map fun g => (g, cs)
  | ',', cs => some (g.comma, cs)
  | '\\', [] => none
  | '\\', c :: cs => some (g.push (.literal c) c, cs)
  | c, cs => some (g.push (.literal c) c, cs)

theorem length_step {g h : GlobState} {c : Char} {cs rest : List Char}
    (hs : g.step c cs = some (h, rest)) : rest.length ≤ cs.length := by
  unfold step at hs
  split at hs
  · cases hs
    exact Nat.le_refl _
  · split at hs
    · cases hs
      simp only [List.length_cons, List.length_tail]
      omega
    · cases hs
      simp only [List.length_cons]
      omega
  · cases hs
    exact Nat.le_refl _
  · split at hs
    · cases hs
      exact Nat.le_refl _
    · split at hs
      · rename_i hb
        cases hs
        exact Nat.le_of_lt (length_scanBracket hb)
      · cases hs
        exact Nat.le_refl _
      · cases hs
  · cases hs
    exact Nat.le_refl _
  · obtain ⟨_, _, he⟩ := Option.map_eq_some_iff.mp hs
    cases he
    exact Nat.le_refl _
  · cases hs
    exact Nat.le_refl _
  · cases hs
  · cases hs
    exact Nat.le_succ _
  · cases hs
    exact Nat.le_refl _

end GlobState

/-- Reads a glob on from a state; none if braces or escapes are not complete. -/
def readGlob (g : GlobState) (cs : List Char) : Option (List Token) :=
  match cs with
  | [] => if g.outer = [] then some g.branch.reverse else none
  | c :: cs =>
    match _h : g.step c cs with
    | none => none
    | some (g, rest) => readGlob g rest
termination_by cs.length
decreasing_by
  have := GlobState.length_step _h
  simp only [List.length_cons]
  omega

/-- The pattern of a whole glob; two asterisks alone match everything. -/
def globOfTokens (ts : List Token) : Pattern :=
  if ts = [.anyNamesBefore] then Token.anything else (Token.sequence ts).getD .empty

def glob? (s : String) : Option Pattern := (readGlob .start s.toList).map globOfTokens

end JarIndex.Ignore
