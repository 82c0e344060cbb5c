/-!
# Pretty JSON

Every item and field stands on a line of its own, two spaces deeper than what it
is in; what is empty stays on one line. Control characters are escaped, and no
others but the quote and the backslash.
-/

set_option autoImplicit false

namespace JarIndex

inductive Json where
  | null
  | number (n : Nat)
  | text (s : String)
  | array (items : List Json)
  | object (fields : List (String × Json))
  deriving Repr

namespace Json

def hexDigit (n : Nat) : Char := Nat.digitChar n

def escapeChar (c : Char) : List Char :=
  if c = '"' then ['\\', '"']
  else if c = '\\' then ['\\', '\\']
  else if c = '\x08' then ['\\', 'b']
  else if c = '\t' then ['\\', 't']
  else if c = '\n' then ['\\', 'n']
  else if c = '\x0c' then ['\\', 'f']
  else if c = '\r' then ['\\', 'r']
  else if c.toNat < 32 then ['\\', 'u', '0', '0', hexDigit (c.toNat / 16), hexDigit (c.toNat % 16)]
  else [c]

def quoted (s : String) : String :=
  String.ofList ('"' :: s.toList.flatMap escapeChar ++ ['"'])

def newline (depth : Nat) : String := String.ofList ('\n' :: List.replicate (2 * depth) ' ')

mutual

def render (depth : Nat) : Json → String
  | .null => "null"
  | .number n => toString n
  | .text s => quoted s
  | .array [] => "[]"
  | .array (j :: js) =>
    "[" ++ newline (depth + 1) ++ render (depth + 1) j ++ renderItems depth js ++ newline depth ++ "]"
  | .object [] => "\x7b\x7d"
  | .object ((k, j) :: fs) =>
    "\x7b" ++ newline (depth + 1) ++ quoted k ++ ": " ++ render (depth + 1) j ++
      renderFields depth fs ++ newline depth ++ "\x7d"

def renderItems (depth : Nat) : List Json → String
  | [] => ""
  | j :: js => "," ++ newline (depth + 1) ++ render (depth + 1) j ++ renderItems depth js

def renderFields (depth : Nat) : List (String × Json) → String
  | [] => ""
  | (k, j) :: fs =>
    "," ++ newline (depth + 1) ++ quoted k ++ ": " ++ render (depth + 1) j ++ renderFields depth fs

end

def pretty (j : Json) : String := render 0 j

end Json

end JarIndex
