import JarIndex.Text.Utf16
import Mathlib.Algebra.Field.Rat

/-!
# A reader of JSON

A text is split into tokens, one character after the other, and the tokens are taken
up by a machine that keeps the arrays and objects that are still open. White space
may stand between any two tokens, a number is read as the rational that it denotes,
and a text as what its units encode, however they are escaped. Whatever else stands
in the text makes it unreadable.
-/

set_option autoImplicit false

namespace JarIndex.Json

inductive Value where
  | null
  | boolean (b : Bool)
  | number (q : ℚ)
  | text (s : String)
  | array (items : List Value)
  | object (fields : List (String × Value))

namespace Reader

inductive Token where
  | openArray
  | closeArray
  | openObject
  | closeObject
  | comma
  | colon
  | text (s : String)
  | scalar (v : Value)

section Numbers

def digits? (cs : List Char) : Option (List Char × List Char) :=
  let ds := cs.takeWhile Char.isDigit
  if ds = [] then none else some (ds, cs.dropWhile Char.isDigit)

def natural (ds : List Char) : Nat := Nat.ofDigitChars 10 ds 0

def whole? (cs : List Char) : Option (List Char × List Char) := do
  let (ds, rest) ← digits? cs
  if ds.head? = some '0' ∧ ds ≠ ['0'] then none else some (ds, rest)

def fraction? : List Char → Option (List Char × List Char)
  | '.' :: cs => digits? cs
  | cs => some ([], cs)

def allDigits? (cs : List Char) : Option Nat :=
  match digits? cs with
  | some (ds, []) => some (natural ds)
  | _ => none

def exponent? : List Char → Option ℤ
  | [] => some 0
  | c :: cs =>
    if c = 'e' ∨ c = 'E' then
      match cs with
      | '-' :: ds => (allDigits? ds).map fun n => -(n : ℤ)
      | '+' :: ds => (allDigits? ds).map Int.ofNat
      | ds => (allDigits? ds).map Int.ofNat
    else none

def magnitude? (cs : List Char) : Option ℚ := do
  let (whole, cs) ← whole? cs
  let (part, cs) ← fraction? cs
  let e ← exponent? cs
  return natural (whole ++ part) * 10 ^ (e - part.length)

def number? : List Char → Option ℚ
  | '-' :: cs => (magnitude? cs).map (- ·)
  | cs => magnitude? cs

end Numbers

section Tokens

def isBlank (c : Char) : Bool := c = ' ' || c = '\t' || c = '\n' || c = '\r'

def isWordChar (c : Char) : Bool := c.isAlphanum || c = '+' || c = '-' || c = '.'

def word? (cs : List Char) : Option Value :=
  if cs = "null".toList then some .null
  else if cs = "true".toList then some (.boolean true)
  else if cs = "false".toList then some (.boolean false)
  else (number? cs).map .number

def mark? (c : Char) : Option Token :=
  if c = '[' then some .openArray
  else if c = ']' then some .closeArray
  else if c = '\x7b' then some .openObject
  else if c = '\x7d' then some .closeObject
  else if c = ',' then some .comma
  else if c = ':' then some .colon
  else none

def escaped? (c : Char) : Option UInt16 :=
  if c = '"' then some 0x22
  else if c = '\\' then some 0x5C
  else if c = '/' then some 0x2F
  else if c = 'b' then some 0x08
  else if c = 'f' then some 0x0C
  else if c = 'n' then some 0x0A
  else if c = 'r' then some 0x0D
  else if c = 't' then some 0x09
  else none

def hexDigit? (c : Char) : Option Nat :=
  if '0' ≤ c ∧ c ≤ '9' then some (c.toNat - 48)
  else if 'a' ≤ c ∧ c ≤ 'f' then some (c.toNat - 87)
  else if 'A' ≤ c ∧ c ≤ 'F' then some (c.toNat - 55)
  else none

/-- What a character belongs to: `units` are those of a text so far, and `digits` those of the
unit under way. -/
inductive Mode where
  | between
  | word (start : List Char)
  | text (units : List UInt16)
  | escape (units : List UInt16)
  | unit (units : List UInt16) (digits : List Nat)

def start? (c : Char) : Option (List Token × Mode) :=
  if isBlank c then some ([], .between)
  else if c = '"' then some ([], .text [])
  else if isWordChar c then some ([], .word [c])
  else (mark? c).map fun t => ([t], .between)

def unitOf (digits : List Nat) : UInt16 := UInt16.ofNat (digits.foldl (fun n d => 16 * n + d) 0)

def lex : Mode → List Char → Option (List Token)
  | .between, [] => some []
  | .word w, [] => (word? w).map fun v => [.scalar v]
  | .text _, [] | .escape _, [] | .unit _ _, [] => none
  | .between, c :: cs => do
    let (ts, m) ← start? c
    return ts ++ (← lex m cs)
  | .word w, c :: cs =>
    if isWordChar c then lex (.word (w ++ [c])) cs
    else do
      let v ← word? w
      let (ts, m) ← start? c
      return .scalar v :: (ts ++ (← lex m cs))
  | .text us, c :: cs =>
    if c = '"' then do
      let s ← Utf16.decode us
      return .text (String.ofList s) :: (← lex .between cs)
    else if c = '\\' then lex (.escape us) cs
    else if c.toNat < 32 then none
    else lex (.text (us ++ Utf16.encodeChar c)) cs
  | .escape us, c :: cs =>
    if c = 'u' then lex (.unit us []) cs
    else do
      let u ← escaped? c
      lex (.text (us ++ [u])) cs
  | .unit us ds, c :: cs => do
    let d ← hexDigit? c
    if ds.length < 3 then lex (.unit us (ds ++ [d])) cs
    else lex (.text (us ++ [unitOf (ds ++ [d])])) cs

end Tokens

section Documents

/-- An array or an object that is still open, with what is in it so far, the last in front. -/
inductive Frame where
  | array (items : List Value)
  | object (fields : List (String × Value)) (key : String)

inductive State where
  | value (open_ : List Frame)
  | firstItem (open_ : List Frame)
  | firstKey (open_ : List Frame)
  | key (fields : List (String × Value)) (open_ : List Frame)
  | colon (fields : List (String × Value)) (key : String) (open_ : List Frame)
  | behind (v : Value) (open_ : List Frame)

def begin? (open_ : List Frame) : Token → Option State
  | .scalar v => some (.behind v open_)
  | .text s => some (.behind (.text s) open_)
  | .openArray => some (.firstItem open_)
  | .openObject => some (.firstKey open_)
  | _ => none

def step? : State → Token → Option State
  | .value k, t => begin? k t
  | .firstItem k, .closeArray => some (.behind (.array []) k)
  | .firstItem k, t => begin? (.array [] :: k) t
  | .firstKey k, .closeObject => some (.behind (.object []) k)
  | .firstKey k, .text s => some (.colon [] s k)
  | .key fs k, .text s => some (.colon fs s k)
  | .colon fs s k, .colon => some (.value (.object fs s :: k))
  | .behind v (.array vs :: k), .comma => some (.value (.array (v :: vs) :: k))
  | .behind v (.array vs :: k), .closeArray => some (.behind (.array (v :: vs).reverse) k)
  | .behind v (.object fs s :: k), .comma => some (.key ((s, v) :: fs) k)
  | .behind v (.object fs s :: k), .closeObject => some (.behind (.object ((s, v) :: fs).reverse) k)
  | _, _ => none

def complete? : State → Option Value
  | .behind v [] => some v
  | _ => none

def takeUp (s : State) (ts : List Token) : Option State := ts.foldlM step? s

def document? (ts : List Token) : Option Value := (takeUp (.value []) ts).bind complete?

end Documents

end Reader

def read (s : String) : Option Value := (Reader.lex .between s.toList).bind Reader.document?

example : ["[1,]", "[01]", "[1] 2", "\"\t\"", "\"\\ud800\"", "\x7b\"a\" 1\x7d", "[1.]"].all
    (fun s => (read s).isNone) = true := by decide +kernel

end JarIndex.Json
