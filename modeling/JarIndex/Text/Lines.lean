/-!
# Lines

A line ends at a newline, and a carriage return directly before it belongs to the
ending. What follows the last newline is a line if there is anything.
-/

set_option autoImplicit false

namespace JarIndex.Text

def dropLastIf {α : Type} [DecidableEq α] (a : α) (l : List α) : List α :=
  if l.getLast? = some a then l.dropLast else l

/-- The lines of a text whose newline and carriage return are the given symbols; `line` is
the start of the line under way, in reverse. -/
def linesFrom {α : Type} [DecidableEq α] (newline carriage : α) (line : List α) :
    List α → List (List α)
  | [] => if line = [] then [] else [line.reverse]
  | a :: as =>
    if a = newline then
      dropLastIf carriage line.reverse :: linesFrom newline carriage [] as
    else linesFrom newline carriage (a :: line) as

def lines (s : String) : List String :=
  (linesFrom '\n' '\r' [] s.toList).map String.ofList

end JarIndex.Text
