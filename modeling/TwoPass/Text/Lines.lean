import TwoPass.Text.Basic

/-!
# Lines of a text

A line feed ends a line, together with one carriage return right before it.  The text after the
last line feed is a line only if it is not empty, and it keeps its carriage return.
-/

namespace TwoPass.Text

/-- The lines of a text, without their ends. -/
def lines (text : Text) : List Text :=
  let pieces := text.splitOn '\n'
  let closed := pieces.dropLast.map (dropLast '\r')
  match pieces.getLast? with
  | some (c :: rest) => closed ++ [c :: rest]
  | _ => closed

end TwoPass.Text
