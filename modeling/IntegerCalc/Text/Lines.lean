/-! A text as a sequence of lines. A line ends at a line feed, or at a carriage
return together with the line feed that follows it. What stands after the last
line feed is a line too, unless it is empty. -/

namespace IntegerCalc.Text

/-- Removes one carriage return from the end. -/
def dropReturn (piece : List Char) : List Char :=
  if piece.getLast? = some '\r' then piece.dropLast else piece

/-- The lines of a text in pieces between line feeds. Every piece but the last ended at a line
feed; the last one keeps its carriage return. -/
def linesOfPieces (ps : List (List Char)) : List (List Char) :=
  ps.dropLast.map dropReturn ++ (ps.getLast?.filter (!·.isEmpty)).toList

def lines (text : String) : List String :=
  (linesOfPieces (text.toList.splitOn '\n')).map String.ofList

/-- The text that has the given lines, each ended by a line feed. -/
def unlines (lines : List String) : String := String.join (lines.map (· ++ "\n"))

@[simp] theorem unlines_nil : unlines [] = "" := rfl

@[simp] theorem unlines_append (a b : List String) : unlines (a ++ b) = unlines a ++ unlines b := by
  simp [unlines, String.join_append]

end IntegerCalc.Text
