import Statechart.Text.LineIndex
import Statechart.Token.Basic

namespace Statechart

open Text

namespace Lexeme

def located (index : LineIndex) (offset : Nat) (content : Content) (cs : List Char) : Lexeme where
  content := content
  position := index.locate offset
  span := .ofLength offset (byteLength cs)

theorem length_dropWhile_le (f : Char → Bool) (cs : List Char) :
    (cs.dropWhile f).length ≤ cs.length :=
  (List.dropWhile_sublist f).length_le

-- The lexemes of a text that starts at `offset`. A name is as long as it can be, a comment runs up
-- to the end of its line.
def scan (index : LineIndex) (offset : Nat) (cs : List Char) : List Lexeme :=
  match cs with
  | [] => []
  | c :: rest =>
    if isBlank c then
      scan index (offset + c.utf8Size) rest
    else if c = '/' ∧ rest.head? = some '/' then
      scan index (offset + byteLength (c :: rest.takeWhile (· ≠ '\n')))
        (rest.dropWhile (· ≠ '\n'))
    else if isWord c then
      let word := c :: rest.takeWhile isWord
      located index offset (.token (.name (String.ofList word))) word ::
        scan index (offset + byteLength word) (rest.dropWhile isWord)
    else
      located index offset ((Token.ofChar? c).elim (.stray c) .token) [c] ::
        scan index (offset + c.utf8Size) rest
termination_by cs.length
decreasing_by
  all_goals
    simp only [List.length_cons]
    grind [length_dropWhile_le]

def ofSource (source : String) : List Lexeme := scan (.ofSource source) 0 source.toList

end Lexeme

end Statechart
