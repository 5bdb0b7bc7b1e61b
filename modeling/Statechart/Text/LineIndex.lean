import Statechart.Search
import Statechart.Text.Position

namespace Statechart

structure LineIndex where
  source : String
  starts : Array Nat
  deriving Inhabited

namespace LineIndex

def startsFrom (offset : Nat) : List Char → List Nat
  | []      => []
  | c :: cs =>
    let next := offset + c.utf8Size
    if c = '\n' then next :: startsFrom next cs else startsFrom next cs

def ofSource (source : String) : LineIndex where
  source := source
  starts := (0 :: startsFrom 0 source.toList).toArray

-- The line and the column of an offset. There are none within a character and behind the end.
def locate? (index : LineIndex) (offset : Nat) : Option Position :=
  match partitionPoint (· ≤ offset) index.starts with
  | 0        => none
  | line + 1 => do
    let start ← index.source.pos? ⟨← index.starts[line]?⟩
    let stop ← index.source.pos? ⟨offset⟩
    let text ← index.source.slice? start stop
    return ⟨line + 1, text.copy.length⟩

def locate (index : LineIndex) (offset : Nat) : Position := (index.locate? offset).getD default

end LineIndex

end Statechart
