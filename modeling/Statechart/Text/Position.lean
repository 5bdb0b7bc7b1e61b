import Statechart.Text.Character

namespace Statechart

-- A place in the source for a reader: lines count from one, columns count characters from zero.
@[ext]
structure Position where
  line : Nat
  column : Nat
  deriving DecidableEq, Inhabited

end Statechart
