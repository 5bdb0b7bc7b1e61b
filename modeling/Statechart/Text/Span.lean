namespace Statechart

-- A stretch of the source, by byte offsets; `stop` is the first offset behind it.
@[ext]
structure Span where
  start : Nat
  stop : Nat
  start_le_stop : start ≤ stop := by omega
  deriving DecidableEq

namespace Span

def between (start stop : Nat) : Span where
  start := start
  stop := max start stop

def ofLength (start length : Nat) : Span where
  start := start
  stop := start + length

def length (s : Span) : Nat := s.stop - s.start

def isEmpty (s : Span) : Bool := s.start = s.stop

def render (s : Span) : String := toString s.start ++ ".." ++ toString s.stop

instance : Inhabited Span := ⟨ofLength 0 0⟩

end Span

end Statechart
