import Statechart.Name.Basic
import Statechart.Text.Position
import Statechart.Text.Span

namespace Statechart

namespace Chart

structure Header where
  name : Name
  value : Name
  deriving DecidableEq

structure Head where
  name : Name
  isAbstract : Bool := false
  supers : List Name := []
  entry : List Name := []
  exit : List Name := []
  deriving DecidableEq

namespace Head

def hasActions (h : Head) : Bool := !h.entry.isEmpty || !h.exit.isEmpty

end Head

-- A transition as it is written. No event, or no next state, stands for a dash.
structure Arrow where
  event : Option Name := none
  next : Option Name := none
  actions : List Name := []
  deriving DecidableEq

structure Block where
  head : Head
  arrows : List Arrow := []
  deriving DecidableEq

inductive ErrorKind
  | lexical
  | header
  | state
  | transition
  | transitionGroup
  | afterEnd
  deriving DecidableEq

def ErrorKind.label : ErrorKind → String
  | lexical         => "SYNTAX"
  | header          => "HEADER"
  | state           => "STATE"
  | transition      => "TRANSITION"
  | transitionGroup => "TRANSITION_GROUP"
  | afterEnd        => "END"

structure Error where
  kind : ErrorKind
  message : String
  position : Position
  span : Span
  -- Where the state is named whose transitions are being read.
  state : Option Span := none
  deriving DecidableEq

end Chart

structure Chart where
  headers : List Chart.Header := []
  blocks : List Chart.Block := []
  errors : List Chart.Error := []
  closed : Bool := false
  deriving DecidableEq

namespace Chart

def hasErrors (c : Chart) : Bool := !c.errors.isEmpty

def subjects (c : Chart) : List Name := c.blocks.map (·.head.name)

end Chart

end Statechart
