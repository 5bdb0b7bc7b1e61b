import Statechart.Chart.Basic

namespace Statechart.Chart

inductive Role
  | fsm
  | initial
  | actions
  deriving DecidableEq

namespace Role

def ofName? (name : Name) : Option Role :=
  match name.toLower with
  | "fsm"     => some fsm
  | "initial" => some initial
  | "actions" => some actions
  | _         => none

end Role

namespace Header

def role? (h : Header) : Option Role := Role.ofName? h.name

end Header

-- The value for a role: that of its first header.
def value? (c : Chart) (role : Role) : Option Name :=
  (c.headers.find? (·.role? = some role)).map (·.value)

def blocksOf (c : Chart) (name : Name) : List Block := c.blocks.filter (·.head.name = name)

def isDefined (c : Chart) (name : Name) : Bool := name ∈ c.subjects

def isAbstract (c : Chart) (name : Name) : Bool := (c.blocksOf name).any (·.head.isAbstract)

namespace Arrow

-- Where an arrow of a state leads: back to the state unless it says otherwise.
def target (a : Arrow) (state : Name) : Name := a.next.getD state

end Arrow

def reactions (c : Chart) : List (Name × Name) :=
  c.blocks.flatMap fun b => (b.arrows.filterMap (·.event)).map (b.head.name, ·)

end Statechart.Chart
