import Statechart.Graph.Walk
import Statechart.Machine.Finding
import Statechart.Name.Map
import Statechart.Name.Set

namespace Statechart

-- A transition of a state. Without an event it is never taken by one.
structure Transition where
  event : Option Name
  next : Name
  actions : List Name
  deriving DecidableEq

namespace Transition

def prepend (t : Transition) (actions : List Name) : Transition :=
  { t with actions := actions ++ t.actions }

end Transition

structure State where
  isAbstract : Bool := false
  supers : NameSet := ∅
  entry : List Name := []
  exit : List Name := []
  transitions : List Transition := []
  deriving DecidableEq

namespace State

def addSuper (s : State) (super : Name) : State := { s with supers := s.supers.insert super }

def setSuper (s : State) (super : Option Name) : State := { s with supers := .ofOption super }

def addEntry (s : State) (action : Name) : State := { s with entry := addNew s.entry action }

def addExit (s : State) (action : Name) : State := { s with exit := addNew s.exit action }

def addTransition (s : State) (t : Transition) : State :=
  { s with transitions := s.transitions ++ [t] }

def prependAt (s : State) (index : Nat) (actions : List Name) : State :=
  { s with transitions := s.transitions.modify index (·.prepend actions) }

end State

structure Machine where
  fsm : Option Name := none
  initial : Option Name := none
  actionClass : Option Name := none
  states : NameMap State := ∅
  events : List Name := []
  actions : List Name := []
  faults : List Fault := []
  warnings : List Warning := []

namespace Machine

def hasFaults (m : Machine) : Bool := !m.faults.isEmpty

def state? (m : Machine) (name : Name) : Option State := m.states.get? name

def declare (m : Machine) (name : Name) : Machine :=
  if name ∈ m.states then m else { m with states := m.states.insert name {} }

def modifyState (m : Machine) (name : Name) (f : State → State) : Machine :=
  { m with states := m.states.modify name f }

def setSuper (m : Machine) (name : Name) (super : Option Name) : Machine :=
  m.modifyState name (·.setSuper super)

def addEvent (m : Machine) (event : Name) : Machine :=
  { m with events := addNew m.events event }

def addAction (m : Machine) (action : Name) : Machine :=
  { m with actions := addNew m.actions action }

def reorder (m : Machine) (order : List Name) : Machine :=
  { m with states := m.states.reorder order }

def entryActions (m : Machine) (names : List Name) : List Name :=
  (names.filterMap m.state?).flatMap (·.entry)

def exitActions (m : Machine) (names : List Name) : List Name :=
  (names.filterMap m.state?).flatMap (·.exit)

def supers (m : Machine) (name : Name) : List Name :=
  (m.state? name).elim [] (·.supers.toList)

theorem supers_eq_nil {m : Machine} {name : Name} (h : name ∉ m.states.keys) :
    m.supers name = [] := by
  have h : m.state? name = none := by
    simpa [state?] using mt NameMap.mem_iff_get?_isSome.mpr h
  simp [supers, h]

def inheritance (m : Machine) : FiniteGraph Name where
  vertices := m.states.keys
  next := m.supers
  next_eq_nil _ := supers_eq_nil

def hierarchy (m : Machine) (name : Name) : List Name := m.inheritance.preorder [name]

-- A state and all that it inherits from, superstates first.
def chain (m : Machine) (name : Name) : List Name := m.inheritance.postorder name

end Machine

end Statechart
