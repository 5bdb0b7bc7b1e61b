import Statechart.Dispatch.Basic

namespace Statechart

namespace Machine

-- The transitions that a state has a say in, its own first and then those that it inherits, nearest
-- first.
def reach (m : Machine) (state : Name) : List Transition :=
  ((m.chain state).reverse.filterMap m.state?).flatMap (·.transitions)

-- Exits what the target is not part of, innermost first, enters what the source is not part of,
-- outermost first, and then does what the transition says.
def fullActions (m : Machine) (source : Name) (t : Transition) : List Name :=
  let sourceChain := m.chain source
  let targetChain := m.chain t.next
  m.exitActions (sourceChain.reverse.filter (· ∉ targetChain)) ++
    m.entryActions (targetChain.filter (· ∉ sourceChain)) ++ t.actions

def firstOnEach (handled : List Name) : List Transition → List (Name × Transition)
  | [] => []
  | t :: ts =>
    match t.event with
    | none => firstOnEach handled ts
    | some event =>
      if event ∈ handled then firstOnEach handled ts
      else (event, t) :: firstOnEach (event :: handled) ts

def table (m : Machine) (state : Name) : Dispatch.Table where
  state := state
  entries := (firstOnEach [] (m.reach state)).map fun e =>
    ⟨e.1, e.2.next, m.fullActions state e.2⟩

def concrete (m : Machine) : List Name :=
  (m.states.entries.filter (!·.2.isAbstract)).map (·.1)

-- The tables of all concrete states. The nearest transition on an event wins.
def dispatch (m : Machine) : Dispatch where
  fsm := m.fsm
  initial := m.initial
  actionClass := m.actionClass
  states := m.concrete
  events := m.events
  actions := m.actions
  tables := m.concrete.map m.table

end Machine

end Statechart
