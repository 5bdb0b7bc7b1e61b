import Statechart.Chart.View
import Statechart.Machine.Basic

namespace Statechart

namespace Chart

def transition? (c : Chart) (state : Name) (a : Arrow) : Option Transition :=
  if c.isDefined (a.target state) then some ⟨a.event, a.target state, a.actions⟩ else none

-- A state gathers what all of its blocks say. What they refer to and is not defined is left out.
def state (c : Chart) (name : Name) : State :=
  let blocks := c.blocksOf name
  { isAbstract := c.isAbstract name
    supers := .ofList ((blocks.flatMap (·.head.supers)).filter (c.isDefined ·))
    entry := distinct (blocks.flatMap (·.head.entry))
    exit := distinct (blocks.flatMap (·.head.exit))
    transitions := (blocks.flatMap (·.arrows)).filterMap (c.transition? name) }

def states (c : Chart) : NameMap State := .ofNames c.subjects c.state

def events (c : Chart) : List Name :=
  distinct <| (c.blocks.flatMap (·.arrows)).filterMap (·.event)

def actions (c : Chart) : List Name :=
  distinct <| c.blocks.flatMap fun b =>
    b.head.entry ++ b.head.exit ++ b.arrows.flatMap (·.actions)

-- A header is at fault if it has no role, or the role of an earlier one.
def headerFaults (c : Chart) : List Fault :=
  go [] c.headers
where
  go (seen : List Role) : List Header → List Fault
    | [] => []
    | h :: hs =>
      match h.role? with
      | none => .invalidHeader h :: go seen hs
      | some role =>
        if role ∈ seen then .extraHeader h :: go seen hs else go (role :: seen) hs

def missingHeaders (c : Chart) : List Fault :=
  (if (c.value? .fsm).isNone then [.noFsm] else []) ++
    (if (c.value? .initial).isNone then [.noInitial] else [])

-- Every block with actions has to have those of the first such block of its state.
def actionFaults (c : Chart) : List Fault :=
  (c.blocks.filter (·.head.hasActions)).filterMap fun b =>
    match (c.blocksOf b.head.name).find? (·.head.hasActions) with
    | none => none
    | some first =>
      if first.head.entry = b.head.entry ∧ first.head.exit = b.head.exit then none
      else some (.actionsDiffer b.head.name)

def arrowFaults (c : Chart) (state : Name) (a : Arrow) : List Fault :=
  let target := a.target state
  if !c.isDefined target then [.undefinedState target]
  else if a.next.isSome && c.isAbstract target then [.abstractTarget state a.event target]
  else []

def blockFaults (c : Chart) (b : Block) : List Fault :=
  (b.head.supers.filter (!c.isDefined ·)).map .undefinedSuper ++
    b.arrows.flatMap (c.arrowFaults b.head.name)

def initialFaults (c : Chart) : List Fault :=
  match c.value? .initial with
  | none => []
  | some initial => if c.isDefined initial then [] else [.undefinedInitial initial]

def used (c : Chart) : List Name :=
  (c.value? .initial).toList ++
    c.states.values.flatMap fun s => s.supers.toList ++ s.transitions.map (·.next)

def unusedFaults (c : Chart) : List Fault :=
  let used := c.used
  (c.states.keys.filter (· ∉ used)).map .unusedState

def duplicateFaults (c : Chart) : List Fault :=
  (repeats c.reactions).map fun r => .duplicateTransition r.1 r.2

-- The events on which two superstates do different things while the state itself does nothing.
def conflicts (state first second : State) : List Name :=
  first.transitions.filterMap fun t =>
    match t.event with
    | none => none
    | some event =>
      let overridden := state.transitions.any (·.event = some event)
      let differs := second.transitions.any fun u =>
        u.event = some event && !(u.next = t.next && u.actions = t.actions)
      if !overridden && differs then some event else none

def pairs : List α → List (α × α)
  | [] => []
  | a :: as => as.map (a, ·) ++ pairs as

def conflictFaults (c : Chart) : List Fault :=
  let states := c.states
  states.entries.flatMap fun e =>
    (pairs (e.2.supers.toList.filterMap states.get?)).flatMap fun p =>
      (conflicts e.2 p.1 p.2).map (.conflictingSupers e.1)

def faults (c : Chart) : List Fault :=
  c.headerFaults ++ c.missingHeaders ++ c.actionFaults ++ c.blocks.flatMap c.blockFaults ++
    c.initialFaults ++ c.unusedFaults ++ c.duplicateFaults ++ c.conflictFaults

def warnings (c : Chart) : List Warning :=
  let inconsistent := fun name =>
    c.isAbstract name && (c.blocksOf name).any (!·.head.isAbstract)
  (c.states.keys.filter inconsistent).map .inconsistentAbstraction

end Chart

-- The machine that a chart describes. There always is one; each fault is listed once.
def Machine.ofChart (c : Chart) : Machine where
  fsm := c.value? .fsm
  initial := (c.value? .initial).filter (c.isDefined ·)
  actionClass := c.value? .actions
  states := c.states
  events := c.events
  actions := c.actions
  faults := distinct c.faults
  warnings := c.warnings

end Statechart
