import Statechart.Chart.Basic
import Statechart.Token.Basic

namespace Statechart.Reader

inductive Phase
  | header
  | headerColon
  | headerValue
  | stateSpec
  | abstractName
  | abstractClose
  | modifier
  | entryAction
  | entryActions
  | exitAction
  | exitActions
  | superstate
  | singleEvent
  | singleNext
  | singleActions
  | singleMoreActions
  | group
  | groupEvent
  | groupNext
  | groupActions
  | groupMoreActions
  | finished
  deriving DecidableEq

namespace Phase

def label : Phase → String
  | header            => "HEADER"
  | headerColon       => "HEADER_COLON"
  | headerValue       => "HEADER_VALUE"
  | stateSpec         => "STATE_SPEC"
  | abstractName      => "ABSTRACT_STATE_NAME"
  | abstractClose     => "ABSTRACT_STATE_CLOSE"
  | modifier          => "STATE_MODIFIER"
  | entryAction       => "ENTRY_ACTION"
  | entryActions      => "MULTIPLE_ENTRY_ACTIONS"
  | exitAction        => "EXIT_ACTION"
  | exitActions       => "MULTIPLE_EXIT_ACTIONS"
  | superstate        => "STATE_BASE"
  | singleEvent       => "SINGLE_EVENT"
  | singleNext        => "SINGLE_NEXT_STATE"
  | singleActions     => "SINGLE_ACTION_GROUP"
  | singleMoreActions => "SINGLE_ACTION_GROUP_NAME"
  | group             => "SUBTRANSITION_GROUP"
  | groupEvent        => "GROUP_EVENT"
  | groupNext         => "GROUP_NEXT_STATE"
  | groupActions      => "GROUP_ACTION_GROUP"
  | groupMoreActions  => "GROUP_ACTION_GROUP_NAME"
  | finished          => "END"

def errorKind : Phase → Chart.ErrorKind
  | header | headerColon | headerValue => .header
  | stateSpec | abstractName | abstractClose | modifier | entryAction | entryActions
  | exitAction | exitActions | superstate => .state
  | singleEvent | singleNext | singleActions | singleMoreActions => .transition
  | group | groupEvent | groupNext | groupActions | groupMoreActions => .transitionGroup
  | finished => .afterEnd

end Phase

inductive Edit
  | beginHeader
  | commitHeader
  | beginState
  | beginAbstractState
  | addSuper
  | addEntry
  | addExit
  | beginArrow
  | beginNilArrow
  | setNext
  | setNilNext
  | addAction
  | commitWithAction
  | commitArrow
  | close
  deriving DecidableEq

def Edit.needsName : Edit → Bool
  | beginNilArrow | setNilNext | commitArrow | close => false
  | _ => true

structure Row where
  phase : Phase
  terminal : Terminal
  next : Phase
  edit : Option Edit
  deriving DecidableEq

open Phase Edit in
-- The grammar: what is read in each phase, which phase follows, and what is recorded.
def table : List Row := [
  ⟨header, .name, headerColon, some beginHeader⟩,
  ⟨header, .openBrace, stateSpec, none⟩,
  ⟨headerColon, .colon, headerValue, none⟩,
  ⟨headerValue, .name, header, some commitHeader⟩,
  ⟨stateSpec, .openParen, abstractName, none⟩,
  ⟨stateSpec, .name, modifier, some beginState⟩,
  ⟨stateSpec, .closedBrace, finished, some close⟩,
  ⟨abstractName, .name, abstractClose, some beginAbstractState⟩,
  ⟨abstractClose, .closedParen, modifier, none⟩,
  ⟨modifier, .openAngle, entryAction, none⟩,
  ⟨modifier, .closedAngle, exitAction, none⟩,
  ⟨modifier, .colon, superstate, none⟩,
  ⟨modifier, .name, singleEvent, some beginArrow⟩,
  ⟨modifier, .dash, singleEvent, some beginNilArrow⟩,
  ⟨modifier, .openBrace, group, none⟩,
  ⟨entryAction, .name, modifier, some addEntry⟩,
  ⟨entryAction, .openBrace, entryActions, none⟩,
  ⟨entryActions, .name, entryActions, some addEntry⟩,
  ⟨entryActions, .closedBrace, modifier, none⟩,
  ⟨exitAction, .name, modifier, some addExit⟩,
  ⟨exitAction, .openBrace, exitActions, none⟩,
  ⟨exitActions, .name, exitActions, some addExit⟩,
  ⟨exitActions, .closedBrace, modifier, none⟩,
  ⟨superstate, .name, modifier, some addSuper⟩,
  ⟨singleEvent, .name, singleNext, some setNext⟩,
  ⟨singleEvent, .dash, singleNext, some setNilNext⟩,
  ⟨singleNext, .name, stateSpec, some commitWithAction⟩,
  ⟨singleNext, .dash, stateSpec, some commitArrow⟩,
  ⟨singleNext, .openBrace, singleActions, none⟩,
  ⟨singleActions, .name, singleMoreActions, some addAction⟩,
  ⟨singleActions, .closedBrace, stateSpec, some commitArrow⟩,
  ⟨singleMoreActions, .name, singleMoreActions, some addAction⟩,
  ⟨singleMoreActions, .closedBrace, stateSpec, some commitArrow⟩,
  ⟨group, .closedBrace, stateSpec, none⟩,
  ⟨group, .name, groupEvent, some beginArrow⟩,
  ⟨group, .dash, groupEvent, some beginNilArrow⟩,
  ⟨groupEvent, .name, groupNext, some setNext⟩,
  ⟨groupEvent, .dash, groupNext, some setNilNext⟩,
  ⟨groupNext, .name, group, some commitWithAction⟩,
  ⟨groupNext, .dash, group, some commitArrow⟩,
  ⟨groupNext, .openBrace, groupActions, none⟩,
  ⟨groupActions, .name, groupMoreActions, some addAction⟩,
  ⟨groupActions, .closedBrace, group, some commitArrow⟩,
  ⟨groupMoreActions, .name, groupMoreActions, some addAction⟩,
  ⟨groupMoreActions, .closedBrace, group, some commitArrow⟩,
  ⟨finished, .endOfInput, finished, none⟩]

namespace Phase

def rows (p : Phase) : List Row := table.filter (·.phase = p)

def row? (p : Phase) (t : Terminal) : Option Row :=
  table.find? fun r => r.phase = p && r.terminal = t

end Phase

end Statechart.Reader
