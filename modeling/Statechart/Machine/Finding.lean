import Statechart.Chart.Basic

namespace Statechart

inductive Fault.Kind
  | noFsm
  | noInitial
  | invalidHeader
  | extraHeader
  | undefinedState
  | undefinedSuper
  | unusedState
  | duplicateTransition
  | abstractTarget
  | actionsDiffer
  | conflictingSupers
  deriving DecidableEq

def Fault.Kind.label : Fault.Kind → String
  | noFsm               => "NO_FSM"
  | noInitial           => "NO_INITIAL"
  | invalidHeader       => "INVALID_HEADER"
  | extraHeader         => "EXTRA_HEADER_IGNORED"
  | undefinedState      => "UNDEFINED_STATE"
  | undefinedSuper      => "UNDEFINED_SUPER_STATE"
  | unusedState         => "UNUSED_STATE"
  | duplicateTransition => "DUPLICATE_TRANSITION"
  | abstractTarget      => "ABSTRACT_STATE_USED_AS_NEXT_STATE"
  | actionsDiffer       => "STATE_ACTIONS_MULTIPLY_DEFINED"
  | conflictingSupers   => "CONFLICTING_SUPERSTATES"

structure Fault where
  kind : Fault.Kind
  subject : String
  deriving DecidableEq

namespace Fault

def noFsm : Fault := ⟨.noFsm, ""⟩

def noInitial : Fault := ⟨.noInitial, ""⟩

def invalidHeader (h : Chart.Header) : Fault := ⟨.invalidHeader, h.name ++ ":" ++ h.value⟩

def extraHeader (h : Chart.Header) : Fault := ⟨.extraHeader, h.name ++ ":" ++ h.value⟩

def undefinedState (state : Name) : Fault := ⟨.undefinedState, state⟩

def undefinedInitial (state : Name) : Fault := ⟨.undefinedState, "initial: " ++ state⟩

def undefinedSuper (state : Name) : Fault := ⟨.undefinedSuper, state⟩

def unusedState (state : Name) : Fault := ⟨.unusedState, state⟩

def duplicateTransition (state event : Name) : Fault :=
  ⟨.duplicateTransition, state ++ "(" ++ event ++ ")"⟩

def abstractTarget (state : Name) (event : Option Name) (target : Name) : Fault :=
  ⟨.abstractTarget, state ++ "(" ++ event.getD "-" ++ ")->" ++ target⟩

def actionsDiffer (state : Name) : Fault := ⟨.actionsDiffer, state⟩

def conflictingSupers (state event : Name) : Fault :=
  ⟨.conflictingSupers, state ++ "|" ++ event⟩

def render (f : Fault) : String := "Semantic Error: " ++ f.kind.label ++ "(" ++ f.subject ++ ")"

end Fault

inductive Warning.Kind
  | inconsistentAbstraction
  | implicitSuper
  | redundantSuper
  | intersection
  deriving DecidableEq

def Warning.Kind.label : Warning.Kind → String
  | inconsistentAbstraction => "INCONSISTENT_ABSTRACTION"
  | implicitSuper           => "IMPLICIT_SUPERSTATE"
  | redundantSuper          => "REDUNDANT_SUPERSTATE"
  | intersection            => "SUPERSTATES_INTERSECTION"

structure Warning where
  kind : Warning.Kind
  subject : String
  deriving DecidableEq

namespace Warning

def inconsistentAbstraction (state : Name) : Warning := ⟨.inconsistentAbstraction, state⟩

def implicitSuper (state super : Name) : Warning := ⟨.implicitSuper, state ++ ":" ++ super⟩

def redundantSuper (substates : List Name) (super : Name) : Warning :=
  ⟨.redundantSuper, ",".intercalate substates ++ ":" ++ super⟩

def intersection (state : Name) : Warning := ⟨.intersection, state⟩

def render (w : Warning) : String :=
  "Semantic Warning: " ++ w.kind.label ++ "(" ++ w.subject ++ ")"

end Warning

end Statechart
