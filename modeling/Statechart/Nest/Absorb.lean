import Statechart.Nest.Union
import Statechart.Sort

namespace Statechart.Nest

-- How a state was put below another one: in place of its substates, or together with a node for it
-- that was there already.
inductive Absorption
  | substituted
  | united
  deriving DecidableEq

def shared? (t : Nest) (source target : NodeId) : Option (NameMap NodeId) :=
  let found := (t.childNames source).filterMap fun n => ((t.children target).get? n).map (n, ·)
  if !found.isEmpty && found.length = (t.childNames source).length then some (.ofList found)
  else none

def isCovered (t : Nest) (source target : NodeId) : Bool :=
  target ≠ source && t.name target ≠ t.name source && (t.shared? source target).isSome

def substitute (t : Nest) (source target : NodeId) : Nest :=
  match t.shared? source target with
  | none => t
  | some found =>
    let name := t.name source
    let (t, wrapper) := t.add ⟨name, found⟩
    let t := (t.union source wrapper).insertChild target name wrapper
    (found.keys.filter (· ≠ name)).foldl (·.eraseChild target ·) t

def substituteBelow? (t : Nest) (source target : NodeId) : Option Nest :=
  ((t.graph.preorder [target]).find? (t.isCovered source)).map (t.substitute source)

def uniteBelow? (t : Nest) (source target : NodeId) : Option Nest :=
  ((t.graph.preorder [target]).findSome? fun i => (t.children i).get? (t.name source)).map
    (t.union source)

def dropNested (t : Nest) (i : NodeId) : Nest :=
  -- Smaller children are looked for in larger ones.
  go t (sortBy (fun e => (t.children e.2).size) (t.children i).entries)
where
  go (t : Nest) : List (Name × NodeId) → Nest
    | [] => t
    | (name, child) :: siblings =>
      go (siblings.foldl (fun t sibling =>
        match t.uniteBelow? child sibling.2 with
        | some t => t.eraseChild i name
        | none   => t) t) siblings

-- Puts `source` below `target`, if that has all of its children or a node for it.
def absorb? (t : Nest) (source target : NodeId) : Option (Nest × Absorption) :=
  match t.substituteBelow? source target with
  | some t => some (t.dropNested target, .substituted)
  | none =>
    match t.uniteBelow? source target with
    | some t => some (t.dropNested target, .united)
    | none   => none

def isTop (m : Machine) (name : Name) : Bool := (m.supers name).isEmpty

-- Only a substitution is worth a warning: a superstate has been given a superstate of its own, or
-- had one that it needs no more.
def absorptionWarning (m : Machine) (source : Name) (substates : List Name) (target : Name) :
    Absorption → List Warning
  | .united => []
  | .substituted =>
    if substates.isEmpty then []
    else if isTop m source then [.implicitSuper source target]
    else [.redundantSuper substates target]

structure Simplification where
  nest : Nest
  absorbed : List Name := []
  warnings : List Warning := []

namespace Simplification

def absorbInto (m : Machine) (source : Name × NodeId) (s : Simplification) :
    List (Name × NodeId) → Simplification
  | [] => s
  | target :: targets =>
    if target.1 ∈ s.absorbed then absorbInto m source s targets
    else
      match s.nest.absorb? source.2 target.2 with
      | none => absorbInto m source s targets
      | some (nest, how) =>
        { nest := nest.eraseChild root source.1
          absorbed := source.1 :: s.absorbed
          warnings := s.warnings ++
            absorptionWarning m source.1 (s.nest.childNames source.2) target.1 how }

def absorbAll (m : Machine) (s : Simplification) : List (Name × NodeId) → Simplification
  | [] => s
  | source :: rest =>
    absorbAll m (if source.1 ∈ s.absorbed then s else absorbInto m source s rest) rest

end Simplification

def candidates (t : Nest) : List (Name × NodeId) :=
  -- Of several nodes with equally many children, the last one comes first.
  sortBy (fun e => (t.children e.2).size) (t.children root).entries.reverse

def simplify (t : Nest) (m : Machine) : Simplification :=
  let (tops, others) := t.candidates.partition (isTop m ·.1)
  -- States that inherit from nothing are put below each other before they take any others.
  let s := Simplification.absorbAll m { nest := t } tops
  s.absorbAll m (others ++ tops)

end Statechart.Nest
