import Statechart.Nest.Absorb
import Statechart.Nest.Intersection

namespace Statechart

namespace Nest

def assignmentOrder (t : Nest) : List NodeId :=
  t.graph.reversed.preorder (t.children root).values.reverse

def assignments (t : Nest) : List (Name × Name) :=
  t.assignmentOrder.flatMap fun i => (t.childNames i).map (·, t.name i)

def nested (t : Nest) : List Name :=
  (t.graph.preorder (t.children root).values).flatMap t.childNames

-- The states, each before those nested in it. What stands both below the root and below a state is
-- listed with the state, and only what is new is entered.
def order (t : Nest) : List Name :=
  let nested := t.nested
  (go t ((t.children root).entries.filter (·.1 ∉ nested)) [] []).reverse
where
  go (t : Nest) (agenda : List (Name × NodeId)) (seen : List Name) (visited : List NodeId) :
      List Name :=
    match agenda with
    | [] => seen
    | (name, i) :: rest =>
      if name ∈ seen then go t rest seen visited
      else if i ∈ visited then go t rest (name :: seen) visited
      else go t ((t.children i).entries ++ rest) (name :: seen) (i :: visited)
  termination_by agenda.length + t.graph.remaining visited
  decreasing_by
    · simp
    · simp
    · have := t.graph.length_next_add_remaining_le ‹i ∉ visited›
      rw [length_next_graph] at this
      simp only [List.length_append, List.length_cons]
      omega

end Nest

namespace Machine

def settle (m : Machine) (t : Nest) : Machine :=
  let m := (t.childNames Nest.root).foldl (·.setSuper · none) m
  -- The last assignment to a state counts.
  t.assignments.foldl (fun m a => m.setSuper a.1 (some a.2)) m

def resolve (m : Machine) : Machine :=
  let s := (Nest.ofMachine m).simplify m
  let intersections := s.nest.intersections
  let t := s.nest.liftAll intersections
  let m := m.separate (intersections.map fun _ paths => s.nest.ancestors paths)
  let m := (m.settle t).reorder t.order
  { m with warnings := m.warnings ++ s.warnings ++ intersections.keys.map .intersection }

end Machine

end Statechart
