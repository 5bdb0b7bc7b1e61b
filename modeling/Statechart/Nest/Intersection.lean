import Statechart.Nest.Basic

namespace Statechart

namespace Nest

theorem length_filter_range_lt {n i : NodeId} {path : List NodeId} (hi : i < n) (hp : i ∉ path) :
    ((List.range n).filter (· ∉ path ++ [i])).length < ((List.range n).filter (· ∉ path)).length := by
  have h : (List.range n).filter (· ∉ path ++ [i]) =
      ((List.range n).filter (· ∉ path)).filter (· ≠ i) := by
    simp only [List.filter_filter]
    congr 1
    funext j
    grind
  rw [h]
  refine List.length_filter_lt_length_iff_exists.mpr ⟨i, ?_, by simp⟩
  simp [hi, hp]

-- Every leaf below a node, with the nodes that lead to it from below the root. `path` is how the
-- node was reached: no node is entered twice on one path, and the leaves of the root itself are
-- left out.
def leafPaths (t : Nest) (path : List NodeId) (i : NodeId) : List (Name × List NodeId) :=
  (t.children i).entries.flatMap fun e =>
    if e.2 ∈ path then []
    else if (t.children e.2).isEmpty then
      if path.isEmpty then [] else [(e.1, path)]
    else t.leafPaths (path ++ [e.2]) e.2
termination_by ((List.range t.size).filter (· ∉ path)).length
decreasing_by
  rename_i hp he
  exact length_filter_range_lt (lt_size_of_not_isEmpty he) hp

def intersections (t : Nest) : NameMap (List (List NodeId)) :=
  let paths := t.leafPaths [] root
  (NameMap.ofNames (paths.map (·.1)) fun name =>
    (paths.filter (·.1 = name)).map (·.2)).filter (2 ≤ ·.length)

def ancestors (t : Nest) (paths : List (List NodeId)) : List Name :=
  distinct (paths.flatten.map t.name)

def lift (t : Nest) (name : Name) (paths : List (List NodeId)) : Nest :=
  let t := (paths.filterMap (·.getLast?)).foldl (·.eraseChild · name) t
  let (t, leaf) := t.add ⟨name, ∅⟩
  t.insertChild root name leaf

def liftAll (t : Nest) (intersections : NameMap (List (List NodeId))) : Nest :=
  intersections.entries.foldl (fun t e => t.lift e.1 e.2) t

end Nest

namespace Machine

def inherit (m : Machine) (name : Name) (ancestors : List Name) : Machine :=
  let inherited := (ancestors.reverse.filterMap m.state?).flatMap (·.transitions)
  m.modifyState name fun s => { s with transitions := s.transitions ++ inherited }

def inheritAll (m : Machine) (ancestors : NameMap (List Name)) : Machine :=
  ancestors.entries.foldl (fun m e => m.inherit e.1 e.2) m

-- What a transition does on behalf of the ancestors that its two ends lose. Leaving exits those
-- that the target is not part of, innermost first; then those that the source is not part of are
-- entered, outermost first.
def crossing (m : Machine) (ancestors : NameMap (List Name)) (source target : Name) : List Name :=
  let around := m.hierarchy target
  let within := m.hierarchy source
  m.exitActions (((ancestors.get? source).getD []).reverse.filter (· ∉ around)) ++
    m.entryActions (((ancestors.get? target).getD []).filter (· ∉ within))

def crossAll (m : Machine) (ancestors : NameMap (List Name)) : Machine :=
  { m with states := m.states.map fun source s =>
    { s with transitions := s.transitions.map fun t =>
      t.prepend (m.crossing ancestors source t.next) } }

-- Lets intersections behave as all of their ancestors told them to, without inheriting from any.
def separate (m : Machine) (ancestors : NameMap (List Name)) : Machine :=
  ancestors.keys.foldl (·.setSuper · none) ((m.inheritAll ancestors).crossAll ancestors)

end Machine

end Statechart
