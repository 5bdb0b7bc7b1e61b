import Statechart.Graph.Walk
import Statechart.Machine.Basic

namespace Statechart

abbrev NodeId := Nat

structure Nest.Node where
  name : Name
  children : NameMap NodeId := ∅

-- States nested in each other. The nodes are referred to by their index: one node may have several
-- parents, and one state may have several nodes. The first node stands for the whole.
structure Nest where
  nodes : List Nest.Node

namespace Nest

def root : NodeId := 0

def size (t : Nest) : Nat := t.nodes.length

def name (t : Nest) (i : NodeId) : Name := (t.nodes[i]?).elim "" (·.name)

def children (t : Nest) (i : NodeId) : NameMap NodeId := (t.nodes[i]?).elim ∅ (·.children)

def childNames (t : Nest) (i : NodeId) : List Name := (t.children i).keys

def add (t : Nest) (node : Node) : Nest × NodeId := (⟨t.nodes ++ [node]⟩, t.size)

def modifyChildren (t : Nest) (i : NodeId) (f : NameMap NodeId → NameMap NodeId) : Nest where
  nodes := t.nodes.modify i fun n => { n with children := f n.children }

def insertChild (t : Nest) (parent : NodeId) (name : Name) (child : NodeId) : Nest :=
  t.modifyChildren parent (·.insert name child)

def eraseChild (t : Nest) (parent : NodeId) (name : Name) : Nest :=
  t.modifyChildren parent (·.erase name)

-- Below the root there is a node for every state and for everything that is inherited from, and
-- below each of these a leaf for everything that inherits from it.
def ofMachine (m : Machine) : Nest :=
  parents.foldl (fun t parent =>
    let substates := m.states.keys.filter (parent ∈ m.supers ·)
    let (t, leaves) := addLeaves t substates
    let (t, node) := t.add ⟨parent, leaves⟩
    t.insertChild root parent node) ⟨[⟨"", ∅⟩]⟩
where
  parents : List Name := distinct (m.states.keys.flatMap fun n => n :: m.supers n)
  addLeaves (t : Nest) (names : List Name) : Nest × NameMap NodeId :=
    names.foldl (fun (t, leaves) name =>
      let (t, leaf) := t.add ⟨name, ∅⟩
      (t, leaves.insert name leaf)) (t, ∅)

@[simp]
theorem size_modifyChildren (t : Nest) (i : NodeId) (f : NameMap NodeId → NameMap NodeId) :
    (t.modifyChildren i f).size = t.size := by
  simp [size, modifyChildren]

@[simp]
theorem size_insertChild (t : Nest) (parent : NodeId) (name : Name) (child : NodeId) :
    (t.insertChild parent name child).size = t.size :=
  size_modifyChildren ..

theorem children_eq_empty {t : Nest} {i : NodeId} (h : t.size ≤ i) : t.children i = ∅ := by
  simp [children, List.getElem?_eq_none h]

theorem lt_size_of_not_isEmpty {t : Nest} {i : NodeId} (h : ¬(t.children i).isEmpty) :
    i < t.size := by
  refine Nat.lt_of_not_le fun hi => h ?_
  rw [children_eq_empty hi]
  rfl

def graph (t : Nest) : FiniteGraph NodeId where
  vertices := List.range t.size
  next i := (t.children i).values
  next_eq_nil i h := by
    rw [children_eq_empty (by simpa using h)]
    rfl

theorem length_next_graph (t : Nest) (i : NodeId) :
    (t.graph.next i).length = (t.children i).entries.length := by
  simp [graph, NameMap.values]

end Nest

end Statechart
