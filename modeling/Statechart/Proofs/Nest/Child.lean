import Mathlib.Logic.Relation
import Statechart.Nest.Basic
import Statechart.Proofs.Walk

open Relation

namespace Statechart.Nest

def HasChild (t : Nest) (i : NodeId) (n : Name) (j : NodeId) : Prop :=
  (t.children i).get? n = some j

-- Node identifiers make sense, a node is known to its parents by its own name, and nothing stands
-- above the root.
structure Sound (t : Nest) : Prop where
  rooted   : 0 < t.size
  bounded  : t.HasChild i n j → j < t.size
  named    : t.HasChild i n j → t.name j = n
  rootless : t.HasChild i n j → j ≠ root

variable {t u v : Nest} {i j k l : NodeId} {n p a b : Name}

theorem HasChild.unique (h₁ : t.HasChild i n j) (h₂ : t.HasChild i n k) : j = k :=
  Option.some.inj <| h₁.symm.trans h₂

theorem HasChild.lt_size (h : t.HasChild i n j) : i < t.size := by
  by_contra hi
  rw [HasChild, children_eq_empty (Nat.le_of_not_lt hi)] at h
  exact nomatch h

theorem hasChild_iff_mem : t.HasChild i n j ↔ (n, j) ∈ (t.children i).entries :=
  NameMap.get?_eq_some_iff

theorem mem_childNames_iff : n ∈ t.childNames i ↔ ∃ j, t.HasChild i n j := by
  rw [childNames, ← NameMap.mem_def, NameMap.mem_iff_get?_isSome, Option.isSome_iff_exists]
  exact .rfl

theorem isEmpty_children_iff : (t.children i).isEmpty ↔ ∀ n j, ¬t.HasChild i n j := by
  simp only [NameMap.isEmpty, List.isEmpty_iff, hasChild_iff_mem]
  constructor
  case mp  => intro h n j; simp [h]
  case mpr => intro h; exact List.eq_nil_iff_forall_not_mem.mpr fun e => h e.1 e.2

section Operations

theorem name_modifyChildren (f : NameMap NodeId → NameMap NodeId) :
    (t.modifyChildren i f).name k = t.name k := by
  simp only [name, modifyChildren, List.getElem?_modify]
  cases t.nodes[k]?
  case none => rfl
  case some => by_cases h : i = k <;> simp [h]

theorem children_modifyChildren (f : NameMap NodeId → NameMap NodeId) :
    (t.modifyChildren i f).children k =
      if k = i ∧ k < t.size then f (t.children k) else t.children k := by
  simp only [children, modifyChildren, List.getElem?_modify]
  cases h : t.nodes[k]?
  case none =>
    have hk : ¬k < t.size := Nat.not_lt.mpr <| List.getElem?_eq_none_iff.mp h
    simp [hk]
  case some =>
    have : k < t.size := (List.getElem?_eq_some_iff.mp h).1
    by_cases hk : i = k <;> simp [hk, this, eq_comm]

@[simp]
theorem name_insertChild : (t.insertChild i n j).name k = t.name k :=
  name_modifyChildren _

@[simp]
theorem name_eraseChild : (t.eraseChild i n).name k = t.name k :=
  name_modifyChildren _

@[simp]
theorem size_eraseChild : (t.eraseChild i n).size = t.size :=
  size_modifyChildren ..

theorem hasChild_insertChild (hi : i < t.size) :
    (t.insertChild i n j).HasChild k p l ↔
      if k = i ∧ p = n then l = j else t.HasChild k p l := by
  simp only [HasChild, insertChild, children_modifyChildren]
  by_cases hk : k = i
  case pos =>
    subst hk
    by_cases hp : p = n <;> simp [hi, hp, NameMap.get?_insert, eq_comm]
  case neg => simp [hk]

theorem hasChild_eraseChild :
    (t.eraseChild i n).HasChild k p l ↔ ¬(k = i ∧ p = n) ∧ t.HasChild k p l := by
  simp only [HasChild, eraseChild, children_modifyChildren]
  by_cases hk : k = i
  case neg => simp [hk]
  case pos =>
    subst hk
    by_cases hs : k < t.size
    case pos => by_cases hp : p = n <;> simp [hs, hp, NameMap.get?_erase]
    case neg => simp [hs, children_eq_empty (Nat.le_of_not_lt hs)]

@[simp]
theorem size_add (node : Node) : (t.add node).1.size = t.size + 1 := by
  simp [add, size]

@[simp]
theorem snd_add (node : Node) : (t.add node).2 = t.size := rfl

theorem name_add_of_lt {node : Node} (h : i < t.size) : (t.add node).1.name i = t.name i := by
  simp [name, add, List.getElem?_append_left h]

theorem name_add_self (node : Node) : (t.add node).1.name t.size = node.name := by
  simp [name, add, size]

theorem children_add_of_ne {node : Node} (h : i ≠ t.size) :
    (t.add node).1.children i = t.children i := by
  simp only [children, add]
  by_cases hi : i < t.size
  case pos => rw [List.getElem?_append_left hi]
  case neg =>
    have h₁ : t.nodes.length ≤ i := Nat.le_of_not_lt hi
    have h₂ : (t.nodes ++ [node]).length ≤ i := by simp; exact Nat.lt_of_le_of_ne h₁ (Ne.symm h)
    rw [List.getElem?_eq_none h₁, List.getElem?_eq_none h₂]

theorem children_add_self (node : Node) : (t.add node).1.children t.size = node.children := by
  simp [children, add, size]

theorem hasChild_add_of_ne {node : Node} (h : i ≠ t.size) :
    (t.add node).1.HasChild i n j ↔ t.HasChild i n j := by
  simp only [HasChild, children_add_of_ne h]

theorem hasChild_add_self {node : Node} :
    (t.add node).1.HasChild t.size n j ↔ node.children.get? n = some j := by
  simp only [HasChild, children_add_self]

theorem children_add_leaf {p : Name} : (t.add ⟨p, ∅⟩).1.children i = t.children i := by
  by_cases hi : i = t.size
  case neg => exact children_add_of_ne hi
  case pos =>
    subst hi
    rw [children_add_self, children_eq_empty (Nat.le_refl _)]

theorem hasChild_add_leaf {p : Name} :
    (t.add ⟨p, ∅⟩).1.HasChild i n j ↔ t.HasChild i n j := by
  rw [HasChild, HasChild, children_add_leaf]

end Operations

section Reachability

def Leads (t : Nest) (i j : NodeId) : Prop :=
  ∃ n, t.HasChild i n j

def Reaches (t : Nest) : NodeId → NodeId → Prop :=
  ReflTransGen t.Leads

theorem mem_next_graph : j ∈ t.graph.next i ↔ t.Leads i j := by
  simp only [graph, NameMap.values, List.mem_map, Leads, hasChild_iff_mem]
  constructor
  case mp  => rintro ⟨e, he, hj⟩; exact ⟨e.1, hj ▸ he⟩
  case mpr => rintro ⟨n, hn⟩; exact ⟨(n, j), hn, rfl⟩

theorem reaches_graph_iff : t.graph.Reaches i j ↔ t.Reaches i j := by
  constructor
  case mp =>
    intro h
    exact ReflTransGen.mono (fun _ _ => mem_next_graph.mp) _ _ h.reflTransGen
  case mpr =>
    intro h
    exact .of_reflTransGen <| ReflTransGen.mono (fun _ _ => mem_next_graph.mpr) _ _ h

theorem mem_preorder_iff : j ∈ t.graph.preorder [i] ↔ t.Reaches i j := by
  simp [FiniteGraph.mem_preorder, reaches_graph_iff]

theorem Reaches.extend (h : ∀ i n j, t.HasChild i n j → u.HasChild i n j) (hr : t.Reaches i j) :
    u.Reaches i j :=
  ReflTransGen.mono (fun _ _ ⟨n, hn⟩ => ⟨n, h _ n _ hn⟩) _ _ hr

end Reachability

theorem Sound.reaches_ne_root (s : t.Sound) (hr : t.Reaches i j) (hi : i ≠ root) : j ≠ root := by
  cases hr
  case refl        => exact hi
  case tail _ _ hl => exact s.rootless hl.choose_spec

theorem Sound.eraseChild (s : t.Sound) : (t.eraseChild i n).Sound where
  rooted     := by simpa using s.rooted
  bounded h  := by simpa using s.bounded (hasChild_eraseChild.mp h).2
  named h    := by simpa using s.named (hasChild_eraseChild.mp h).2
  rootless h := s.rootless (hasChild_eraseChild.mp h).2

section Holding

-- Some node of the one name has a child of the other. Whether the node is in use does not matter.
def Holds (t : Nest) (a b : Name) : Prop :=
  ∃ i j, i ≠ root ∧ t.name i = a ∧ t.HasChild i b j

theorem HasChild.holds (h : t.HasChild i n j) (hi : i ≠ root) : t.Holds (t.name i) n :=
  ⟨i, j, hi, rfl, h⟩

theorem holds_of_eraseChild (h : (t.eraseChild i n).Holds a b) : t.Holds a b := by
  obtain ⟨k, j, hk, ha, hc⟩ := h
  exact ⟨k, j, hk, name_eraseChild.symm.trans ha, (hasChild_eraseChild.mp hc).2⟩

def HoldsFrom (t : Nest) (tops : NodeId → Prop) (a b : Name) : Prop :=
  ∃ k i j, tops k ∧ t.Reaches k i ∧ t.name i = a ∧ t.HasChild i b j

theorem Sound.holds_of_reaches (s : t.Sound) (hi : i ≠ root) (hr : t.Reaches i j) :
    ReflTransGen t.Holds (t.name i) (t.name j) := by
  induction hr
  case refl => exact .refl
  case tail k l hk hl hh =>
    have ⟨n, hn⟩ := hl
    exact hh.tail <| s.named hn ▸ hn.holds (s.reaches_ne_root hk hi)

theorem Sound.holdsFrom_of_reaches (s : t.Sound) {tops : NodeId → Prop} (ht : tops k)
    (hk : t.Reaches k i) (hr : t.Reaches i j) :
    ReflTransGen (t.HoldsFrom tops) (t.name i) (t.name j) := by
  induction hr
  case refl => exact .refl
  case tail l _ hl hc hh =>
    have ⟨n, hn⟩ := hc
    exact hh.tail ⟨k, l, _, ht, hk.trans hl, rfl, s.named hn ▸ hn⟩

def Acyclic (t : Nest) : Prop :=
  ∀ n, ¬TransGen t.Holds n n

theorem Acyclic.not_reaches_parent (a : t.Acyclic) (s : t.Sound) (hi : i ≠ root)
    (h : t.HasChild i n j) (hr : t.Reaches j k) : t.name k ≠ t.name i := by
  intro hn
  have hj := s.holds_of_reaches (s.rootless h) hr
  rw [s.named h, hn] at hj
  exact a _ <| .head' (h.holds hi) hj

end Holding

end Statechart.Nest
