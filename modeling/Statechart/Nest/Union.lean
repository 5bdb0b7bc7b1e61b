import Statechart.Nest.Basic

namespace Statechart.Nest

structure Graft where
  parent : NodeId
  name : Name
  child : NodeId

def grafts (t : Nest) (source target : NodeId) : List Graft :=
  (t.children source).entries.map fun e => ⟨target, e.1, e.2⟩

section Termination

def vocabulary (t : Nest) (agenda : List Graft) : List Name :=
  distinct (t.nodes.flatMap (·.children.keys) ++ agenda.map (·.name))

theorem mem_vocabulary {t : Nest} {agenda : List Graft} {n : Name} :
    n ∈ t.vocabulary agenda ↔
      (∃ node ∈ t.nodes, n ∈ node.children.keys) ∨ ∃ g ∈ agenda, g.name = n := by
  simp [vocabulary]

theorem length_vocabulary_le {t u : Nest} {as bs : List Graft}
    (h : t.vocabulary as ⊆ u.vocabulary bs) :
    (t.vocabulary as).length ≤ (u.vocabulary bs).length :=
  (nodup_distinct _).length_le_of_subset h

theorem vocabulary_subset_cons (t : Nest) (g : Graft) (agenda : List Graft) :
    t.vocabulary agenda ⊆ t.vocabulary (g :: agenda) := by
  intro n hn
  rw [mem_vocabulary] at hn ⊢
  grind

theorem mem_keys_children {t : Nest} {i : NodeId} {n : Name} (h : n ∈ (t.children i).keys) :
    ∃ node ∈ t.nodes, n ∈ node.children.keys := by
  cases hi : t.nodes[i]?
  case none => simp [children, hi, NameMap.keys, EmptyCollection.emptyCollection, NameMap.empty] at h
  case some node => exact ⟨node, List.mem_of_getElem? hi, by simpa [children, hi] using h⟩

theorem vocabulary_grafts_subset (t : Nest) (g : Graft) (agenda : List Graft) (i j : NodeId) :
    t.vocabulary (t.grafts i j ++ agenda) ⊆ t.vocabulary (g :: agenda) := by
  intro n hn
  rw [mem_vocabulary] at hn ⊢
  cases hn
  case inl h => exact .inl h
  case inr h =>
    have ⟨k, hk, hn⟩ := h
    cases List.mem_append.mp hk
    case inl hk =>
      have ⟨e, he, hg⟩ := List.mem_map.mp hk
      refine .inl (mem_keys_children (i := i) ?_)
      subst hg hn
      exact List.mem_map_of_mem he
    case inr hk => exact .inr ⟨k, List.mem_cons_of_mem _ hk, hn⟩

theorem vocabulary_insertChild_subset (t : Nest) (g : Graft) (agenda : List Graft) :
    (t.insertChild g.parent g.name g.child).vocabulary agenda ⊆ t.vocabulary (g :: agenda) := by
  intro n hn
  rw [mem_vocabulary] at hn ⊢
  cases hn
  case inr h => grind
  case inl h =>
    have ⟨node, hm, hn⟩ := h
    have ⟨i, hi⟩ := List.mem_iff_getElem?.mp hm
    simp only [insertChild, modifyChildren, List.getElem?_modify] at hi
    cases ht : t.nodes[i]?
    case none => simp [ht] at hi
    case some old =>
      have hm := List.mem_of_getElem? ht
      simp only [ht, Option.map_eq_map, Option.map_some, Option.some.injEq] at hi
      split at hi
      case isFalse => grind
      case isTrue =>
        subst hi
        have hn := NameMap.mem_insert.mp (NameMap.mem_def.mpr hn)
        grind [NameMap.mem_def]

def unmatched (t : Nest) (visited : List (NodeId × NodeId)) : List (NodeId × NodeId) :=
  ((List.range t.size).flatMap fun i => (List.range t.size).map (i, ·)).filter (· ∉ visited)

theorem unmatched_congr {t u : Nest} (h : t.size = u.size) (visited : List (NodeId × NodeId)) :
    t.unmatched visited = u.unmatched visited := by
  simp [unmatched, h]

theorem length_unmatched_cons_lt {t : Nest} {visited : List (NodeId × NodeId)} {i j : NodeId}
    (hi : i < t.size) (hj : j < t.size) (hv : (i, j) ∉ visited) :
    (t.unmatched ((i, j) :: visited)).length < (t.unmatched visited).length := by
  have h : t.unmatched ((i, j) :: visited) = (t.unmatched visited).filter (· ≠ (i, j)) := by
    simp only [unmatched, List.filter_filter]
    congr 1
    funext p
    grind
  rw [h]
  refine List.length_filter_lt_length_iff_exists.mpr ⟨(i, j), ?_, by simp⟩
  simp [unmatched, hi, hj, hv]

theorem length_unmatched_cons_le (t : Nest) (visited : List (NodeId × NodeId))
    (p : NodeId × NodeId) :
    (t.unmatched (p :: visited)).length ≤ (t.unmatched visited).length := by
  have h : t.unmatched (p :: visited) = (t.unmatched visited).filter (· ≠ p) := by
    simp only [unmatched, List.filter_filter]
    congr 1
    funext q
    grind
  rw [h]
  exact List.length_filter_le ..

theorem length_grafts_le (t : Nest) (agenda : List Graft) (i j : NodeId) :
    (t.grafts i j).length ≤ (t.vocabulary agenda).length := by
  have h : (t.children i).keys ⊆ t.vocabulary agenda := fun n hn =>
    mem_vocabulary.mpr (.inl (mem_keys_children hn))
  simpa [grafts, NameMap.keys] using (t.children i).keys_nodup.length_le_of_subset h

-- Bounds the work ahead: what is on the agenda, and for every pair of nodes that may still be
-- brought together as many grafts as there are names.
def work (t : Nest) (visited : List (NodeId × NodeId)) (agenda : List Graft) : Nat :=
  agenda.length + (t.unmatched visited).length * (t.vocabulary agenda).length

theorem work_skip {t : Nest} {visited : List (NodeId × NodeId)} {g : Graft}
    {agenda : List Graft} : t.work visited agenda < t.work visited (g :: agenda) := by
  have := Nat.mul_le_mul_left (t.unmatched visited).length
    (length_vocabulary_le (vocabulary_subset_cons t g agenda))
  simp only [work, List.length_cons]
  omega

theorem work_insertChild {t : Nest} {visited : List (NodeId × NodeId)} {g : Graft}
    {agenda : List Graft} :
    (t.insertChild g.parent g.name g.child).work visited agenda < t.work visited (g :: agenda) := by
  have := Nat.mul_le_mul_left (t.unmatched visited).length
    (length_vocabulary_le (vocabulary_insertChild_subset t g agenda))
  simp only [work, List.length_cons, unmatched_congr (size_insertChild t g.parent g.name g.child)]
  omega

theorem work_grafts {t : Nest} {visited : List (NodeId × NodeId)} {g : Graft}
    {agenda : List Graft} {i j : NodeId} (hj : j < t.size) (hv : (i, j) ∉ visited) :
    t.work ((i, j) :: visited) (t.grafts i j ++ agenda) < t.work visited (g :: agenda) := by
  have hw := length_vocabulary_le (vocabulary_grafts_subset t g agenda i j)
  simp only [work, List.length_cons, List.length_append]
  by_cases hi : i < t.size
  case pos =>
    have hu := length_unmatched_cons_lt hi hj hv
    have hg := t.length_grafts_le (g :: agenda) i j
    have := Nat.mul_le_mul (Nat.le_refl (t.unmatched ((i, j) :: visited)).length) hw
    have := Nat.mul_le_mul (Nat.succ_le_of_lt hu) (Nat.le_refl (t.vocabulary (g :: agenda)).length)
    rw [Nat.succ_mul] at this
    omega
  case neg =>
    have hg : t.grafts i j = [] := by
      rw [grafts, children_eq_empty (Nat.le_of_not_lt hi)]
      rfl
    have := Nat.mul_le_mul (t.length_unmatched_cons_le visited (i, j)) hw
    simp only [hg, List.nil_append, List.length_nil] at this ⊢
    omega

end Termination

-- Lets `target` have all that `source` has, down to the leaves. A child of the source whose name
-- the target does not have is shared; two children of one name are brought together in turn, each
-- pair of nodes once.
def union (t : Nest) (source target : NodeId) : Nest :=
  if source = target then t else go t [(source, target)] (t.grafts source target)
where
  go (t : Nest) (visited : List (NodeId × NodeId)) (agenda : List Graft) : Nest :=
    match agenda with
    | [] => t
    | g :: rest =>
      match (t.children g.parent).get? g.name with
      | none => go (t.insertChild g.parent g.name g.child) visited rest
      | some existing =>
        if g.child ≠ existing ∧ (g.child, existing) ∉ visited ∧ existing < t.size then
          go t ((g.child, existing) :: visited) (t.grafts g.child existing ++ rest)
        else
          go t visited rest
  termination_by t.work visited agenda
  decreasing_by
    · exact work_insertChild
    · rename_i h
      exact work_grafts h.2.2 h.2.1
    · exact work_skip

end Statechart.Nest
