import Statechart.Proofs.Nest.Union

namespace Statechart.Nest

def Closed (t : Nest) : Prop :=
  ∀ node ∈ t.nodes, ∀ j ∈ node.children.values, j < t.size

instance {t : Nest} : Decidable t.Closed :=
  inferInstanceAs (Decidable (∀ _ ∈ _, ∀ _ ∈ _, _))

def follow? (t : Nest) (i : NodeId) : List Name → Option NodeId
  | []      => some i
  | n :: ns => ((t.children i).get? n).bind (t.follow? · ns)

-- The recursion that the agenda of a union stands for. Grafts are made one after another: where
-- there is no child of the name the new one is shared, and where there is one the two are brought
-- together, that is, all grafts of the one onto the other are made before the rest. Pairs of nodes
-- that have been brought together, or are about to be, are passed over.
inductive Unites :
    Nest → List (NodeId × NodeId) → List Graft → Nest → List (NodeId × NodeId) → Prop
  | done  : Unites t visited [] t visited
  | share : (t.children g.parent).get? g.name = none →
    Unites (t.insertChild g.parent g.name g.child) visited rest u visited' →
    Unites t visited (g :: rest) u visited'
  | pass  : t.HasChild g.parent g.name k → g.child = k ∨ (g.child, k) ∈ visited →
    Unites t visited rest u visited' → Unites t visited (g :: rest) u visited'
  | enter : t.HasChild g.parent g.name k → ¬(g.child = k ∨ (g.child, k) ∈ visited) →
    Unites t ((g.child, k) :: visited) (t.grafts g.child k) v between →
    Unites v between rest u visited' → Unites t visited (g :: rest) u visited'

def Merges (t : Nest) (source target : NodeId) (u : Nest) : Prop :=
  if source = target then u = t
  else ∃ visited, Unites t [(source, target)] (t.grafts source target) u visited

variable {t u v : Nest} {source target i j : NodeId} {ns : List Name}
  {visited visited' visited'' : List (NodeId × NodeId)} {agenda as bs : List Graft}

theorem Closed.bounded (h : t.Closed) {i n j} (hc : t.HasChild i n j) : j < t.size := by
  have hi := hc.lt_size
  refine h t.nodes[i] (List.getElem_mem hi) j <| List.mem_map.mpr ⟨(n, j), ?_, rfl⟩
  simpa [children, List.getElem?_eq_getElem hi] using hasChild_iff_mem.mp hc

section Termination

namespace Unites

theorem unique (h : Unites t visited agenda u visited') (h' : Unites t visited agenda v visited'') :
    u = v ∧ visited' = visited'' := by
  induction h generalizing v visited''
  case done =>
    cases h'
    exact ⟨rfl, rfl⟩
  case share hn _ hi =>
    cases h'
    case share h           => exact hi h
    case pass hc _ _       => cases hn.symm.trans hc
    case enter hc _ _ _    => cases hn.symm.trans hc
  case pass hc hp _ hi =>
    cases h'
    case share hn _        => cases hn.symm.trans hc
    case pass h            => exact hi h
    case enter hc' hp' _ _ => exact absurd (hc.unique hc' ▸ hp) hp'
  case enter hc hp _ _ hi hi' =>
    cases h'
    case share hn _        => cases hn.symm.trans hc
    case pass hc' hp' _    => exact absurd (hc'.unique hc ▸ hp') hp
    case enter hc' _ hg hr =>
      cases hc.unique hc'
      obtain ⟨rfl, rfl⟩ := hi hg
      exact hi' hr

theorem split (h : Unites t visited (as ++ bs) u visited') :
    ∃ v between, Unites t visited as v between ∧ Unites v between bs u visited' := by
  induction as generalizing t visited
  case nil => exact ⟨t, visited, .done, h⟩
  case cons g as hi =>
    cases h
    case share hn h =>
      obtain ⟨v, between, ha, hb⟩ := hi h
      exact ⟨v, between, .share hn ha, hb⟩
    case pass hc hp h =>
      obtain ⟨v, between, ha, hb⟩ := hi h
      exact ⟨v, between, .pass hc hp ha, hb⟩
    case enter hc hp hg h =>
      obtain ⟨v, between, ha, hb⟩ := hi h
      exact ⟨v, between, .enter hc hp hg ha, hb⟩

end Unites

theorem union.go_unites (visited : List (NodeId × NodeId)) (agenda : List Graft)
    (hb : ∀ {i n j}, t.HasChild i n j → j < t.size) (ha : ∀ g ∈ agenda, g.child < t.size) :
    ∃ visited', Unites t visited agenda (union.go t visited agenda) visited' := by
  fun_induction union.go t visited agenda
  case case1 t visited => exact ⟨visited, .done⟩
  case case2 t visited g rest hn hi =>
    obtain ⟨hg, ha⟩ := List.forall_mem_cons.mp ha
    have hs : (t.insertChild g.parent g.name g.child).size = t.size := size_insertChild ..
    have hb' {i n j} (hc : (t.insertChild g.parent g.name g.child).HasChild i n j) :
        j < (t.insertChild g.parent g.name g.child).size := by
      rw [hs]
      cases hasChild_of_insertChild hc
      case inl hc => exact hb hc
      case inr hc => exact hc.2.2 ▸ hg
    obtain ⟨visited', h⟩ := hi hb' (hs ▸ ha)
    exact ⟨visited', .share hn h⟩
  case case3 t visited g rest k hc hp hi =>
    obtain ⟨_, ha⟩ := List.forall_mem_cons.mp ha
    have ha' : ∀ g' ∈ t.grafts g.child k ++ rest, g'.child < t.size := by
      intro g' hg
      cases List.mem_append.mp hg
      case inl hg => exact hb (mem_grafts.mp hg).2
      case inr hg => exact ha g' hg
    obtain ⟨visited', h⟩ := hi hb ha'
    obtain ⟨v, between, hg, hr⟩ := h.split
    exact ⟨visited', .enter hc (fun h => h.elim hp.1 hp.2.1) hg hr⟩
  case case4 t visited g rest k hc hp hi =>
    obtain ⟨visited', h⟩ := hi hb fun g' hg => ha g' (List.mem_cons_of_mem _ hg)
    refine ⟨visited', .pass hc ?_ h⟩
    by_contra hn
    obtain ⟨hne, hv⟩ := not_or.mp hn
    exact hp ⟨hne, hv, hb hc⟩

theorem Closed.merges_iff (h : t.Closed) :
    t.Merges source target u ↔ u = t.union source target := by
  rw [Merges, union]
  split
  case isTrue  => exact .rfl
  case isFalse =>
    obtain ⟨visited, hu⟩ := union.go_unites [(source, target)] (t.grafts source target) h.bounded
      fun g hg => h.bounded (mem_grafts.mp hg).2
    constructor
    case mp =>
      rintro ⟨_, hu'⟩
      exact (hu'.unique hu).1
    case mpr =>
      rintro rfl
      exact ⟨visited, hu⟩

end Termination

section Routes

theorem follow?_cons_eq_some {n : Name} :
    t.follow? i (n :: ns) = some j ↔ ∃ k, t.HasChild i n k ∧ t.follow? k ns = some j :=
  Option.bind_eq_some_iff

theorem Extends.follow? (h : t.Extends u) (hf : t.follow? i ns = some j) :
    u.follow? i ns = some j := by
  induction ns generalizing i
  case nil => exact hf
  case cons n ns hi =>
    obtain ⟨k, hc, hf⟩ := follow?_cons_eq_some.mp hf
    exact follow?_cons_eq_some.mpr ⟨k, h.child hc, hi hf⟩

theorem Follows.exists_follow? {r : NodeId → NodeId → Prop} {a b : NodeId} (hx : t.Extends u)
    (hr : ∀ a b, r a b → Follows t u r a b) (h : Follows t u r a b) (hf : t.follow? a ns = some i) :
    ∃ j, u.follow? b ns = some j := by
  induction ns generalizing a b
  case nil => exact ⟨b, rfl⟩
  case cons n ns hi =>
    obtain ⟨c, hc, hf⟩ := follow?_cons_eq_some.mp hf
    obtain ⟨d, hd, hcd⟩ := h n c hc
    obtain ⟨j, hj⟩ : ∃ j, u.follow? d ns = some j := by
      cases hcd
      case inl he  => exact ⟨i, he ▸ hx.follow? hf⟩
      case inr hcd => exact hi (hr c d hcd) hf
    exact ⟨j, follow?_cons_eq_some.mpr ⟨d, hd, hj⟩⟩

end Routes

-- Bringing two nodes together ends, whatever circles they stand in. All routes from the source can
-- then be taken from the target, and all routes from any node lead where they led before.
theorem union_complete (t : Nest) (source target : NodeId) (h : t.Closed) (ht : target < t.size) :
    (∀ u, t.Merges source target u ↔ u = t.union source target) ∧
    (∀ ns, (t.follow? source ns).isSome → ((t.union source target).follow? target ns).isSome) ∧
    ∀ i ns j, t.follow? i ns = some j → (t.union source target).follow? i ns = some j := by
  have hx : t.Extends (t.union source target) := union_extends
  refine ⟨fun u => h.merges_iff, fun ns hns => ?_, fun i ns j => hx.follow?⟩
  obtain ⟨r, hf, hr⟩ := union_follows source h.bounded ht
  obtain ⟨i, hi⟩ := Option.isSome_iff_exists.mp hns
  exact Option.isSome_iff_exists.mpr <| hf.exists_follow? hx hr hi

-- The source `1` stands below itself and shares the node `5` with the target `2`.
def circles : Nest where
  nodes := [
    ⟨"", .ofList [("a", 1), ("b", 2)]⟩,
    ⟨"a", .ofList [("x", 3), ("y", 1), ("z", 5)]⟩,
    ⟨"a", .ofList [("x", 4), ("z", 5)]⟩,
    ⟨"x", .ofList [("b", 2), ("y", 1)]⟩,
    ⟨"x", ∅⟩,
    ⟨"z", .ofList [("x", 3)]⟩
  ]

theorem union_complete_circles : circles.Closed ∧ (circles.follow? 2 ["x", "y", "y"]).isNone ∧
    circles.Merges 1 2 (circles.union 1 2) ∧
    ((circles.union 1 2).follow? 2 ["x", "y", "y"]).isSome ∧
    (circles.union 1 2).follow? 5 ["x", "b", "x"] = some 4 := by
  have hc : circles.Closed := by decide +kernel
  obtain ⟨hm, hs, hk⟩ := union_complete circles 1 2 hc (by decide)
  exact ⟨hc, by decide +kernel, (hm _).mpr rfl, hs _ (by decide +kernel),
    hk 5 ["x", "b", "x"] 4 (by decide +kernel)⟩

end Statechart.Nest
