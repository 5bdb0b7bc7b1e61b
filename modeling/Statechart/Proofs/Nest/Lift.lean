import Statechart.Nest.Resolve
import Statechart.Proofs.Nest.Descent

open Relation

namespace Statechart.Nest

-- Leaves have been taken away from the ends of some paths. For each of them there is a new one below
-- the root.
structure Lifted (t : Nest) (es : List (Name × List (List NodeId))) (u : Nest) : Prop where
  size  : t.size ≤ u.size
  name  : i < t.size → u.name i = t.name i
  inner : i ≠ root → (u.HasChild i n j ↔ t.HasChild i n j ∧
    ∀ e ∈ es, e.1 = n → ∀ path ∈ e.2, path.getLast? ≠ some i)
  new   : n ∈ es.map Prod.fst → ∃ j, t.size ≤ j ∧ u.HasChild root n j
  old   : n ∉ es.map Prod.fst → (u.HasChild root n j ↔ t.HasChild root n j)

variable {m : Machine} {names : List Name} {t u : Nest} {i j k l : NodeId} {n p a b : Name}
  {paths : List (List NodeId)} {es : List (Name × List (List NodeId))}

section EraseFrom

variable {is : List NodeId}

theorem size_foldl_eraseFrom : (is.foldl (·.eraseChild · n) t).size = t.size := by
  induction is generalizing t
  case nil          => rfl
  case cons i is hi => rw [List.foldl_cons, hi, size_eraseChild]

theorem name_foldl_eraseFrom : (is.foldl (·.eraseChild · n) t).name i = t.name i := by
  induction is generalizing t
  case nil          => rfl
  case cons i is hi => rw [List.foldl_cons, hi, name_eraseChild]

theorem hasChild_foldl_eraseFrom :
    (is.foldl (·.eraseChild · n) t).HasChild i p j ↔ ¬(i ∈ is ∧ p = n) ∧ t.HasChild i p j := by
  induction is generalizing t
  case nil => simp
  case cons k is hi =>
    rw [List.foldl_cons, hi, hasChild_eraseChild, List.mem_cons]
    grind

end EraseFrom

theorem size_lift : (t.lift n paths).size = t.size + 1 := by
  rw [lift, size_insertChild, size_add, size_foldl_eraseFrom]

theorem name_lift_of_lt (hi : i < t.size) : (t.lift n paths).name i = t.name i := by
  rw [lift, name_insertChild, name_add_of_lt (size_foldl_eraseFrom.symm ▸ hi), name_foldl_eraseFrom]

theorem name_lift_self : (t.lift n paths).name t.size = n := by
  rw [lift, name_insertChild]
  have hs : ((paths.filterMap (·.getLast?)).foldl (·.eraseChild · n) t).size = t.size :=
    size_foldl_eraseFrom
  exact hs ▸ name_add_self _

theorem hasChild_lift : (t.lift n paths).HasChild i p j ↔
    if i = root ∧ p = n then j = t.size
    else ¬((∃ path ∈ paths, path.getLast? = some i) ∧ p = n) ∧ t.HasChild i p j := by
  have hr : root < (((paths.filterMap (·.getLast?)).foldl (·.eraseChild · n) t).add ⟨n, ∅⟩).1.size := by
    rw [size_add, size_foldl_eraseFrom]
    exact Nat.succ_pos _
  rw [lift, hasChild_insertChild hr, hasChild_add_leaf, hasChild_foldl_eraseFrom, snd_add,
    size_foldl_eraseFrom, List.mem_filterMap]

theorem Sound.lift (s : t.Sound) : (t.lift n paths).Sound where
  rooted := size_lift ▸ Nat.succ_pos _
  bounded hc := by
    rw [hasChild_lift] at hc
    rw [size_lift]
    split at hc
    case isTrue  => exact hc ▸ Nat.lt_succ_self _
    case isFalse => exact Nat.lt_succ_of_lt <| s.bounded hc.2
  named hc := by
    rw [hasChild_lift] at hc
    split at hc
    case isTrue he => rw [hc, name_lift_self, he.2]
    case isFalse   => rw [name_lift_of_lt (s.bounded hc.2), s.named hc.2]
  rootless hc := by
    rw [hasChild_lift] at hc
    split at hc
    case isTrue  => exact hc ▸ Nat.ne_of_gt s.rooted
    case isFalse => exact s.rootless hc.2

theorem Sound.liftAll {is : NameMap (List (List NodeId))} (s : t.Sound) : (t.liftAll is).Sound := by
  unfold Nest.liftAll
  induction is.entries generalizing t
  case nil          => exact s
  case cons e es hi => exact hi s.lift

namespace Lifted

theorem lift (h : t.Lifted es u) :
    t.Lifted (es ++ [(n, paths)]) (u.lift n paths) := by
  refine { size := ?size, name := ?names, inner := ?inner, new := ?new, old := ?old }
  case size => exact size_lift ▸ Nat.le_succ_of_le h.size
  case names =>
    intro i hi
    rw [name_lift_of_lt (Nat.lt_of_lt_of_le hi h.size), h.name hi]
  case inner =>
    intro i p j hi
    rw [hasChild_lift, if_neg fun he => hi he.1, h.inner hi]
    constructor
    case mp =>
      intro ⟨hl, hc, he⟩
      refine ⟨hc, fun e hm hn path hp hi => ?_⟩
      cases List.mem_append.mp hm
      case inl hm => exact he e hm hn path hp hi
      case inr hm =>
        cases List.mem_singleton.mp hm
        exact hl ⟨⟨path, hp, hi⟩, hn.symm⟩
    case mpr =>
      intro ⟨hc, he⟩
      refine ⟨fun ⟨⟨path, hp, hi⟩, hn⟩ => ?_, hc, fun e hm => he e <| List.mem_append_left _ hm⟩
      exact he (n, paths) (List.mem_append_right _ (List.mem_singleton_self _)) hn.symm path hp hi
  case new =>
    intro p hp
    by_cases hn : p = n
    case pos => exact ⟨u.size, h.size, by simp [hasChild_lift, hn]⟩
    case neg =>
      have hp : p ∈ es.map Prod.fst := by simpa [hn] using hp
      have ⟨j, hj, hc⟩ := h.new hp
      exact ⟨j, hj, by simpa [hasChild_lift, hn] using hc⟩
  case old =>
    intro p j hp
    simp only [List.map_append, List.map_cons, List.map_nil, List.mem_append, List.mem_singleton,
      not_or] at hp
    simpa [hasChild_lift, hp.2] using h.old hp.1

theorem foldl {es' : List (Name × List (List NodeId))} (h : t.Lifted es u) :
    t.Lifted (es ++ es') (es'.foldl (fun t e => t.lift e.1 e.2) u) := by
  induction es' generalizing es u
  case nil => simpa using h
  case cons e es' hi =>
    have hs : t.Lifted (es ++ [e]) (u.lift e.1 e.2) := h.lift
    rw [← List.singleton_append, ← List.append_assoc]
    exact hi hs

end Lifted

theorem liftAll_lifted {is : NameMap (List (List NodeId))} :
    t.Lifted is.entries (t.liftAll is) := by
  have h : t.Lifted [] t := ⟨Nat.le_refl _, fun _ => rfl, fun _ => by simp, nofun, fun _ => .rfl⟩
  exact h.foldl

theorem mem_assignmentOrder_iff : i ∈ t.assignmentOrder ↔ t.Inner i := by
  simp only [assignmentOrder, FiniteGraph.mem_preorder, FiniteGraph.reaches_reversed_iff,
    reaches_graph_iff, List.mem_reverse]
  exact exists_congr fun k => and_congr_left' mem_next_graph

theorem mem_assignments_iff : (n, a) ∈ t.assignments ↔ t.Above a n := by
  simp only [assignments, List.mem_flatMap, List.mem_map, Prod.mk.injEq, mem_assignmentOrder_iff,
    above_iff, mem_childNames_iff]
  grind

namespace Merged

theorem hasChild_liftAll (h : Merged m names t) (hi : i ≠ root) :
    (t.liftAll t.intersections).HasChild i n j ↔
      t.HasChild i n j ∧ ¬(n ∈ t.intersections ∧ t.Inner i ∧ t.Leaf j) := by
  rw [liftAll_lifted.inner hi]
  refine and_congr_right fun hc => ?_
  constructor
  case mp =>
    intro he ⟨hn, hi, hl⟩
    have ⟨paths, hp⟩ := Option.isSome_iff_exists.mp <| NameMap.mem_iff_get?_isSome.mp hn
    have ⟨path, hd⟩ := hi.descends
    refine he (n, paths) (NameMap.get?_eq_some_iff.mp hp) rfl path ?_ hd.getLast?
    rw [(get?_intersections.mp hp).1, mem_pathsTo, mem_leafPaths_root h.sound h.acyclic]
    exact ⟨i, j, hd, hc, hl⟩
  case mpr =>
    intro hn e he hen path hp hlast
    have hget := NameMap.get?_eq_some_iff.mpr he
    rw [(get?_intersections.mp hget).1, mem_pathsTo, mem_leafPaths_root h.sound h.acyclic] at hp
    have ⟨k, l, hd, hc', hl⟩ := hp
    cases Option.some.inj <| hd.getLast?.symm.trans hlast
    cases (hen ▸ hc').unique hc
    refine hn ⟨?_, hd.inner, hl⟩
    exact hen ▸ NameMap.mem_iff_get?_isSome.mpr (hget ▸ rfl)

theorem child_of_liftAll (h : Merged m names t) (hi : t.Inner i ∨ t.size ≤ i)
    (hc : (t.liftAll t.intersections).HasChild i n j) :
    t.Inner i ∧ t.HasChild i n j ∧ ¬(n ∈ t.intersections ∧ t.Leaf j) := by
  have hr : i ≠ root := by
    cases hi
    case inl hi => exact hi.ne_root h.sound
    case inr hi => exact Nat.ne_of_gt <| Nat.lt_of_lt_of_le h.sound.rooted hi
  have ⟨hc, hl⟩ := h.hasChild_liftAll hr |>.mp hc
  have hi := hi.resolve_right (Nat.not_le_of_lt hc.lt_size)
  exact ⟨hi, hc, fun ⟨hn, hj⟩ => hl ⟨hn, hi, hj⟩⟩

theorem inner_of_liftAll (h : Merged m names t) (hi : (t.liftAll t.intersections).Inner i) :
    t.Inner i ∨ t.size ≤ i := by
  have ⟨path, hp⟩ := hi.descends
  clear hi
  induction hp
  case top n k hk =>
    by_cases hn : n ∈ t.intersections.entries.map Prod.fst
    case neg => exact .inl <| ((liftAll_lifted.old hn).mp hk).inner
    case pos =>
      have ⟨j, hj, hc⟩ := (liftAll_lifted (t := t)).new hn
      exact .inr <| hk.unique hc ▸ hj
  case step hc ih =>
    have ⟨hi, hc, _⟩ := h.child_of_liftAll ih hc
    exact .inl <| hi.child hc

-- Only leaves are lifted, so that all others are found where they were.
theorem inner_liftAll (h : Merged m names t) (hi : t.Inner i) (hl : ¬t.Leaf i) :
    (t.liftAll t.intersections).Inner i := by
  have ⟨path, hp⟩ := hi.descends
  clear hi
  induction hp
  case top n k hk =>
    have hn : n ∉ t.intersections := by
      intro hn
      have ⟨i, j, hi, hc, _⟩ := exists_leaf_of_mem_intersections h.sound h.acyclic hn
      exact h.top hk <| h.sound.holds_of_above (hi.above hc)
    exact ((liftAll_lifted.old hn).mpr hk).inner
  case step hp hc ih =>
    refine (ih hc.not_leaf).child <| h.hasChild_liftAll (hp.inner.ne_root h.sound) |>.mpr ⟨hc, ?_⟩
    exact fun hn => hl hn.2.2

theorem above_of_liftAll (h : Merged m names t) (ha : (t.liftAll t.intersections).Above a n) :
    t.Above a n := by
  have ⟨i, j, hi, ha, hc⟩ := above_iff.mp ha
  have ⟨hi, hc, _⟩ := h.child_of_liftAll (h.inner_of_liftAll hi) hc
  exact above_iff.mpr ⟨i, j, hi, (liftAll_lifted.name hc.lt_size).symm.trans ha, hc⟩

theorem above_liftAll (h : Merged m names t) (hn : n ∉ t.intersections) :
    (t.liftAll t.intersections).Above a n ↔ t.Above a n := by
  constructor
  case mp => exact h.above_of_liftAll
  case mpr =>
    intro ha
    have ⟨i, j, hi, ha, hc⟩ := above_iff.mp ha
    refine above_iff.mpr ⟨i, j, h.inner_liftAll hi hc.not_leaf, ?_, ?_⟩
    · exact (liftAll_lifted.name hc.lt_size).trans ha
    · exact h.hasChild_liftAll (hi.ne_root h.sound) |>.mpr ⟨hc, fun he => hn he.1⟩

theorem not_above_liftAll (h : Merged m names t) (hn : n ∈ t.intersections) (hd : ¬t.Divided n) :
    ¬(t.liftAll t.intersections).Above a n := by
  intro ha
  have ⟨i, j, hi, _, hc⟩ := above_iff.mp ha
  have ⟨hi, hc, hl⟩ := h.child_of_liftAll (h.inner_of_liftAll hi) hc
  exact hl ⟨hn, h.leaf_of_mem_intersections hd hn hi hc⟩

end Merged

end Statechart.Nest
