import Statechart.Proofs.Nest.Lift

open Relation

namespace Statechart.Nest

variable {t : Nest} {n a : Name}

def uphill (t : Nest) : FiniteGraph Name where
  vertices := t.assignments.map Prod.fst
  next n := (t.assignments.filter (·.1 = n)).map Prod.snd
  next_eq_nil n h := by
    simp only [List.map_eq_nil_iff, List.filter_eq_nil_iff, decide_eq_true_eq]
    intro e he hn
    exact h <| hn ▸ List.mem_map_of_mem he

theorem mem_next_uphill : a ∈ t.uphill.next n ↔ t.Above a n := by
  simp only [uphill, List.mem_map, List.mem_filter, decide_eq_true_eq, ← mem_assignments_iff,
    Prod.exists, exists_eq_right]

theorem mem_preorder_uphill : a ∈ t.uphill.preorder [n] ↔ ReflTransGen t.Above a n := by
  simp only [FiniteGraph.mem_preorder, List.mem_singleton, exists_eq_left]
  constructor
  case mp =>
    intro h
    refine reflTransGen_swap.mp ?_
    exact ReflTransGen.mono (fun _ _ => mem_next_uphill.mp) _ _ h.reflTransGen
  case mpr =>
    intro h
    refine .of_reflTransGen ?_
    exact ReflTransGen.mono (fun _ _ => mem_next_uphill.mpr) _ _ <| reflTransGen_swap.mpr h

def isDivided (t : Nest) (n : Name) : Bool :=
  t.assignmentOrder.any fun i => (t.children i).entries.any fun e =>
    e.1 = n && !(t.children e.2).isEmpty &&
      t.assignmentOrder.any fun k => n ∈ t.childNames k && i ≠ k

def isClear (t : Nest) (n : Name) : Bool :=
  (t.uphill.preorder [n]).all (!t.isDivided ·)

def isClearBelow (t : Nest) (n : Name) : Bool :=
  t.uphill.vertices.all fun a => n ∉ t.uphill.preorder [a] || !t.isDivided a

theorem isDivided_iff : t.isDivided n ↔ t.Divided n := by
  simp only [isDivided, Divided, List.any_eq_true, Bool.and_eq_true, decide_eq_true_eq,
    Bool.not_eq_true', ← Bool.not_eq_true, mem_assignmentOrder_iff, isEmpty_children_iff_leaf,
    mem_childNames_iff, hasChild_iff_mem, Prod.exists]
  constructor
  case mp =>
    intro ⟨i, hi, x, j, hj, ⟨hx, hl⟩, k, hk, ⟨l, hl'⟩, hne⟩
    exact ⟨i, j, k, l, hi, hx ▸ hj, hl, hk, hl', hne⟩
  case mpr =>
    intro ⟨i, j, k, l, hi, hj, hl, hk, hl', hne⟩
    exact ⟨i, hi, n, j, hj, ⟨rfl, hl⟩, k, hk, ⟨l, hl'⟩, hne⟩

theorem isClear_iff : t.isClear n ↔ t.Clear n := by
  simp only [isClear, Clear, List.all_eq_true, mem_preorder_uphill, ← isDivided_iff,
    Bool.not_eq_true', Bool.not_eq_true]

theorem not_divided_of_isClearBelow (h : t.isClearBelow n) (ha : TransGen t.Above n a) :
    ¬t.Divided a := by
  simp only [isClearBelow, List.all_eq_true, Bool.or_eq_true, decide_eq_true_eq,
    mem_preorder_uphill, Bool.not_eq_true', ← Bool.not_eq_true, isDivided_iff] at h
  obtain ⟨b, _, hb⟩ := TransGen.tail'_iff.mp ha
  have hv : a ∈ t.uphill.vertices :=
    List.mem_map.mpr ⟨(a, b), mem_assignments_iff.mpr hb, rfl⟩
  exact (h a hv).resolve_left fun hn => hn ha.to_reflTransGen

end Statechart.Nest
