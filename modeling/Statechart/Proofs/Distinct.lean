import Mathlib.Data.List.Induction
import Statechart.Name.Basic

namespace Statechart

variable {α : Type _} [DecidableEq α] {as bs cs ds : List α}

theorem foldl_addNew_eq_append : bs.foldl addNew as = as ++ (distinct bs).filter (· ∉ as) := by
  induction bs using List.reverseRecOn
  case nil => simp [distinct]
  case append_singleton bs b hi =>
    have hm : b ∈ distinct bs ↔ b ∈ bs := mem_distinct
    rw [distinct, List.foldl_append, List.foldl_append, ← distinct, hi]
    simp only [List.foldl_cons, List.foldl_nil, addNew]
    grind

theorem distinct_append : distinct (as ++ bs) = distinct as ++ (distinct bs).filter (· ∉ as) := by
  rw [distinct, List.foldl_append, ← distinct, foldl_addNew_eq_append]
  simp only [mem_distinct]

theorem distinct_append_congr (h : distinct as = distinct bs) (h' : distinct cs = distinct ds) :
    distinct (as ++ cs) = distinct (bs ++ ds) := by
  have hm : ∀ a, a ∈ as ↔ a ∈ bs := fun a => by rw [← mem_distinct, h, mem_distinct]
  simp only [distinct_append, h, h', hm]

theorem distinct_append_of_subset (h : bs ⊆ as) : distinct (as ++ bs) = distinct as := by
  have hnil : (distinct bs).filter (· ∉ as) = [] := by
    refine List.filter_eq_nil_iff.mpr fun b hb => ?_
    simpa using h <| mem_distinct.mp hb
  rw [distinct_append, hnil, List.append_nil]

theorem distinct_append_repeat : distinct (as ++ bs ++ (as ++ cs)) = distinct (as ++ (bs ++ cs)) := by
  have h : distinct (as ++ bs ++ as) = distinct (as ++ bs) :=
    distinct_append_of_subset <| List.subset_append_left ..
  rw [← List.append_assoc, ← List.append_assoc]
  exact distinct_append_congr h rfl

theorem filter_distinct {p : α → Bool} : (distinct as).filter p = distinct (as.filter p) := by
  induction as using List.reverseRecOn
  case nil => rfl
  case append_singleton as a hi =>
    rw [List.filter_append, distinct_append, distinct_append, List.filter_append, hi]
    have hs : distinct [a] = [a] := rfl
    have hn : distinct ([] : List α) = [] := rfl
    by_cases ha : p a
    case pos => simp [hs, ha, List.filter_cons]
    case neg => simp [hs, hn, ha]

end Statechart
