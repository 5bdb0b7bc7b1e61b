import Mathlib.Data.List.Nodup
import Mathlib.Logic.Relation
import Statechart.Graph.Walk

open Relation

namespace Statechart.FiniteGraph

inductive Line {α : Type u} (g : FiniteGraph α) : α → List α → Prop
  | last : g.next a = [] → Line g a [a]
  | cons : g.next a = [b] → Line g b as → a ∉ as → Line g a (a :: as)

variable {α : Type u} {g : FiniteGraph α} {a b c : α}

theorem Reaches.reflTransGen (h : g.Reaches a b) : ReflTransGen (fun a b => b ∈ g.next a) a b := by
  induction h
  case refl         => exact .refl
  case step hn _ hi => exact .head hn hi

theorem Reaches.of_reflTransGen (h : ReflTransGen (fun a b => b ∈ g.next a) a b) :
    g.Reaches a b := by
  induction h using ReflTransGen.head_induction_on
  case refl         => exact .refl
  case head hn _ hi => exact .step hn hi

theorem reaches_reversed_iff : g.reversed.Reaches a b ↔ g.Reaches a b := by
  constructor
  all_goals
    intro h
    induction h
    case refl         => exact .refl
    case step hn _ hi => exact .step (by simpa [reversed] using hn) hi

variable [DecidableEq α]

section Preorder

theorem preorder.go_of_mem_visited {agenda visited : List α} (h : a ∈ visited) :
    a ∈ preorder.go g agenda visited := by
  fun_induction preorder.go g agenda visited
  case case1          => exact h
  case case2 hi       => exact hi h
  case case3 visited a' _ _ hi => exact hi <| List.mem_cons_of_mem a' h

theorem preorder.go_of_mem_agenda {agenda visited : List α} (h : a ∈ agenda) :
    a ∈ preorder.go g agenda visited := by
  fun_induction preorder.go g agenda visited
  case case1 => simp at h
  case case2 visited b rest hv hi =>
    cases List.mem_cons.mp h
    case inl h => exact go_of_mem_visited (h ▸ hv)
    case inr h => exact hi h
  case case3 visited b rest _ hi =>
    cases List.mem_cons.mp h
    case inl h => exact go_of_mem_visited (h ▸ List.mem_cons_self)
    case inr h => exact hi <| List.mem_append_right _ h

theorem preorder.go_sound {agenda visited : List α} (h : a ∈ preorder.go g agenda visited) :
    a ∈ visited ∨ ∃ b ∈ agenda, g.Reaches b a := by
  fun_induction preorder.go g agenda visited
  case case1 => exact .inl h
  case case2 hi =>
    cases hi h
    case inl h => exact .inl h
    case inr h =>
      have ⟨b, hb, hr⟩ := h
      exact .inr ⟨b, List.mem_cons_of_mem _ hb, hr⟩
  case case3 visited c rest _ hi =>
    cases hi h
    case inl h =>
      cases List.mem_cons.mp h
      case inl h => exact .inr ⟨c, List.mem_cons_self, h ▸ .refl⟩
      case inr h => exact .inl h
    case inr h =>
      have ⟨b, hb, hr⟩ := h
      cases List.mem_append.mp hb
      case inl hb => exact .inr ⟨c, List.mem_cons_self, .step hb hr⟩
      case inr hb => exact .inr ⟨b, List.mem_cons_of_mem _ hb, hr⟩

-- The walk keeps the successors of what it has visited on its agenda, so that in the end all of
-- them have been visited as well.
theorem preorder.go_closed {agenda visited : List α}
    (hc : ∀ a ∈ visited, ∀ b ∈ g.next a, b ∈ visited ∨ b ∈ agenda)
    (ha : a ∈ preorder.go g agenda visited) (hb : b ∈ g.next a) :
    b ∈ preorder.go g agenda visited := by
  fun_induction preorder.go g agenda visited
  case case1 visited => exact (hc a ha b hb).resolve_right List.not_mem_nil
  case case2 visited c rest hv hi =>
    refine hi (fun a ha b hb => ?_) ha
    cases hc a ha b hb
    case inl h => exact .inl h
    case inr h =>
      cases List.mem_cons.mp h
      case inl h => exact .inl (h ▸ hv)
      case inr h => exact .inr h
  case case3 visited c rest _ hi =>
    refine hi (fun a ha b hb => ?_) ha
    cases List.mem_cons.mp ha
    case inl ha => exact .inr <| List.mem_append_left _ (ha ▸ hb)
    case inr ha =>
      cases hc a ha b hb
      case inl h => exact .inl <| List.mem_cons_of_mem _ h
      case inr h =>
        cases List.mem_cons.mp h
        case inl h => exact .inl (h ▸ List.mem_cons_self)
        case inr h => exact .inr <| List.mem_append_right _ h

theorem mem_preorder {starts : List α} : a ∈ g.preorder starts ↔ ∃ b ∈ starts, g.Reaches b a := by
  simp only [preorder, List.mem_reverse]
  constructor
  case mp =>
    intro h
    exact (preorder.go_sound h).resolve_left List.not_mem_nil
  case mpr =>
    intro ⟨b, hb, hr⟩
    have hm : b ∈ preorder.go g starts [] := preorder.go_of_mem_agenda hb
    clear hb
    induction hr
    case refl         => exact hm
    case step hn _ hi => exact hi <| preorder.go_closed (by simp) hm hn

end Preorder

section Postorder

theorem postorder.go_line {as rest visited done} (h : g.Line a as) (hv : ∀ b ∈ as, b ∉ visited) :
    postorder.go g (.enter a :: rest) visited done =
      postorder.go g rest (as.reverse ++ visited) (as ++ done) := by
  induction h generalizing rest visited done
  case last a hn =>
    have ha := hv a List.mem_cons_self
    rw [postorder.go, if_neg ha, hn]
    simp [Visit.enterAll, postorder.go]
  case cons a b as hn _ hm hi =>
    have ha := hv a List.mem_cons_self
    rw [postorder.go, if_neg ha, hn]
    simp only [Visit.enterAll, List.map_cons, List.map_nil, List.cons_append, List.nil_append]
    rw [hi ?fresh, postorder.go]
    case fresh =>
      intro c hc
      have hne : c ≠ a := fun h => hm (h ▸ hc)
      simp [hne, hv c (List.mem_cons_of_mem _ hc)]
    simp

theorem postorder_eq_reverse {as : List α} (h : g.Line a as) : g.postorder a = as.reverse := by
  rw [postorder, postorder.go_line h (by simp), postorder.go]
  simp

end Postorder

end Statechart.FiniteGraph
