import Mathlib.Data.List.Forall2
import Statechart.Proofs.Boundary
import Statechart.Proofs.OneSuper

namespace Statechart

-- A transition is the same but for actions that have been put in front of its own. There are none
-- unless one of its ends is special.
structure Transition.Keeps (special : Name → Prop) (source : Name) (t t' : Transition) : Prop where
  event   : t'.event = t.event
  next    : t'.next = t.next
  actions : t.actions <:+ t'.actions
  changed : t'.actions ≠ t.actions → special source ∨ special t.next

structure State.Keeps (special : Name → Prop) (z : Name) (s s' : State) : Prop where
  isAbstract  : s'.isAbstract = s.isAbstract
  entry       : s'.entry = s.entry
  exit        : s'.exit = s.exit
  transitions : ∃ kept gained, s'.transitions = kept ++ gained ∧
    List.Forall₂ (Transition.Keeps special z) s.transitions kept ∧ (gained ≠ [] → special z)

namespace Machine

open Nest

variable {m : Machine} {n z : Name} {as : List Name} {s s' : State} {w : Warning}
  {ancestors : NameMap (List Name)}

section Inherit

theorem transitionsOf_of_state? (hs : m.state? z = some s) : m.transitionsOf z = s.transitions := by
  rw [transitionsOf, hs]
  rfl

theorem transitionsOf_of_not_mem (hz : z ∉ m.states) : m.transitionsOf z = [] := by
  rw [transitionsOf, state?, NameMap.get?_eq_none_iff.mpr hz]
  rfl

theorem transitionsOf_inherit_of_ne (hz : z ≠ n) :
    (m.inherit n as).transitionsOf z = m.transitionsOf z := by
  rw [transitionsOf, state?_inherit, if_neg hz]
  rfl

theorem transitionsOf_inherit_self (hz : z ∈ m.states) :
    (m.inherit z as).transitionsOf z = m.transitionsOf z ++ m.inherited as := by
  obtain ⟨s, hs⟩ := mem_states_iff.mp hz
  rw [transitionsOf, state?_inherit, if_pos rfl, transitionsOf_of_state? hs, hs]
  rfl

theorem isPrefix_inherit : m.transitionsOf z <+: (m.inherit n as).transitionsOf z := by
  by_cases hz : z ∈ m.states
  case neg =>
    rw [transitionsOf_of_not_mem hz]
    exact List.nil_prefix
  case pos =>
    by_cases hn : z = n
    case neg => exact transitionsOf_inherit_of_ne hn ▸ List.prefix_rfl
    case pos =>
      subst hn
      rw [transitionsOf_inherit_self hz]
      exact List.prefix_append ..

theorem isPrefix_inheritAll :
    m.transitionsOf z <+: (m.inheritAll ancestors).transitionsOf z := by
  unfold inheritAll
  induction ancestors.entries generalizing m
  case nil          => exact List.prefix_rfl
  case cons e es hi => exact isPrefix_inherit.trans hi

end Inherit

section Remarks

theorem intersection_mem_remarks_iff :
    .intersection z ∈ m.remarks ↔ z ∈ (Nest.merged m).intersections := by
  rw [← List.count_pos_iff, count_remarks]
  split <;> simp_all

theorem kind_of_mem_remarks (h : w ∈ m.remarks) :
    w.kind = .implicitSuper ∨ w.kind = .redundantSuper ∨ w.kind = .intersection := by
  cases List.mem_append.mp h
  case inl h => exact (kind_of_mem_warnings h).imp_right .inl
  case inr h =>
    obtain ⟨n, _, rfl⟩ := List.mem_map.mp h
    exact .inr <| .inr rfl

end Remarks

theorem keys_resolve_perm : m.resolve.states.keys.Perm m.states.keys :=
  (List.perm_ext_iff_of_nodup (NameMap.keys_nodup _) (NameMap.keys_nodup _)).mpr fun _ =>
    resolve_derives.mem_states

theorem keeps_prepend_border (t : Transition) :
    t.Keeps (.intersection · ∈ m.remarks) z (t.prepend (m.border z t.next)) where
  event   := rfl
  next    := rfl
  actions := List.suffix_append ..
  changed h := by
    simp only [intersection_mem_remarks_iff]
    by_contra hn
    obtain ⟨hz, ht⟩ := not_or.mp hn
    exact h <| congrArg (· ++ t.actions) <| border_of_not_mem hz ht

theorem keeps_resolve (hs : m.state? z = some s) (hs' : m.resolve.state? z = some s') :
    s.Keeps (.intersection · ∈ m.remarks) z s' := by
  have ho := resolve_derives.outline (m := m) z
  rw [hs, hs', Option.map_some, Option.map_some, Option.some_inj, State.outline, State.outline,
    Prod.mk.injEq, Prod.mk.injEq] at ho
  obtain ⟨ha, hentry, hexit⟩ := ho
  refine ⟨ha, hentry, hexit, ?_⟩
  obtain ⟨gained, hg⟩ : m.transitionsOf z <+: (m.inheritAll m.lost).transitionsOf z :=
    isPrefix_inheritAll
  refine ⟨s.transitions.map fun t => t.prepend (m.border z t.next),
    gained.map fun t => t.prepend (m.border z t.next), ?_, ?_, fun hne => ?_⟩
  · rw [← transitionsOf_of_state? hs', transitionsOf_resolve, ← hg, transitionsOf_of_state? hs,
      List.map_append]
  · rw [List.forall₂_map_right_iff, List.forall₂_same]
    exact fun t _ => keeps_prepend_border t
  · rw [intersection_mem_remarks_iff]
    by_contra hz
    rw [transitionsOf_inheritAll_of_not_mem hz] at hg
    rw [List.append_right_eq_self.mp hg] at hne
    exact hne rfl

-- Whatever inherits from whatever else, circles and superstates that are no states included.
theorem resolve_frames (m : Machine) :
    { m.resolve with states := m.states, warnings := m.warnings } = m ∧
    m.resolve.states.keys.Perm m.states.keys ∧
    ∃ new, m.resolve.warnings = m.warnings ++ new ∧
      (∀ w ∈ new, w.kind = .implicitSuper ∨ w.kind = .redundantSuper ∨ w.kind = .intersection) ∧
      ∀ z s, m.state? z = some s →
        ∃ s', m.resolve.state? z = some s' ∧ s.Keeps (.intersection · ∈ new) z s' := by
  refine ⟨?rest, keys_resolve_perm, m.remarks, warnings_resolve, fun w => kind_of_mem_remarks,
    fun z s hs => ?states⟩
  case rest =>
    exact apply_resolve (f := fun m' => { m' with states := m.states, warnings := m.warnings })
      (fun _ _ => rfl) fun _ _ => rfl
  case states =>
    obtain ⟨s', hs'⟩ := mem_states_iff.mp <| resolve_derives.mem_states.mpr <|
      mem_states_iff.mpr ⟨s, hs⟩
    exact ⟨s', hs', keeps_resolve hs hs'⟩

def crossedSupers : Machine where
  states := .ofList [
    ("a", { exit := ["leave"], transitions := [⟨"e", "y", ["act"]⟩] }),
    ("b", { entry := ["arrive"], transitions := [⟨"f", "b", []⟩] }),
    ("x", { supers := .ofList ["a", "b"], transitions := [⟨"h", "p", ["own"]⟩] }),
    ("y", { supers := .ofList ["a"], transitions := [⟨"g", "x", ["go"]⟩] }),
    ("z", { supers := .ofList ["b"] }),
    ("p", { supers := .ofList ["gone", "q"] }),
    ("q", { supers := .ofList ["p", "q"] })
  ]

theorem resolve_frames_crossedSupers :
    .intersection "x" ∈ crossedSupers.resolve.warnings ∧
    .intersection "y" ∉ crossedSupers.resolve.warnings ∧
    crossedSupers.resolve.transitionsOf "y" = [⟨"g", "x", ["arrive", "go"]⟩] ∧
    ∃ s s', crossedSupers.state? "y" = some s ∧ crossedSupers.resolve.state? "y" = some s' ∧
      s.Keeps (.intersection · ∈ crossedSupers.resolve.warnings) "y" s' := by
  obtain ⟨hx, hy⟩ : .intersection "x" ∈ crossedSupers.resolve.warnings ∧
    .intersection "y" ∉ crossedSupers.resolve.warnings := by decide +kernel
  have hs : crossedSupers.state? "y" = some
      { supers := .ofList ["a"], transitions := [⟨"g", "x", ["go"]⟩] } := by decide +kernel
  obtain ⟨_, _, new, hw, _, hstates⟩ := resolve_frames crossedSupers
  have hw : crossedSupers.resolve.warnings = new := hw
  obtain ⟨s', hs', hk⟩ := hstates "y" _ hs
  exact ⟨hx, hy, by decide +kernel, _, s', hs, hs', hw ▸ hk⟩

end Machine

end Statechart
