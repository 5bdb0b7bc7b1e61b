import Statechart.Proofs.Nest.Tiers
import Statechart.Proofs.OneSuper
import Statechart.Proofs.Selection

open Relation

namespace Statechart

def Transition.edge (t : Transition) : Option Name × Name := (t.event, t.next)

namespace Machine

open Nest

variable {m : Machine} {x : Name} {as : List Name}

theorem Lineage.exists_cons (l : m.Lineage x as) : ∃ ps, as = x :: ps := by
  cases l.line
  case last => exact ⟨[], rfl⟩
  case cons => exact ⟨_, rfl⟩

theorem Lineage.nodup (l : m.Lineage x as) (h : m.Ordered) : as.Nodup := by
  refine l.up.imp ?_
  intro a b hab he
  exact h.not_above_self (he ▸ hab)

namespace TwoLevel

variable (h : m.TwoLevel) (hx : m.supers x ≠ [])
include h

theorem ordered : m.Ordered where
  defined ha := (h _ _ ha).1
  acyclic    := h.acyclic

theorem clear : (merged m).Clear x :=
  h.tiered.clear h.ordered.merged.sound

include hx

theorem perm_supers {ps : List Name} (hn : ps.Nodup)
    (hm : ∀ a, a ∈ ps ↔ TransGen (merged m).Above a x) : ps.Perm (m.supers x) :=
  (List.perm_ext_iff_of_nodup hn nodup_supers).mpr fun a => (hm a).trans (h.transGen_above_iff hx)

theorem exists_line (hi : x ∉ (merged m).intersections) :
    ∃ ps : List Name, m.resolve.inheritance.Line x (x :: ps) ∧ ps.Perm (m.supers x) := by
  obtain ⟨as, l⟩ := exists_lineage h.ordered (mem_states_of_supers_ne_nil hx) h.clear hi
  obtain ⟨ps, rfl⟩ := l.exists_cons
  obtain ⟨hxp, hn⟩ := List.nodup_cons.mp <| l.nodup h.ordered
  refine ⟨ps, l.line, h.perm_supers hx hn fun a => ?_⟩
  have hm := l.mem (a := a)
  rw [List.mem_cons, reflTransGen_iff_eq_or_transGen] at hm
  constructor
  case mp =>
    intro ha
    exact (hm.mp <| .inr ha).resolve_left fun he => hxp (he ▸ ha)
  case mpr =>
    intro ha
    refine (hm.mpr <| .inr ha).resolve_left fun he => ?_
    exact h.ordered.not_above_self (he ▸ ha)

theorem exists_blocks (hi : x ∈ (merged m).intersections) :
    ∃ ps : List Name, ps.Perm (m.supers x) ∧ (m.resolve.transitionsOf x).map (·.edge) =
      (m.transitionsOf x ++ ps.flatMap m.transitionsOf).map (·.edge) := by
  refine ⟨((merged m).ancestors ((merged m).pathsTo x)).reverse, ?perm, ?transitions⟩
  case perm =>
    refine h.perm_supers hx (List.nodup_reverse.mpr <| nodup_distinct _) fun a => ?_
    rw [List.mem_reverse, h.ordered.merged.mem_ancestors_iff h.clear hi]
  case transitions =>
    rw [transitionsOf_resolve, List.map_map,
      transitionsOf_inheritAll h.ordered (mem_states_of_supers_ne_nil hx) h.clear hi,
      List.flatMap_cons]
    rfl

end TwoLevel

-- If no superstate has a superstate, nothing is lost and nothing is gained: either the superstates
-- of a state end up on one line above it, or it is reported and gets all their transitions.
theorem inherits_exactly (m : Machine) (h : m.TwoLevel) (x : Name) (hx : m.supers x ≠ []) :
    ∃ new, m.resolve.warnings = m.warnings ++ new ∧
      ((.intersection x ∉ new ∧ (∃ a, m.resolve.supers x = [a]) ∧
        ∃ ps : List Name, m.resolve.inheritance.Line x (x :: ps) ∧ ps.Perm (m.supers x)) ∨
      (new.count (.intersection x) = 1 ∧ 2 ≤ (m.supers x).length ∧ m.resolve.supers x = [] ∧
        ∃ ps : List Name, ps.Perm (m.supers x) ∧ (m.resolve.transitionsOf x).map (·.edge) =
          (m.transitionsOf x ++ ps.flatMap m.transitionsOf).map (·.edge))) := by
  refine ⟨m.remarks, warnings_resolve, ?_⟩
  have hz := mem_states_of_supers_ne_nil hx
  by_cases hi : x ∈ (merged m).intersections
  case neg =>
    have hc : m.remarks.count (.intersection x) = 0 := by rw [count_remarks, if_neg hi]
    obtain ⟨a, ha⟩ := List.exists_mem_of_ne_nil _ hx
    obtain ⟨b, _, hb⟩ := TransGen.tail'_iff.mp <| h.transGen_above_iff hx |>.mpr ha
    exact .inl ⟨List.count_eq_zero.mp hc, exists_supers_resolve h.ordered.merged hz hi hb,
      h.exists_line hx hi⟩
  case pos =>
    have hc : m.remarks.count (.intersection x) = 1 := by rw [count_remarks, if_pos hi]
    exact .inr ⟨hc, h.two_le_length_supers hx hi,
      supers_resolve_of_mem h.ordered.merged hz h.clear.not_divided hi, h.exists_blocks hx hi⟩

def isTwoLevel (m : Machine) : Bool :=
  m.states.keys.all fun x => (m.supers x).all fun a => a ∈ m.states && (m.supers a).isEmpty

theorem isTwoLevel_iff : m.isTwoLevel ↔ m.TwoLevel := by
  simp only [isTwoLevel, List.all_eq_true, Bool.and_eq_true, decide_eq_true_eq, List.isEmpty_iff]
  constructor
  case mp =>
    intro h x a ha
    exact h x (mem_states_of_supers_ne_nil <| List.ne_nil_of_mem ha) a ha
  case mpr => exact fun h x _ a ha => h x a ha

def twoLevels : Machine where
  states := .ofList [
    ("a", { transitions := [⟨"e", "x", ["p"]⟩] }),
    ("b", { exit := ["out"], transitions := [⟨"e", "y", []⟩, ⟨"f", "b", []⟩] }),
    ("c", { entry := ["in"], transitions := [⟨"g", "q", []⟩] }),
    ("d", {}),
    ("q", { supers := .ofList ["c", "d"] }),
    ("r", { supers := .ofList ["c"] }),
    ("x", { supers := .ofList ["a", "b"], transitions := [⟨"h", "q", []⟩] }),
    ("y", { supers := .ofList ["a"] }),
    ("z", { supers := .ofList ["b"] })
  ]

theorem inherits_exactly_twoLevels : twoLevels.TwoLevel ∧
    twoLevels.supers "q" ≠ [] ∧ twoLevels.supers "x" ≠ [] ∧
    (∃ ps : List Name, twoLevels.resolve.inheritance.Line "q" ("q" :: ps) ∧
      ps.Perm (twoLevels.supers "q")) ∧
    ∃ ps : List Name, ps.Perm (twoLevels.supers "x") ∧
      (twoLevels.resolve.transitionsOf "x").map (·.edge) =
        (twoLevels.transitionsOf "x" ++ ps.flatMap twoLevels.transitionsOf).map (·.edge) := by
  have h := isTwoLevel_iff (m := twoLevels) |>.mp (by decide +kernel)
  have hq : twoLevels.supers "q" ≠ [] := by decide +kernel
  have hx : twoLevels.supers "x" ≠ [] := by decide +kernel
  refine ⟨h, hq, hx, ?line, ?blocks⟩
  case line =>
    obtain ⟨new, hw, hline | hblocks⟩ := inherits_exactly twoLevels h "q" hq
    case inl => exact hline.2.2
    case inr =>
      have hc : twoLevels.resolve.warnings.count (.intersection "q") = 0 := by decide +kernel
      have hw : twoLevels.resolve.warnings = new := hw
      rw [hw, hblocks.1] at hc
      cases hc
  case blocks =>
    obtain ⟨new, hw, hline | hblocks⟩ := inherits_exactly twoLevels h "x" hx
    case inr => exact hblocks.2.2.2
    case inl =>
      have hm : .intersection "x" ∈ twoLevels.resolve.warnings := by decide +kernel
      have hw : twoLevels.resolve.warnings = new := hw
      exact absurd (hw ▸ hm) hline.1

end Machine

end Statechart
