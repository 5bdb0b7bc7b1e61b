import Statechart.Dispatch.OfMachine
import Statechart.Proofs.Resolve

open Relation

namespace Statechart.Machine

open Nest

structure Ordered (m : Machine) : Prop where
  defined : a ∈ m.supers b → a ∈ m.states
  acyclic : ∀ n, ¬TransGen (fun a b => a ∈ m.supers b) n n

-- A state with all that it stands below, from the state upwards. In the resolved machine each of
-- them inherits from the next.
structure Lineage (m : Machine) (z : Name) (as : List Name) : Prop where
  line : m.resolve.inheritance.Line z as
  mem  : a ∈ as ↔ ReflTransGen (merged m).Above a z
  up   : as.Pairwise fun x y => TransGen (merged m).Above y x

variable {m : Machine} {z a b : Name} {as : List Name}

theorem reaches_inheritance_iff :
    m.inheritance.Reaches a b ↔ ReflTransGen (fun a b => b ∈ m.supers a) a b :=
  ⟨fun h => h.reflTransGen, fun h => .of_reflTransGen h⟩

theorem mem_hierarchy_iff : a ∈ m.hierarchy z ↔ ReflTransGen (fun a b => b ∈ m.supers a) z a := by
  simp only [hierarchy, FiniteGraph.mem_preorder, List.mem_singleton, exists_eq_left,
    reaches_inheritance_iff]

namespace Ordered

theorem merged (h : m.Ordered) : Merged m (ofMachine.parents m) (merged m) :=
  merged_merged h.acyclic

theorem mem_parents (hz : z ∈ m.states) : z ∈ ofMachine.parents m :=
  mem_distinct.mpr <| List.mem_flatMap.mpr ⟨z, hz, List.mem_cons_self⟩

theorem mem_states_of_above (h : m.Ordered) (ha : (Nest.merged m).Above a b) : a ∈ m.states :=
  have ⟨_, hc⟩ := h.merged.holder <| h.merged.sound.holds_of_above ha
  h.defined hc

theorem mem_states_of_reflTransGen (h : m.Ordered) (hb : b ∈ m.states)
    (ha : ReflTransGen (Nest.merged m).Above a b) : a ∈ m.states := by
  cases ha.cases_head
  case inl he => exact he ▸ hb
  case inr hc => exact h.mem_states_of_above hc.choose_spec.1

theorem not_above_self (h : m.Ordered) : ¬TransGen (Nest.merged m).Above a a :=
  fun ha => h.merged.acyclic a <| TransGen.mono (fun _ _ => h.merged.sound.holds_of_above) _ _ ha

theorem not_mem_intersections (h : m.Ordered) (ha : (Nest.merged m).Above a b)
    (hd : ¬(Nest.merged m).Divided a) : a ∉ (Nest.merged m).intersections := by
  have ⟨i, _, hi, hn, hc⟩ := above_iff.mp ha
  subst hn
  exact h.merged.not_mem_intersections hi hc.not_leaf hd

theorem above_unique (h : m.Ordered) (hd : ¬(Nest.merged m).Divided z)
    (hi : z ∉ (Nest.merged m).intersections) (ha : (Nest.merged m).Above a z)
    (hb : (Nest.merged m).Above b z) : a = b := by
  have ⟨i, _, hi', ha, hc⟩ := above_iff.mp ha
  have ⟨k, _, hk, hb, hc'⟩ := above_iff.mp hb
  cases h.merged.unique_place hd hi hi' hc hk hc'
  exact ha.symm.trans hb

end Ordered

section Lineage

variable (h : m.Ordered) (hz : z ∈ m.states)
include h hz

theorem lineage_of_top (ha : ∀ b, ¬(merged m).Above b z) : m.Lineage z [z] where
  line := .last <| supers_resolve_of_top h.merged hz (Ordered.mem_parents hz) ha
  mem {a} := by
    rw [List.mem_singleton]
    constructor
    case mp => intro he; exact he ▸ .refl
    case mpr =>
      intro hr
      cases hr.cases_tail
      case inl he => exact he.symm
      case inr hb => exact absurd hb.choose_spec.2 (ha _)
  up := List.pairwise_singleton ..

theorem Lineage.cons (l : m.Lineage a as) (hd : ¬(merged m).Divided z)
    (hi : z ∉ (merged m).intersections) (ha : (merged m).Above a z) : m.Lineage z (z :: as) where
  line := by
    refine .cons (supers_resolve_of_above h.merged hz hd hi ha) l.line fun hm => ?_
    exact h.not_above_self <| .tail' (l.mem.mp hm) ha
  mem {x} := by
    rw [List.mem_cons, l.mem]
    constructor
    case mp =>
      intro hx
      cases hx
      case inl hx => exact hx ▸ .refl
      case inr hx => exact hx.tail ha
    case mpr =>
      intro hx
      cases hx.cases_tail
      case inl hx => exact .inl hx.symm
      case inr hx =>
        have ⟨b, hx, hb⟩ := hx
        exact .inr <| h.above_unique hd hi ha hb ▸ hx
  up := List.pairwise_cons.mpr ⟨fun _ hx => .tail' (l.mem.mp hx) ha, l.up⟩

end Lineage

theorem exists_lineage_of_descends {path : List NodeId} {i : NodeId} (h : m.Ordered)
    (hp : (merged m).Descends path i) (hl : ¬(merged m).Leaf i)
    (hc : (merged m).Clear ((merged m).name i)) : ∃ as, m.Lineage ((merged m).name i) as := by
  have hs : ∀ {i}, (merged m).Inner i → ¬(merged m).Leaf i → (merged m).name i ∈ m.states := by
    intro i hi hl
    have ⟨_, _, hl⟩ := exists_child_of_not_leaf hl
    exact h.mem_states_of_above <| hi.above hl
  induction hp
  case top n k hk =>
    refine ⟨_, lineage_of_top h (hs hk.inner hl) fun b hb => ?_⟩
    rw [h.merged.sound.named hk] at hb
    exact h.merged.top hk <| h.merged.sound.holds_of_above hb
  case step path i n j hp hj hi =>
    have ha := hp.inner.above hj
    rw [← h.merged.sound.named hj] at ha
    have ⟨as, l⟩ := hi hj.not_leaf (hc.above ha)
    have hj' := hp.inner.child hj
    refine ⟨_, l.cons h (hs hj' hl) hc.not_divided ?_ ha⟩
    exact h.merged.not_mem_intersections hj' hl hc.not_divided

theorem exists_lineage (h : m.Ordered) (hz : z ∈ m.states) (hc : (merged m).Clear z)
    (hi : z ∉ (merged m).intersections) : ∃ as, m.Lineage z as := by
  by_cases ha : ∃ a, (merged m).Above a z
  case neg => exact ⟨_, lineage_of_top h hz fun a h => ha ⟨a, h⟩⟩
  case pos =>
    have ⟨a, ha⟩ := ha
    have ⟨i, j, hi', hn, hj⟩ := above_iff.mp ha
    have ⟨path, hp⟩ := hi'.descends
    subst hn
    have ⟨as, l⟩ := exists_lineage_of_descends h hp hj.not_leaf (hc.above ha)
    exact ⟨_, l.cons h hz hc.not_divided hi ha⟩

theorem Lineage.chain_eq (l : m.Lineage z as) : m.resolve.chain z = as.reverse :=
  FiniteGraph.postorder_eq_reverse l.line

theorem chain_resolve_of_mem (h : m.Ordered) (hz : z ∈ m.states) (hd : ¬(merged m).Divided z)
    (hi : z ∈ (merged m).intersections) : m.resolve.chain z = [z] :=
  FiniteGraph.postorder_eq_reverse <| .last <| supers_resolve_of_mem h.merged hz hd hi

end Statechart.Machine
