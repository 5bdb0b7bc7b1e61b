import Statechart.Chart.WellFormed
import Statechart.Proofs.Selection
import Statechart.Proofs.Verdict

open Relation

namespace Statechart

-- A source is accepted: dispatch tables are made from the chart that it describes.
structure Settings.Produces (s : Settings) (source : String) (c : Chart) (d : Dispatch) : Prop where
  chart  : Chart.ofSource source = c
  result : ∃ warnings, (s.compile source).result = .ok ⟨.dispatch d, warnings⟩

namespace Settings

variable {s : Settings} {source : String} {d : Dispatch} {c : Chart}

theorem faults_ofChart_eq_nil_iff : (Machine.ofChart c).faults = [] ↔ c.faults = [] := by
  simp [Machine.ofChart, List.eq_nil_iff_forall_not_mem]

theorem Produces.resolved (h : s.Produces source c d) :
    c.faults = [] ∧ d = (Machine.ofChart c).resolve.dispatch := by
  obtain ⟨rfl, ws, h⟩ := h
  obtain ⟨ha, h⟩ := result_eq_ok_iff.mp h
  have hp := congrArg Compiled.product h
  refine ⟨faults_ofChart_eq_nil_iff.mp ha.faults, ?_⟩
  rw [productOf] at hp
  split at hp
  case isTrue  => exact Product.dispatch.inj hp
  case isFalse => cases hp

theorem produces_of_faultless (ho : s.optimize) (hd : ¬s.denyWarnings)
    (hc : Chart.ofSource source = c) (he : c.errors = []) (hf : c.faults = []) :
    s.Produces source c (Machine.ofChart c).resolve.dispatch := by
  subst hc
  have ha : Verdict.Accepted s.denyWarnings source :=
    ⟨he, faults_ofChart_eq_nil_iff.mpr hf, .inl <| Bool.eq_false_iff.mpr hd⟩
  refine ⟨rfl, (Machine.ofSource source).resolve.warnings.map .ofWarning, ?_⟩
  rw [result_eq_ok_iff, productOf, if_pos ho]
  exact ⟨ha, rfl⟩

end Settings

namespace Chart

def Acyclic (c : Chart) : Prop :=
  ∀ x, ¬TransGen c.Inherits x x

-- Every name that a chart refers to is the subject of some block.
structure Complete (c : Chart) : Prop where
  supers : c.Inherits x p → p ∈ c.subjects
  target : c.Reacts x e a → a.target x ∈ c.subjects

variable {c : Chart} {b : Block} {a : Arrow} {x p z event : Name} {t : Transition}

theorem mem_subjects_iff : z ∈ c.subjects ↔ ∃ b ∈ c.blocks, b.head.name = z :=
  List.mem_map

theorem mem_blocksOf_iff : b ∈ c.blocksOf z ↔ b ∈ c.blocks ∧ b.head.name = z := by
  simp [blocksOf]

theorem Inherits.mem_subjects (h : c.Inherits x p) : x ∈ c.subjects :=
  have ⟨b, hb, hn, _⟩ := h
  mem_subjects_iff.mpr ⟨b, hb, hn⟩

theorem Reacts.mem_subjects (h : c.Reacts x event a) : x ∈ c.subjects :=
  have ⟨b, hb, hn, _⟩ := h
  mem_subjects_iff.mpr ⟨b, hb, hn⟩

theorem mem_reactions_iff : (z, event) ∈ c.reactions ↔ ∃ a, c.Reacts z event a := by
  simp only [reactions, Reacts, List.mem_flatMap, List.mem_map, List.mem_filterMap, Prod.mk.injEq]
  grind

theorem mem_supers_state : p ∈ (c.state z).supers ↔ c.Inherits z p ∧ p ∈ c.subjects := by
  simp [state, isDefined, Inherits, mem_blocksOf_iff, and_assoc]

theorem mem_transitions_state : t ∈ (c.state z).transitions ↔
    ∃ b ∈ c.blocks, b.head.name = z ∧ ∃ a ∈ b.arrows,
      a.target z ∈ c.subjects ∧ t = ⟨a.event, a.target z, a.actions⟩ := by
  simp only [state, List.mem_filterMap, List.mem_flatMap, mem_blocksOf_iff, transition?, isDefined]
  grind

theorem Complete.mem_transitions (hc : c.Complete) :
    t ∈ (c.state z).transitions ∧ t.event = some event ↔
      ∃ a, c.Reacts z event a ∧ t = ⟨some event, a.target z, a.actions⟩ := by
  rw [mem_transitions_state]
  constructor
  case mp =>
    rintro ⟨⟨b, hb, hn, a, ha, _, rfl⟩, he⟩
    exact ⟨a, ⟨b, hb, hn, ha, he⟩, congrArg (Transition.mk · _ _) he⟩
  case mpr =>
    rintro ⟨a, hr, rfl⟩
    obtain ⟨b, hb, hn, ha, he⟩ := hr
    exact ⟨⟨b, hb, hn, a, ha, hc.target ⟨b, hb, hn, ha, he⟩, he ▸ rfl⟩, rfl⟩

section Faultless

variable (h : c.faults = [])
include h

theorem blockFaults_eq_nil (hb : b ∈ c.blocks) : c.blockFaults b = [] := by
  simp only [faults, List.append_eq_nil_iff, List.flatMap_eq_nil_iff] at h
  exact h.1.1.1.1.2 b hb

theorem Inherits.defined (hi : c.Inherits x p) : p ∈ c.subjects := by
  have ⟨b, hb, _, hp⟩ := hi
  have hf := (List.append_eq_nil_iff.mp <| blockFaults_eq_nil h hb).1
  rw [List.map_eq_nil_iff, List.filter_eq_nil_iff] at hf
  simpa [isDefined] using hf p hp

theorem target_defined (hb : b ∈ c.blocks) (ha : a ∈ b.arrows) :
    a.target b.head.name ∈ c.subjects := by
  have hf := (List.append_eq_nil_iff.mp <| blockFaults_eq_nil h hb).2
  have hf := List.flatMap_eq_nil_iff.mp hf a ha
  unfold arrowFaults at hf
  by_contra hn
  simp [isDefined, hn] at hf

theorem Reacts.target_defined (ha : c.Reacts x event a) : a.target x ∈ c.subjects :=
  have ⟨_, hb, hn, hm, _⟩ := ha
  hn ▸ Chart.target_defined h hb hm

theorem complete : c.Complete :=
  ⟨(·.defined h), (·.target_defined h)⟩

theorem target_concrete (hb : b ∈ c.blocks) (ha : a ∈ b.arrows) (hn : a.next.isSome) :
    ¬c.isAbstract (a.target b.head.name) := by
  have hf := (List.append_eq_nil_iff.mp <| blockFaults_eq_nil h hb).2
  have hf := List.flatMap_eq_nil_iff.mp hf a ha
  have hd := target_defined h hb ha
  unfold arrowFaults at hf
  intro hc
  simp [isDefined, hd, hn, hc] at hf

theorem exists_initial : ∃ i, c.value? .initial = some i ∧ i ∈ c.subjects := by
  simp only [faults, List.append_eq_nil_iff] at h
  have hm := h.1.1.1.1.1.1.2
  have hi := h.1.1.1.2
  cases hv : c.value? .initial
  case none => simp [missingHeaders, hv] at hm
  case some i =>
    refine ⟨i, rfl, ?_⟩
    by_contra hn
    simp [initialFaults, hv, isDefined, hn] at hi

end Faultless

end Chart

namespace Machine

variable {c : Chart} {x p z event : Name} {t : Transition}

theorem state?_ofChart : (ofChart c).state? z = if z ∈ c.subjects then some (c.state z) else none :=
  NameMap.get?_ofNames ..

theorem mem_states_ofChart : z ∈ (ofChart c).states ↔ z ∈ c.subjects := by
  rw [mem_states_iff, state?_ofChart]
  split <;> simp [*]

theorem mem_supers_ofChart (h : c.faults = []) : p ∈ (ofChart c).supers z ↔ c.Inherits z p := by
  rw [supers, state?_ofChart]
  split
  case isFalse hz => exact iff_of_false List.not_mem_nil fun hi => hz hi.mem_subjects
  case isTrue     => exact Chart.mem_supers_state.trans <| and_iff_left_of_imp (·.defined h)

theorem mem_hierarchy_ofChart (h : c.faults = []) :
    p ∈ (ofChart c).hierarchy z ↔ ReflTransGen c.Inherits z p := by
  simp only [mem_hierarchy_iff, mem_supers_ofChart h]

theorem ordered_ofChart (h : c.faults = []) (ac : c.Acyclic) : (ofChart c).Ordered where
  defined hp := mem_states_ofChart.mpr <| (mem_supers_ofChart h |>.mp hp).defined h
  acyclic n hn := by
    simp only [mem_supers_ofChart h] at hn
    exact ac n <| transGen_swap.mp hn

theorem mem_transitionsOf_ofChart (h : c.faults = []) :
    t ∈ (ofChart c).transitionsOf z ∧ t.event = some event ↔
      ∃ a, c.Reacts z event a ∧ t = ⟨some event, a.target z, a.actions⟩ := by
  rw [transitionsOf, state?_ofChart]
  split
  case isTrue => exact (Chart.complete h).mem_transitions
  case isFalse hz =>
    refine iff_of_false (fun ht => List.not_mem_nil ht.1) ?_
    rintro ⟨_, ha, _⟩
    exact hz ha.mem_subjects

theorem mem_concrete_resolve :
    z ∈ (ofChart c).resolve.concrete ↔ z ∈ c.subjects ∧ ¬c.isAbstract z := by
  have ho := resolve_derives.outline (m := ofChart c) z
  rw [mem_concrete_iff]
  rw [state?_ofChart] at ho
  split at ho
  case isFalse hz =>
    rw [Option.map_none, Option.map_eq_none_iff] at ho
    simp [ho, hz]
  case isTrue hz =>
    have ⟨s, hs, ho⟩ := Option.map_eq_some_iff.mp ho
    have ha : s.isAbstract = c.isAbstract z := congrArg Prod.fst ho
    simp [hs, hz, ha]

-- Whatever a table says goes back to what some state says.
theorem exists_reacts_of_mem_entries {y : Dispatch.Entry} (h : c.faults = [])
    (hy : y ∈ ((ofChart c).resolve.table z).entries) :
    ∃ x a, c.Reacts x y.event a ∧ y.next = a.target x := by
  obtain ⟨t, ht, he, hn⟩ := mem_entries_table hy
  rw [reach_eq] at ht
  obtain ⟨x, _, ht⟩ := List.mem_flatMap.mp ht
  rw [transitionsOf] at ht
  cases hs : (ofChart c).resolve.state? x
  case none => simp [hs] at ht
  case some s =>
    rw [hs] at ht
    obtain ⟨x₀, s₀, t₀, hs₀, ht₀, he₀, hn₀⟩ := resolve_derives.origin hs ht
    have ht₀ : t₀ ∈ (ofChart c).transitionsOf x₀ := by rwa [transitionsOf, hs₀]
    obtain ⟨a, ha, hat⟩ := mem_transitionsOf_ofChart h |>.mp ⟨ht₀, he₀.trans he⟩
    refine ⟨x₀, a, ha, ?_⟩
    rw [← hn, ← hn₀, hat]

end Machine

namespace Chart

def isAcyclic (c : Chart) : Bool :=
  c.subjects.all fun x => ((Machine.ofChart c).supers x).all (x ∉ (Machine.ofChart c).hierarchy ·)

theorem isAcyclic_iff {c : Chart} (h : c.faults = []) : c.isAcyclic ↔ c.Acyclic := by
  simp only [isAcyclic, List.all_eq_true, decide_eq_true_eq, Machine.mem_supers_ofChart h,
    Machine.mem_hierarchy_ofChart h]
  constructor
  case mp =>
    intro hc x hx
    have ⟨p, hp, hx⟩ := TransGen.head'_iff.mp hx
    exact hc x hp.mem_subjects p hp hx
  case mpr =>
    intro hc x _ p hp hx
    exact hc x <| .head' hp hx

end Chart

end Statechart
