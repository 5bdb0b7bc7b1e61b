import Mathlib.Logic.Function.Iterate
import Statechart.Proofs.Acceptance
import Statechart.Proofs.Nest.Names

namespace Statechart.Machine

structure Knows (m : Machine) (t : Transition) : Prop where
  next    : t.next ∈ m.states
  event   : t.event = some e → e ∈ m.events
  actions : a ∈ t.actions → a ∈ m.actions

structure Admits (m : Machine) (s : State) : Prop where
  supers      : p ∈ s.supers → p ∈ m.states
  entry       : a ∈ s.entry → a ∈ m.actions
  exit        : a ∈ s.exit → a ∈ m.actions
  transitions : t ∈ s.transitions → m.Knows t

def Covers (m m' : Machine) : Prop :=
  ∀ z s, m'.state? z = some s → m.Admits s

-- No event and no action is listed twice, and nothing is referred to that is not there.
structure Integral (m : Machine) : Prop where
  events_nodup  : m.events.Nodup
  actions_nodup : m.actions.Nodup
  initial       : m.initial = some n → n ∈ m.states
  covers        : m.Covers m

variable {m m' : Machine} {s : State} {t : Transition} {n p z a : Name} {as : List Name}
  {ancestors : NameMap (List Name)}

section Covers

theorem Admits.setSuper {super : Option Name} (h : m.Admits s)
    (hp : ∀ p, super = some p → p ∈ m.states) : m.Admits (s.setSuper super) := by
  refine { h with supers := fun {p} hm => ?_ }
  cases super
  case none   => exact absurd hm (NameSet.not_mem_empty p)
  case some q => exact hp p <| congrArg some (List.mem_singleton.mp hm).symm

namespace Covers

variable (h : m.Covers m')
include h

theorem modifyState {f : State → State} (hf : ∀ s, m.Admits s → m.Admits (f s)) :
    m.Covers (m'.modifyState n f) := by
  intro z s hs
  rw [state?_modifyState] at hs
  split at hs
  case isFalse => exact h z s hs
  case isTrue =>
    obtain ⟨s₀, hs₀, rfl⟩ := Option.map_eq_some_iff.mp hs
    exact hf s₀ <| h z s₀ hs₀

theorem foldl {β : Type _} {bs : List β} {f : Machine → β → Machine}
    (hf : ∀ m', m.Covers m' → ∀ b ∈ bs, m.Covers (f m' b)) : m.Covers (bs.foldl f m') := by
  induction bs generalizing m'
  case nil => exact h
  case cons b bs hi =>
    have hb := hf m' h b <| List.mem_cons_self ..
    exact hi hb fun m' hm b hm' => hf m' hm b <| List.mem_cons_of_mem _ hm'

theorem setSuper {super : Option Name} (hp : ∀ p, super = some p → p ∈ m.states) :
    m.Covers (m'.setSuper n super) :=
  h.modifyState fun _ hs => hs.setSuper hp

theorem unset {ns : List Name} : m.Covers (ns.foldl (fun m n => m.setSuper n none) m') :=
  h.foldl fun _ hm _ _ => hm.setSuper fun _ hp => by cases hp

theorem mem_exitActions (ha : a ∈ m'.exitActions as) : a ∈ m.actions := by
  obtain ⟨s, hs, ha⟩ := List.mem_flatMap.mp ha
  obtain ⟨z, _, hs⟩ := List.mem_filterMap.mp hs
  exact (h z s hs).exit ha

theorem mem_entryActions (ha : a ∈ m'.entryActions as) : a ∈ m.actions := by
  obtain ⟨s, hs, ha⟩ := List.mem_flatMap.mp ha
  obtain ⟨z, _, hs⟩ := List.mem_filterMap.mp hs
  exact (h z s hs).entry ha

theorem knows_of_mem_inherited (ht : t ∈ m'.inherited as) : m.Knows t := by
  obtain ⟨s, hs, ht⟩ := List.mem_flatMap.mp ht
  obtain ⟨z, _, hs⟩ := List.mem_filterMap.mp hs
  exact (h z s hs).transitions ht

theorem inherit : m.Covers (m'.inherit n as) := by
  refine h.modifyState fun s hs => { hs with transitions := fun ht => ?_ }
  cases List.mem_append.mp ht
  case inl ht => exact hs.transitions ht
  case inr ht => exact h.knows_of_mem_inherited ht

theorem inheritAll : m.Covers (m'.inheritAll ancestors) :=
  h.foldl fun _ hm _ _ => hm.inherit

theorem mem_crossing (ha : a ∈ m'.crossing ancestors z n) : a ∈ m.actions := by
  cases List.mem_append.mp ha
  case inl ha => exact h.mem_exitActions ha
  case inr ha => exact h.mem_entryActions ha

theorem crossAll : m.Covers (m'.crossAll ancestors) := by
  intro z s hs
  rw [state?_crossAll] at hs
  obtain ⟨s₀, hs₀, rfl⟩ := Option.map_eq_some_iff.mp hs
  refine { h z s₀ hs₀ with transitions := fun ht => ?_ }
  obtain ⟨t₀, ht₀, rfl⟩ := List.mem_map.mp ht
  have hk := (h z s₀ hs₀).transitions ht₀
  refine { hk with actions := fun ha => ?_ }
  cases List.mem_append.mp ha
  case inl ha => exact h.mem_crossing ha
  case inr ha => exact hk.actions ha

theorem separate : m.Covers (m'.separate ancestors) :=
  h.inheritAll.crossAll.unset

theorem settle {t : Nest} (ht : ∀ n p, t.Above p n → p ∈ m.states) : m.Covers (m'.settle t) := by
  refine h.unset.foldl fun m' hm e he => hm.setSuper fun p hp => ?_
  cases hp
  exact ht e.1 e.2 <| Nest.mem_assignments_iff.mp he

end Covers

end Covers

namespace Integral

theorem mem_states_of_above (h : m.Integral) (ha : m.lifted.Above p n) : p ∈ m.states := by
  have hp := mem_distinct.mp <| Nest.merged_named.mem_of_above_liftAll ha
  obtain ⟨z, hz, hp⟩ := List.mem_flatMap.mp hp
  cases List.mem_cons.mp hp
  case inl he => exact he ▸ hz
  case inr hp =>
    obtain ⟨s, hs⟩ := mem_states_iff.mp hz
    rw [supers, hs] at hp
    exact (h.covers z s hs).supers hp

theorem resolve (h : m.Integral) : m.resolve.Integral := by
  have hstates {z : Name} : z ∈ m.resolve.states ↔ z ∈ m.states := resolve_derives.mem_states
  have hevents : m.resolve.events = m.events := apply_resolve (fun _ _ => rfl) fun _ _ => rfl
  have hactions : m.resolve.actions = m.actions := apply_resolve (fun _ _ => rfl) fun _ _ => rfl
  have hcovers : m.Covers ((m.separate m.lost).settle m.lifted) :=
    h.covers.separate.settle fun _ _ => h.mem_states_of_above
  refine { events_nodup := ?events, actions_nodup := ?actions, initial := ?initial, covers := ?covers }
  case events  => exact hevents ▸ h.events_nodup
  case actions => exact hactions ▸ h.actions_nodup
  case initial => exact fun hn => hstates.mpr <| h.initial <| initial_resolve ▸ hn
  case covers =>
    intro z s hs
    have ha := hcovers z s (state?_resolve ▸ hs)
    exact {
      supers      := fun hp => hstates.mpr <| ha.supers hp
      entry       := fun hm => hactions ▸ ha.entry hm
      exit        := fun hm => hactions ▸ ha.exit hm
      transitions := fun ht =>
        have hk := ha.transitions ht
        ⟨hstates.mpr hk.next, fun he => hevents ▸ hk.event he, fun hm => hactions ▸ hk.actions hm⟩
    }

theorem iterate_resolve (h : m.Integral) (rounds : Nat) : (Machine.resolve^[rounds] m).Integral := by
  induction rounds generalizing m
  case zero    => exact h
  case succ hi => exact hi h.resolve

theorem entry_table {x : Dispatch.Entry} (h : m.Integral) (hx : x ∈ (m.table z).entries) :
    x.event ∈ m.events ∧ x.next ∈ m.states ∧ x.actions ⊆ m.actions := by
  obtain ⟨e, he, rfl⟩ := List.mem_map.mp hx
  obtain ⟨ht, hev, _⟩ := mem_firstOnEach he
  obtain ⟨s, hs, ht⟩ := List.mem_flatMap.mp ht
  obtain ⟨y, _, hs⟩ := List.mem_filterMap.mp hs
  have hk := (h.covers y s hs).transitions ht
  refine ⟨hk.event hev, hk.next, fun a ha => ?_⟩
  simp only [fullActions, List.mem_append] at ha
  obtain (ha | ha) | ha := ha
  · exact h.covers.mem_exitActions ha
  · exact h.covers.mem_entryActions ha
  · exact hk.actions ha

end Integral

section OfChart

variable {c : Chart} {b : Chart.Block}

theorem mem_actions_of_mem_blocks (hb : b ∈ c.blocks)
    (ha : a ∈ b.head.entry ++ b.head.exit ++ b.arrows.flatMap (·.actions)) : a ∈ c.actions :=
  mem_distinct.mpr <| List.mem_flatMap.mpr ⟨b, hb, ha⟩

theorem knows_ofChart (ht : t ∈ (c.state z).transitions) : (ofChart c).Knows t := by
  obtain ⟨b, hb, _, a, ha, hd, rfl⟩ := Chart.mem_transitions_state.mp ht
  refine { next := mem_states_ofChart.mpr hd, event := fun he => ?event, actions := fun hx => ?actions }
  case event =>
    exact mem_distinct.mpr <| List.mem_filterMap.mpr ⟨a, List.mem_flatMap.mpr ⟨b, hb, ha⟩, he⟩
  case actions =>
    exact mem_actions_of_mem_blocks hb <|
      List.mem_append_right _ <| List.mem_flatMap.mpr ⟨a, ha, hx⟩

theorem admits_ofChart : (ofChart c).Admits (c.state z) where
  supers hp := mem_states_ofChart.mpr (Chart.mem_supers_state.mp hp).2
  transitions := knows_ofChart
  entry ha := by
    obtain ⟨b, hb, ha⟩ := List.mem_flatMap.mp <| mem_distinct.mp ha
    exact mem_actions_of_mem_blocks (Chart.mem_blocksOf_iff.mp hb).1 <|
      List.mem_append_left _ <| List.mem_append_left _ ha
  exit ha := by
    obtain ⟨b, hb, ha⟩ := List.mem_flatMap.mp <| mem_distinct.mp ha
    exact mem_actions_of_mem_blocks (Chart.mem_blocksOf_iff.mp hb).1 <|
      List.mem_append_left _ <| List.mem_append_right _ ha

theorem integral_ofChart (c : Chart) : (ofChart c).Integral where
  events_nodup := nodup_distinct _
  actions_nodup := nodup_distinct _
  initial hn := by
    obtain ⟨_, hd⟩ := Option.filter_eq_some_iff.mp hn
    exact mem_states_ofChart.mpr <| of_decide_eq_true hd
  covers z s hs := by
    rw [state?_ofChart] at hs
    split at hs
    case isTrue => exact Option.some.inj hs ▸ admits_ofChart
    case isFalse => cases hs

end OfChart

-- However often the machine of a chart is resolved, and whatever is wrong with the chart.
theorem refers_to_known (c : Chart) (rounds : Nat) :
    (resolve^[rounds] (ofChart c)).Integral ∧
      ∀ tb ∈ (resolve^[rounds] (ofChart c)).dispatch.tables, ∀ x ∈ tb.entries,
        x.event ∈ (resolve^[rounds] (ofChart c)).dispatch.events ∧
        x.next ∈ (resolve^[rounds] (ofChart c)).states ∧
        ∀ a ∈ x.actions, a ∈ (resolve^[rounds] (ofChart c)).dispatch.actions := by
  have h := (integral_ofChart c).iterate_resolve rounds
  refine ⟨h, fun tb ht x hx => ?_⟩
  obtain ⟨z, _, rfl⟩ := List.mem_map.mp ht
  exact h.entry_table hx

end Statechart.Machine
