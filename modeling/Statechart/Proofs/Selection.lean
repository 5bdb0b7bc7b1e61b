import Statechart.Proofs.Hierarchy

open Relation

namespace Statechart.Machine

open Nest

def transitionsOf (m : Machine) (z : Name) : List Transition :=
  (m.state? z).elim [] (·.transitions)

def border (m : Machine) (source target : Name) : List Name :=
  (m.inheritAll m.lost).crossing m.lost source target

-- All that a state stands below, and the state. Nothing is listed before what stands below it.
structure Listing (m : Machine) (z : Name) (as : List Name) : Prop where
  mem   : a ∈ as ↔ ReflTransGen (merged m).Above a z
  order : as.Pairwise fun x y => ¬TransGen (merged m).Above x y

-- The transition of a state, or of one that it stands below, that nothing in between overrides.
structure Selected (m : Machine) (z event a : Name) (t : Transition) : Prop where
  within  : ReflTransGen (merged m).Above a z
  mem     : t ∈ m.transitionsOf a
  on      : t.event = some event
  nearest : ReflTransGen (merged m).Above b z → TransGen (merged m).Above a b →
    ∀ u ∈ m.transitionsOf b, u.event ≠ some event

variable {m : Machine} {z a b event : Name} {as : List Name} {t : Transition}

section Lookup

theorem flatMap_filterMap_state? {β : Type _} {f : State → List β} :
    (as.filterMap m.state?).flatMap f = as.flatMap fun a => (m.state? a).elim [] f := by
  induction as
  case nil => rfl
  case cons a as hi => cases hs : m.state? a <;> simp [hs, hi]

theorem reach_eq : m.reach z = (m.chain z).reverse.flatMap m.transitionsOf :=
  flatMap_filterMap_state?

theorem inherited_eq : m.inherited as = as.reverse.flatMap m.transitionsOf :=
  flatMap_filterMap_state?

theorem find?_firstOnEach {handled : List Name} {ts : List Transition} (h : event ∉ handled) :
    (firstOnEach handled ts).find? (·.1 = event) =
      (ts.find? (·.event = some event)).map (event, ·) := by
  fun_induction firstOnEach handled ts
  case case1 => rfl
  case case2 hn hi => simp [hn, hi h]
  case case3 handled t ts e he hm hi =>
    have : e ≠ event := fun hc => h (hc ▸ hm)
    simp [he, this, hi h]
  case case4 handled t ts e he hm hi =>
    by_cases hc : e = event
    case pos => simp [he, hc]
    case neg => simp [he, hc, hi (List.not_mem_cons_of_ne_of_not_mem (Ne.symm hc) h)]

theorem find?_table : (m.table z).find? event =
    ((m.reach z).find? (·.event = some event)).map fun t => ⟨event, t.next, m.fullActions z t⟩ := by
  have h : (firstOnEach [] (m.reach z)).find? (·.1 = event) = _ := find?_firstOnEach List.not_mem_nil
  simp only [Dispatch.Table.find?, table, List.find?_map, Function.comp_def, h, Option.map_map]

theorem mem_firstOnEach {handled : List Name} {ts : List Transition} {e : Name × Transition}
    (h : e ∈ firstOnEach handled ts) : e.2 ∈ ts ∧ e.2.event = some e.1 ∧ e.1 ∉ handled := by
  fun_induction firstOnEach handled ts
  case case1 => exact nomatch h
  case case2 hi => exact (hi h).imp_left (List.mem_cons_of_mem _)
  case case3 hi => exact (hi h).imp_left (List.mem_cons_of_mem _)
  case case4 he hm hi =>
    cases List.mem_cons.mp h
    case inl h => subst h; exact ⟨List.mem_cons_self, he, hm⟩
    case inr h =>
      have ⟨ht, he, hm⟩ := hi h
      exact ⟨List.mem_cons_of_mem _ ht, he, List.not_mem_of_not_mem_cons hm⟩

theorem nodup_firstOnEach {handled : List Name} {ts : List Transition} :
    ((firstOnEach handled ts).map Prod.fst).Nodup := by
  fun_induction firstOnEach handled ts
  case case1 => exact .nil
  case case2 hi => exact hi
  case case3 hi => exact hi
  case case4 hi =>
    refine List.nodup_cons.mpr ⟨fun h => ?_, hi⟩
    have ⟨e, he, hn⟩ := List.mem_map.mp h
    exact (mem_firstOnEach he).2.2 (hn ▸ List.mem_cons_self)

theorem nodup_events_table : ((m.table z).entries.map (·.event)).Nodup := by
  rw [table, List.map_map]
  exact nodup_firstOnEach

theorem mem_entries_table {x : Dispatch.Entry} (h : x ∈ (m.table z).entries) :
    ∃ t ∈ m.reach z, t.event = some x.event ∧ t.next = x.next := by
  have ⟨e, he, hx⟩ := List.mem_map.mp h
  have ⟨ht, hev, _⟩ := mem_firstOnEach he
  subst hx
  exact ⟨e.2, ht, hev, rfl⟩

theorem find?_table_of_mem {x : Dispatch.Entry} (h : x ∈ (m.table z).entries) :
    (m.table z).find? x.event = some x := by
  have ⟨e, he, hx⟩ := List.mem_map.mp h
  subst hx
  have hs := List.find?_isSome (p := fun e' => decide (e'.1 = e.1)) |>.mpr ⟨e, he, decide_eq_true rfl⟩
  have ⟨e', he'⟩ := Option.isSome_iff_exists.mp hs
  have hn := List.find?_some he'
  simp only [decide_eq_true_eq] at hn
  have hm := List.mem_of_find?_eq_some he'
  cases List.inj_on_of_nodup_map nodup_firstOnEach hm he hn
  simp only [Dispatch.Table.find?, table, List.find?_map, Function.comp_def, he', Option.map_some]

theorem mem_concrete_iff : z ∈ m.concrete ↔ ∃ s, m.state? z = some s ∧ s.isAbstract = false := by
  simp only [concrete, List.mem_map, List.mem_filter, state?, NameMap.get?_eq_some_iff, Prod.exists]
  grind

theorem sublist_concrete : m.concrete.Sublist m.states.keys :=
  List.filter_sublist.map _

theorem nodup_concrete : m.concrete.Nodup :=
  m.states.keys_nodup.sublist sublist_concrete

theorem states_tables_dispatch : m.dispatch.tables.map (·.state) = m.concrete :=
  List.map_map.trans <| List.map_id _

theorem table?_dispatch :
    m.dispatch.table? z = if z ∈ m.concrete then some (m.table z) else none := by
  change (m.concrete.map m.table).find? (fun tb => decide (tb.state = z)) = _
  rw [List.find?_map]
  change (m.concrete.find? fun y => decide (y = z)).map m.table = _
  split
  case isTrue h =>
    have ⟨y, hy⟩ := Option.isSome_iff_exists.mp <|
      List.find?_isSome (p := fun y => decide (y = z)) |>.mpr ⟨z, h, decide_eq_true rfl⟩
    have he := List.find?_some hy
    simp only [decide_eq_true_eq] at he
    subst he
    rw [hy]
    rfl
  case isFalse h =>
    rw [Option.map_eq_none_iff, List.find?_eq_none]
    intro y hy he
    exact h <| of_decide_eq_true he ▸ hy

end Lookup

section Resolved

theorem transitionsOf_of_body {m' : Machine}
    (h : (m'.state? z).map State.body = (m.state? z).map State.body) :
    m'.transitionsOf z = m.transitionsOf z := by
  have := congrArg (fun s => s.elim [] State.transitions) h
  simp only [Option.elim_map] at this
  exact this

theorem transitionsOf_crossAll {ancestors : NameMap (List Name)} :
    (m.crossAll ancestors).transitionsOf z =
      (m.transitionsOf z).map fun t => t.prepend (m.crossing ancestors z t.next) := by
  rw [transitionsOf, transitionsOf, state?_crossAll]
  cases m.state? z <;> rfl

theorem transitionsOf_resolve : m.resolve.transitionsOf z =
    ((m.inheritAll m.lost).transitionsOf z).map fun t => t.prepend (m.border z t.next) :=
  (transitionsOf_of_body body_resolve).trans transitionsOf_crossAll

theorem mem_lost_iff : z ∈ m.lost ↔ z ∈ (merged m).intersections := by
  simp only [NameMap.mem_def, lost, NameMap.keys_map]

theorem get?_lost (hz : z ∈ (merged m).intersections) :
    m.lost.get? z = some ((merged m).ancestors ((merged m).pathsTo z)) := by
  have ⟨paths, hp⟩ := Option.isSome_iff_exists.mp <| NameMap.mem_iff_get?_isSome.mp hz
  rw [lost, NameMap.get?_map, hp, (get?_intersections.mp hp).1]
  rfl

theorem transitionsOf_inheritAll_of_not_mem (hz : z ∉ (merged m).intersections) :
    (m.inheritAll m.lost).transitionsOf z = m.transitionsOf z := by
  rw [transitionsOf, state?_inheritAll_of_not_mem (mt mem_lost_iff.mp hz)]
  rfl

theorem transitionsOf_inheritAll (h : m.Ordered) (hz : z ∈ m.states) (hc : (merged m).Clear z)
    (hi : z ∈ (merged m).intersections) : (m.inheritAll m.lost).transitionsOf z =
      (z :: ((merged m).ancestors ((merged m).pathsTo z)).reverse).flatMap m.transitionsOf := by
  have ha : ∀ a ∈ (merged m).ancestors ((merged m).pathsTo z), a ∉ m.lost := by
    intro a ha
    have ha := h.merged.mem_ancestors_iff hc hi |>.mp ha
    have ⟨b, hb, hz⟩ := TransGen.head'_iff.mp ha
    exact mt mem_lost_iff.mp <| h.not_mem_intersections hb <| hc a ha.to_reflTransGen
  have ⟨s, hs⟩ := mem_states_iff.mp hz
  rw [transitionsOf, state?_inheritAll (get?_lost hi) ha, hs, inherited_eq, List.flatMap_cons,
    transitionsOf, hs]
  rfl

theorem exists_listing (h : m.Ordered) (hz : z ∈ m.states) (hc : (merged m).Clear z) :
    ∃ as, m.Listing z as ∧ m.resolve.reach z = as.flatMap fun a => (m.transitionsOf a).map fun t =>
      t.prepend (m.border (if z ∈ (merged m).intersections then z else a) t.next) := by
  by_cases hi : z ∈ (merged m).intersections
  case neg =>
    have ⟨as, l⟩ := exists_lineage h hz hc hi
    have ho : as.Pairwise fun x y => ¬TransGen (merged m).Above x y := by
      refine l.up.imp ?_
      intro x y hy hx
      exact h.not_above_self <| hx.trans hy
    refine ⟨as, ⟨l.mem, ho⟩, ?_⟩
    rw [reach_eq, l.chain_eq, List.reverse_reverse]
    refine List.flatMap_congr fun a ha => ?_
    have ha : a ∉ (merged m).intersections := by
      cases (l.mem.mp ha).cases_head
      case inl he => exact he ▸ hi
      case inr hb =>
        have ⟨b, hb, _⟩ := hb
        exact h.not_mem_intersections hb <| hc a <| l.mem.mp ha
    rw [transitionsOf_resolve, transitionsOf_inheritAll_of_not_mem ha, if_neg hi]
  case pos =>
    refine ⟨z :: ((merged m).ancestors ((merged m).pathsTo z)).reverse, ⟨?mem, ?order⟩, ?reach⟩
    case mem =>
      intro a
      rw [List.mem_cons, List.mem_reverse, h.merged.mem_ancestors_iff hc hi,
        reflTransGen_iff_eq_or_transGen, eq_comm]
    case order =>
      refine List.pairwise_cons.mpr ⟨fun a ha hz => ?_, List.pairwise_reverse.mpr ?_⟩
      · have ha := h.merged.mem_ancestors_iff hc hi |>.mp <| List.mem_reverse.mp ha
        exact h.not_above_self <| hz.trans ha
      · exact h.merged.pairwise_ancestors hc
    case reach =>
      rw [reach_eq, chain_resolve_of_mem h hz hc.not_divided hi, List.reverse_singleton,
        List.flatMap_singleton, transitionsOf_resolve, transitionsOf_inheritAll h hz hc hi,
        List.map_flatMap]
      simp only [if_pos hi]

theorem exists_find?_resolve (h : m.Ordered) (hz : z ∈ m.states) (hc : (merged m).Clear z)
    (ha : ReflTransGen (merged m).Above a z) (ht : t ∈ m.transitionsOf a)
    (he : t.event = some event) : ∃ x, (m.resolve.table z).find? event = some x := by
  have ⟨as, l, hr⟩ := exists_listing h hz hc
  rw [find?_table, hr]
  refine Option.isSome_iff_exists.mp ?_
  rw [Option.isSome_map, List.find?_isSome]
  refine ⟨_, List.mem_flatMap.mpr ⟨a, l.mem.mpr ha, List.mem_map_of_mem ht⟩, ?_⟩
  exact decide_eq_true he

-- What a table of the resolved machine says about an event is what has been selected for it.
theorem find?_resolve {x : Dispatch.Entry} (h : m.Ordered) (hz : z ∈ m.states)
    (hc : (merged m).Clear z) (hx : (m.resolve.table z).find? event = some x) :
    ∃ a t, m.Selected z event a t ∧ x = ⟨event, t.next, m.resolve.fullActions z (t.prepend
      (m.border (if z ∈ (merged m).intersections then z else a) t.next))⟩ := by
  have ⟨as, l, hr⟩ := exists_listing h hz hc
  rw [find?_table, hr, List.find?_flatMap] at hx
  have ⟨u, hu, hx⟩ := Option.map_eq_some_iff.mp hx
  have ⟨as₁, a, as₂, has, hu, hnone⟩ := List.findSome?_eq_some_iff.mp hu
  have ⟨t, ht, hu'⟩ := List.mem_map.mp <| List.mem_of_find?_eq_some hu
  subst hu'
  have hon := List.find?_some hu
  simp only [decide_eq_true_eq] at hon
  refine ⟨a, t, ⟨l.mem.mp (by simp [has]), ht, hon, ?_⟩, hx.symm⟩
  -- What stands in between is listed before, where nothing has been found.
  intro b hb hab u hu' hev
  have hb := l.mem.mpr hb
  have ho := l.order
  rw [has] at hb ho
  cases List.mem_append.mp hb
  case inl hb =>
    have := List.find?_eq_none.mp (hnone b hb) _ (List.mem_map_of_mem hu')
    simp [Transition.prepend, hev] at this
  case inr hb =>
    cases List.mem_cons.mp hb
    case inl hb => exact h.not_above_self (hb ▸ hab)
    case inr hb => exact (List.pairwise_cons.mp (List.pairwise_append.mp ho).2.1).1 b hb hab

end Resolved

end Statechart.Machine
