import Statechart.Proofs.Selection

namespace Statechart.Machine

-- The last state of a chain that has a transition on an event decides, by the first one that it has.
structure Decides (m : Machine) (z event a : Name) (t : Transition) : Prop where
  on    : t.event = some event
  last  : ∃ outer inner, m.chain z = outer ++ a :: inner ∧
    ∀ b ∈ inner, ∀ u ∈ m.transitionsOf b, u.event ≠ some event
  first : ∃ before after, m.transitionsOf a = before ++ t :: after ∧
    ∀ u ∈ before, u.event ≠ some event

def entryOf (m : Machine) (z : Name) : List Name :=
  (m.state? z).elim [] (·.entry)

def exitOf (m : Machine) (z : Name) : List Name :=
  (m.state? z).elim [] (·.exit)

def eventful (m : Machine) : Machine :=
  { m with states := m.states.map fun _ s =>
    { s with transitions := s.transitions.filter (·.event.isSome) } }

variable {m : Machine} {z event : Name} {as : List Name} {t : Transition} {x : Dispatch.Entry}

theorem exitActions_eq : m.exitActions as = as.flatMap m.exitOf :=
  flatMap_filterMap_state?

theorem entryActions_eq : m.entryActions as = as.flatMap m.entryOf :=
  flatMap_filterMap_state?

section Decides

theorem exists_decides (h : (m.reach z).find? (·.event = some event) = some t) :
    ∃ a, m.Decides z event a t := by
  rw [reach_eq, List.find?_flatMap] at h
  obtain ⟨inner, a, outer, hc, ha, hnone⟩ := List.findSome?_eq_some_iff.mp h
  obtain ⟨hon, before, after, hs, hb⟩ := List.find?_eq_some_iff_append.mp ha
  refine ⟨a, of_decide_eq_true hon, ⟨outer.reverse, inner.reverse, ?_, ?_⟩, before, after, hs, ?_⟩
  · rw [← List.reverse_reverse (m.chain z), hc]
    simp
  · intro b hb u hu
    have := List.find?_eq_none.mp (hnone b <| List.mem_reverse.mp hb) u hu
    simpa using this
  · simpa using hb

theorem isSome_find?_reach_iff : ((m.reach z).find? (·.event = some event)).isSome ↔
    ∃ a ∈ m.chain z, ∃ t ∈ m.transitionsOf a, t.event = some event := by
  simp only [List.find?_isSome, reach_eq, List.mem_flatMap, List.mem_reverse, decide_eq_true_eq]
  grind

theorem exists_entry_iff : (∃ x ∈ (m.table z).entries, x.event = event) ↔
    ∃ a ∈ m.chain z, ∃ t ∈ m.transitionsOf a, t.event = some event := by
  rw [← isSome_find?_reach_iff, ← Option.isSome_map, ← find?_table, Dispatch.Table.find?,
    List.find?_isSome]
  simp only [decide_eq_true_eq]

theorem exists_decides_of_mem (hx : x ∈ (m.table z).entries) :
    ∃ a t, m.Decides z x.event a t ∧ x.next = t.next ∧
      x.actions = ((m.chain z).filter (· ∉ m.chain t.next)).reverse.flatMap m.exitOf ++
        ((m.chain t.next).filter (· ∉ m.chain z)).flatMap m.entryOf ++ t.actions := by
  have hf := find?_table_of_mem hx
  rw [find?_table] at hf
  obtain ⟨t, ht, he⟩ := Option.map_eq_some_iff.mp hf
  obtain ⟨a, ha⟩ := exists_decides ht
  have hactions : m.fullActions z t = x.actions := congrArg Dispatch.Entry.actions he
  have hnext : t.next = x.next := congrArg Dispatch.Entry.next he
  refine ⟨a, t, ha, hnext.symm, ?_⟩
  rw [← hactions, fullActions, exitActions_eq, entryActions_eq, List.filter_reverse]

end Decides

section Eventful

theorem state?_eventful : m.eventful.state? z = (m.state? z).map fun s =>
    { s with transitions := s.transitions.filter (·.event.isSome) } :=
  NameMap.get?_map ..

theorem supers_eventful : m.eventful.supers z = m.supers z := by
  rw [supers, state?_eventful, Option.elim_map]
  rfl

theorem chain_eventful : m.eventful.chain z = m.chain z := by
  have h : m.eventful.inheritance = m.inheritance := by
    simp only [inheritance, FiniteGraph.mk.injEq]
    exact ⟨NameMap.keys_map .., funext fun _ => supers_eventful⟩
  rw [chain, h]
  rfl

theorem transitionsOf_eventful :
    m.eventful.transitionsOf z = (m.transitionsOf z).filter (·.event.isSome) := by
  rw [transitionsOf, state?_eventful, transitionsOf]
  cases m.state? z <;> rfl

theorem reach_eventful : m.eventful.reach z = (m.reach z).filter (·.event.isSome) := by
  rw [reach_eq, reach_eq, chain_eventful, List.filter_flatMap]
  exact List.flatMap_congr fun _ _ => transitionsOf_eventful

theorem firstOnEach_filter {handled : List Name} {ts : List Transition} :
    firstOnEach handled (ts.filter (·.event.isSome)) = firstOnEach handled ts := by
  fun_induction firstOnEach handled ts
  case case1          => rfl
  case case2 he hi    => simpa [he] using hi
  case case3 he hm hi => simpa [he, firstOnEach, hm] using hi
  case case4 he hm hi => simpa [he, firstOnEach, hm] using hi

theorem fullActions_eventful : m.eventful.fullActions z t = m.fullActions z t := by
  have hentry : m.eventful.entryOf = m.entryOf := by
    funext a
    rw [entryOf, state?_eventful, Option.elim_map]
    rfl
  have hexit : m.eventful.exitOf = m.exitOf := by
    funext a
    rw [exitOf, state?_eventful, Option.elim_map]
    rfl
  simp only [fullActions, chain_eventful, exitActions_eq, entryActions_eq, hentry, hexit]

theorem table_eventful : m.eventful.table z = m.table z := by
  simp only [table, reach_eventful, firstOnEach_filter, fullActions_eventful]

theorem concrete_eventful : m.eventful.concrete = m.concrete := by
  simp [concrete, eventful, NameMap.map, List.filter_map, Function.comp_def]

theorem dispatch_eventful : m.eventful.dispatch = m.dispatch := by
  have h : m.eventful.table = m.table := funext fun _ => table_eventful
  rw [dispatch, concrete_eventful, h]
  rfl

end Eventful

-- Whatever inherits from whatever else: the tables are those of the concrete states, in their order,
-- and what is inherited is overridden by what is nearer.
theorem dispatch_overrides (m : Machine) :
    m.dispatch.states.Sublist m.states.keys ∧
    (∀ z, z ∈ m.dispatch.states ↔ ∃ s, m.state? z = some s ∧ s.isAbstract = false) ∧
    m.dispatch.tables.map (·.state) = m.dispatch.states ∧
    m.eventful.dispatch = m.dispatch ∧
    ∀ z ∈ m.dispatch.states, ∃ tb, m.dispatch.table? z = some tb ∧
      (tb.entries.map (·.event)).Nodup ∧
      (∀ event, (∃ x ∈ tb.entries, x.event = event) ↔
        ∃ a ∈ m.chain z, ∃ t ∈ m.transitionsOf a, t.event = some event) ∧
      ∀ x ∈ tb.entries, ∃ a t, m.Decides z x.event a t ∧ x.next = t.next ∧
        x.actions = ((m.chain z).filter (· ∉ m.chain t.next)).reverse.flatMap m.exitOf ++
          ((m.chain t.next).filter (· ∉ m.chain z)).flatMap m.entryOf ++ t.actions := by
  refine ⟨sublist_concrete, fun z => mem_concrete_iff, states_tables_dispatch, dispatch_eventful,
    fun z hz => ⟨m.table z, ?table, nodup_events_table, fun _ => exists_entry_iff,
      fun _ => exists_decides_of_mem⟩⟩
  case table =>
    have hz : z ∈ m.concrete := hz
    rw [table?_dispatch, if_pos hz]

def circledReactions : Machine where
  states := .ofList [
    ("p", { supers := .ofList ["q"], exit := ["leave"],
            transitions := [⟨none, "q", []⟩, ⟨"e", "r", ["one"]⟩, ⟨"e", "q", ["two"]⟩] }),
    ("q", { supers := .ofList ["gone", "p"], entry := ["arrive"],
            transitions := [⟨"e", "p", []⟩, ⟨"f", "r", ["act"]⟩] }),
    ("r", { isAbstract := true, entry := ["start"] })
  ]

theorem dispatch_overrides_circledReactions :
    circledReactions.chain "p" = ["gone", "q", "p"] ∧ "p" ∈ circledReactions.dispatch.states ∧
    ∃ tb, circledReactions.dispatch.table? "p" = some tb ∧ ∃ x ∈ tb.entries, x.event = "f" ∧
      ∃ a t, circledReactions.Decides "p" "f" a t ∧ x.next = t.next := by
  obtain ⟨hc, hp⟩ : circledReactions.chain "p" = ["gone", "q", "p"] ∧
    "p" ∈ circledReactions.dispatch.states := by decide +kernel
  obtain ⟨_, _, _, _, htables⟩ := dispatch_overrides circledReactions
  obtain ⟨tb, ht, _, hev, hdec⟩ := htables "p" hp
  obtain ⟨x, hx, hf⟩ := hev "f" |>.mpr (hc ▸ by decide +kernel)
  obtain ⟨a, t, ha, hn, _⟩ := hdec x hx
  exact ⟨hc, hp, tb, ht, x, hx, hf, a, t, hf ▸ ha, hn⟩

end Statechart.Machine
