import Statechart.Proofs.Acceptance

namespace Statechart

namespace Dispatch

inductive Visits (d : Dispatch) : Name → Prop
  | initial : d.initial = some i → Visits d i
  | step : Visits d z → d.table? z = some tb → x ∈ tb.entries → Visits d x.next

end Dispatch

namespace Chart

-- What a state does on an event without naming a next state leads back to it. Nothing keeps an
-- abstract state from doing so.
def LeadsToAbstract (c : Chart) (event z : Name) : Prop :=
  c.isAbstract z ∧ ∃ a, c.Reacts z event a ∧ a.next = none

end Chart

variable {s : Settings} {source : String} {d : Dispatch} {c : Chart} {z : Name}

theorem Chart.Reacts.leadsToAbstract {event x : Name} {a : Chart.Arrow} (h : c.faults = [])
    (ha : c.Reacts x event a) (hz : c.isAbstract (a.target x)) :
    c.LeadsToAbstract event (a.target x) := by
  have ⟨b, hb, hn, hm, _⟩ := ha
  subst hn
  have hnext : a.next = none := by
    by_contra hs
    exact target_concrete h hb hm (Option.isSome_iff_ne_none.mpr hs) hz
  have ht : a.target b.head.name = b.head.name := by rw [Arrow.target, hnext]; rfl
  rw [ht] at hz ⊢
  exact ⟨hz, a, ha, hnext⟩

theorem initial_ofChart (h : c.faults = []) :
    ∃ i ∈ c.subjects, (Machine.ofChart c).resolve.dispatch.initial = some i := by
  have ⟨i, hi, hm⟩ := Chart.exists_initial h
  refine ⟨i, hm, ?_⟩
  change (Machine.ofChart c).resolve.initial = some i
  rw [Machine.initial_resolve]
  simp [Machine.ofChart, hi, Chart.isDefined, hm]

theorem next_ofChart {tb : Dispatch.Table} {x : Dispatch.Entry} (h : c.faults = [])
    (ht : tb ∈ (Machine.ofChart c).resolve.dispatch.tables) (hx : x ∈ tb.entries) :
    x.next ∈ c.subjects ∧ (c.isAbstract x.next → c.LeadsToAbstract x.event x.next) := by
  have ⟨z, _, hz⟩ := List.mem_map.mp ht
  subst hz
  have ⟨y, a, ha, hn⟩ := Machine.exists_reacts_of_mem_entries h hx
  rw [hn]
  exact ⟨ha.target_defined h, ha.leadsToAbstract h⟩

theorem visits_ofChart (h : c.faults = []) (hz : (Machine.ofChart c).resolve.dispatch.Visits z) :
    z ∈ c.subjects ∧ (c.isAbstract z →
      (Machine.ofChart c).resolve.dispatch.initial = some z ∨ ∃ event, c.LeadsToAbstract event z) := by
  cases hz
  case initial hi =>
    have ⟨i, hm, hi'⟩ := initial_ofChart h
    cases hi.symm.trans hi'
    exact ⟨hm, fun _ => .inl hi⟩
  case step x _ ht hx =>
    have ⟨hm, ha⟩ := next_ofChart h (List.mem_of_find?_eq_some ht) hx
    exact ⟨hm, fun hz => .inr ⟨x.event, ha hz⟩⟩

theorem exists_table?_dispatch_iff {m : Machine} :
    (∃ tb, m.dispatch.table? z = some tb) ↔ z ∈ m.dispatch.states := by
  change _ ↔ z ∈ m.concrete
  rw [Machine.table?_dispatch]
  split
  case isTrue hz  => exact iff_of_true ⟨_, rfl⟩ hz
  case isFalse hz => exact iff_of_false (by rintro ⟨_, h⟩; cases h) hz

-- The states that follow are all defined, and each of them has a table unless it is abstract. An
-- abstract one follows only as the initial state or where it leads back to itself.
theorem Settings.Produces.closed_but_for_abstract (h : s.Produces source c d) :
    (∃ i ∈ c.subjects, d.initial = some i ∧
      (i ∈ d.states ↔ ¬c.isAbstract i)) ∧
    (∀ tb ∈ d.tables, ∀ x ∈ tb.entries, x.next ∈ c.subjects ∧
      (x.next ∈ d.states ↔ ¬c.isAbstract x.next) ∧
      (c.isAbstract x.next →
        c.LeadsToAbstract x.event x.next)) ∧
    d.tables.map (·.state) = d.states ∧
    (∀ z, (∃ tb, d.table? z = some tb) ↔ z ∈ d.states) ∧
    ∀ z, d.Visits z → (∃ tb, d.table? z = some tb) ∨ (c.isAbstract z ∧ d.initial = some z) ∨
      ∃ event, c.LeadsToAbstract event z := by
  have ⟨hf, hd⟩ := h.resolved
  subst hd
  have hmem : ∀ {z}, z ∈ c.subjects →
      (z ∈ (Machine.ofChart c).resolve.dispatch.states ↔
        ¬c.isAbstract z) := fun hz =>
    Machine.mem_concrete_resolve.trans <| and_iff_right hz
  refine ⟨?initial, ?next, Machine.states_tables_dispatch, fun z => exists_table?_dispatch_iff, ?run⟩
  case initial =>
    have ⟨i, hm, hi⟩ := initial_ofChart hf
    exact ⟨i, hm, hi, hmem hm⟩
  case next =>
    intro tb ht x hx
    have ⟨hm, ha⟩ := next_ofChart hf ht hx
    exact ⟨hm, hmem hm, ha⟩
  case run =>
    intro z hz
    have ⟨hm, ha⟩ := visits_ofChart hf hz
    by_cases hab : c.isAbstract z
    case pos => exact .inr <| (ha hab).imp_left fun hi => ⟨hab, hi⟩
    case neg => exact .inl <| exists_table?_dispatch_iff.mpr <| (hmem hm).mpr hab

-- The abstract state `a` is where everything starts, and `b` inherits from it how to get back there.
def Source.abstractInitial : String :=
  "fsm:f initial:a \x7b (a) e - - b:a g b - \x7d"

def Chart.abstractInitial : Chart where
  headers := [⟨"fsm", "f"⟩, ⟨"initial", "a"⟩]
  blocks  := [
    ⟨{ name := "a", isAbstract := true }, [{ event := "e" }]⟩,
    ⟨{ name := "b", supers := ["a"] },    [{ event := "g", next := "b" }]⟩
  ]
  closed := true

theorem produces_abstractInitial : ({} : Settings).Produces Source.abstractInitial .abstractInitial
    (Machine.ofChart .abstractInitial).resolve.dispatch :=
  Settings.produces_of_faultless rfl Bool.false_ne_true (by decide +kernel) rfl (by decide +kernel)

theorem closed_but_for_abstract_abstractInitial : ∃ d tb e,
    ({} : Settings).Produces Source.abstractInitial .abstractInitial d ∧
    (∃ i ∈ Chart.abstractInitial.subjects, d.initial = some i ∧
      (i ∈ d.states ↔ ¬Chart.abstractInitial.isAbstract i)) ∧
    tb ∈ d.tables ∧ e ∈ tb.entries ∧ e.next = "a" ∧
    Chart.abstractInitial.LeadsToAbstract e.event "a" ∧
    d.tables.map (·.state) = ["b"] ∧ d.states = ["b"] := by
  have ht : (Machine.ofChart .abstractInitial).resolve.dispatch.table? "b" =
    some ⟨"b", [⟨"g", "b", []⟩, ⟨"e", "a", []⟩]⟩ := by decide +kernel
  have ht := List.mem_of_find?_eq_some ht
  have hs : (Machine.ofChart .abstractInitial).resolve.dispatch.states = ["b"] := by decide +kernel
  obtain ⟨hi, hn, htables, _⟩ := produces_abstractInitial.closed_but_for_abstract
  obtain ⟨_, _, ha⟩ := hn _ ht ⟨"e", "a", []⟩ (by simp)
  exact ⟨_, _, _, produces_abstractInitial, hi, ht, by simp, rfl, ha (by decide), htables.trans hs, hs⟩

theorem not_closed_abstractInitial : ∃ d,
    ({} : Settings).Produces Source.abstractInitial .abstractInitial d ∧
    (∃ i, d.initial = some i ∧ i ∉ d.states) ∧
    ∃ tb ∈ d.tables, ∃ e ∈ tb.entries, e.next ∉ d.states := by
  have hd : (Machine.ofChart .abstractInitial).resolve.dispatch = {
    fsm := "f", initial := "a", actionClass := none, states := ["b"], events := ["e", "g"],
    actions := [], tables := [⟨"b", [⟨"g", "b", []⟩, ⟨"e", "a", []⟩]⟩]
  } := by decide +kernel
  refine ⟨_, produces_abstractInitial, ?_⟩
  rw [hd]
  exact ⟨⟨"a", rfl, by decide⟩, _, List.mem_cons_self, ⟨"e", "a", []⟩, by simp, by decide⟩

end Statechart
