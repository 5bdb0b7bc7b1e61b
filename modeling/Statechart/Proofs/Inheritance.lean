import Statechart.Proofs.Acceptance
import Statechart.Proofs.Nest.Clear

open Relation

namespace Statechart

namespace Chart

-- How the states of a chart end up below each other. A state stands below all that it inherits from.
-- If it has substates, it may also stand below what all of these inherit from.
def nesting (c : Chart) : Nest :=
  Nest.merged (Machine.ofChart c)

structure Decides (c : Chart) (z event x : Name) (a : Arrow) : Prop where
  within  : ReflTransGen c.nesting.Above x z
  reacts  : c.Reacts x event a
  nearest : ReflTransGen c.nesting.Above y z → TransGen c.nesting.Above x y → ¬c.Reacts y event b

variable {c : Chart} {x p z event : Name} {a : Arrow}

section Nesting

variable (h : c.faults = []) (ac : c.Acyclic)
include h ac

theorem merged_nesting :
    Nest.Merged (Machine.ofChart c) (Nest.ofMachine.parents (Machine.ofChart c)) c.nesting :=
  (Machine.ordered_ofChart h ac).merged

theorem transGen_above (hi : TransGen c.Inherits x p) : TransGen c.nesting.Above p x := by
  have hk : ∀ {x p}, c.Inherits x p → TransGen c.nesting.Above p x := fun hi =>
    (merged_nesting h ac).keeps <| Machine.mem_supers_ofChart h |>.mpr hi
  induction hi
  case single hp      => exact hk hp
  case tail hp hi     => exact (hk hp).trans hi

theorem reflTransGen_above (hi : ReflTransGen c.Inherits x p) :
    ReflTransGen c.nesting.Above p x := by
  cases reflTransGen_iff_eq_or_transGen.mp hi
  case inl he => exact he ▸ .refl
  case inr hi => exact (transGen_above h ac hi).to_reflTransGen

theorem mem_subjects_of_above (hz : z ∈ c.subjects) (ha : ReflTransGen c.nesting.Above x z) :
    x ∈ c.subjects :=
  Machine.mem_states_ofChart.mp <| (Machine.ordered_ofChart h ac).mem_states_of_reflTransGen
    (Machine.mem_states_ofChart.mpr hz) ha

theorem inherits_of_above (hs : ∀ w, ¬c.Inherits w x) (ha : ReflTransGen c.nesting.Above p x) :
    ReflTransGen c.Inherits x p := by
  have m := merged_nesting h ac
  cases reflTransGen_iff_eq_or_transGen.mp ha
  case inl he => exact he ▸ .refl
  case inr ha =>
    cases m.gains <| TransGen.mono (fun _ _ => m.sound.holds_of_above) _ _ ha
    case inr hw =>
      have ⟨w, hw⟩ := hw
      exact absurd (Machine.mem_supers_ofChart h |>.mp hw) (hs w)
    case inl hi =>
      simp only [Machine.mem_supers_ofChart h] at hi
      exact (transGen_swap.mp hi).to_reflTransGen

end Nesting

theorem decides_of_selected {t : Transition} (h : c.faults = [])
    (hs : (Machine.ofChart c).Selected z event x t) :
    ∃ a, c.Decides z event x a ∧ t = ⟨some event, a.target x, a.actions⟩ := by
  have ⟨a, ha, ht⟩ := Machine.mem_transitionsOf_ofChart h |>.mp ⟨hs.mem, hs.on⟩
  refine ⟨a, ⟨hs.within, ha, ?_⟩, ht⟩
  intro y b hy hx hb
  have ⟨hm, he⟩ := Machine.mem_transitionsOf_ofChart h |>.mpr ⟨b, hb, rfl⟩
  exact hs.nearest hy hx _ hm he

end Chart

variable {s : Settings} {source : String} {c : Chart} {d : Dispatch} {z : Name}

-- No event that a state inherits is lost on it. What decides on the event is not always something
-- that the state inherits from, but all that is below the state and has no substates does so.
theorem Settings.Produces.exists_entry (h : s.Produces source c d) (ac : c.Acyclic)
    (hz : z ∈ c.subjects) (ha : ¬c.isAbstract z) (hc : c.nesting.Clear z) :
    ∃ tb, d.table? z = some tb ∧
      ∀ event x a, ReflTransGen c.Inherits z x → c.Reacts x event a →
        ∃ e y b, tb.find? event = some e ∧ e.next = b.target y ∧ c.Decides z event y b ∧
          (∀ w b', ReflTransGen c.Inherits z w → TransGen c.Inherits w y → ¬c.Reacts w event b') ∧
          ∀ w, (∀ v, ¬c.Inherits v w) → ReflTransGen c.Inherits w z →
            ReflTransGen c.Inherits w y := by
  have ⟨hf, hd⟩ := h.resolved
  subst hd
  have ho := Machine.ordered_ofChart hf ac
  have hm := Machine.mem_states_ofChart.mpr hz
  refine ⟨_, Machine.table?_dispatch.trans <| if_pos <| Machine.mem_concrete_resolve.mpr ⟨hz, ha⟩, ?_⟩
  intro event x a hx hr
  have ⟨ht, he⟩ := Machine.mem_transitionsOf_ofChart hf |>.mpr ⟨a, hr, rfl⟩
  have ⟨e, hfind⟩ := Machine.exists_find?_resolve ho hm hc (Chart.reflTransGen_above hf ac hx) ht he
  have ⟨y, t, hs, hy⟩ := Machine.find?_resolve ho hm hc hfind
  have ⟨b, hb, ht⟩ := Chart.decides_of_selected hf hs
  refine ⟨e, y, b, hfind, ?next, hb, ?nearest, ?below⟩
  case next => rw [hy, ht]
  case nearest =>
    intro w b' hw hwy
    exact hb.nearest (Chart.reflTransGen_above hf ac hw) (Chart.transGen_above hf ac hwy)
  case below =>
    intro w hs hw
    exact Chart.inherits_of_above hf ac hs <| hb.within.trans <| Chart.reflTransGen_above hf ac hw

section Charts

-- All that inherits from `b` inherits from `a` as well, which therefore comes between `b` and `c`.
def Source.impliedSuper : String :=
  "fsm:f initial:b \x7b b:c g k - d:b:a h - - (a) >out e d - (c) e b - k i b - \x7d"

def Chart.impliedSuper : Chart where
  headers := [⟨"fsm", "f"⟩, ⟨"initial", "b"⟩]
  blocks  := [
    ⟨{ name := "b", supers := ["c"] },                      [{ event := "g", next := "k" }]⟩,
    ⟨{ name := "d", supers := ["b", "a"] },                 [{ event := "h" }]⟩,
    ⟨{ name := "a", isAbstract := true, exit := ["out"] },  [{ event := "e", next := "d" }]⟩,
    ⟨{ name := "c", isAbstract := true },                   [{ event := "e", next := "b" }]⟩,
    ⟨{ name := "k" },                                       [{ event := "i", next := "b" }]⟩
  ]
  closed := true

-- There are two places where `x` stands, and `w` stands below it. Only one of the two is kept.
def Source.dividedSuper : String :=
  "fsm:f initial:w \x7b (p) e w - (q) <in g w - (x):p:q h w - w:x k z - y:p i - - z:q j w - \x7d"

def Chart.dividedSuper : Chart where
  headers := [⟨"fsm", "f"⟩, ⟨"initial", "w"⟩]
  blocks  := [
    ⟨{ name := "p", isAbstract := true },                       [{ event := "e", next := "w" }]⟩,
    ⟨{ name := "q", isAbstract := true, entry := ["in"] },      [{ event := "g", next := "w" }]⟩,
    ⟨{ name := "x", isAbstract := true, supers := ["p", "q"] }, [{ event := "h", next := "w" }]⟩,
    ⟨{ name := "w", supers := ["x"] },                          [{ event := "k", next := "z" }]⟩,
    ⟨{ name := "y", supers := ["p"] },                          [{ event := "i" }]⟩,
    ⟨{ name := "z", supers := ["q"] },                          [{ event := "j", next := "w" }]⟩
  ]
  closed := true

-- The superstates of `b` are followed up to where they go round in a circle.
def Source.circularSuper : String :=
  "fsm:f initial:b \x7b b:c:d e - - d:d g - - a:c h b - c:a i - - \x7d"

def Chart.circularSuper : Chart where
  headers := [⟨"fsm", "f"⟩, ⟨"initial", "b"⟩]
  blocks  := [
    ⟨{ name := "b", supers := ["c", "d"] }, [{ event := "e" }]⟩,
    ⟨{ name := "d", supers := ["d"] },      [{ event := "g" }]⟩,
    ⟨{ name := "a", supers := ["c"] },      [{ event := "h", next := "b" }]⟩,
    ⟨{ name := "c", supers := ["a"] },      [{ event := "i" }]⟩
  ]
  closed := true

theorem faults_impliedSuper : Chart.impliedSuper.faults = [] := by decide +kernel

theorem reacts_impliedSuper : ∃ a, ReflTransGen Chart.impliedSuper.Inherits "b" "c" ∧
    Chart.impliedSuper.Reacts "c" "e" a := by
  obtain ⟨a, ha⟩ := Chart.mem_reactions_iff.mp
    (by decide : ("c", "e") ∈ Chart.impliedSuper.reactions)
  exact ⟨a, .single ⟨_, List.mem_cons_self, rfl, List.mem_cons_self⟩, ha⟩

theorem faults_dividedSuper : Chart.dividedSuper.faults = [] := by decide +kernel

theorem produces_impliedSuper : ({} : Settings).Produces Source.impliedSuper .impliedSuper
    (Machine.ofChart .impliedSuper).resolve.dispatch :=
  Settings.produces_of_faultless rfl Bool.false_ne_true (by decide +kernel) rfl faults_impliedSuper

theorem produces_dividedSuper : ({} : Settings).Produces Source.dividedSuper .dividedSuper
    (Machine.ofChart .dividedSuper).resolve.dispatch :=
  Settings.produces_of_faultless rfl Bool.false_ne_true (by decide +kernel) rfl faults_dividedSuper

end Charts

theorem exists_entry_impliedSuper : ∃ d tb e y a,
    ({} : Settings).Produces Source.impliedSuper .impliedSuper d ∧ Chart.impliedSuper.Acyclic ∧
    "b" ∈ Chart.impliedSuper.subjects ∧ ¬Chart.impliedSuper.isAbstract "b" ∧
    Chart.impliedSuper.nesting.Clear "b" ∧ ReflTransGen Chart.impliedSuper.Inherits "b" "c" ∧
    d.table? "b" = some tb ∧ tb.find? "e" = some e ∧ e.next = a.target y ∧
    Chart.impliedSuper.Decides "b" "e" y a := by
  have ac := Chart.isAcyclic_iff faults_impliedSuper |>.mp (by decide +kernel)
  have hz : "b" ∈ Chart.impliedSuper.subjects := by decide
  have ha : ¬Chart.impliedSuper.isAbstract "b" := by decide
  have hc : Chart.impliedSuper.nesting.Clear "b" := Nest.isClear_iff.mp (by decide +kernel)
  obtain ⟨a, hi, hr⟩ := reacts_impliedSuper
  obtain ⟨tb, ht, h⟩ := produces_impliedSuper.exists_entry ac hz ha hc
  obtain ⟨e, y, b, he, hn, hd, _⟩ := h "e" "c" a hi hr
  exact ⟨_, tb, e, y, b, produces_impliedSuper, ac, hz, ha, hc, hi, ht, he, hn, hd⟩

-- What `b` does on `e` is said by nothing that it inherits from, although `c` says something. It
-- loses `h` where it inherits in a circle. `w` loses `g` with the place that is not kept.
theorem inherited_event_redirected_or_lost :
    (∃ d tb e a, ({} : Settings).Produces Source.impliedSuper .impliedSuper d ∧
      ReflTransGen Chart.impliedSuper.Inherits "b" "c" ∧ Chart.impliedSuper.Reacts "c" "e" a ∧
      d.table? "b" = some tb ∧ tb.find? "e" = some e ∧ ∀ x a,
        ReflTransGen Chart.impliedSuper.Inherits "b" x → Chart.impliedSuper.Reacts x "e" a →
        e.next ≠ a.target x) ∧
    (∃ d tb a, ({} : Settings).Produces Source.dividedSuper .dividedSuper d ∧
      Chart.dividedSuper.Acyclic ∧ d.table? "w" = some tb ∧ tb.find? "g" = none ∧
      ReflTransGen Chart.dividedSuper.Inherits "w" "q" ∧ Chart.dividedSuper.Reacts "q" "g" a) ∧
    ∃ d tb a, ({} : Settings).Produces Source.circularSuper .circularSuper d ∧
      Chart.circularSuper.nesting.Clear "b" ∧ d.table? "b" = some tb ∧ tb.find? "h" = none ∧
      ReflTransGen Chart.circularSuper.Inherits "b" "a" ∧ Chart.circularSuper.Reacts "a" "h" a := by
  refine ⟨?implied, ?divided, ?circular⟩
  case implied =>
    have hh : (Machine.ofChart .impliedSuper).hierarchy "b" = ["b", "c"] := by decide +kernel
    have hn : ∀ x ∈ ["b", "c"], ∀ b ∈ Chart.impliedSuper.blocks, b.head.name = x →
      ∀ a ∈ b.arrows, a.event = some "e" → "d" ≠ a.target x := by decide
    obtain ⟨a, hi, hr⟩ := reacts_impliedSuper
    refine ⟨_, ⟨"b", [⟨"g", "k", ["out"]⟩, ⟨"e", "d", []⟩]⟩, ⟨"e", "d", []⟩, a, produces_impliedSuper,
      hi, hr, by decide +kernel, rfl, ?_⟩
    rintro x a hx ⟨b, hb, hx', ha, he⟩
    exact hn x (hh ▸ Machine.mem_hierarchy_ofChart faults_impliedSuper |>.mpr hx) b hb hx' a ha he
  case divided =>
    obtain ⟨a, ha⟩ : ∃ a, Chart.dividedSuper.Reacts "q" "g" a :=
      Chart.mem_reactions_iff.mp (by decide)
    have hi : "q" ∈ (Machine.ofChart .dividedSuper).hierarchy "w" := by decide +kernel
    exact ⟨_, ⟨"w", [⟨"k", "z", ["in"]⟩, ⟨"h", "w", []⟩, ⟨"e", "w", []⟩]⟩, a, produces_dividedSuper,
      Chart.isAcyclic_iff faults_dividedSuper |>.mp (by decide +kernel), by decide +kernel, rfl,
      Machine.mem_hierarchy_ofChart faults_dividedSuper |>.mp hi, ha⟩
  case circular =>
    have hf : Chart.circularSuper.faults = [] := by decide +kernel
    obtain ⟨a, ha⟩ : ∃ a, Chart.circularSuper.Reacts "a" "h" a :=
      Chart.mem_reactions_iff.mp (by decide)
    have hi : "a" ∈ (Machine.ofChart .circularSuper).hierarchy "b" := by decide +kernel
    exact ⟨_, ⟨"b", [⟨"e", "b", []⟩, ⟨"g", "d", []⟩, ⟨"i", "c", []⟩]⟩, a,
      Settings.produces_of_faultless rfl Bool.false_ne_true (by decide +kernel) rfl hf,
      Nest.isClear_iff.mp (by decide +kernel), by decide +kernel, rfl,
      Machine.mem_hierarchy_ofChart hf |>.mp hi, ha⟩

end Statechart
