import Statechart.Proofs.Inheritance

open Relation

namespace Statechart

-- What is left and what is entered on the way from one state to another, where `r` leads from each
-- state to what is right around it. Leaving goes up, and entering goes down.
structure Crosses (r : Name → Name → Prop) (source target : Name) (exits entries : List Name) :
    Prop where
  mem_exits   : a ∈ exits ↔ ReflTransGen r source a ∧ ¬ReflTransGen r target a
  mem_entries : a ∈ entries ↔ ReflTransGen r target a ∧ ¬ReflTransGen r source a
  up          : exits.Pairwise fun x y => ¬TransGen r y x
  down        : entries.Pairwise fun x y => ¬TransGen r x y
  once        : exits.Nodup ∧ entries.Nodup

-- The actions of a transition, if what is left and entered on its way is done before what it says
-- itself.
def Chart.Composes (c : Chart) (r : Name → Name → Prop) (source target : Name)
    (declared actions : List Name) : Prop :=
  ∃ exits entries, Crosses r source target exits entries ∧
    actions = exits.flatMap (fun x => (c.state x).exit) ++
      entries.flatMap (fun x => (c.state x).entry) ++ declared

theorem Crosses.congr {r r' : Name → Name → Prop} {source target : Name} {exits entries : List Name}
    (h : Crosses r source target exits entries)
    (hs : ∀ x, ReflTransGen r' source x ↔ ReflTransGen r source x)
    (ht : ∀ x, ReflTransGen r' target x ↔ ReflTransGen r target x)
    (hr : ∀ x y, TransGen r' x y → TransGen r x y) : Crosses r' source target exits entries where
  mem_exits   := by simp only [hs, ht, h.mem_exits, implies_true]
  mem_entries := by simp only [hs, ht, h.mem_entries, implies_true]
  up          := h.up.imp (mt (hr _ _))
  down        := h.down.imp (mt (hr _ _))
  once        := h.once

namespace Machine

open Nest

def lostBy (m : Machine) (z : Name) : List Name :=
  (m.lost.get? z).getD []

variable {m m' : Machine} {z a b n event : Name} {as bs : List Name} {t : Transition}
  {ancestors : NameMap (List Name)}

theorem flatMap_outline {f : Bool × List Name × List Name → List Name} (h : Derives m m') :
    (as.filterMap m'.state?).flatMap (fun s => f s.outline) =
      (as.filterMap m.state?).flatMap (fun s => f s.outline) := by
  simp only [flatMap_filterMap_state?]
  refine List.flatMap_congr fun a _ => ?_
  have := congrArg (fun s => s.elim [] f) (h.outline a)
  simp only [Option.elim_map] at this
  exact this

theorem Derives.exitActions (h : Derives m m') : m'.exitActions as = m.exitActions as :=
  flatMap_outline (f := (·.2.2)) h

theorem Derives.entryActions (h : Derives m m') : m'.entryActions as = m.entryActions as :=
  flatMap_outline (f := (·.2.1)) h

section Chains

variable (hz : m.resolve.chain z = as.reverse) (ht : m.resolve.chain t.next = bs.reverse)
include hz ht

theorem fullActions_resolve : m.resolve.fullActions z t =
    m.exitActions (as.filter (· ∉ bs)) ++ m.entryActions (bs.reverse.filter (· ∉ as)) ++
      t.actions := by
  simp only [fullActions, hz, ht, List.reverse_reverse, List.mem_reverse,
    resolve_derives.exitActions, resolve_derives.entryActions]

end Chains

theorem Lineage.crosses (h : m.Ordered) (l : m.Lineage z as) (l' : m.Lineage b bs) :
    Crosses (Function.swap (merged m).Above) z b (as.filter (· ∉ bs))
      (bs.reverse.filter (· ∉ as)) := by
  have hnot : ∀ {x y}, TransGen (merged m).Above x y →
      ¬TransGen (Function.swap (merged m).Above) x y := fun hxy hyx =>
    h.not_above_self <| hxy.trans <| transGen_swap.mp hyx
  have hup := l.up.filter (· ∉ bs)
  have hdown := (List.pairwise_reverse.mpr l'.up).filter (· ∉ as)
  have hne : ∀ {x y}, TransGen (merged m).Above x y → x ≠ y := fun hxy he =>
    h.not_above_self (he ▸ hxy)
  exact {
    mem_exits   := by simp [l.mem, l'.mem, reflTransGen_swap]
    mem_entries := by simp [l.mem, l'.mem, reflTransGen_swap]
    up          := hup.imp hnot
    down        := hdown.imp hnot
    once        := ⟨hup.imp fun hxy => (hne hxy).symm, hdown.imp hne⟩
  }

section Border

theorem supers_inherit : (m.inherit n as).supers z = m.supers z := by
  rw [supers, supers, state?_inherit]
  split
  case isTrue  => cases m.state? z <;> rfl
  case isFalse => rfl

theorem supers_inheritAll : (m.inheritAll ancestors).supers z = m.supers z := by
  unfold inheritAll
  induction ancestors.entries generalizing m
  case nil          => rfl
  case cons e es hi => exact hi.trans supers_inherit

theorem mem_hierarchy_inheritAll :
    a ∈ (m.inheritAll ancestors).hierarchy z ↔ a ∈ m.hierarchy z := by
  simp only [mem_hierarchy_iff, supers_inheritAll]

theorem crossing_inheritAll {lost : NameMap (List Name)} :
    (m.inheritAll ancestors).crossing lost z b = m.crossing lost z b := by
  simp only [crossing, Derives.inheritAll.exitActions, Derives.inheritAll.entryActions,
    mem_hierarchy_inheritAll]

theorem border_eq : m.border z b =
    m.exitActions ((m.lostBy z).reverse.filter (· ∉ m.hierarchy b)) ++
      m.entryActions ((m.lostBy b).filter (· ∉ m.hierarchy z)) :=
  crossing_inheritAll

theorem lostBy_of_not_mem (hz : z ∉ (merged m).intersections) : m.lostBy z = [] := by
  rw [lostBy, NameMap.get?_eq_none_iff.mpr <| mt mem_lost_iff.mp hz]
  rfl

theorem border_of_not_mem (hz : z ∉ (merged m).intersections)
    (hb : b ∉ (merged m).intersections) : m.border z b = [] := by
  rw [border_eq, lostBy_of_not_mem hz, lostBy_of_not_mem hb]
  rfl

theorem find?_resolve_of_not_mem {x : Dispatch.Entry} (h : m.Ordered) (hz : z ∈ m.states)
    (hc : (merged m).Clear z) (hi : z ∉ (merged m).intersections)
    (hn : x.next ∉ (merged m).intersections) (hx : (m.resolve.table z).find? event = some x) :
    ∃ a t, m.Selected z event a t ∧ x.next = t.next ∧ x.actions = m.resolve.fullActions z t := by
  obtain ⟨a, t, hs, rfl⟩ := find?_resolve h hz hc hx
  have ha : a ∉ (merged m).intersections := by
    cases hs.within.cases_head
    case inl he => exact he ▸ hi
    case inr hb =>
      obtain ⟨b, hb, _⟩ := hb
      exact h.not_mem_intersections hb <| hc a hs.within
  refine ⟨a, t, hs, rfl, ?_⟩
  rw [if_neg hi, border_of_not_mem ha hn]
  rfl

end Border

theorem flatMap_ofChart {c : Chart} {f : State → List Name} (h : ∀ a ∈ as, a ∈ c.subjects) :
    (as.filterMap (ofChart c).state?).flatMap f = as.flatMap fun a => f (c.state a) := by
  rw [flatMap_filterMap_state?]
  refine List.flatMap_congr fun a ha => ?_
  rw [state?_ofChart, if_pos (h a ha)]
  rfl

end Machine

namespace Chart

variable {c : Chart} {source target x : Name} {t : Transition} {as bs : List Name}

section Nesting

variable (hf : c.faults = []) (ac : c.Acyclic)
include hf ac

theorem composes_fullActions (hs : source ∈ c.subjects) (ht : t.next ∈ c.subjects)
    (l : (Machine.ofChart c).Lineage source as) (l' : (Machine.ofChart c).Lineage t.next bs) :
    c.Composes (Function.swap c.nesting.Above) source t.next t.actions
      ((Machine.ofChart c).resolve.fullActions source t) := by
  have hx := l.crosses (Machine.ordered_ofChart hf ac) l'
  have hsub : ∀ {z x}, z ∈ c.subjects → ReflTransGen (Function.swap c.nesting.Above) z x →
      x ∈ c.subjects := fun hz hr => mem_subjects_of_above hf ac hz <| reflTransGen_swap.mp hr
  have hexits := Machine.flatMap_ofChart (f := State.exit) fun _ h => hsub hs (hx.mem_exits.mp h).1
  have hentries := Machine.flatMap_ofChart (f := State.entry) fun _ h =>
    hsub ht (hx.mem_entries.mp h).1
  refine ⟨_, _, hx, ?_⟩
  rw [Machine.fullActions_resolve l.chain_eq l'.chain_eq, ← hexits, ← hentries]
  rfl

theorem reflTransGen_inherits_iff
    (h : ∀ x, ReflTransGen c.nesting.Above x source → ReflTransGen c.Inherits source x) :
    ReflTransGen c.Inherits source x ↔ ReflTransGen (Function.swap c.nesting.Above) source x :=
  ⟨fun hi => reflTransGen_swap.mpr <| reflTransGen_above hf ac hi,
    fun ha => h x <| reflTransGen_swap.mp ha⟩

theorem Composes.inherits {declared actions : List Name}
    (hc : c.Composes (Function.swap c.nesting.Above) source target declared actions)
    (hs : ∀ x, ReflTransGen c.nesting.Above x source → ReflTransGen c.Inherits source x)
    (ht : ∀ x, ReflTransGen c.nesting.Above x target → ReflTransGen c.Inherits target x) :
    c.Composes c.Inherits source target declared actions := by
  obtain ⟨exits, entries, hx, he⟩ := hc
  refine ⟨exits, entries, hx.congr ?_ ?_ ?_, he⟩
  · exact fun x => reflTransGen_inherits_iff hf ac hs
  · exact fun x => reflTransGen_inherits_iff hf ac ht
  · exact fun x y hi => transGen_swap.mpr <| transGen_above hf ac hi

end Nesting

end Chart

variable {s : Settings} {source : String} {c : Chart} {d : Dispatch} {tb : Dispatch.Table}
  {e : Dispatch.Entry}

-- Between states that are no intersections, exactly the states around the one and not around the
-- other are left and entered. A state stands below all that it inherits from, and below something
-- else only if all that is below it and has no substates inherits from that. Where there is nothing
-- else, the way goes by what is inherited.
theorem Settings.Produces.actions_compose (h : s.Produces source c d) (ac : c.Acyclic)
    (ht : tb ∈ d.tables) (he : e ∈ tb.entries) (hz : c.nesting.Clear tb.state)
    (hn : c.nesting.Clear e.next) (hi : tb.state ∉ c.nesting.intersections)
    (hj : e.next ∉ c.nesting.intersections) :
    (∃ y a, c.Decides tb.state e.event y a ∧ e.next = a.target y ∧
      c.Composes (Function.swap c.nesting.Above) tb.state e.next a.actions e.actions ∧
      ((∀ z ∈ [tb.state, e.next], ∀ x, ReflTransGen c.nesting.Above x z →
          ReflTransGen c.Inherits z x) →
        c.Composes c.Inherits tb.state e.next a.actions e.actions)) ∧
    (∀ z x, ReflTransGen c.Inherits z x → ReflTransGen c.nesting.Above x z) ∧
    ∀ z x, ReflTransGen c.nesting.Above x z → ∀ w, (∀ v, ¬c.Inherits v w) →
      ReflTransGen c.Inherits w z → ReflTransGen c.Inherits w x := by
  obtain ⟨hf, rfl⟩ := h.resolved
  have ho := Machine.ordered_ofChart hf ac
  refine ⟨?compose, fun _ _ => Chart.reflTransGen_above hf ac, ?below⟩
  case below =>
    intro z x hx w hw hwz
    exact Chart.inherits_of_above hf ac hw <| hx.trans <| Chart.reflTransGen_above hf ac hwz
  case compose =>
    obtain ⟨z, hm, rfl⟩ := List.mem_map.mp ht
    have hsub : z ∈ c.subjects := (Machine.mem_concrete_resolve.mp hm).1
    obtain ⟨y, t, hs, hnext, hacts⟩ := Machine.find?_resolve_of_not_mem ho
      (Machine.mem_states_ofChart.mpr hsub) hz hi hj <| Machine.find?_table_of_mem he
    obtain ⟨a, ha, hta⟩ := Chart.decides_of_selected hf hs
    have hdef : t.next ∈ c.subjects := hta ▸ ha.reacts.target_defined hf
    obtain ⟨as, l⟩ := Machine.exists_lineage ho (Machine.mem_states_ofChart.mpr hsub) hz hi
    rw [hnext] at hn hj ⊢
    obtain ⟨bs, l'⟩ := Machine.exists_lineage ho (Machine.mem_states_ofChart.mpr hdef) hn hj
    have hc := Chart.composes_fullActions hf ac hsub hdef l l'
    rw [← hacts, show t.actions = a.actions by rw [hta]] at hc
    refine ⟨y, a, ha, by rw [hta], hc, fun hd => hc.inherits hf ac (hd z ?_) (hd t.next ?_)⟩
    · exact List.mem_cons_self
    · exact List.mem_cons_of_mem _ List.mem_cons_self

theorem actions_compose_impliedSuper : ∃ d y a,
    ({} : Settings).Produces Source.impliedSuper .impliedSuper d ∧ Chart.impliedSuper.Acyclic ∧
    (⟨"b", [⟨"g", "k", ["out"]⟩, ⟨"e", "d", []⟩]⟩ : Dispatch.Table) ∈ d.tables ∧
    Chart.impliedSuper.nesting.Clear "b" ∧ Chart.impliedSuper.nesting.Clear "k" ∧
    "b" ∉ Chart.impliedSuper.nesting.intersections ∧
    "k" ∉ Chart.impliedSuper.nesting.intersections ∧
    Chart.impliedSuper.Decides "b" "g" y a ∧ "k" = a.target y ∧
    Chart.impliedSuper.Composes (Function.swap Chart.impliedSuper.nesting.Above) "b" "k" a.actions
      ["out"] := by
  have ac := Chart.isAcyclic_iff faults_impliedSuper |>.mp (by decide +kernel)
  have ht : (Machine.ofChart .impliedSuper).resolve.dispatch.table? "b" =
    some ⟨"b", [⟨"g", "k", ["out"]⟩, ⟨"e", "d", []⟩]⟩ := by decide +kernel
  have ht := List.mem_of_find?_eq_some ht
  have hb : Chart.impliedSuper.nesting.Clear "b" := Nest.isClear_iff.mp (by decide +kernel)
  have hk : Chart.impliedSuper.nesting.Clear "k" := Nest.isClear_iff.mp (by decide +kernel)
  have hbi : "b" ∉ Chart.impliedSuper.nesting.intersections.keys := by decide +kernel
  have hki : "k" ∉ Chart.impliedSuper.nesting.intersections.keys := by decide +kernel
  obtain ⟨⟨y, a, hd, hn, hc, _⟩, _⟩ := produces_impliedSuper.actions_compose ac ht
    (e := ⟨"g", "k", ["out"]⟩) (by simp) hb hk hbi hki
  exact ⟨_, y, a, produces_impliedSuper, ac, ht, hb, hk, hbi, hki, hd, hn, hc⟩

-- An entry has the actions of a declared transition on its event, where the way from the state goes
-- by what is inherited.
def Chart.Follows (c : Chart) (z : Name) (e : Dispatch.Entry) : Prop :=
  ∃ y a, c.Reacts y e.event a ∧ c.Composes c.Inherits z e.next a.actions e.actions

def Chart.Strays (c : Chart) (source : String) (z event : Name) : Prop :=
  ∃ d tb e, ({} : Settings).Produces source c d ∧ d.table? z = some tb ∧ tb.find? event = some e ∧
    ¬c.Follows z e

namespace Chart

variable {r : Name → Name → Prop} {z target x y action : Name} {declared actions rest : List Name}

theorem exists_block_of_mem {f : Head → List Name}
    (h : action ∈ distinct ((c.blocksOf y).flatMap fun b => f b.head)) :
    ∃ b ∈ c.blocks, b.head.name = y ∧ action ∈ f b.head := by
  simpa only [mem_distinct, List.mem_flatMap, mem_blocksOf_iff, and_assoc] using h

namespace Composes

theorem cases_of_mem (h : c.Composes r z target declared actions) (ha : action ∈ actions) :
    (∃ x, (ReflTransGen r z x ∧ ¬ReflTransGen r target x) ∧ action ∈ (c.state x).exit) ∨
    (∃ x, (ReflTransGen r target x ∧ ¬ReflTransGen r z x) ∧ action ∈ (c.state x).entry) ∨
    action ∈ declared := by
  obtain ⟨exits, entries, hx, rfl⟩ := h
  simpa only [List.mem_append, List.mem_flatMap, hx.mem_exits, hx.mem_entries, or_assoc] using ha

theorem mem_of_exit (h : c.Composes r z target declared actions)
    (hx : ReflTransGen r z x ∧ ¬ReflTransGen r target x) (ha : action ∈ (c.state x).exit) :
    action ∈ actions := by
  obtain ⟨exits, entries, hc, rfl⟩ := h
  refine List.mem_append_left _ <| List.mem_append_left _ ?_
  exact List.mem_flatMap.mpr ⟨x, hc.mem_exits.mpr hx, ha⟩

theorem exists_exit_of_head (h : c.Composes r z target declared (y :: rest))
    (hx : ReflTransGen r z x ∧ ¬ReflTransGen r target x) (ha : action ∈ (c.state x).exit) :
    ∃ w, y ∈ (c.state w).exit := by
  obtain ⟨exits, entries, hc, he⟩ := h
  have hm : action ∈ exits.flatMap fun x => (c.state x).exit :=
    List.mem_flatMap.mpr ⟨x, hc.mem_exits.mpr hx, ha⟩
  cases hex : exits.flatMap fun x => (c.state x).exit
  case nil => rw [hex] at hm; cases hm
  case cons first _ =>
    rw [hex] at he
    cases (List.cons.inj he).1
    obtain ⟨w, _, hw⟩ := List.mem_flatMap.mp (hex ▸ List.mem_cons_self : y ∈ _)
    exact ⟨w, hw⟩

end Composes

-- The way goes otherwise if an action is done that nothing but a state around both ends, or around
-- neither of them, has.
theorem not_follows_of_mem {e : Dispatch.Entry} (h : action ∈ e.actions)
    (hb : ∀ b ∈ c.blocks, (action ∈ b.head.entry ++ b.head.exit → b.head.name = x) ∧
      ∀ a ∈ b.arrows, action ∉ a.actions)
    (hx : ReflTransGen c.Inherits z x ↔ ReflTransGen c.Inherits e.next x) : ¬c.Follows z e := by
  rintro ⟨y, a, ⟨b, hm, _, ha, _⟩, hc⟩
  obtain ⟨w, hw, hact⟩ | ⟨w, hw, hact⟩ | hact := hc.cases_of_mem h
  · obtain ⟨b, hm, rfl, hexit⟩ := exists_block_of_mem (f := Head.exit) hact
    cases (hb b hm).1 <| List.mem_append_right _ hexit
    exact hw.2 <| hx.mp hw.1
  · obtain ⟨b, hm, rfl, hentry⟩ := exists_block_of_mem (f := Head.entry) hact
    cases (hb b hm).1 <| List.mem_append_left _ hentry
    exact hw.2 <| hx.mpr hw.1
  · exact (hb b hm).2 a ha hact

theorem strays_of_mem {event : Name} {e : Dispatch.Entry}
    (h : ({} : Settings).Produces source c d) (ht : d.table? z = some tb)
    (he : tb.find? event = some e) (ha : action ∈ e.actions)
    (hb : ∀ b ∈ c.blocks, (action ∈ b.head.entry ++ b.head.exit → b.head.name = x) ∧
      ∀ a ∈ b.arrows, action ∉ a.actions)
    (hx : x ∈ (Machine.ofChart c).hierarchy z ↔ x ∈ (Machine.ofChart c).hierarchy e.next) :
    c.Strays source z event := by
  refine ⟨d, tb, e, h, ht, he, not_follows_of_mem ha hb ?_⟩
  simpa only [Machine.mem_hierarchy_ofChart h.resolved.1] using hx

end Chart

section Charts

-- The way up from `s` ends at `q`, which inherits from itself.
def Source.selfSuper : String :=
  "fsm:f initial:s \x7b s:q e k - q:p:q h s - p:p >out i s - k m s - \x7d"

def Chart.selfSuper : Chart where
  headers := [⟨"fsm", "f"⟩, ⟨"initial", "s"⟩]
  blocks  := [
    ⟨{ name := "s", supers := ["q"] },                  [{ event := "e", next := "k" }]⟩,
    ⟨{ name := "q", supers := ["p", "q"] },             [{ event := "h", next := "s" }]⟩,
    ⟨{ name := "p", supers := ["p"], exit := ["out"] }, [{ event := "i", next := "s" }]⟩,
    ⟨{ name := "k" },                                   [{ event := "m", next := "s" }]⟩
  ]
  closed := true

-- The intersection `i` loses `a` and `b`. What is around `j` as well is `a`, and nothing is around
-- `t`.
def Source.intersection : String :=
  "fsm:f initial:i \x7b (a) >out e j - (b) <in g k - i:a:b h t - j:a l i - k:b n - - t <on m i - \x7d"

def Chart.intersection : Chart where
  headers := [⟨"fsm", "f"⟩, ⟨"initial", "i"⟩]
  blocks  := [
    ⟨{ name := "a", isAbstract := true, exit := ["out"] }, [{ event := "e", next := "j" }]⟩,
    ⟨{ name := "b", isAbstract := true, entry := ["in"] }, [{ event := "g", next := "k" }]⟩,
    ⟨{ name := "i", supers := ["a", "b"] },                [{ event := "h", next := "t" }]⟩,
    ⟨{ name := "j", supers := ["a"] },                     [{ event := "l", next := "i" }]⟩,
    ⟨{ name := "k", supers := ["b"] },                     [{ event := "n" }]⟩,
    ⟨{ name := "t", entry := ["on"] },                     [{ event := "m", next := "i" }]⟩
  ]
  closed := true

theorem faults_selfSuper : Chart.selfSuper.faults = [] := by decide +kernel

theorem faults_intersection : Chart.intersection.faults = [] := by decide +kernel

theorem produces_selfSuper : ({} : Settings).Produces Source.selfSuper .selfSuper
    (Machine.ofChart .selfSuper).resolve.dispatch :=
  Settings.produces_of_faultless rfl Bool.false_ne_true (by decide +kernel) rfl faults_selfSuper

theorem produces_intersection : ({} : Settings).Produces Source.intersection .intersection
    (Machine.ofChart .intersection).resolve.dispatch :=
  Settings.produces_of_faultless rfl Bool.false_ne_true (by decide +kernel) rfl faults_intersection

end Charts

section Strays

theorem strays_impliedSuper : Chart.impliedSuper.Strays Source.impliedSuper "b" "g" := by
  have ht : (Machine.ofChart .impliedSuper).resolve.dispatch.table? "b" =
    some ⟨"b", [⟨"g", "k", ["out"]⟩, ⟨"e", "d", []⟩]⟩ := by decide +kernel
  exact Chart.strays_of_mem produces_impliedSuper ht rfl List.mem_cons_self (x := "a") (by decide)
    (by decide +kernel)

theorem strays_dividedSuper : Chart.dividedSuper.Strays Source.dividedSuper "w" "k" := by
  have ht : (Machine.ofChart .dividedSuper).resolve.dispatch.table? "w" =
    some ⟨"w", [⟨"k", "z", ["in"]⟩, ⟨"h", "w", []⟩, ⟨"e", "w", []⟩]⟩ := by decide +kernel
  exact Chart.strays_of_mem produces_dividedSuper ht rfl List.mem_cons_self (x := "q") (by decide)
    (by decide +kernel)

theorem strays_into_intersection : Chart.intersection.Strays Source.intersection "j" "l" := by
  have ht : (Machine.ofChart .intersection).resolve.dispatch.table? "j" =
    some ⟨"j", [⟨"l", "i", ["out", "in"]⟩, ⟨"e", "j", []⟩]⟩ := by decide +kernel
  exact Chart.strays_of_mem produces_intersection ht rfl List.mem_cons_self (x := "a") (by decide)
    (by decide +kernel)

theorem strays_from_intersection : Chart.intersection.Strays Source.intersection "i" "h" := by
  refine ⟨_, ⟨"i", [⟨"h", "t", ["on", "out"]⟩, ⟨"g", "k", ["in", "out"]⟩, ⟨"e", "j", []⟩]⟩,
    ⟨"h", "t", ["on", "out"]⟩, produces_intersection, by decide +kernel, rfl, ?_⟩
  rintro ⟨y, a, _, hc⟩
  have hx : ReflTransGen Chart.intersection.Inherits "i" "a" ∧
      ¬ReflTransGen Chart.intersection.Inherits "t" "a" := by
    simp only [← Machine.mem_hierarchy_ofChart faults_intersection]
    decide +kernel
  have hout : "out" ∈ (Chart.intersection.state "a").exit := by decide
  -- Something that is left would have to come first, but `on` is done on entering only.
  obtain ⟨w, hw⟩ := hc.exists_exit_of_head hx hout
  obtain ⟨b, hb, _, hon⟩ := Chart.exists_block_of_mem (f := Chart.Head.exit) hw
  have hnone : ∀ b ∈ Chart.intersection.blocks, "on" ∉ b.head.exit := by decide
  exact hnone b hb hon

theorem strays_selfSuper : Chart.selfSuper.Strays Source.selfSuper "s" "e" := by
  refine ⟨_, ⟨"s", [⟨"e", "k", []⟩, ⟨"h", "s", []⟩, ⟨"i", "s", []⟩]⟩, ⟨"e", "k", []⟩,
    produces_selfSuper, by decide +kernel, rfl, ?_⟩
  rintro ⟨y, a, _, hc⟩
  have hx : ReflTransGen Chart.selfSuper.Inherits "s" "p" ∧
      ¬ReflTransGen Chart.selfSuper.Inherits "k" "p" := by
    simp only [← Machine.mem_hierarchy_ofChart faults_selfSuper]
    decide +kernel
  have hout : "out" ∈ (Chart.selfSuper.state "p").exit := by decide
  cases hc.mem_of_exit hx hout

end Strays

-- From `b` the way leads out of `a` without `b` inheriting from it. From `w` to `z` it leads into
-- `q`, and from `j` to `i` out of `a`, although these are around both. From `i` to `t`, `a` is left
-- only after `t` has been entered. The circles above `s` keep it from leaving `p` at all.
theorem declared_hierarchy_not_followed :
    Chart.impliedSuper.Strays Source.impliedSuper "b" "g" ∧
    (Chart.dividedSuper.Acyclic ∧ "w" ∉ Chart.dividedSuper.nesting.intersections ∧
      "z" ∉ Chart.dividedSuper.nesting.intersections ∧
      Chart.dividedSuper.Strays Source.dividedSuper "w" "k") ∧
    (Chart.intersection.Acyclic ∧ (∀ z ∈ ["i", "j", "t"], Chart.intersection.nesting.Clear z) ∧
      Chart.intersection.Strays Source.intersection "j" "l" ∧
      Chart.intersection.Strays Source.intersection "i" "h") ∧
    (∀ z ∈ ["s", "k"], Chart.selfSuper.nesting.Clear z) ∧
    "s" ∉ Chart.selfSuper.nesting.intersections ∧ "k" ∉ Chart.selfSuper.nesting.intersections ∧
    Chart.selfSuper.Strays Source.selfSuper "s" "e" := by
  have hdivided : "w" ∉ Chart.dividedSuper.nesting.intersections.keys ∧
    "z" ∉ Chart.dividedSuper.nesting.intersections.keys := by decide +kernel
  have hself : "s" ∉ Chart.selfSuper.nesting.intersections.keys ∧
    "k" ∉ Chart.selfSuper.nesting.intersections.keys := by decide +kernel
  refine ⟨strays_impliedSuper, ⟨?_, hdivided.1, hdivided.2, strays_dividedSuper⟩,
    ⟨?_, ?_, strays_into_intersection, strays_from_intersection⟩, ?_, hself.1, hself.2,
    strays_selfSuper⟩
  · exact Chart.isAcyclic_iff faults_dividedSuper |>.mp (by decide +kernel)
  · exact Chart.isAcyclic_iff faults_intersection |>.mp (by decide +kernel)
  · simp only [← Nest.isClear_iff]
    decide +kernel
  · simp only [← Nest.isClear_iff]
    decide +kernel

end Statechart
