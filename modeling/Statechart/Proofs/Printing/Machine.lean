import Statechart.Proofs.Integrity
import Statechart.Proofs.Printing.Transcript

namespace Statechart

open Transcript

section Transcript

def Transition.arrow (t : Transition) : Chart.Arrow := ⟨t.event.getD "null", t.next, t.actions⟩

def State.head (name : Name) (s : State) : Chart.Head where
  name       := name
  isAbstract := s.isAbstract
  supers     := s.supers.toList
  entry      := s.entry
  exit       := s.exit

def State.block (name : Name) (s : State) : Chart.Block :=
  ⟨s.head name, s.transitions.map Transition.arrow⟩

def Machine.transcript (m : Machine) : Transcript where
  fields := [("Actions", m.actionClass), ("FSM", m.fsm), ("Initial", m.initial)]
  blocks := m.states.entries.map fun e => e.2.block e.1

end Transcript

section ForgetNull

-- An event by the name of `null` is taken for none.
def Transition.forgetNull (t : Transition) : Transition :=
  { t with event := t.event.filter (· ≠ "null") }

def State.forgetNull (s : State) : State :=
  { s with transitions := s.transitions.map Transition.forgetNull }

def Machine.forgetNull (m : Machine) : Machine :=
  { m with states := m.states.map fun _ => State.forgetNull }

theorem map_eq_map_congr {α β γ : Type} {f : α → β} {g : α → γ} {l l' : List α}
    (h : ∀ a a', f a = f a' ↔ g a = g a') : l.map f = l'.map f ↔ l.map g = l'.map g := by
  induction l generalizing l' <;> cases l'
  case cons.cons hi _ _ => simp [h, hi]
  all_goals simp

theorem Transition.arrow_eq_iff (t t' : Transition) :
    t.arrow = t'.arrow ↔ t.forgetNull = t'.forgetNull := by
  obtain ⟨event, next, actions⟩ := t
  obtain ⟨event', next', actions'⟩ := t'
  have he : event.getD "null" = event'.getD "null" ↔
      event.filter (· ≠ "null") = event'.filter (· ≠ "null") := by
    cases event <;> cases event' <;> grind
  simp [arrow, forgetNull, he]

theorem State.block_eq_iff {n n' : Name} {s s' : State} :
    s.block n = s'.block n' ↔ n = n' ∧ s.forgetNull = s'.forgetNull := by
  obtain ⟨isAbstract, supers, entry, exit, transitions⟩ := s
  obtain ⟨isAbstract', supers', entry', exit', transitions'⟩ := s'
  simp [block, head, forgetNull, map_eq_map_congr Transition.arrow_eq_iff, NameSet.ext_iff,
    and_assoc]

theorem Machine.transcript_eq_iff {m m' : Machine} : m.transcript = m'.transcript ↔
    m.fsm = m'.fsm ∧ m.initial = m'.initial ∧ m.actionClass = m'.actionClass ∧
      m.forgetNull.states = m'.forgetNull.states := by
  have hb (e e' : Name × State) : e.2.block e.1 = e'.2.block e'.1 ↔
      (e.1, e.2.forgetNull) = (e'.1, e'.2.forgetNull) := by
    rw [State.block_eq_iff, Prod.mk.injEq]
  simp only [transcript, forgetNull, NameMap.map, NameMap.mk.injEq, Transcript.mk.injEq,
    map_eq_map_congr hb, List.cons.injEq, Prod.mk.injEq]
  grind

theorem Transition.forgetNull_of_ne {t : Transition} (h : t.event ≠ some "null") :
    t.forgetNull = t := by
  obtain ⟨event, next, actions⟩ := t
  cases event
  case none   => rfl
  case some n =>
    have hn : n ≠ "null" := fun he => h <| congrArg some he
    simp [forgetNull, hn]

theorem Machine.forgetNull_of_not_mem {m : Machine} (h : m.Integral) (hn : "null" ∉ m.events) :
    m.forgetNull.states = m.states := by
  refine NameMap.ext <| (List.map_congr_left fun e he => ?_).trans (List.map_id _)
  have ha := h.covers e.1 e.2 <| NameMap.get?_eq_some_iff.mpr he
  have ht : e.2.transitions.map Transition.forgetNull = e.2.transitions := by
    refine (List.map_congr_left fun t ht => ?_).trans (List.map_id _)
    exact Transition.forgetNull_of_ne fun he => hn <| (ha.transitions ht).event he
  simp [State.forgetNull, ht]

theorem Transition.render_forgetNull (t : Transition) : t.forgetNull.render = t.render := by
  have he : (t.event.filter (· ≠ "null")).getD "null" = t.event.getD "null" := by
    cases t.event <;> grind
  simp only [forgetNull, render, he]

theorem State.render_forgetNull (n : Name) (s : State) : s.forgetNull.render n = s.render n := by
  have ht : s.forgetNull.transitions.map Transition.render =
      s.transitions.map Transition.render := by
    simp [forgetNull, Function.comp_def, Transition.render_forgetNull]
  unfold render
  rw [ht]
  rfl

theorem Machine.render_forgetNull (m : Machine) : m.forgetNull.render = m.render := by
  have hs : m.forgetNull.states.entries.map (fun e => e.2.render e.1) =
      m.states.entries.map fun e => e.2.render e.1 := by
    simp only [forgetNull, NameMap.map, List.map_map, Function.comp_def, State.render_forgetNull]
  unfold render
  rw [hs]
  rfl

theorem Machine.render_congr {m m' : Machine} (hf : m.fsm = m'.fsm) (hi : m.initial = m'.initial)
    (ha : m.actionClass = m'.actionClass) (hs : m.states = m'.states) : m.render = m'.render := by
  unfold render
  rw [hf, hi, ha, hs]

end ForgetNull

section Written

structure Machine.Worded (m : Machine) : Prop where
  fsm         : ∀ n ∈ m.fsm, n.IsWord
  actionClass : ∀ n ∈ m.actionClass, n.IsWord
  states      : ∀ n ∈ m.states, n.IsWord
  events      : ∀ n ∈ m.events, n.IsWord
  actions     : ∀ n ∈ m.actions, n.IsWord

variable {m : Machine} {s : State} {t : Transition} {n : Name} (w : m.Worded)
include w

theorem Transition.writes (h : m.Knows t) : Writes t.render t.arrow.braced.tokens := by
  have he : Name.IsWord (t.event.getD "null") := by
    cases he : t.event
    case none   => decide
    case some e => exact w.events e <| h.event he
  exact writes_arrow he (w.states _ h.next) fun a ha => w.actions a <| h.actions ha

theorem State.writes (h : m.Admits s) (hn : n.IsWord) :
    Writes (s.render n) (s.block n).braced.tokens := by
  have hl : Writes "\n  " [] := writes_of_punctuation rfl
  have hm : Mark " :" [.colon] := ⟨rfl, by decide⟩
  have hw : ∀ n' ∈ (s.head n).names, n'.IsWord := by
    simp only [Chart.Head.names, head, List.forall_mem_cons, List.forall_mem_append]
    exact ⟨hn, ⟨fun p hp => w.states p <| h.supers hp, fun a ha => w.actions a <| h.entry ha⟩,
      fun a ha => w.actions a <| h.exit ha⟩
  have hs := hl.append_spells (Chart.Head.spells_of_mark hm hw)
  simp only [← String.append_assoc] at hs
  exact writes_block hs fun t ht => Transition.writes w <| h.transitions ht

theorem Machine.writes (h : m.Integral) : Writes m.render m.transcript.tokens := by
  have hsep : Mark ": " [.colon] := ⟨rfl, by decide⟩
  have hactions : Writes "Actions: " [.name "Actions", .colon] :=
    writes_label (by decide) hsep rfl
  have hfsm : Writes "FSM: " [.name "FSM", .colon] := writes_label (by decide) hsep rfl
  have hinitial : Writes "Initial: " [.name "Initial", .colon] :=
    writes_label (by decide) hsep rfl
  have ho : Mark "\x7b" [.openBrace] := ⟨rfl, by decide⟩
  have hfields := writes_field writes_nil hactions w.actionClass
  rw [String.empty_append] at hfields
  have hfields := writes_field hfields hfsm w.fsm
  have hfields := spells_field hfields hinitial fun i hi => w.states i <| h.initial hi
  exact writes_of_fields (x := m.transcript) (hfields.append_mark ho) rfl fun e he =>
    have hs := NameMap.get?_eq_some_iff.mpr he
    State.writes w (h.covers e.1 e.2 hs) (w.states e.1 <| List.mem_map_of_mem he)

end Written

namespace Chart

variable {c : Chart} {b : Block} {n : Name}

theorem mem_names_of_value {role : Role} (h : c.value? role = some n) : n ∈ c.names := by
  obtain ⟨d, hd, rfl⟩ := Option.map_eq_some_iff.mp h
  refine List.mem_append_left _ <| List.mem_flatMap_of_mem (List.mem_of_find?_eq_some hd) ?_
  simp

theorem mem_names_of_block (hb : b ∈ c.blocks) (hn : n ∈ b.names) : n ∈ c.names :=
  List.mem_append_right _ <| List.mem_flatMap_of_mem hb hn

theorem mem_names_of_events (h : n ∈ c.events) : n ∈ c.names := by
  obtain ⟨a, ha, he⟩ := List.mem_filterMap.mp <| mem_distinct.mp h
  obtain ⟨b, hb, ha⟩ := List.mem_flatMap.mp ha
  refine mem_names_of_block hb <| List.mem_append_right _ <| List.mem_flatMap_of_mem ha ?_
  simp [Arrow.names, he]

theorem mem_names_of_actions (h : n ∈ c.actions) : n ∈ c.names := by
  obtain ⟨b, hb, hn⟩ := List.mem_flatMap.mp <| mem_distinct.mp h
  refine mem_names_of_block hb ?_
  simp only [List.mem_append, List.mem_flatMap] at hn
  obtain (hn | hn) | ⟨a, ha, hn⟩ := hn
  case inl.inl => simp [Block.names, Head.names, hn]
  case inl.inr => simp [Block.names, Head.names, hn]
  case inr     =>
    refine List.mem_append_right _ <| List.mem_flatMap_of_mem ha ?_
    simp [Arrow.names, hn]

end Chart

namespace Machine

variable {m m' : Machine} {c : Chart} {source source' : String} {s s' : Settings}
  {ds ds' : List Diagnostic}

theorem worded_ofChart (h : ∀ n ∈ c.names, n.IsWord) : (ofChart c).Worded where
  fsm n hn := h n <| Chart.mem_names_of_value hn
  actionClass n hn := h n <| Chart.mem_names_of_value hn
  events n hn := h n <| Chart.mem_names_of_events hn
  actions n hn := h n <| Chart.mem_names_of_actions hn
  states n hn := by
    obtain ⟨b, hb, rfl⟩ := Chart.mem_subjects_iff.mp <| mem_states_ofChart.mp hn
    exact h _ <| Chart.mem_names_of_block hb <| by simp [Chart.Block.names, Chart.Head.names]

theorem Worded.resolve (w : m.Worded) : m.resolve.Worded := by
  have hfsm : m.resolve.fsm = m.fsm := apply_resolve (fun _ _ => rfl) fun _ _ => rfl
  have hclass : m.resolve.actionClass = m.actionClass :=
    apply_resolve (fun _ _ => rfl) fun _ _ => rfl
  have hevents : m.resolve.events = m.events := apply_resolve (fun _ _ => rfl) fun _ _ => rfl
  have hactions : m.resolve.actions = m.actions := apply_resolve (fun _ _ => rfl) fun _ _ => rfl
  exact {
    fsm         := hfsm ▸ w.fsm
    actionClass := hclass ▸ w.actionClass
    states      := fun n hn => w.states n <| resolve_derives.mem_states.mp hn
    events      := hevents ▸ w.events
    actions     := hactions ▸ w.actions
  }

theorem integral_of_compile (h : (s.compile source).result = .ok ⟨.machine m, ds⟩) :
    m.Integral ∧ m.Worded := by
  obtain ⟨ha, h⟩ := Settings.result_eq_ok_iff.mp h
  have hp := congrArg Compiled.product h
  rw [Settings.productOf] at hp
  split at hp
  case isTrue  => cases hp
  case isFalse =>
    obtain rfl := Product.machine.inj hp
    have hw := worded_ofChart fun _ => Chart.isWord_of_mem_names ha.errors
    exact ⟨(integral_ofChart _).resolve, hw.resolve⟩

theorem compile_of_faultless (hc : Chart.ofSource source = c) (he : c.errors = [])
    (hf : c.faults = []) (hw : (ofChart c).resolve.warnings = []) :
    (Settings.compile ⟨false, false⟩ source).result = .ok ⟨.machine (ofChart c).resolve, []⟩ := by
  subst hc
  have ha : Verdict.Accepted false source :=
    ⟨he, Settings.faults_ofChart_eq_nil_iff.mpr hf, .inl rfl⟩
  rw [Settings.result_eq_ok_iff, hw]
  exact ⟨ha, rfl⟩

-- The text of a machine tells all of its states, except for the difference between an event by the
-- name of `null` and none.
theorem render_eq_iff_but_null (h : (s.compile source).result = .ok ⟨.machine m, ds⟩)
    (h' : (s'.compile source').result = .ok ⟨.machine m', ds'⟩) :
    (m.render = m'.render ↔ m.fsm = m'.fsm ∧ m.initial = m'.initial ∧
      m.actionClass = m'.actionClass ∧ m.forgetNull.states = m'.forgetNull.states) ∧
    ("null" ∉ m.events → "null" ∉ m'.events → m.render = m'.render → m.fsm = m'.fsm ∧
      m.initial = m'.initial ∧ m.actionClass = m'.actionClass ∧ m.states = m'.states) := by
  obtain ⟨hi, hw⟩ := integral_of_compile h
  obtain ⟨hi', hw'⟩ := integral_of_compile h'
  have hr (he : m.render = m'.render) :=
    transcript_eq_iff.mp <| eq_of_writes he (writes hw hi) (writes hw' hi')
  refine ⟨⟨hr, ?alike⟩, fun hn hn' he => ?equal⟩
  case alike =>
    rintro ⟨hf, hi, ha, hs⟩
    rw [← m.render_forgetNull, ← m'.render_forgetNull]
    exact render_congr hf hi ha hs
  case equal =>
    rw [← forgetNull_of_not_mem hi hn, ← forgetNull_of_not_mem hi' hn']
    exact hr he

end Machine

-- A transition without an event, the same with nothing said of its next state, and one on an event
-- by the name of `null`.
def Source.noEvent : String := "fsm:f initial:a \x7b a - a - \x7d"

def Source.noNext : String := "fsm:f initial:a \x7b a - - \x7b\x7d \x7d"

def Source.nullEvent : String := "fsm:f initial:a \x7b a null a - \x7d"

def Chart.loop (event next : Option Name) : Chart where
  headers := [⟨"fsm", "f"⟩, ⟨"initial", "a"⟩]
  blocks  := [⟨{ name := "a" }, [{ event, next }]⟩]
  closed  := true

namespace Machine

theorem compile_noEvent : (Settings.compile ⟨false, false⟩ Source.noEvent).result =
    .ok ⟨.machine (ofChart <| .loop none "a").resolve, []⟩ :=
  compile_of_faultless (by decide +kernel) rfl (by decide +kernel) (by decide +kernel)

theorem compile_noNext : (Settings.compile ⟨false, false⟩ Source.noNext).result =
    .ok ⟨.machine (ofChart <| .loop none none).resolve, []⟩ :=
  compile_of_faultless (by decide +kernel) rfl (by decide +kernel) (by decide +kernel)

theorem compile_nullEvent : (Settings.compile ⟨false, false⟩ Source.nullEvent).result =
    .ok ⟨.machine (ofChart <| .loop "null" "a").resolve, []⟩ :=
  compile_of_faultless (by decide +kernel) rfl (by decide +kernel) (by decide +kernel)

theorem render_eq_iff_but_null_loop : ∃ m m' m'' : Machine,
    (Settings.compile ⟨false, false⟩ Source.noEvent).result = .ok ⟨.machine m, []⟩ ∧
    (Settings.compile ⟨false, false⟩ Source.nullEvent).result = .ok ⟨.machine m', []⟩ ∧
    (Settings.compile ⟨false, false⟩ Source.noNext).result = .ok ⟨.machine m'', []⟩ ∧
    m.render = m'.render ∧ m.forgetNull.states = m'.forgetNull.states ∧
    "null" ∉ m.events ∧ "null" ∉ m''.events ∧ m.render = m''.render ∧ m.states = m''.states := by
  refine ⟨_, _, _, compile_noEvent, compile_nullEvent, compile_noNext, ?_⟩
  obtain ⟨hnull, _⟩ := render_eq_iff_but_null compile_noEvent compile_nullEvent
  obtain ⟨_, hnext⟩ := render_eq_iff_but_null compile_noEvent compile_noNext
  have hr : (ofChart <| .loop none "a").resolve.render =
      (ofChart <| .loop "null" "a").resolve.render := by
    decide +kernel
  have hr' : (ofChart <| .loop none "a").resolve.render =
      (ofChart <| .loop none none).resolve.render := by
    decide +kernel
  have hn : "null" ∉ (ofChart <| .loop none "a").resolve.events := by decide +kernel
  have hn' : "null" ∉ (ofChart <| .loop none none).resolve.events := by decide +kernel
  exact ⟨hr, (hnull.mp hr).2.2.2, hn, hn', hr', (hnext hn hn' hr').2.2.2⟩

theorem render_confuses_null : ∃ m m' : Machine,
    (Settings.compile ⟨false, false⟩ Source.noEvent).result = .ok ⟨.machine m, []⟩ ∧
    (Settings.compile ⟨false, false⟩ Source.nullEvent).result = .ok ⟨.machine m', []⟩ ∧
    m.render = m'.render ∧ m.states ≠ m'.states := by
  refine ⟨_, _, compile_noEvent, compile_nullEvent, by decide +kernel, fun h => ?_⟩
  exact absurd (congrArg NameMap.entries h) (by decide +kernel)

end Machine

end Statechart
