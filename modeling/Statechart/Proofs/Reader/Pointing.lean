import Mathlib.Data.List.Forall2
import Statechart.Diagnostic.Basic
import Statechart.Proofs.Reader.Conservation
import Statechart.Proofs.Token.Cover

namespace Statechart

open Text

theorem Span.Cuts.stop_le {s : Span} {source before text after : String}
    (h : s.Cuts source before text after) : s.stop ≤ source.utf8ByteSize := by
  have hs : source.utf8ByteSize = (before ++ text).utf8ByteSize + after.utf8ByteSize := by
    rw [h.source, String.utf8ByteSize_append]
  rw [h.stop, hs]
  exact Nat.le_add_right ..

theorem Lexeme.exists_cuts {l : Lexeme} {source : String} (h : l ∈ ofSource source) :
    ∃ before text after : String, l.span.Cuts source before text after ∧
      l.content.Fits before.toList text.toList after.toList := by
  obtain ⟨b, t, a, he, hstart, hstop, _, hf⟩ := (tiles_ofSource source).exists_cut h
  refine ⟨_, _, _, .of_toList he hstart hstop, ?_⟩
  simpa only [String.toList_ofList] using hf

namespace Reader

namespace Input

def span : Input → Span
  | .terminal _ _ _ span | .stray _ _ span => span

def isStray : Input → Bool
  | .terminal .. => false
  | .stray ..    => true

-- A span cuts the text of an input out of a source. The end of the source has no text.
inductive At (source : String) (s : Span) : Input → Prop
  | stray : s.Cuts source before (String.singleton c) after → At source s (.stray c position s)
  | token : s.Cuts source before text after →
    (Lexeme.Content.token t).Fits before.toList text.toList after.toList →
    At source s (.terminal t.terminal t.name? position s)
  | atEnd : s.Cuts source source "" "" → At source s (.terminal .endOfInput none position s)

structure Before (i j : Input) : Prop where
  start_lt_stop : i.span.start < i.span.stop
  stop_le_start : i.span.stop ≤ j.span.start

variable {i : Input} {l : Lexeme} {source : String}

theorem span_ofLexeme (l : Lexeme) : (ofLexeme l).span = l.span := by
  obtain ⟨content, position, span⟩ := l
  cases content <;> rfl

theorem at_ofLexeme (h : l ∈ Lexeme.ofSource source) : (ofLexeme l).At source l.span := by
  obtain ⟨before, text, after, hc, hf⟩ := Lexeme.exists_cuts h
  obtain ⟨content, position, span⟩ := l
  cases content
  case token => exact .token hc hf
  case stray c =>
    cases hf
    case stray ht _ _ _ _ =>
      have ht : text = String.singleton c := by
        rw [← String.toList_inj, ht, String.toList_singleton]
      exact .stray (ht ▸ hc)

theorem at_atEnd : (atEnd source).At source (atEnd source).span := by
  refine .atEnd ⟨?_, rfl, ?_⟩
  · rw [String.append_empty, String.append_empty]
  · rw [String.append_empty]
    rfl

theorem at_of_mem_inputs (h : i ∈ Chart.inputs source) : i.At source i.span := by
  cases List.mem_append.mp h
  case inl h =>
    obtain ⟨l, hl, rfl⟩ := List.mem_map.mp h
    rw [span_ofLexeme]
    exact at_ofLexeme hl
  case inr h =>
    rw [List.mem_singleton.mp h]
    exact at_atEnd

theorem pairwise_inputs (source : String) : (Chart.inputs source).Pairwise Before := by
  have ht := Lexeme.tiles_ofSource source
  refine List.pairwise_append.mpr ⟨List.pairwise_map.mpr ?_, List.pairwise_singleton .., ?_⟩
  · refine ht.pairwise.imp_of_mem fun {l l'} hl _ hs => ?_
    constructor
    all_goals simp only [span_ofLexeme]
    · exact ht.start_lt_stop hl
    · exact hs
  · intro i hi j hj
    obtain ⟨l, hl, rfl⟩ := List.mem_map.mp hi
    obtain ⟨_, _, _, hc, _⟩ := Lexeme.exists_cuts hl
    rw [List.mem_singleton.mp hj]
    constructor
    all_goals rw [span_ofLexeme]
    · exact ht.start_lt_stop hl
    · exact hc.stop_le

end Input

def Edit.begins : Edit → Bool
  | beginState | beginAbstractState => true
  | _                               => false

def Moment.Begins (m : Moment) : Prop :=
  ∃ edit ∈ m.edit?, edit.begins

def LastBegun (ms : List Moment) (n : Moment) : Prop :=
  n.Begins ∧ ∃ earlier later, ms = earlier ++ n :: later ∧ ∀ m ∈ later, ¬m.Begins

-- A block has its place where the last state was named.
def Draft.Placed (ms : List Moment) (d : Draft) : Prop :=
  d.block.isSome → ∃ n, LastBegun ms n ∧ d.place = some n.input.span

variable {r : Reader} {i : Input} {is : List Input} {m n : Moment} {ms earlier later : List Moment}

section Steps

variable {d : Draft} {edit : Edit} {name : Option Name} {span : Span}

theorem Edit.needsName_of_begins (h : edit.begins) : edit.needsName := by
  cases edit
  case beginState | beginAbstractState => rfl
  all_goals cases h

theorem Draft.place_apply_of_begins {name : Name} (h : edit.begins) :
    (d.apply edit (some name) span).place = some span := by
  cases edit
  case beginState | beginAbstractState => rfl
  all_goals cases h

theorem Draft.place_apply (h : ¬edit.begins) (hb : (d.apply edit name span).block.isSome) :
    d.block.isSome ∧ (d.apply edit name span).place = d.place := by
  obtain ⟨chart, header, block, place, arrow⟩ := d
  cases edit
  case beginState | beginAbstractState => exact absurd rfl h
  case close => cases hb
  all_goals
    cases block
    case none => cases name <;> cases hb
    case some => cases name <;> exact ⟨rfl, rfl⟩

theorem LastBegun.self (h : m.Begins) : LastBegun (ms ++ [m]) m :=
  ⟨h, ms, [], rfl, fun _ hm => by cases hm⟩

theorem LastBegun.mem (h : LastBegun ms n) : n ∈ ms := by
  obtain ⟨_, earlier, later, rfl, _⟩ := h
  exact List.mem_append_cons_self

theorem LastBegun.append (h : LastBegun ms n) (hm : ¬m.Begins) : LastBegun (ms ++ [m]) n := by
  obtain ⟨hb, earlier, later, rfl, hl⟩ := h
  refine ⟨hb, earlier, later ++ [m], by rw [List.append_assoc, List.cons_append], ?_⟩
  intro k hk
  cases List.mem_append.mp hk
  case inl hk => exact hl k hk
  case inr hk => exact List.mem_singleton.mp hk ▸ hm

theorem Draft.Placed.append {d' : Draft} (h : d.Placed ms) (hm : ¬m.Begins)
    (hd : d'.block.isSome → d.block.isSome ∧ d'.place = d.place) : d'.Placed (ms ++ [m]) := by
  intro hb
  obtain ⟨hb, hp⟩ := hd hb
  obtain ⟨n, hn, hs⟩ := h hb
  exact ⟨n, hn.append hm, hp.trans hs⟩

theorem Moment.Begins.exists_name (h : m.Begins) (hn : m.input.Named) :
    ∃ name position span, m.input = .terminal .name (some name) position span := by
  obtain ⟨r, i⟩ := m
  obtain ⟨edit, he, hb⟩ := h
  cases i
  case stray => cases he
  case terminal t name position span =>
    obtain ⟨row, hr, hedit⟩ := Option.bind_eq_some_iff.mp he
    obtain ⟨hm, -, rfl⟩ := mem_of_row? hr
    have ht : row.terminal = .name :=
      (Row.needsName_iff row hm).mpr ⟨edit, hedit, Edit.needsName_of_begins hb⟩
    obtain ⟨name, rfl⟩ := Option.isSome_iff_exists.mp (hn ht)
    exact ⟨name, position, span, by rw [ht]⟩

theorem edit?_of_row {t : Terminal} {position : Position} {row : Row}
    (h : r.phase.row? t = some row) :
    Moment.edit? ⟨r, .terminal t name position span⟩ = row.edit := by
  simp only [Moment.edit?, h, Option.bind_some]

theorem not_begins_of_not_accepts (h : ¬r.Accepts i) : ¬Moment.Begins ⟨r, i⟩ := by
  rintro ⟨edit, he, -⟩
  cases i
  case stray => cases he
  case terminal t name position span =>
    obtain ⟨row, hr, -⟩ := Option.bind_eq_some_iff.mp he
    exact h <| isSome_row?_iff.mp <| Option.isSome_of_eq_some hr

theorem Draft.Placed.step (h : r.draft.Placed ms) (hn : i.Named) :
    (r.step i).draft.Placed (ms ++ [⟨r, i⟩]) := by
  by_cases ha : r.Accepts i
  case neg =>
    rw [step_of_not_accepts ha]
    exact h.append (not_begins_of_not_accepts ha) fun hb => ⟨hb, rfl⟩
  case pos =>
    obtain ⟨t, name, position, span, row, rfl, hr, hs⟩ := step_of_accepts ha
    have hedit : Moment.edit? ⟨r, .terminal t name position span⟩ = row.edit := edit?_of_row hr
    rw [hs]
    cases he : row.edit
    case none =>
      refine h.append ?_ fun hb => ⟨hb, rfl⟩
      rintro ⟨edit, hm, -⟩
      rw [hedit, he] at hm
      cases hm
    case some edit =>
      rw [he] at hedit
      by_cases hb : edit.begins
      case pos =>
        have hbegins : Moment.Begins ⟨r, .terminal t name position span⟩ := ⟨edit, hedit, hb⟩
        obtain ⟨n, _, _, hi⟩ := hbegins.exists_name hn
        cases hi
        exact fun _ => ⟨_, .self hbegins, place_apply_of_begins hb⟩
      case neg =>
        refine h.append ?_ (place_apply hb)
        rintro ⟨edit', hm, hb'⟩
        rw [hedit, Option.mem_some_iff] at hm
        exact hb (hm ▸ hb')

end Steps

section Runs

theorem map_input_moments (r : Reader) (is : List Input) :
    (r.moments is).map (·.input) = is := by
  induction is generalizing r
  case nil => rfl
  case cons i is hi => rw [moments_cons, List.map_cons, hi]

-- The moments that have passed before a run are kept for the next step of the induction.
theorem Draft.Placed.of_moments (h : r.draft.Placed ms) (hn : ∀ i ∈ is, i.Named)
    (hm : r.moments is = earlier ++ m :: later) : m.reader.draft.Placed (ms ++ earlier) := by
  induction is generalizing r ms earlier
  case nil =>
    have : ([] : List Moment) = earlier ++ m :: later := hm
    simp at this
  case cons i is hi =>
    rw [List.forall_mem_cons] at hn
    rw [moments_cons] at hm
    cases earlier
    case nil =>
      obtain ⟨rfl, -⟩ := List.cons.inj hm
      rwa [List.append_nil]
    case cons k earlier =>
      obtain ⟨rfl, ht⟩ := List.cons.inj hm
      have := hi (h.step hn.1) hn.2 ht
      rwa [List.append_assoc] at this

end Runs

section Errors

variable {source : String} {e : Chart.Error}

def rejected (r : Reader) (is : List Input) : List Moment :=
  (r.moments is).filter fun m => ¬m.reader.Accepts m.input

-- An error points at the text of an input. In the transitions of a state it points at the name of
-- that state as well: the one that was begun last.
structure Locates (source : String) (earlier : List Moment) (i : Input) (e : Chart.Error) :
    Prop where
  text    : i.At source e.span
  lexical : e.kind = .lexical ↔ i.isStray
  state   : if e.kind ∈ [.transition, .transitionGroup] then
      ∃ n name position place, LastBegun earlier n ∧
        n.input = .terminal .name (some name) position place ∧ n.input.At source place ∧
        e.state = some place ∧ place.stop ≤ e.span.start
    else e.state = none

theorem Phase.block_of_errorKind {p : Phase} {o : Outline} (h : p.admits o)
    (hk : p.errorKind ∈ [.transition, .transitionGroup]) : o.block := by
  cases p <;> simp_all [admits, errorKind]

theorem Phase.errorKind_ne_lexical {p : Phase} : p.errorKind ≠ .lexical := by
  cases p <;> decide

theorem span_complaint : (r.complaint i).span = i.span := by
  cases i <;> rfl

theorem lexical_complaint : (r.complaint i).kind = .lexical ↔ i.isStray := by
  cases i
  case stray    => exact ⟨fun _ => rfl, fun _ => rfl⟩
  case terminal => exact ⟨fun h => absurd h Phase.errorKind_ne_lexical, fun h => by cases h⟩

theorem state_complaint : (r.complaint i).state =
    if (r.complaint i).kind ∈ [.transition, .transitionGroup] then r.draft.place else none := by
  cases i <;> rfl

theorem errorKind_of_complaint (h : (r.complaint i).kind ∈ [.transition, .transitionGroup]) :
    r.phase.errorKind ∈ [.transition, .transitionGroup] := by
  cases i
  case stray    => simp [complaint] at h
  case terminal => exact h

theorem Locates.isSome_state_iff (h : Locates source earlier i e) :
    e.state.isSome ↔ e.kind ∈ [.transition, .transitionGroup] := by
  have hs := h.state
  split at hs
  case isTrue hk =>
    obtain ⟨_, _, _, _, _, _, _, he, _⟩ := hs
    exact iff_of_true (Option.isSome_of_eq_some he) hk
  case isFalse hk =>
    have he : ¬e.state.isSome := by rw [hs]; exact Bool.false_ne_true
    exact iff_of_false he hk

theorem inputs_eq_of_moments (h : r.moments is = earlier ++ m :: later) :
    is = earlier.map (·.input) ++ m.input :: later.map (·.input) := by
  rw [← map_input_moments r is, h, List.map_append, List.map_cons]

theorem before_of_moments (h : moments {} (Chart.inputs source) = earlier ++ m :: later)
    (hn : n ∈ earlier) : n.input ∈ Chart.inputs source ∧ n.input.Before m.input := by
  have hinputs := inputs_eq_of_moments h
  have hpairwise := Input.pairwise_inputs source
  have hmem : n.input ∈ earlier.map (·.input) := List.mem_map_of_mem hn
  rw [hinputs] at hpairwise
  refine ⟨hinputs ▸ List.mem_append_left _ hmem, ?_⟩
  exact (List.pairwise_append.mp hpairwise).2.2 _ hmem _ List.mem_cons_self

theorem locates_complaint (h : moments {} (Chart.inputs source) = earlier ++ m :: later) :
    Locates source earlier m.input (m.reader.complaint m.input) := by
  have hnamed : ∀ i ∈ Chart.inputs source, i.Named := fun _ => named_of_mem_inputs
  have hcoherent : m.reader.Coherent :=
    (Coherent.of_mem_moments (r := {}) rfl hnamed (h ▸ List.mem_append_cons_self)).1
  have hplaced : m.reader.draft.Placed ([] ++ earlier) :=
    Draft.Placed.of_moments (r := {}) (fun hb => by cases hb) hnamed h
  refine ⟨?text, lexical_complaint, ?state⟩
  case text =>
    rw [span_complaint]
    exact Input.at_of_mem_inputs <| inputs_eq_of_moments h ▸ List.mem_append_cons_self
  case state =>
    rw [state_complaint, span_complaint]
    split
    case isFalse => rfl
    case isTrue hk =>
      have hb := Phase.block_of_errorKind hcoherent <| errorKind_of_complaint hk
      obtain ⟨n, hn, hp⟩ := hplaced hb
      obtain ⟨hi, hbefore⟩ := before_of_moments h hn.mem
      have hat := Input.at_of_mem_inputs hi
      obtain ⟨name, position, place, hname⟩ := hn.1.exists_name (hnamed _ hi)
      have hs : n.input.span = place := by rw [hname, Input.span]
      rw [hs] at hp hat
      exact ⟨n, name, position, place, hn, hname, hat, hp, hs ▸ hbefore.stop_le_start⟩

theorem pairwise_rejected (source : String) :
    (rejected {} (Chart.inputs source)).Pairwise fun m m' => m.input.Before m'.input := by
  have h := Input.pairwise_inputs source
  rw [← map_input_moments {} (Chart.inputs source), List.pairwise_map] at h
  exact h.filter _

theorem errors_ofSource (source : String) : (Chart.ofSource source).errors =
    (rejected {} (Chart.inputs source)).map fun m => m.reader.complaint m.input :=
  errors_run_eq

theorem exists_locates (hm : m ∈ rejected {} (Chart.inputs source)) : ∃ earlier later,
    moments {} (Chart.inputs source) = earlier ++ m :: later ∧
    Locates source earlier m.input (m.reader.complaint m.input) := by
  obtain ⟨earlier, later, h⟩ := List.append_of_mem (List.mem_of_mem_filter hm)
  exact ⟨earlier, later, h, locates_complaint h⟩

end Errors

end Reader

namespace Diagnostic

structure Shows (e : Chart.Error) (d : Diagnostic) : Prop where
  primary   : (d.labels.filter (·.isPrimary)).map (·.span) = [e.span]
  secondary : (d.labels.filter (!·.isPrimary)).map (·.span) = e.state.toList
  code      : (∃ c ∈ d.code, c.label ∈ ["E102", "E103"]) ↔ e.state.isSome

theorem label_unreadable_iff {kind : Chart.ErrorKind} :
    (Code.unreadable kind).label ∈ ["E102", "E103"] ↔ kind ∈ [.transition, .transitionGroup] := by
  cases kind <;> decide

theorem shows_ofError {e : Chart.Error}
    (h : e.state.isSome ↔ e.kind ∈ [.transition, .transitionGroup]) : Shows e (ofError e) where
  primary   := by cases he : e.state <;> simp [ofError, he]
  secondary := by cases he : e.state <;> simp [ofError, he]
  code      := by
    rw [h, ← label_unreadable_iff]
    simp [ofError]

end Diagnostic

theorem Chart.diagnostics_rejection? (c : Chart) :
    c.rejection?.elim [] (·.diagnostics) = c.errors.map .ofError := by
  cases h : c.errors <;> simp [rejection?, hasErrors, h]

namespace Reader

-- All errors of a source point at the right text, and so do the diagnostics made of them.
theorem errors_located (source : String) :
    List.Forall₂ (fun m e => ∃ earlier later,
        moments {} (Chart.inputs source) = earlier ++ m :: later ∧
        Locates source earlier m.input e)
      (rejected {} (Chart.inputs source)) (Chart.ofSource source).errors ∧
    (Chart.ofSource source).errors.Pairwise (fun e e' => e.span.start < e'.span.start) ∧
    List.Forall₂ Diagnostic.Shows (Chart.ofSource source).errors
      ((Chart.ofSource source).rejection?.elim [] (·.diagnostics)) := by
  refine ⟨?located, ?ordered, ?shown⟩
  case located =>
    rw [errors_ofSource, List.forall₂_map_right_iff, List.forall₂_same]
    exact fun m => exists_locates
  case ordered =>
    rw [errors_ofSource, List.pairwise_map]
    refine (pairwise_rejected source).imp fun h => ?_
    rw [span_complaint, span_complaint]
    exact Nat.lt_of_lt_of_le h.start_lt_stop h.stop_le_start
  case shown =>
    rw [Chart.diagnostics_rejection?, List.forall₂_map_right_iff, List.forall₂_same,
      errors_ofSource, List.forall_mem_map]
    intro m hm
    obtain ⟨_, _, _, h⟩ := exists_locates hm
    exact Diagnostic.shows_ofError h.isSome_state_iff

-- The first state is behind us when the second one is read, and the end has no text.
def unfinished : String :=
  "\x7b a é - - - b \x7b e :"

theorem errors_located_unfinished : ∃ e₁ e₂ e₃ m earlier later d,
    (Chart.ofSource unfinished).errors = [e₁, e₂, e₃] ∧ e₂.kind = .transitionGroup ∧
    e₂.span = .ofLength 19 1 ∧ e₂.state = some (.ofLength 13 1) ∧ e₃.span = .ofLength 20 0 ∧
    moments {} (Chart.inputs unfinished) = earlier ++ m :: later ∧
    Locates unfinished earlier m.input e₂ ∧ e₂.span.start < e₃.span.start ∧
    Diagnostic.Shows e₂ d := by
  have he : (Chart.ofSource unfinished).errors = [
    { kind := .lexical, message := "unexpected character 'é'", position := ⟨1, 4⟩,
      span := .ofLength 4 2 },
    { kind := .transitionGroup, message := "GROUP_EVENT|COLON", position := ⟨1, 18⟩,
      span := .ofLength 19 1, state := some (.ofLength 13 1) },
    { kind := .transitionGroup, message := "GROUP_EVENT|EOF", position := ⟨1, 19⟩,
      span := .ofLength 20 0, state := some (.ofLength 13 1) }
  ] := by decide +kernel
  obtain ⟨hlocated, hordered, hshown⟩ := errors_located unfinished
  rw [he] at hlocated hordered hshown
  obtain ⟨_, _, _, hlocated, _⟩ := List.forall₂_cons_right_iff.mp hlocated
  obtain ⟨m, _, ⟨earlier, later, hm, hl⟩, _⟩ := List.forall₂_cons_right_iff.mp hlocated
  obtain ⟨_, _, _, hshown, _⟩ := List.forall₂_cons_left_iff.mp hshown
  obtain ⟨d, _, hd, _⟩ := List.forall₂_cons_left_iff.mp hshown
  have hlt := List.rel_of_pairwise_cons hordered.of_cons List.mem_cons_self
  exact ⟨_, _, _, m, earlier, later, d, he, rfl, rfl, rfl, rfl, hm, hl, hlt, hd⟩

end Reader

end Statechart
