import Statechart.Proofs.Reader.Derivation

namespace Statechart.Reader

-- The table says how to go on with an input.
def Accepts (r : Reader) : Input → Prop
  | .terminal t .. => ∃ row ∈ table, row.phase = r.phase ∧ row.terminal = t
  | .stray ..      => False

instance {r : Reader} : {i : Input} → Decidable (r.Accepts i)
  | .terminal .. => inferInstanceAs (Decidable (∃ _ ∈ _, _))
  | .stray ..    => inferInstanceAs (Decidable False)

structure Moment where
  reader : Reader
  input  : Input

def moments (r : Reader) (is : List Input) : List Moment :=
  List.zipWith .mk (r :: r.trace is) is

def accepted (r : Reader) (is : List Input) : List Input :=
  ((r.moments is).filter fun m => m.reader.Accepts m.input).map (·.input)

def complaint (r : Reader) : Input → Chart.Error
  | .terminal t _ position span => {
      kind    := r.phase.errorKind
      message := r.phase.label ++ "|" ++ t.label
      position, span
      state   := if r.phase.errorKind ∈ [.transition, .transitionGroup] then r.draft.place else none }
  | .stray c position span => {
      kind    := .lexical
      message := "unexpected character '" ++ String.singleton c ++ "'"
      position, span }

variable {r : Reader} {i : Input} {is : List Input}

section Steps

theorem isSome_row?_iff {p : Phase} {t : Terminal} :
    (p.row? t).isSome ↔ ∃ row ∈ table, row.phase = p ∧ row.terminal = t := by
  simp [Phase.row?]

theorem step_of_accepts (h : r.Accepts i) : ∃ t name position span row,
    i = .terminal t name position span ∧ r.phase.row? t = some row ∧
    r.step i = ⟨row.next, row.edit.elim r.draft fun edit => r.draft.apply edit name span⟩ := by
  cases i
  case stray => cases h
  case terminal t name position span =>
    obtain ⟨row, hr⟩ := Option.isSome_iff_exists.mp <| isSome_row?_iff.mpr h
    exact ⟨t, name, position, span, row, rfl, hr, step_of_row hr⟩

theorem Draft.report_eq {d : Draft} {kind : Chart.ErrorKind} {message : String}
    {position : Position} {span : Span} : d.report kind message position span =
      { d with chart := { d.chart with errors := d.chart.errors ++ [{
        kind, message, position, span
        state := if kind ∈ [.transition, .transitionGroup] then d.place else none }] } } := by
  cases kind <;> rfl

theorem step_of_not_accepts (h : ¬r.Accepts i) : r.step i =
    { r with draft := { r.draft with chart := { r.draft.chart with
      errors := r.draft.chart.errors ++ [r.complaint i] } } } := by
  cases i
  case stray => rfl
  case terminal t name position span =>
    have hr : r.phase.row? t = none := by simpa using isSome_row?_iff.not.mpr h
    rw [step_of_no_row hr, Draft.report_eq]
    rfl

end Steps

section Cleared

def Draft.cleared (d : Draft) : Draft := { d with chart := { d.chart with errors := [] } }

def cleared (r : Reader) : Reader := { r with draft := r.draft.cleared }

theorem Draft.cleared_apply {d : Draft} {edit : Edit} {name : Option Name} {span : Span} :
    (d.apply edit name span).cleared = d.cleared.apply edit name span := by
  cases edit <;> cases name <;> rfl

theorem cleared_step_of_accepts (h : r.Accepts i) : (r.step i).cleared = r.cleared.step i := by
  obtain ⟨t, name, position, span, row, rfl, hr, hs⟩ := step_of_accepts h
  have hr' : r.cleared.phase.row? t = some row := hr
  rw [hs, step_of_row hr']
  cases row.edit
  case none      => rfl
  case some edit => exact congrArg (Reader.mk row.next) Draft.cleared_apply

theorem cleared_step_of_not_accepts (h : ¬r.Accepts i) : (r.step i).cleared = r.cleared := by
  rw [step_of_not_accepts h]
  rfl

theorem errors_step_of_accepts (h : r.Accepts i) :
    (r.step i).draft.chart.errors = r.draft.chart.errors := by
  obtain ⟨t, name, position, span, row, rfl, hr, hs⟩ := step_of_accepts h
  rw [hs]
  cases row.edit
  case none => rfl
  case some => exact Draft.errors_apply

end Cleared

section Runs

theorem moments_cons : r.moments (i :: is) = ⟨r, i⟩ :: (r.step i).moments is :=
  rfl

theorem accepted_cons_of_accepts (h : r.Accepts i) :
    r.accepted (i :: is) = i :: (r.step i).accepted is := by
  simp [accepted, moments_cons, h]

theorem accepted_cons_of_not_accepts (h : ¬r.Accepts i) :
    r.accepted (i :: is) = (r.step i).accepted is := by
  simp [accepted, moments_cons, h]

theorem cleared_run : (r.run is).cleared = r.cleared.run (r.accepted is) := by
  induction is generalizing r
  case nil => rfl
  case cons i is hi =>
    have hrun : r.run (i :: is) = (r.step i).run is := rfl
    rw [hrun, hi]
    by_cases h : r.Accepts i
    case pos =>
      rw [accepted_cons_of_accepts h, cleared_step_of_accepts h]
      rfl
    case neg => rw [accepted_cons_of_not_accepts h, cleared_step_of_not_accepts h]

theorem errors_run_eq : (r.run is).draft.chart.errors = r.draft.chart.errors ++
    ((r.moments is).filter fun m => ¬m.reader.Accepts m.input).map
      fun m => m.reader.complaint m.input := by
  induction is generalizing r
  case nil => exact (List.append_nil _).symm
  case cons i is hi =>
    have hrun : r.run (i :: is) = (r.step i).run is := rfl
    rw [hrun, hi, moments_cons]
    by_cases h : r.Accepts i
    case pos => simp [h, errors_step_of_accepts h]
    case neg => simp [h, step_of_not_accepts h]

end Runs

-- An input that is not expected might as well not have been there, but for the error.
theorem recovers_by_deletion (is : List Input) :
    (run {} (accepted {} is)).phase = (run {} is).phase ∧
    (run {} (accepted {} is)).finish = { (run {} is).finish with errors := [] } ∧
    (run {} is).finish.errors =
      ((moments {} is).filter fun m => ¬m.reader.Accepts m.input).map
        fun m => m.reader.complaint m.input := by
  have hc : run {} (accepted {} is) = (run {} is).cleared := (cleared_run (r := {})).symm
  rw [hc]
  exact ⟨rfl, rfl, errors_run_eq⟩

def unexpected : List Input :=
  Chart.inputs "fsm:f é \x7b s \x7b : e - - \x7d \x7d"

theorem recovers_by_deletion_unexpected :
    (run {} (accepted {} unexpected)).phase = (run {} unexpected).phase ∧
    (run {} (accepted {} unexpected)).finish = { (run {} unexpected).finish with errors := [] } ∧
    (run {} unexpected).finish.blocks = [⟨{ name := "s" }, [{ event := "e" }]⟩] ∧
    (run {} unexpected).finish.errors = [
      { kind := .lexical, message := "unexpected character 'é'", position := ⟨1, 6⟩,
        span := .ofLength 6 2 },
      { kind := .transitionGroup, message := "SUBTRANSITION_GROUP|COLON", position := ⟨1, 14⟩,
        span := .ofLength 15 1, state := some (.ofLength 11 1) }
    ] := by
  obtain ⟨hp, hf, he⟩ := recovers_by_deletion unexpected
  exact ⟨hp, hf, by decide +kernel, he.trans (by decide +kernel)⟩

end Statechart.Reader
