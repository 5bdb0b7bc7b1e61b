import Statechart.Compile
import Statechart.Proofs.Resolve

namespace Statechart

namespace Outcome

variable {α β : Type}

@[simp]
theorem result_pure (a : α) : (pure a : Outcome α).result = .ok a :=
  rfl

@[simp]
theorem result_note (n : Note) : (note n).result = .ok () :=
  rfl

@[simp]
theorem result_fail (f : Failure) : (fail f : Outcome α).result = .error f :=
  rfl

@[simp]
theorem result_bind (x : Outcome α) (f : α → Outcome β) :
    (x >>= f).result = x.result.bind fun a => (f a).result := by
  change (Outcome.bind x f).result = _
  unfold Outcome.bind
  cases x.result <;> rfl

end Outcome

abbrev Machine.ofSource (source : String) : Machine := ofChart (Chart.ofSource source)

namespace Verdict

def remark (denyWarnings : Bool) (w : Warning) : Diagnostic :=
  { Diagnostic.ofWarning w with severity := if denyWarnings then .error else .warning }

structure Accepted (denyWarnings : Bool) (source : String) : Prop where
  errors   : (Chart.ofSource source).errors = []
  faults   : (Machine.ofSource source).faults = []
  warnings : denyWarnings = false ∨ (Machine.ofSource source).resolve.warnings = []

-- What a source is rejected for: all that is found at the first stage at which something is wrong.
-- A machine with faults is not resolved.
inductive Rejected (denyWarnings : Bool) (source : String) : List Diagnostic → Prop
  | unreadable : (Chart.ofSource source).errors ≠ [] →
    Rejected denyWarnings source ((Chart.ofSource source).errors.map .ofError)
  | faulty : (Chart.ofSource source).errors = [] → (Machine.ofSource source).faults ≠ [] →
    Rejected denyWarnings source
      ((Machine.ofSource source).faults.map .ofFault ++
        (Machine.ofSource source).warnings.map (remark denyWarnings))
  | denied : (Chart.ofSource source).errors = [] → (Machine.ofSource source).faults = [] →
    denyWarnings → (Machine.ofSource source).resolve.warnings ≠ [] →
    Rejected denyWarnings source
      ((Machine.ofSource source).resolve.warnings.map (remark denyWarnings))

variable {denyWarnings : Bool} {source : String} {m : Machine} {ds ds' : List Diagnostic}

theorem isError_remark (w : Warning) : (remark denyWarnings w).isError = denyWarnings := by
  cases denyWarnings <;> rfl

theorem remark_false : remark false = .ofWarning :=
  rfl

theorem Rejected.exists_error (h : Rejected denyWarnings source ds) :
    ∃ d ∈ ds, d.severity = .error := by
  cases h
  case unreadable he =>
    obtain ⟨e, es, he⟩ := List.exists_cons_of_ne_nil he
    exact ⟨.ofError e, by simp [he], rfl⟩
  case faulty hf =>
    obtain ⟨f, fs, hf⟩ := List.exists_cons_of_ne_nil hf
    exact ⟨.ofFault f, by simp [hf], rfl⟩
  case denied hd hw =>
    obtain ⟨w, ws, hw⟩ := List.exists_cons_of_ne_nil hw
    exact ⟨remark denyWarnings w, by simp [hw], if_pos hd⟩

theorem Rejected.not_accepted (h : Rejected denyWarnings source ds) :
    ¬Accepted denyWarnings source := by
  rintro ⟨he, hf, hw⟩
  cases h
  case unreadable he' => exact he' he
  case faulty hf'     => exact hf' hf
  case denied hd hw'  => exact hw.elim (fun h => Bool.false_ne_true (h ▸ hd)) hw'

theorem Rejected.unique (h : Rejected denyWarnings source ds)
    (h' : Rejected denyWarnings source ds') : ds = ds' := by
  cases h
  case unreadable he =>
    cases h'
    case unreadable                      => rfl
    case faulty he' _ | denied he' _ _ _ => exact absurd he' he
  case faulty he hf =>
    cases h'
    case unreadable he'   => exact absurd he he'
    case faulty           => rfl
    case denied _ hf' _ _ => exact absurd hf' hf
  case denied he hf _ _ =>
    cases h'
    case unreadable he' => exact absurd he he'
    case faulty _ hf'   => exact absurd hf hf'
    case denied         => rfl

section Check

theorem diagnostics_eq :
    m.diagnostics denyWarnings = m.faults.map .ofFault ++ m.warnings.map (remark denyWarnings) := by
  cases denyWarnings <;> rfl

theorem any_isError_iff : (m.diagnostics denyWarnings).any (·.isError) ↔
    m.faults ≠ [] ∨ denyWarnings ∧ m.warnings ≠ [] := by
  have hf (f : Fault) : (Diagnostic.ofFault f).isError = true := rfl
  rw [diagnostics_eq]
  cases m.faults <;> cases m.warnings <;> simp [isError_remark, hf]

theorem check_eq_rejection (h : m.faults ≠ [] ∨ denyWarnings ∧ m.warnings ≠ []) :
    m.check denyWarnings =
      .error ⟨m.faults.map .ofFault ++ m.warnings.map (remark denyWarnings)⟩ := by
  rw [Machine.check, if_pos <| any_isError_iff.mpr h, diagnostics_eq]

theorem check_eq_warnings (hf : m.faults = []) (hw : denyWarnings = false ∨ m.warnings = []) :
    m.check denyWarnings = .ok (m.warnings.map .ofWarning) := by
  have hn : ¬(m.diagnostics denyWarnings).any (·.isError) := by
    rw [any_isError_iff]
    grind
  rw [Machine.check, if_neg hn, diagnostics_eq, hf, List.map_nil, List.nil_append]
  cases hw
  case inl hd => rw [hd, remark_false]
  case inr hw => rw [hw, List.map_nil, List.map_nil]

end Check

end Verdict

namespace Settings

open Verdict

def productOf (s : Settings) (m : Machine) : Product :=
  if s.optimize then .dispatch m.dispatch else .machine m

variable {s : Settings} {source : String} {ds : List Diagnostic}

section Stages

theorem result_parse : (parse source).result =
    if (Chart.ofSource source).errors = [] then .ok (Chart.ofSource source)
    else .error (.rejected ⟨(Chart.ofSource source).errors.map .ofError⟩ source) := by
  by_cases h : (Chart.ofSource source).errors = []
  case pos => simp [parse, Chart.rejection?, Chart.hasErrors, h, Except.bind]
  case neg => simp [parse, Chart.rejection?, Chart.hasErrors, h, Except.bind]

theorem analyze_of_errors (h : (Chart.ofSource source).errors ≠ []) : (s.analyze source).result =
    .error (.rejected ⟨(Chart.ofSource source).errors.map .ofError⟩ source) := by
  rw [analyze, Outcome.result_bind, result_parse, if_neg h]
  rfl

section Readable

variable (h : (Chart.ofSource source).errors = [])
include h

theorem analyze_of_rejection {r : Rejection}
    (hc : (Chart.ofSource source).resolved.check s.denyWarnings = .error r) :
    (s.analyze source).result = .error (.rejected r source) := by
  rw [analyze, Outcome.result_bind, result_parse, if_pos h]
  simp [Except.bind, hc]

theorem analyze_of_check (hc : (Chart.ofSource source).resolved.check s.denyWarnings = .ok ds) :
    (s.analyze source).result = .ok ((Chart.ofSource source).resolved, ds) := by
  rw [analyze, Outcome.result_bind, result_parse, if_pos h]
  cases ds <;> simp [Except.bind, hc]

end Readable

theorem resolved_of_faults (h : (Machine.ofSource source).faults ≠ []) :
    (Chart.ofSource source).resolved = Machine.ofSource source := by
  simp [Chart.resolved, Machine.hasFaults, h]

theorem resolved_of_no_faults (h : (Machine.ofSource source).faults = []) :
    (Chart.ofSource source).resolved = (Machine.ofSource source).resolve := by
  simp [Chart.resolved, Machine.hasFaults, h]

theorem analyze_cases :
    (Accepted s.denyWarnings source ∧ (s.analyze source).result = .ok
      ((Machine.ofSource source).resolve,
        (Machine.ofSource source).resolve.warnings.map .ofWarning)) ∨
    ∃ ds, Rejected s.denyWarnings source ds ∧
      (s.analyze source).result = .error (.rejected ⟨ds⟩ source) := by
  by_cases he : (Chart.ofSource source).errors = []
  case neg => exact .inr ⟨_, .unreadable he, analyze_of_errors he⟩
  by_cases hf : (Machine.ofSource source).faults = []
  case neg =>
    refine .inr ⟨_, .faulty he hf, analyze_of_rejection he ?_⟩
    rw [resolved_of_faults hf, check_eq_rejection <| .inl hf]
  have hr : (Machine.ofSource source).resolve.faults = [] := Machine.faults_resolve.trans hf
  rw [← resolved_of_no_faults hf]
  by_cases hw : s.denyWarnings = false ∨ (Machine.ofSource source).resolve.warnings = []
  case pos =>
    refine .inl ⟨⟨he, hf, hw⟩, analyze_of_check he ?_⟩
    rw [resolved_of_no_faults hf, check_eq_warnings hr hw]
  case neg =>
    obtain ⟨hd, hw⟩ := not_or.mp hw
    have hd : s.denyWarnings := by simpa using hd
    refine .inr ⟨_, .denied he hf hd hw, analyze_of_rejection he ?_⟩
    rw [resolved_of_no_faults hf, check_eq_rejection <| .inr ⟨hd, hw⟩, hr, List.map_nil,
      List.nil_append]

theorem result_compile :
    (s.compile source).result = (s.analyze source).result.map fun x => ⟨s.productOf x.1, x.2⟩ := by
  rw [compile, Outcome.result_bind]
  cases (s.analyze source).result
  case error => rfl
  case ok x  => cases h : s.optimize <;> simp [productOf, h, Except.bind, Except.map]

theorem compile_cases (s : Settings) (source : String) :
    (Accepted s.denyWarnings source ∧ (s.compile source).result = .ok
      ⟨s.productOf (Machine.ofSource source).resolve,
        (Machine.ofSource source).resolve.warnings.map .ofWarning⟩) ∨
    ∃ ds, Rejected s.denyWarnings source ds ∧
      (s.compile source).result = .error (.rejected ⟨ds⟩ source) := by
  rw [result_compile]
  refine analyze_cases.imp (fun ⟨ha, hr⟩ => ⟨ha, ?_⟩) (fun ⟨ds, hds, hr⟩ => ⟨ds, hds, ?_⟩)
  all_goals
    rw [hr]
    rfl

end Stages

theorem result_eq_error_iff {f : Failure} : (s.compile source).result = .error f ↔
    ∃ ds, Rejected s.denyWarnings source ds ∧ f = .rejected ⟨ds⟩ source := by
  cases compile_cases s source
  case inl h =>
    rw [h.2]
    refine iff_of_false (fun h => by cases h) fun ⟨ds, hds, _⟩ => hds.not_accepted h.1
  case inr h =>
    obtain ⟨ds, hds, hr⟩ := h
    rw [hr]
    constructor
    case mp =>
      intro h
      exact ⟨ds, hds, (Except.error.inj h).symm⟩
    case mpr =>
      rintro ⟨ds', hds', rfl⟩
      rw [hds.unique hds']

theorem result_eq_ok_iff {x : Compiled} : (s.compile source).result = .ok x ↔
    Accepted s.denyWarnings source ∧ x = ⟨s.productOf (Machine.ofSource source).resolve,
      (Machine.ofSource source).resolve.warnings.map .ofWarning⟩ := by
  cases compile_cases s source
  case inl h =>
    rw [h.2, Except.ok.injEq, eq_comm]
    exact (and_iff_right h.1).symm
  case inr h =>
    obtain ⟨ds, hds, hr⟩ := h
    rw [hr]
    exact iff_of_false (fun h => by cases h) fun h => hds.not_accepted h.1

-- A source is compiled if nothing is wrong with it, and else rejected for all that is wrong at the
-- first stage. What is made of the machine has no part in that.
theorem compile_exact (s : Settings) (source : String) :
    ((∃ x, (s.compile source).result = .ok x) ↔ Accepted s.denyWarnings source) ∧
    (∀ x, (s.compile source).result = .ok x →
      x.warnings = (Machine.ofSource source).resolve.warnings.map .ofWarning ∧
      ∀ d ∈ x.warnings, d.severity = .warning) ∧
    (∀ f, (s.compile source).result = .error f ↔
      ∃ ds, Rejected s.denyWarnings source ds ∧ f = .rejected ⟨ds⟩ source) ∧
    (∀ ds, Rejected s.denyWarnings source ds → ∃ d ∈ ds, d.severity = .error) ∧
    ∀ optimize : Bool,
      (∀ f, ({ s with optimize }.compile source).result = .error f ↔
        (s.compile source).result = .error f) ∧
      ∀ x, (s.compile source).result = .ok x → ({ s with optimize }.compile source).result = .ok
        ⟨{ s with optimize }.productOf (Machine.ofSource source).resolve, x.warnings⟩ := by
  refine ⟨?accepted, fun x hx => ?warnings, fun f => result_eq_error_iff, fun ds => (·.exists_error),
    fun optimize => ⟨fun f => ?failure, fun x hx => ?product⟩⟩
  case accepted =>
    simp only [result_eq_ok_iff]
    exact ⟨fun h => h.choose_spec.1, fun h => ⟨_, h, rfl⟩⟩
  case warnings =>
    obtain ⟨_, rfl⟩ := result_eq_ok_iff.mp hx
    refine ⟨rfl, fun d hd => ?_⟩
    obtain ⟨w, _, rfl⟩ := List.mem_map.mp hd
    rfl
  case failure => rw [result_eq_error_iff, result_eq_error_iff]
  case product =>
    obtain ⟨ha, rfl⟩ := result_eq_ok_iff.mp hx
    exact result_eq_ok_iff.mpr ⟨ha, rfl⟩

end Settings

-- `i` is both abstract and concrete, and its superstates have the same substates.
def Source.mixedStates : String :=
  "fsm:f initial:i \x7b (a) e - - (b) g - - (i):a:b h - - i l - - \x7d"

def Chart.mixedStates : Chart where
  headers := [⟨"fsm", "f"⟩, ⟨"initial", "i"⟩]
  blocks  := [
    ⟨{ name := "a", isAbstract := true },                       [{ event := "e" }]⟩,
    ⟨{ name := "b", isAbstract := true },                       [{ event := "g" }]⟩,
    ⟨{ name := "i", isAbstract := true, supers := ["a", "b"] }, [{ event := "h" }]⟩,
    ⟨{ name := "i" },                                           [{ event := "l" }]⟩
  ]
  closed := true

theorem Settings.compile_exact_mixedStates :
    (∃ x, (compile ⟨true, false⟩ Source.mixedStates).result = .ok x ∧
      x.warnings.map (·.code) =
        [some (.warning .inconsistentAbstraction), some (.warning .implicitSuper)] ∧
      (∀ d ∈ x.warnings, d.severity = .warning) ∧
      (compile ⟨false, false⟩ Source.mixedStates).result =
        .ok ⟨.machine (Machine.ofSource Source.mixedStates).resolve, x.warnings⟩) ∧
    ∃ ds, (compile ⟨true, true⟩ Source.mixedStates).result =
        .error (.rejected ⟨ds⟩ Source.mixedStates) ∧
      ∃ d ∈ ds, d.severity = .error := by
  have hc : Chart.ofSource Source.mixedStates = .mixedStates := by decide +kernel
  have he : (Chart.ofSource Source.mixedStates).errors = [] := by rw [hc]; rfl
  have hf : (Machine.ofSource Source.mixedStates).faults = [] := by
    rw [Machine.ofSource, hc]
    decide +kernel
  have hw : (Machine.ofSource Source.mixedStates).resolve.warnings =
      [.inconsistentAbstraction "i", .implicitSuper "b" "a"] := by
    rw [Machine.ofSource, hc]
    decide +kernel
  obtain ⟨hok, hwarnings, _, _, hoptimize⟩ := compile_exact ⟨true, false⟩ Source.mixedStates
  obtain ⟨_, _, herror, hsevere, _⟩ := compile_exact ⟨true, true⟩ Source.mixedStates
  obtain ⟨x, hx⟩ := hok.mpr ⟨he, hf, .inl rfl⟩
  have hd : Verdict.Rejected true Source.mixedStates _ :=
    .denied he hf rfl (hw ▸ List.cons_ne_nil _ _)
  refine ⟨⟨x, hx, ?_, (hwarnings x hx).2, (hoptimize false).2 x hx⟩,
    _, (herror _).mpr ⟨_, hd, rfl⟩, hsevere _ hd⟩
  rw [(hwarnings x hx).1, hw]
  rfl

end Statechart
