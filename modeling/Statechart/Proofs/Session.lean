import Statechart.Proofs.Verdict
import Statechart.Session

namespace Statechart

theorem Text.fromUTF8?_eq_some_iff {bytes : ByteArray} {text : String} :
    String.fromUTF8? bytes = some text ↔ bytes = text.toUTF8 := by
  constructor
  case mp =>
    intro h
    unfold String.fromUTF8? at h
    split at h
    case isTrue  => cases h; rfl
    case isFalse => cases h
  case mpr =>
    rintro rfl
    simp only [String.fromUTF8?, String.toUTF8_eq_toByteArray, dif_pos text.isValidUTF8]
    rfl

namespace Outcome

variable {α β : Type} {x : Outcome α} {f : α → Outcome β} {b : β} {e : Failure}

theorem result_bind_eq_ok :
    (x >>= f).result = .ok b ↔ ∃ a, x.result = .ok a ∧ (f a).result = .ok b := by
  rw [result_bind]
  cases x.result <;> simp [Except.bind]

theorem result_bind_eq_error : (x >>= f).result = .error e ↔
    x.result = .error e ∨ ∃ a, x.result = .ok a ∧ (f a).result = .error e := by
  rw [result_bind]
  cases x.result <;> simp [Except.bind]

theorem result_forM_note {as : List α} {n : α → Note} :
    (as.forM fun a => note (n a)).result = .ok () := by
  induction as
  case nil          => rfl
  case cons a as hi =>
    change (note (n a) >>= fun _ => as.forM fun a => note (n a)).result = .ok ()
    rw [result_bind, result_note]
    exact hi

end Outcome

namespace Session

namespace File

def Reads (file : File) (text : String) : Prop :=
  file = .holding text.toUTF8

inductive Resists : File → Obstacle → Prop
  | missing    : Resists .missing .missingFile
  | unreadable : Resists (.unreadable reason) (.refused reason)
  | invalid    : (∀ text : String, bytes ≠ text.toUTF8) → Resists (.holding bytes) .invalidText

variable {file : File} {text : String} {f : Failure}

theorem isMissing_iff : file.isMissing ↔ file = .missing := by
  cases file <;> simp [isMissing]

theorem result_read_eq_ok : file.read.result = .ok text ↔ file.Reads text := by
  cases file
  case missing | unreadable => simp [read, Reads]
  case holding bytes =>
    rw [Reads, holding.injEq, ← Text.fromUTF8?_eq_some_iff, read]
    cases String.fromUTF8? bytes <;> simp

theorem result_read_eq_error :
    file.read.result = .error f ↔ ∃ o, file.Resists o ∧ f = .blocked o := by
  constructor
  case mp =>
    intro h
    cases file
    case missing    => exact ⟨_, .missing, (Except.error.inj h).symm⟩
    case unreadable => exact ⟨_, .unreadable, (Except.error.inj h).symm⟩
    case holding bytes =>
      rw [read] at h
      split at h
      case h_1 => cases h
      case h_2 hn =>
        refine ⟨_, .invalid fun text ht => ?_, (Except.error.inj h).symm⟩
        rw [Text.fromUTF8?_eq_some_iff.mpr ht] at hn
        cases hn
  case mpr =>
    rintro ⟨o, ho, rfl⟩
    cases ho
    case missing | unreadable => rfl
    case invalid bytes hn =>
      have h : String.fromUTF8? bytes = none := by
        refine Option.eq_none_iff_forall_ne_some.mpr fun text ht => ?_
        exact hn text <| Text.fromUTF8?_eq_some_iff.mp ht
      rw [read, h]
      rfl

end File

-- The configuration that counts is the first there is. One that was asked for counts in any case.
inductive Counts (s : Session) : File → Prop
  | given {g : Given} : s.given = some g → Counts s g.file
  | here   : s.given = none → s.localConfiguration ≠ .missing → Counts s s.localConfiguration
  | system : s.given = none → s.localConfiguration = .missing → s.systemConfiguration ≠ .missing →
    Counts s s.systemConfiguration

inductive Configured (s : Session) (format : Settings.Format) : Settings → Prop
  | file {file : File} : s.Counts file → file.Reads text → format text = some c →
    Configured s format c
  | default : s.given = none → s.localConfiguration = .missing → s.systemConfiguration = .missing →
    Configured s format { optimize := true, denyWarnings := false }

inductive Misconfigured (s : Session) (format : Settings.Format) : Obstacle → Prop
  | missing {g : Given} : s.given = some g → g.file = .missing →
    Misconfigured s format (.missingConfiguration g.path)
  | unreadable {file : File} : s.Counts file → file ≠ .missing → file.Resists o →
    Misconfigured s format o
  | malformed {file : File} : s.Counts file → file.Reads text → format text = none →
    Misconfigured s format .malformedConfiguration

def adjusted (s : Session) (c : Settings) : Settings where
  optimize     := c.optimize && !s.noOptimize
  denyWarnings := c.denyWarnings

inductive Writes (s : Session) (format : Settings.Format) : String → Prop
  | done : s.Configured format c → s.source.Reads text →
    ((s.adjusted c).compile text).result = .ok x → (∀ o, s.destination ≠ .blocked o) →
    Writes s format x.render

-- A step of a run fails, and those before it succeed.
inductive Fails (s : Session) (format : Settings.Format) : Failure → Prop
  | configuration : s.Misconfigured format o → Fails s format (.blocked o)
  | reading       : s.Configured format c → s.source.Resists o → Fails s format (.blocked o)
  | compilation   : s.Configured format c → s.source.Reads text →
    ((s.adjusted c).compile text).result = .error f → Fails s format f
  | writing       : s.Configured format c → s.source.Reads text →
    ((s.adjusted c).compile text).result = .ok x → s.destination = .blocked o →
    Fails s format (.blocked o)

variable {s : Session} {format : Settings.Format} {c : Settings} {file : File} {f : Failure}

section Configuration

theorem result_loadSettings_eq_ok : (loadSettings format file).result = .ok c ↔
    ∃ text, file.Reads text ∧ format text = some c := by
  simp only [loadSettings, Outcome.result_bind_eq_ok, File.result_read_eq_ok]
  refine exists_congr fun text => and_congr_right fun _ => ?_
  cases format text <;> simp

theorem result_loadSettings_eq_error : (loadSettings format file).result = .error f ↔
    (∃ o, file.Resists o ∧ f = .blocked o) ∨
    ∃ text, file.Reads text ∧ format text = none ∧ f = .blocked .malformedConfiguration := by
  simp only [loadSettings, Outcome.result_bind_eq_error, File.result_read_eq_ok,
    File.result_read_eq_error]
  refine or_congr_right <| exists_congr fun text => and_congr_right fun _ => ?_
  cases format text <;> simp [eq_comm]

theorem File.Reads.ne_missing {text : String} (h : file.Reads text) : file ≠ .missing := by
  rw [h]
  intro hm
  cases hm

theorem result_configuration_of_counts (h : s.Counts file) (hm : file ≠ .missing) :
    (s.configuration format).result = (loadSettings format file).result := by
  rw [ne_eq, ← File.isMissing_iff, Bool.not_eq_true] at hm
  cases h with
  | given hg       => simp [configuration, hg, hm, Except.bind]
  | here hg _      => simp [configuration, hg, hm, Except.bind]
  | system hg hl _ =>
    have hl : s.localConfiguration.isMissing := File.isMissing_iff.mpr hl
    simp [configuration, hg, hl, hm, Except.bind]

theorem result_configuration_of_missing {g : Given} (hg : s.given = some g)
    (hm : g.file = .missing) : (s.configuration format).result =
      .error (.blocked (.missingConfiguration g.path)) := by
  simp [configuration, hg, hm, File.isMissing, Except.bind]

theorem result_configuration_of_none (hg : s.given = none) (hl : s.localConfiguration = .missing)
    (hs : s.systemConfiguration = .missing) : (s.configuration format).result = .ok {} := by
  simp [configuration, hg, hl, hs, File.isMissing]

theorem counts_cases (s : Session) : (∃ file, s.Counts file ∧ file ≠ .missing) ∨
    (s.given = none ∧ s.localConfiguration = .missing ∧ s.systemConfiguration = .missing) ∨
    ∃ g, s.given = some g ∧ g.file = .missing := by
  cases hg : s.given
  case some g =>
    by_cases hm : g.file = .missing
    case pos => exact .inr <| .inr ⟨g, rfl, hm⟩
    case neg => exact .inl ⟨g.file, .given hg, hm⟩
  case none =>
    by_cases hl : s.localConfiguration = .missing
    case neg => exact .inl ⟨_, .here hg hl, hl⟩
    by_cases hs : s.systemConfiguration = .missing
    case neg => exact .inl ⟨_, .system hg hl hs, hs⟩
    exact .inr <| .inl ⟨rfl, hl, hs⟩

theorem result_configuration_eq_ok :
    (s.configuration format).result = .ok c ↔ s.Configured format c := by
  constructor
  case mp =>
    intro h
    obtain ⟨file, hc, hm⟩ | ⟨hg, hl, hs⟩ | ⟨g, hg, hm⟩ := s.counts_cases
    · rw [result_configuration_of_counts hc hm, result_loadSettings_eq_ok] at h
      obtain ⟨text, ht, hf⟩ := h
      exact .file hc ht hf
    · rw [result_configuration_of_none hg hl hs] at h
      cases h
      exact .default hg hl hs
    · rw [result_configuration_of_missing hg hm] at h
      cases h
  case mpr =>
    intro h
    cases h
    case file hc ht hf =>
      rw [result_configuration_of_counts hc ht.ne_missing, result_loadSettings_eq_ok]
      exact ⟨_, ht, hf⟩
    case default hg hl hs => exact result_configuration_of_none hg hl hs

theorem result_configuration_eq_error :
    (s.configuration format).result = .error f ↔ ∃ o, s.Misconfigured format o ∧ f = .blocked o := by
  constructor
  case mp =>
    intro h
    obtain ⟨file, hc, hm⟩ | ⟨hg, hl, hs⟩ | ⟨g, hg, hm⟩ := s.counts_cases
    · rw [result_configuration_of_counts hc hm, result_loadSettings_eq_error] at h
      obtain ⟨o, ho, rfl⟩ | ⟨text, ht, hf, rfl⟩ := h
      · exact ⟨o, .unreadable hc hm ho, rfl⟩
      · exact ⟨_, .malformed hc ht hf, rfl⟩
    · rw [result_configuration_of_none hg hl hs] at h
      cases h
    · rw [result_configuration_of_missing hg hm] at h
      cases h
      exact ⟨_, .missing hg hm, rfl⟩
  case mpr =>
    rintro ⟨o, ho, rfl⟩
    cases ho
    case missing hg hm => exact result_configuration_of_missing hg hm
    case unreadable hc hm ho =>
      rw [result_configuration_of_counts hc hm, result_loadSettings_eq_error]
      exact .inl ⟨o, ho, rfl⟩
    case malformed hc ht hf =>
      rw [result_configuration_of_counts hc ht.ne_missing, result_loadSettings_eq_error]
      exact .inr ⟨_, ht, hf, rfl⟩

end Configuration

section Runs

variable {text output : String}

theorem result_settings_eq_ok : (s.settings format).result = .ok c ↔
    ∃ c', s.Configured format c' ∧ c = s.adjusted c' := by
  simp only [settings, Outcome.result_bind_eq_ok, result_configuration_eq_ok, Outcome.result_pure,
    Except.ok.injEq, eq_comm (a := c)]
  rfl

theorem result_settings_eq_error :
    (s.settings format).result = .error f ↔ ∃ o, s.Misconfigured format o ∧ f = .blocked o := by
  simp only [settings, Outcome.result_bind_eq_error, result_configuration_eq_error,
    Outcome.result_pure, reduceCtorEq, and_false, exists_false, or_false]

theorem result_product_eq_ok : (s.product format).result = .ok output ↔ ∃ c text x,
    s.Configured format c ∧ s.source.Reads text ∧ ((s.adjusted c).compile text).result = .ok x ∧
    x.render = output := by
  simp only [product, Outcome.result_bind_eq_ok, Outcome.result_note, Outcome.result_forM_note,
    result_settings_eq_ok, File.result_read_eq_ok, Outcome.result_pure, Except.ok.injEq]
  grind

theorem result_product_eq_error : (s.product format).result = .error f ↔
    (∃ o, s.Misconfigured format o ∧ f = .blocked o) ∨
    ∃ c, s.Configured format c ∧ ((∃ o, s.source.Resists o ∧ f = .blocked o) ∨
      ∃ text, s.source.Reads text ∧ ((s.adjusted c).compile text).result = .error f) := by
  simp only [product, Outcome.result_bind_eq_error, Outcome.result_note, Outcome.result_forM_note,
    result_settings_eq_ok, result_settings_eq_error, File.result_read_eq_ok,
    File.result_read_eq_error, Outcome.result_pure]
  grind

theorem output_run_eq_some : (s.run format).output = some output ↔
    (s.product format).result = .ok output ∧ ∀ o, s.destination ≠ .blocked o := by
  rw [run, write]
  cases (s.product format).result <;> cases s.destination <;> simp

theorem result_run_eq_error : (s.run format).result = .error f ↔
    (s.product format).result = .error f ∨
    ∃ output o, (s.product format).result = .ok output ∧ s.destination = .blocked o ∧
      f = .blocked o := by
  rw [run, write]
  cases (s.product format).result <;> cases s.destination <;> simp [eq_comm]

theorem isSome_output_run_iff : (s.run format).output.isSome ↔ (s.run format).result = .ok () := by
  rw [run, write]
  cases (s.product format).result <;> cases s.destination <;> simp

theorem output_run_eq_some_iff :
    (s.run format).output = some output ↔ s.Writes format output := by
  rw [output_run_eq_some, result_product_eq_ok]
  constructor
  case mp =>
    rintro ⟨⟨c, text, x, hc, ht, hx, rfl⟩, hd⟩
    exact .done hc ht hx hd
  case mpr =>
    rintro ⟨hc, ht, hx, hd⟩
    exact ⟨⟨_, _, _, hc, ht, hx, rfl⟩, hd⟩

theorem result_run_eq_error_iff : (s.run format).result = .error f ↔ s.Fails format f := by
  rw [result_run_eq_error, result_product_eq_error]
  constructor
  case mp =>
    rintro ((⟨o, ho, rfl⟩ | ⟨c, hc, ⟨o, ho, rfl⟩ | ⟨text, ht, hf⟩⟩) | ⟨output, o, hp, hd, rfl⟩)
    · exact .configuration ho
    · exact .reading hc ho
    · exact .compilation hc ht hf
    · obtain ⟨c, text, x, hc, ht, hx, _⟩ := result_product_eq_ok.mp hp
      exact .writing hc ht hx hd
  case mpr =>
    intro h
    cases h
    case configuration o ho            => exact .inl <| .inl ⟨o, ho, rfl⟩
    case reading c o hc ho             => exact .inl <| .inr ⟨c, hc, .inl ⟨o, ho, rfl⟩⟩
    case compilation c text hc ht hf   => exact .inl <| .inr ⟨c, hc, .inr ⟨text, ht, hf⟩⟩
    case writing c text x o hc ht hx hd =>
      have hp : (s.product format).result = .ok x.render :=
        result_product_eq_ok.mpr ⟨c, text, x, hc, ht, hx, rfl⟩
      exact .inr ⟨x.render, o, hp, hd, rfl⟩

end Runs

-- A run writes all of its output or none of it, and tells what went wrong first.
theorem run_all_or_nothing (s : Session) (format : Settings.Format) :
    ((s.run format).output.isSome ↔ (s.run format).result = .ok ()) ∧
    (∀ output, (s.run format).output = some output ↔ s.Writes format output) ∧
    (∀ f, (s.run format).result = .error f ↔ s.Fails format f) ∧
    ∀ g, s.given = some g → g.file = .missing →
      (s.run format).result = .error (.blocked (.missingConfiguration g.path)) := by
  refine ⟨isSome_output_run_iff, fun output => output_run_eq_some_iff,
    fun f => result_run_eq_error_iff, fun g hg hm => ?_⟩
  exact result_run_eq_error_iff.mpr <| .configuration <| .missing hg hm

section Sessions

def switches : Settings.Format
  | "optimize"      => some { optimize := true }
  | "deny warnings" => some { denyWarnings := true }
  | _               => none

-- The machine itself is asked for, whatever the local configuration says. That of the system, which
-- does not count, is malformed.
def plain : Session where
  source := some "fsm:f initial:s \x7bs e - -\x7d"
  localConfiguration := some "optimize"
  systemConfiguration := some ""
  noOptimize := true

def garbled : Session where
  source := .holding ⟨#[0x66, 0xff]⟩
  given := some ⟨"given", some "deny warnings"⟩
  localConfiguration := some ""
  destination := .missingDirectory

theorem run_all_or_nothing_plain :
    (∃ output, (plain.run switches).output = some output ∧
      (plain.run switches).result = .ok () ∧ plain.Writes switches output) ∧
    (garbled.run switches).result = .error (.blocked .invalidText) ∧
    (garbled.run switches).output.isSome = false ∧
    ({ plain with given := some ⟨"given", .missing⟩ }.run switches).result =
      .error (.blocked (.missingConfiguration "given")) := by
  obtain ⟨hsome, hwrites, _, _⟩ := run_all_or_nothing plain switches
  obtain ⟨hnone, _, hfails, _⟩ := run_all_or_nothing garbled switches
  obtain ⟨_, _, _, hmissing⟩ :=
    run_all_or_nothing { plain with given := some ⟨"given", .missing⟩ } switches
  obtain ⟨output, ho⟩ := Option.isSome_iff_exists.mp
    (show (plain.run switches).output.isSome by decide +kernel)
  have hr : (garbled.run switches).result = .error (.blocked .invalidText) := by
    have hc : garbled.Configured switches { denyWarnings := true } := .file (.given rfl) rfl rfl
    refine (hfails _).mpr <| .reading hc <| .invalid fun text ht => ?_
    have hn : String.fromUTF8? ⟨#[0x66, 0xff]⟩ = none := by decide +kernel
    rw [Text.fromUTF8?_eq_some_iff.mpr ht] at hn
    cases hn
  refine ⟨⟨output, ho, hsome.mp (ho ▸ rfl), (hwrites output).mp ho⟩, hr, ?_, hmissing _ rfl rfl⟩
  rw [Bool.eq_false_iff, ne_eq, hnone, hr]
  intro h
  cases h

end Sessions

end Session

end Statechart
