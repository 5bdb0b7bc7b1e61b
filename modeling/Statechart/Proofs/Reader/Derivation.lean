import Statechart.Proofs.Reader.Stage
import Statechart.Proofs.Token.Scan
import Statechart.Reader.Basic

namespace Statechart

namespace Grammar

open Reader (Phase Draft)

def Description.draft (d : Description) (h : Chart.Head) (arrows : List Arrow) : Draft where
  chart := { headers := d.headers, blocks := d.blocks.map Block.chart }
  block := some ⟨h, arrows.map Arrow.chart⟩

def Position.arrows : Position → List Arrow
  | .alone        => []
  | .after arrows => arrows

namespace Stage

def phase : Stage → Phase
  | header _                          => .header
  | headerColon ..                    => .headerColon
  | headerValue ..                    => .headerValue
  | block _                           => .stateSpec
  | abstractName _                    => .abstractName
  | abstractClose ..                  => .abstractClose
  | modifier ..                       => .modifier
  | super ..                          => .superstate
  | side _ _ .entry                   => .entryAction
  | side _ _ .exit                    => .exitAction
  | sideNames _ _ .entry _            => .entryActions
  | sideNames _ _ .exit _             => .exitActions
  | group ..                          => .group
  | event _ _ .alone _                => .singleEvent
  | event _ _ (.after _) _            => .groupEvent
  | target _ _ .alone ..              => .singleNext
  | target _ _ (.after _) ..          => .groupNext
  | actions _ _ .alone _ _ []         => .singleActions
  | actions _ _ .alone _ _ (_ :: _)   => .singleMoreActions
  | actions _ _ (.after _) _ _ []     => .groupActions
  | actions _ _ (.after _) _ _ (_ :: _) => .groupMoreActions
  | finished _                        => .finished

def draft : Stage → Draft
  | header hs                             => { chart := { headers := hs } }
  | headerColon hs n | headerValue hs n   => { chart := { headers := hs }, header := some n }
  | block d | abstractName d              => {
      chart := { headers := d.headers, blocks := d.blocks.dropLast.map Block.chart }
      block := d.blocks.getLast?.map Block.chart }
  | abstractClose d n                     => d.draft { name := n, isAbstract := true } []
  | modifier d h | super d h | side d h _ => d.draft h.chart []
  | sideNames d h s ns                    => d.draft (h.add (.actions s (.braces ns))).chart []
  | group d h as                          => d.draft h.chart as
  | event d h p e        => { d.draft h.chart p.arrows with arrow := some { event := e } }
  | target d h p e t     => { d.draft h.chart p.arrows with arrow := some ⟨e, t, []⟩ }
  | actions d h p e t ns => { d.draft h.chart p.arrows with arrow := some ⟨e, t, ns⟩ }
  | finished d           => { chart := d.chart }

-- A reader has come to a stage. Where the present state is named does not matter.
def Reads (x : Stage) (r : Reader) : Prop :=
  ∃ place, r = ⟨x.phase, { x.draft with place }⟩

end Stage

section Draft

variable {d : Description} {h : Head} {place : Option Span}

@[simp]
theorem Head.chart_add_super {n : Name} :
    (h.add (.super n)).chart = { h.chart with supers := h.chart.supers ++ [n] } := by
  simp [chart, add, Modifier.supers, Modifier.actionsOn]

@[simp]
theorem Head.chart_add_entry {g : Group} :
    (h.add (.actions .entry g)).chart = { h.chart with entry := h.chart.entry ++ g.names } := by
  simp [chart, add, Modifier.supers, Modifier.actionsOn]

@[simp]
theorem Head.chart_add_exit {g : Group} :
    (h.add (.actions .exit g)).chart = { h.chart with exit := h.chart.exit ++ g.names } := by
  simp [chart, add, Modifier.supers, Modifier.actionsOn]

theorem map_dropLast_append {α β : Type _} (f : α → β) (as : List α) :
    as.dropLast.map f ++ (as.getLast?.map f).toList = as.map f := by
  cases List.eq_nil_or_concat as
  case inl h => simp [h]
  case inr h =>
    obtain ⟨bs, b, rfl⟩ := h
    simp

theorem Stage.flush_draft : Draft.flush { (Stage.block d).draft with place } =
    { chart := { headers := d.headers, blocks := d.blocks.map Block.chart } } := by
  rw [Draft.flush, ← map_dropLast_append]
  rfl

theorem Stage.beginState_draft {n : Name} {b : Bool} {span : Span} :
    Draft.beginState { (Stage.block d).draft with place } n b span =
      { d.draft { name := n, isAbstract := b } [] with place := some span } := by
  rw [Draft.beginState, flush_draft]
  rfl

theorem Stage.close_draft :
    Draft.close { (Stage.block d).draft with place } = { chart := d.chart } := by
  rw [Draft.close, flush_draft]
  rfl

theorem Stage.draft_block_add {b : Block} : (Stage.block (d.add b)).draft =
    d.draft b.head.chart b.body.arrows := by
  simp [draft, Description.add, Description.draft, Block.chart]

theorem Stage.reads_commit {a : Arrow} {p : Position} : (commit d h a p).Reads
    ⟨(commit d h a p).phase,
      Draft.commitArrow { d.draft h.chart p.arrows with place, arrow := some a.chart }⟩ := by
  refine ⟨place, congrArg (Reader.mk _) ?_⟩
  cases p
  case alone => rw [commit, draft_block_add]; rfl
  case after => simp [commit, draft, Draft.commitArrow, Description.draft, Position.arrows]

end Draft

namespace Stage

variable {x y : Stage} {r : Reader} {t : Token} {position : Statechart.Position} {span : Span}

theorem Reads.step (hx : x.Reads r) (h : x.read t = some y) :
    y.Reads (r.step (.terminal t.terminal t.name? position span)) := by
  obtain ⟨place, rfl⟩ := hx
  revert h
  fun_cases read x t
  all_goals
    intro h
    cases h
  -- The block before is complete: a state begins, or there are no more of them.
  case case6 => exact ⟨_, congrArg (Reader.mk .modifier) beginState_draft⟩
  case case7 => exact ⟨_, congrArg (Reader.mk .finished) close_draft⟩
  case case8 => exact ⟨_, congrArg (Reader.mk .abstractClose) beginState_draft⟩
  -- The head gets another modifier, or another name in one.
  case case16 =>
    rw [Reads, draft, Head.chart_add_super]
    exact ⟨_, rfl⟩
  case case17 d h s n | case20 d h s ns =>
    cases s
    all_goals
      simp only [Reads, draft, Head.chart_add_entry, Head.chart_add_exit]
      exact ⟨_, rfl⟩
  case case18 d h s =>
    cases s
    all_goals
      simp only [Reads, draft, Head.chart_add_entry, Head.chart_add_exit, Group.names,
        List.append_nil]
      exact ⟨_, rfl⟩
  case case19 d h s n ns =>
    cases s
    all_goals
      simp only [Reads, draft, Head.chart_add_entry, Head.chart_add_exit, Group.names,
        ← List.append_assoc]
      exact ⟨_, rfl⟩
  -- The braces around arrows are closed, or an arrow is complete.
  case case21 =>
    rw [Reads, draft_block_add]
    exact ⟨_, rfl⟩
  case case26 d h p e t n => cases p <;> exact reads_commit (a := ⟨e, t, some (.single n)⟩)
  case case27 d h p e t => cases p <;> exact reads_commit (a := ⟨e, t, none⟩)
  case case30 d h p e t ns =>
    cases p <;> cases ns <;> exact reads_commit (a := ⟨e, t, some (.braces _)⟩)
  -- The phases of an arrow depend on whether it is alone.
  case case24 p _ _ | case25 p _ | case28 p _ _ => cases p <;> exact ⟨_, rfl⟩
  case case29 p _ _ ns _ => cases p <;> cases ns <;> exact ⟨_, rfl⟩
  all_goals exact ⟨_, rfl⟩

theorem isSome_read_iff : (x.read t).isSome ↔ (x.phase.row? t.terminal).isSome := by
  fun_cases phase x
  all_goals cases t
  all_goals exact .rfl

end Stage

end Grammar

namespace Reader

variable {r : Reader} {is : List Input} {t : Terminal} {name : Option Name} {position : Position}
  {span : Span}

theorem step_of_row {row : Row} (h : r.phase.row? t = some row) :
    r.step (.terminal t name position span) =
      ⟨row.next, row.edit.elim r.draft fun edit => r.draft.apply edit name span⟩ := by
  simp only [step, h]

theorem step_of_no_row (h : r.phase.row? t = none) :
    r.step (.terminal t name position span) =
      { r with draft :=
        r.draft.report r.phase.errorKind (r.phase.label ++ "|" ++ t.label) position span } := by
  simp only [step, h]

namespace Draft

variable {d : Draft}

theorem errors_apply {edit : Edit} : (d.apply edit name span).chart.errors = d.chart.errors := by
  cases edit <;> cases name <;> rfl

theorem errors_report_ne_nil {kind : Chart.ErrorKind} {message : String} :
    (d.report kind message position span).chart.errors ≠ [] := by
  simp [report]

end Draft

theorem errors_step (i : Input) : r.draft.chart.errors <+: (r.step i).draft.chart.errors := by
  cases i
  case stray => exact List.prefix_append ..
  case terminal t name position span =>
    cases h : r.phase.row? t
    case none => rw [step_of_no_row h]; exact List.prefix_append ..
    case some row =>
      rw [step_of_row h]
      cases row.edit
      case none => exact List.prefix_rfl
      case some => exact Draft.errors_apply ▸ List.prefix_rfl

theorem errors_run : r.draft.chart.errors <+: (r.run is).draft.chart.errors := by
  induction is generalizing r
  case nil          => exact List.prefix_rfl
  case cons i is hi => exact (errors_step i).trans hi

theorem errors_eq_nil_of_run (is : List Input) (h : (r.run is).draft.chart.errors = []) :
    r.draft.chart.errors = [] :=
  List.prefix_nil.mp <| h ▸ errors_run

end Reader

namespace Grammar.Stage

variable {x y : Stage} {r : Reader} {ls : List Lexeme} {ts : List Token}

theorem reads_start : (header []).Reads {} :=
  ⟨none, rfl⟩

theorem Reads.step_of_errors {l : Lexeme} (hx : x.Reads r)
    (h : (r.step (.ofLexeme l)).draft.chart.errors = []) :
    ∃ t y, l.content = .token t ∧ x.read t = some y := by
  obtain ⟨content, position, span⟩ := l
  cases content
  case stray => exact absurd h Reader.Draft.errors_report_ne_nil
  case token t =>
    cases hr : x.read t
    case some y => exact ⟨t, y, rfl, hr⟩
    case none =>
      have hrow : x.phase.row? t.terminal = none := by
        simpa [hr] using (isSome_read_iff (x := x) (t := t)).not
      obtain ⟨place, rfl⟩ := hx
      rw [Reader.Input.ofLexeme, Reader.step_of_no_row hrow] at h
      exact absurd h Reader.Draft.errors_report_ne_nil

theorem Reads.run (hx : x.Reads r) (hc : ls.map (·.content) = ts.map .token)
    (h : x.readAll ts = some y) : y.Reads (r.run (ls.map .ofLexeme)) := by
  induction ls generalizing x r ts
  case nil =>
    cases List.map_eq_nil_iff.mp hc.symm
    cases h
    exact hx
  case cons l ls hi =>
    obtain ⟨content, position, span⟩ := l
    obtain ⟨t, ts, rfl, rfl, hc'⟩ := List.map_eq_cons_iff.mp hc.symm
    obtain ⟨z, hz, h⟩ := Option.bind_eq_some_iff.mp h
    exact hi (hx.step hz) hc'.symm h

theorem Reads.exists_readAll (hx : x.Reads r)
    (h : (r.run (ls.map .ofLexeme)).draft.chart.errors = []) :
    ∃ ts y, ls.map (·.content) = ts.map .token ∧ x.readAll ts = some y := by
  induction ls generalizing x r
  case nil => exact ⟨[], x, rfl, rfl⟩
  case cons l ls hi =>
    obtain ⟨content, position, span⟩ := l
    obtain ⟨t, z, rfl, hz⟩ := hx.step_of_errors <| Reader.errors_eq_nil_of_run _ h
    obtain ⟨ts, y, hc, hy⟩ := hi (hx.step hz) h
    refine ⟨t :: ts, y, congrArg (_ :: ·) hc, ?_⟩
    rw [readAll_cons, hz]
    exact hy

theorem Reads.errors_step_atEnd {source : String} (hx : x.Reads r)
    (h : (r.step (.atEnd source)).draft.chart.errors = []) : ∃ d, x = finished d := by
  obtain ⟨place, rfl⟩ := hx
  cases x
  case finished d => exact ⟨d, rfl⟩
  case side s | sideNames s _ => cases s <;> exact absurd h (List.cons_ne_nil _ _)
  case event p _ | target p _ _ => cases p <;> exact absurd h (List.cons_ne_nil _ _)
  case actions p _ _ ns => cases p <;> cases ns <;> exact absurd h (List.cons_ne_nil _ _)
  all_goals exact absurd h (List.cons_ne_nil _ _)

end Grammar.Stage

namespace Chart

open Grammar (Description Stage)

variable {source : String} {d : Description}

theorem ofSource_eq_finish : ofSource source =
    ((Reader.run {} ((Lexeme.ofSource source).map .ofLexeme)).step (.atEnd source)).finish := by
  rw [ofSource, inputs, Reader.run, List.foldl_append]
  rfl

theorem ofSource_eq (h : (Lexeme.ofSource source).map (·.content) = d.tokens.map .token) :
    ofSource source = d.chart := by
  obtain ⟨place, hr⟩ := Stage.reads_start.run h (Stage.readAll_tokens d)
  rw [ofSource_eq_finish, hr]
  exact congrArg (fun bs => { d.chart with blocks := bs }) (List.append_nil _)

theorem exists_derivation (h : (ofSource source).errors = []) :
    ∃ d : Description, (Lexeme.ofSource source).map (·.content) = d.tokens.map .token := by
  rw [ofSource_eq_finish] at h
  obtain ⟨ts, y, hc, hy⟩ := Stage.reads_start.exists_readAll <|
    Reader.errors_eq_nil_of_run [.atEnd source] h
  obtain ⟨d, rfl⟩ := (Stage.reads_start.run hc hy).errors_step_atEnd h
  rw [hc]
  exact ⟨d, congrArg _ (Stage.tokens_readAll hy).symm⟩

-- A source is read without errors just if its tokens have a derivation. There is then no other one,
-- and the chart is what it says.
theorem reads_exactly_grammar (source : String) :
    ((ofSource source).errors = [] ↔
      Lexeme.Clean source ∧ ∃ d : Description, d.tokens = Token.ofSource source) ∧
    ∀ d : Description, Lexeme.Clean source → d.tokens = Token.ofSource source →
      (∀ d' : Description, d'.tokens = Token.ofSource source → d' = d) ∧
      (ofSource source).closed ∧ (ofSource source).headers = d.chart.headers ∧
      (ofSource source).blocks = d.chart.blocks := by
  refine ⟨⟨fun h => ?derives, fun ⟨hc, d, hd⟩ => ?reads⟩, fun d hc hd => ?unique⟩
  case derives =>
    obtain ⟨d, hd⟩ := exists_derivation h
    obtain ⟨hc, hd⟩ := Lexeme.map_content_eq_iff.mp hd
    exact ⟨hc, d, hd⟩
  case reads => rw [ofSource_eq <| Lexeme.map_content_eq_iff.mpr ⟨hc, hd⟩]; rfl
  case unique =>
    rw [ofSource_eq <| Lexeme.map_content_eq_iff.mpr ⟨hc, hd⟩]
    exact ⟨fun d' hd' => Description.tokens_injective <| hd'.trans hd.symm, rfl, rfl, rfl⟩

end Chart

-- Both spellings of a dash, a comment, and groups of no, one and two names.
def Source.layouts : String :=
  "fsm:f \x7b (a) <\x7bx y\x7d :b >z e - \x7bp\x7d // done
 b:c \x7b - a p * b \x7b\x7d \x7d \x7d"

def Grammar.layouts : Grammar.Description where
  headers := [⟨"fsm", "f"⟩]
  blocks  := [
    ⟨⟨"a", true, [.actions .entry (.braces ["x", "y"]), .super "b", .actions .exit (.single "z")]⟩,
      .single ⟨some "e", none, some (.braces ["p"])⟩⟩,
    ⟨⟨"b", false, [.super "c"]⟩,
      .braces [⟨none, some "a", some (.single "p")⟩, ⟨none, some "b", some (.braces [])⟩]⟩
  ]

theorem reads_exactly_grammar_layouts : Lexeme.Clean Source.layouts ∧
    Grammar.layouts.tokens = Token.ofSource Source.layouts ∧
    (Chart.ofSource Source.layouts).errors = [] ∧
    (Chart.ofSource Source.layouts).blocks = [
      ⟨{ name := "a", isAbstract := true, supers := ["b"], entry := ["x", "y"], exit := ["z"] },
        [{ event := "e", actions := ["p"] }]⟩,
      ⟨{ name := "b", supers := ["c"] }, [{ next := "a", actions := ["p"] }, { next := "b" }]⟩
    ] := by
  have hc : Lexeme.Clean Source.layouts := by decide +kernel
  have hd : Grammar.layouts.tokens = Token.ofSource Source.layouts := by decide +kernel
  obtain ⟨hiff, hread⟩ := Chart.reads_exactly_grammar Source.layouts
  obtain ⟨_, _, _, hblocks⟩ := hread Grammar.layouts hc hd
  exact ⟨hc, hd, hiff.mpr ⟨hc, _, hd⟩, hblocks⟩

end Statechart
