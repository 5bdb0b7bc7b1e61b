import Statechart.Proofs.Reader.Recovery
import Statechart.Proofs.Reader.Rendering

namespace Statechart

namespace Reader

-- Which of the incomplete parts of a draft there are, and whether the arrow has a next state yet.
structure Outline where
  header : Bool
  block  : Bool
  arrow  : Bool
  next   : Bool
  deriving DecidableEq

def Draft.outline (d : Draft) : Outline where
  header := d.header.isSome
  block  := d.block.isSome
  arrow  := d.arrow.isSome
  next   := d.arrow.any (·.next.isSome)

namespace Edit

def ready (o : Outline) : Edit → Bool
  | beginHeader                                => !o.header
  | commitHeader                               => o.header
  | beginState | beginAbstractState | close    => !o.arrow
  | addSuper | addEntry | addExit              => o.block
  | beginArrow | beginNilArrow                 => o.block && !o.arrow
  | setNext | setNilNext                       => o.block && o.arrow && !o.next
  | addAction | commitWithAction | commitArrow => o.block && o.arrow

def leaves (o : Outline) : Edit → Outline
  | beginHeader                               => { o with header := true }
  | commitHeader                              => { o with header := false }
  | beginState | beginAbstractState           => { o with block := true }
  | addSuper | addEntry | addExit | addAction => o
  | beginArrow | beginNilArrow                => { o with arrow := true, next := false }
  | setNext                                   => { o with next := true }
  | setNilNext                                => o
  | commitWithAction | commitArrow            => { o with arrow := false, next := false }
  | close                                     => { o with block := false }

end Edit

-- What there is in each phase. The last block stays while the next one is looked for.
def Phase.admits (o : Outline) : Phase → Bool
  | header | finished         => !o.header && !o.block && !o.arrow
  | headerColon | headerValue => o.header && !o.block && !o.arrow
  | stateSpec | abstractName  => !o.header && !o.arrow
  | abstractClose | modifier | entryAction | entryActions | exitAction | exitActions | superstate
  | group                     => !o.header && o.block && !o.arrow
  | singleEvent | groupEvent  => !o.header && o.block && o.arrow && !o.next
  | singleNext | singleActions | singleMoreActions | groupNext | groupActions
  | groupMoreActions          => !o.header && o.block && o.arrow

section Table

variable {row : Row} {o : Outline} {p : Phase}

theorem Outline.table_admits : ∀ row ∈ table, ∀ header block arrow next : Bool,
    row.phase.admits ⟨header, block, arrow, next⟩ →
      (∀ edit ∈ row.edit, edit.ready ⟨header, block, arrow, next⟩) ∧
      row.next.admits (row.edit.elim ⟨header, block, arrow, next⟩
        (·.leaves ⟨header, block, arrow, next⟩)) := by
  decide +kernel

theorem Row.admits_next (h : row ∈ table) (ho : row.phase.admits o) :
    (∀ edit ∈ row.edit, edit.ready o) ∧ row.next.admits (row.edit.elim o (·.leaves o)) :=
  Outline.table_admits row h o.header o.block o.arrow o.next ho

theorem Row.needsName_iff : ∀ row ∈ table,
    row.terminal = .name ↔ ∃ edit ∈ row.edit, edit.needsName := by
  decide +kernel

theorem Phase.header_of_admits (h : p.admits o) :
    o.header ↔ p = .headerColon ∨ p = .headerValue := by
  cases p <;> simp_all [admits]

theorem Phase.block_of_admits (h : p.admits o) (ha : o.arrow) : o.block := by
  cases p <;> simp_all [admits]

end Table

namespace Draft

variable {d : Draft} {n : Name} {edit : Edit} {name : Option Name} {span : Span}

theorem outline_apply (h : edit.ready d.outline) (hn : edit.needsName → name.isSome) :
    (d.apply edit name span).outline = edit.leaves d.outline := by
  obtain ⟨chart, header, block, place, arrow⟩ := d
  cases edit
  case setNext | setNilNext | addAction =>
    cases arrow <;> cases name <;>
      simp_all [Edit.ready, Edit.needsName, Edit.leaves, outline, apply, applyNamed, modifyArrow,
        Draft.addAction]
  all_goals
    cases name <;>
      simp_all [Edit.ready, Edit.needsName, Edit.leaves, outline, apply, applyNamed, flush,
        Draft.beginState, modifyHead, Draft.addAction, modifyArrow, Draft.commitHeader,
        Draft.commitArrow, Draft.close]

def names (d : Draft) : List Name :=
  d.chart.names ++ d.header.toList ++ d.block.toList.flatMap Chart.Block.names ++
    d.arrow.toList.flatMap Chart.Arrow.names

theorem names_flush : d.flush.names.Perm d.names := by
  refine List.perm_iff_count.mpr fun n => ?_
  simp [names, flush, Chart.names]
  omega

theorem names_beginState {b : Bool} : (d.beginState n b span).names.Perm (n :: d.names) := by
  refine .trans ?_ (names_flush.cons n)
  refine List.perm_iff_count.mpr fun n' => ?_
  simp [names, beginState, flush, Chart.Block.names, Chart.Head.names, List.count_cons]
  omega

theorem names_modifyHead {f : Chart.Head → Chart.Head} (hb : d.block.isSome)
    (hf : ∀ h, (f h).names.Perm (n :: h.names)) : (d.modifyHead f).names.Perm (n :: d.names) := by
  obtain ⟨b, hb⟩ := Option.isSome_iff_exists.mp hb
  refine List.perm_iff_count.mpr fun n' => ?_
  have := (hf b.head).count_eq n'
  simp [names, modifyHead, hb, Chart.Block.names, List.count_cons] at this ⊢
  omega

theorem names_modifyArrow {f : Chart.Arrow → Chart.Arrow} (ns : List Name) (ha : d.arrow.isSome)
    (hf : ∀ a ∈ d.arrow, (f a).names.Perm (ns ++ a.names)) :
    (d.modifyArrow f).names.Perm (ns ++ d.names) := by
  obtain ⟨a, ha⟩ := Option.isSome_iff_exists.mp ha
  refine List.perm_iff_count.mpr fun n => ?_
  have := (hf a ha).count_eq n
  simp [names, modifyArrow, ha] at this ⊢
  omega

theorem names_addAction (ha : d.arrow.isSome) : (d.addAction n).names.Perm (n :: d.names) := by
  refine names_modifyArrow [n] ha fun a _ => ?_
  refine List.perm_iff_count.mpr fun n' => ?_
  simp [Chart.Arrow.names, List.count_cons]
  omega

theorem names_commitHeader (h : d.header.isSome) :
    (d.commitHeader n).names.Perm (n :: d.names) := by
  obtain ⟨n', h⟩ := Option.isSome_iff_exists.mp h
  refine List.perm_iff_count.mpr fun n'' => ?_
  simp [names, commitHeader, h, Chart.names, List.count_cons]
  omega

-- The arrow goes into the block, so that there has to be one.
theorem names_commitArrow (h : d.arrow.isSome → d.block.isSome) :
    d.commitArrow.names.Perm d.names := by
  obtain ⟨chart, header, block, place, arrow⟩ := d
  cases arrow
  case none => cases block <;> simp [names, commitArrow, Chart.Block.names]
  case some a =>
    obtain ⟨b, rfl⟩ := Option.isSome_iff_exists.mp (h rfl)
    simp [names, commitArrow, Chart.Block.names]

theorem names_beginArrow {event : Option Name} (h : !d.arrow.isSome) :
    { d with arrow := some { event } }.names.Perm (event.toList ++ d.names) := by
  have ha : d.arrow = none := by simpa using h
  refine List.perm_iff_count.mpr fun n => ?_
  simp [names, ha, Chart.Arrow.names]
  omega

theorem names_setNext {next : Option Name} (ha : d.arrow.isSome)
    (hn : !d.arrow.any (·.next.isSome)) :
    (d.modifyArrow fun a => { a with next }).names.Perm (next.toList ++ d.names) := by
  refine names_modifyArrow _ ha fun a ha => List.perm_iff_count.mpr fun n => ?_
  have hn : a.next = none := by simpa [Option.mem_def.mp ha] using hn
  simp [Chart.Arrow.names, hn]
  omega

theorem names_applyNamed (h : edit.ready d.outline) (hn : edit.needsName) :
    (d.applyNamed edit n span).names.Perm (n :: d.names) := by
  cases edit
  case beginNilArrow | setNilNext | commitArrow | close => cases hn
  case beginHeader =>
    have hh : d.header = none := by simpa [Edit.ready, outline] using h
    refine List.perm_iff_count.mpr fun n' => ?_
    simp [names, applyNamed, hh, List.count_cons]
    omega
  case commitHeader => exact names_commitHeader h
  case beginState | beginAbstractState => exact names_beginState
  case addSuper | addEntry | addExit =>
    refine names_modifyHead h fun h => List.perm_iff_count.mpr fun n' => ?_
    simp [Chart.Head.names, List.count_cons]
    omega
  case beginArrow => exact names_beginArrow (Bool.and_eq_true_iff.mp h).2
  case setNext =>
    obtain ⟨h, hn⟩ := Bool.and_eq_true_iff.mp h
    exact names_setNext (Bool.and_eq_true_iff.mp h).2 hn
  case addAction => exact names_addAction (Bool.and_eq_true_iff.mp h).2
  case commitWithAction =>
    obtain ⟨hb, ha⟩ := Bool.and_eq_true_iff.mp h
    have hc : (d.addAction n).commitArrow.names.Perm (d.addAction n).names :=
      names_commitArrow fun _ => hb
    exact hc.trans <| names_addAction ha

theorem apply_of_needsName (h : edit.needsName) :
    d.apply edit (some n) span = d.applyNamed edit n span := by
  cases edit
  case beginNilArrow | setNilNext | commitArrow | close => cases h
  all_goals rfl

theorem names_apply (h : edit.ready d.outline) (hn : edit.needsName → name.isSome) :
    (d.apply edit name span).names.Perm
      ((if edit.needsName then name else none).toList ++ d.names) := by
  by_cases he : edit.needsName
  case pos =>
    obtain ⟨n, rfl⟩ := Option.isSome_iff_exists.mp (hn he)
    rw [if_pos he, apply_of_needsName he]
    exact names_applyNamed h he
  case neg =>
    rw [if_neg he]
    cases edit
    case beginNilArrow => exact names_beginArrow (Bool.and_eq_true_iff.mp h).2
    case setNilNext =>
      obtain ⟨h, hn⟩ := Bool.and_eq_true_iff.mp h
      exact names_setNext (Bool.and_eq_true_iff.mp h).2 hn
    case commitArrow => exact names_commitArrow fun _ => (Bool.and_eq_true_iff.mp h).1
    case close =>
      have hc : (d.apply .close name span).names = d.flush.names := rfl
      exact hc ▸ names_flush
    all_goals exact absurd rfl he

theorem names_finish (h : d.arrow.isSome → d.block.isSome) :
    d.names.Perm (d.finish.names ++ d.header.toList) := by
  refine (names_commitArrow h).symm.trans <| names_flush.symm.trans ?_
  simp [names, finish, flush, commitArrow]

end Draft

def Input.name? : Input → Option Name
  | .terminal t name .. => if t = .name then name else none
  | .stray ..           => none

def Input.Named : Input → Prop
  | .terminal t name .. => t = .name → name.isSome
  | .stray ..           => True

def Moment.edit? (m : Moment) : Option Edit :=
  match m.input with
  | .terminal t .. => (m.reader.phase.row? t).bind (·.edit)
  | .stray ..      => none

def Coherent (r : Reader) : Prop :=
  r.phase.admits r.draft.outline

variable {r : Reader} {i : Input} {is : List Input} {m : Moment}

section Steps

variable {d : Draft} {row : Row} {name : Option Name} {span : Span}

theorem mem_of_row? {p : Phase} {t : Terminal} (h : p.row? t = some row) :
    row ∈ table ∧ row.phase = p ∧ row.terminal = t := by
  have := List.find?_some h
  simp only [Bool.and_eq_true, decide_eq_true_eq] at this
  exact ⟨List.mem_of_find?_eq_some h, this⟩

theorem Row.outline_apply (hm : row ∈ table) (hr : ∀ edit ∈ row.edit, edit.ready d.outline)
    (hn : row.terminal = .name → name.isSome) :
    (row.edit.elim d fun edit => d.apply edit name span).outline =
      row.edit.elim d.outline (·.leaves d.outline) := by
  have hname := needsName_iff row hm
  cases he : row.edit
  case none => rfl
  case some edit =>
    rw [he] at hr hname
    exact Draft.outline_apply (hr edit rfl) fun h => hn <| hname.mpr ⟨edit, rfl, h⟩

theorem Row.names_apply (hm : row ∈ table) (hr : ∀ edit ∈ row.edit, edit.ready d.outline)
    (hn : row.terminal = .name → name.isSome) :
    (row.edit.elim d fun edit => d.apply edit name span).names.Perm
      ((if row.terminal = .name then name else none).toList ++ d.names) := by
  have hname := needsName_iff row hm
  cases he : row.edit
  case none =>
    rw [he] at hname
    rw [if_neg <| by simpa using hname]
    exact .refl _
  case some edit =>
    rw [he] at hr hname
    have hname : edit.needsName ↔ row.terminal = .name := by simpa using hname.symm
    simp only [← hname] at hn ⊢
    exact Draft.names_apply (hr edit rfl) hn

theorem Coherent.step_accepted (h : r.Coherent) (hn : i.Named) (ha : r.Accepts i) :
    (r.step i).Coherent ∧ (r.step i).draft.names.Perm (i.name?.toList ++ r.draft.names) := by
  obtain ⟨t, name, position, span, row, rfl, hr, hs⟩ := step_of_accepts ha
  obtain ⟨hm, hp, rfl⟩ := mem_of_row? hr
  have hadmits : row.phase.admits r.draft.outline := hp ▸ h
  obtain ⟨hready, hnext⟩ := Row.admits_next hm hadmits
  rw [hs]
  refine ⟨?_, Row.names_apply hm hready hn⟩
  rw [Coherent, Row.outline_apply hm hready hn]
  exact hnext

theorem Coherent.step (h : r.Coherent) (hn : i.Named) : (r.step i).Coherent := by
  by_cases ha : r.Accepts i
  case pos => exact (h.step_accepted hn ha).1
  case neg => rw [step_of_not_accepts ha]; exact h

end Steps

section Runs

theorem Coherent.run (h : r.Coherent) (hn : ∀ i ∈ is, i.Named) : (r.run is).Coherent := by
  induction is generalizing r
  case nil => exact h
  case cons i is hi =>
    rw [List.forall_mem_cons] at hn
    exact hi (h.step hn.1) hn.2

theorem Coherent.names_run (h : r.Coherent) (hn : ∀ i ∈ is, i.Named) :
    (r.run is).draft.names.Perm ((r.accepted is).filterMap Input.name? ++ r.draft.names) := by
  induction is generalizing r
  case nil => exact .refl _
  case cons i is hi =>
    rw [List.forall_mem_cons] at hn
    have hi := hi (h.step hn.1) hn.2
    by_cases ha : r.Accepts i
    case pos =>
      have hs := (h.step_accepted hn.1 ha).2
      have hc : (i :: (r.step i).accepted is).filterMap Input.name? =
          i.name?.toList ++ ((r.step i).accepted is).filterMap Input.name? := by
        cases hname : i.name? <;> simp [hname]
      rw [accepted_cons_of_accepts ha, hc, List.append_assoc]
      exact hi.trans <| (hs.append_left _).trans <| List.perm_append_comm_assoc ..
    case neg =>
      have hs : (r.step i).draft.names = r.draft.names := by
        rw [step_of_not_accepts ha]
        rfl
      rw [accepted_cons_of_not_accepts ha, ← hs]
      exact hi

theorem Coherent.of_mem_moments (h : r.Coherent) (hn : ∀ i ∈ is, i.Named) (hm : m ∈ r.moments is) :
    m.reader.Coherent ∧ m.input.Named := by
  induction is generalizing r
  case nil => cases hm
  case cons i is hi =>
    rw [List.forall_mem_cons] at hn
    cases List.mem_cons.mp hm
    case inl hm => exact hm ▸ ⟨h, hn.1⟩
    case inr hm => exact hi (h.step hn.1) hn.2 hm

theorem Coherent.ready {edit : Edit} (h : m.reader.Coherent) (hn : m.input.Named)
    (he : edit ∈ m.edit?) :
    edit.ready m.reader.draft.outline ∧ (edit.needsName → m.input.name?.isSome) := by
  obtain ⟨r, i⟩ := m
  cases i
  case stray => cases he
  case terminal t name position span =>
    obtain ⟨row, hr, hedit⟩ := Option.bind_eq_some_iff.mp he
    obtain ⟨hm, hp, rfl⟩ := mem_of_row? hr
    have hadmits : row.phase.admits r.draft.outline := hp ▸ h
    refine ⟨(Row.admits_next hm hadmits).1 edit hedit, fun h => ?_⟩
    have ht : row.terminal = .name := (Row.needsName_iff row hm).mpr ⟨edit, hedit, h⟩
    rw [Input.name?, if_pos ht]
    exact hn ht

end Runs

theorem named_ofLexeme (l : Lexeme) : (Input.ofLexeme l).Named := by
  obtain ⟨content, position, span⟩ := l
  cases content
  case stray   => trivial
  case token t =>
    intro ht
    cases t
    case name => rfl
    all_goals cases ht

theorem named_of_mem_inputs {source : String} (h : i ∈ Chart.inputs source) : i.Named := by
  cases List.mem_append.mp h
  case inl h =>
    obtain ⟨l, -, rfl⟩ := List.mem_map.mp h
    exact named_ofLexeme l
  case inr h =>
    rw [List.mem_singleton.mp h]
    intro ht
    cases ht

-- Nothing that is read gets lost, whatever the errors: all edits find the parts that they work on.
theorem names_conserved (source : String) :
    (∀ m ∈ moments {} (Chart.inputs source), ∀ edit ∈ m.edit?,
      edit.ready m.reader.draft.outline ∧ (edit.needsName → m.input.name?.isSome)) ∧
    ((run {} (Chart.inputs source)).draft.header.isSome ↔
      (run {} (Chart.inputs source)).phase = .headerColon ∨
      (run {} (Chart.inputs source)).phase = .headerValue) ∧
    ((accepted {} (Chart.inputs source)).filterMap Input.name?).Perm
      ((Chart.ofSource source).names ++ (run {} (Chart.inputs source)).draft.header.toList) := by
  have hn : ∀ i ∈ Chart.inputs source, i.Named := fun _ => named_of_mem_inputs
  have hstart : Coherent {} := rfl
  have hend := hstart.run hn
  refine ⟨fun m hm edit he => ?ready, Phase.header_of_admits hend, ?names⟩
  case ready =>
    obtain ⟨hc, hn⟩ := hstart.of_mem_moments hn hm
    exact hc.ready hn he
  case names =>
    have hr := hstart.names_run hn
    have hempty : ({} : Reader).draft.names = [] := rfl
    rw [hempty, List.append_nil] at hr
    exact hr.symm.trans <| Draft.names_finish <| Phase.block_of_admits hend

end Reader

-- Three inputs that are passed over, and an arrow that is not complete at the end.
def Source.torn : String := "fsm:m \x7b (a) :b ) e $ - \x7b p < q"

theorem Reader.names_conserved_torn :
    (∃ m ∈ moments {} (Chart.inputs Source.torn), m.edit? = some .addAction ∧
      Edit.addAction.ready m.reader.draft.outline ∧ m.input.name?.isSome) ∧
    (accepted {} (Chart.inputs Source.torn)).filterMap Input.name? =
      ["fsm", "m", "a", "b", "e", "p", "q"] ∧
    (Chart.ofSource Source.torn).errors.length = 4 ∧
    ((accepted {} (Chart.inputs Source.torn)).filterMap Input.name?).Perm
      ((Chart.ofSource Source.torn).names ++
        (run {} (Chart.inputs Source.torn)).draft.header.toList) := by
  obtain ⟨m, hm, he⟩ : ∃ m ∈ moments {} (Chart.inputs Source.torn), m.edit? = some .addAction := by
    decide +kernel
  obtain ⟨hready, _, hnames⟩ := names_conserved Source.torn
  obtain ⟨hr, hn⟩ := hready m hm _ he
  exact ⟨⟨m, hm, he, hr, hn rfl⟩, by decide +kernel, by decide +kernel, hnames⟩

end Statechart
