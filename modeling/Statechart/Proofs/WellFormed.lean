import Mathlib.Data.List.Nodup
import Mathlib.Data.List.Pairwise
import Statechart.Proofs.Acceptance

namespace Statechart

namespace Chart

def Agree (state first second : State) : Prop :=
  ∀ t ∈ first.transitions, ∀ u ∈ second.transitions, ∀ event,
    t.event = some event → u.event = some event → (∀ v ∈ state.transitions, v.event ≠ some event) →
    t.next = u.next ∧ t.actions = u.actions

variable {c : Chart} {b : Block} {a : Arrow} {h : Header} {role : Role} {p z n event : Name}
  {t : Transition}

section Headers

theorem headerFaults.go_eq_nil_iff {seen : List Role} {hs : List Header} :
    headerFaults.go seen hs = [] ↔
      (∀ h ∈ hs, h.role?.isSome) ∧ (hs.map Header.role?).Nodup ∧ ∀ h ∈ hs, ∀ r ∈ seen, h.role? ≠ some r := by
  induction hs generalizing seen
  case nil => simp [headerFaults.go]
  case cons h hs hi =>
    rw [headerFaults.go]
    split
    case h_1 hr => simp [hr]
    case h_2 role hr =>
      split
      case isTrue hm  =>
        refine iff_of_false (List.cons_ne_nil _ _) fun hall => ?_
        exact hall.2.2 h List.mem_cons_self role hm hr
      case isFalse hm =>
        rw [hi, List.map_cons, List.nodup_cons, List.mem_map]
        grind

theorem headerFaults_eq_nil_iff :
    c.headerFaults = [] ↔ (∀ h ∈ c.headers, h.role?.isSome) ∧ (c.headers.map Header.role?).Nodup := by
  simp [headerFaults, headerFaults.go_eq_nil_iff]

theorem isSome_value?_iff : (c.value? role).isSome ↔ ∃ h ∈ c.headers, h.role? = some role := by
  simp [value?]

theorem missingHeaders_eq_nil_iff :
    c.missingHeaders = [] ↔
      (∃ h ∈ c.headers, h.role? = some .fsm) ∧ ∃ h ∈ c.headers, h.role? = some .initial := by
  simp [missingHeaders, ← isSome_value?_iff, Option.isSome_iff_ne_none]

theorem value?_eq_some_iff (hn : (c.headers.map Header.role?).Nodup) :
    c.value? role = some n ↔ ∃ h ∈ c.headers, h.role? = some role ∧ h.value = n := by
  rw [value?, Option.map_eq_some_iff]
  constructor
  case mp =>
    rintro ⟨h, hh, hv⟩
    exact ⟨h, List.mem_of_find?_eq_some hh, by simpa using List.find?_some hh, hv⟩
  case mpr =>
    rintro ⟨h, hm, hr, hv⟩
    have hs : (c.headers.find? (·.role? = some role)).isSome := by
      simpa using ⟨h, hm, hr⟩
    obtain ⟨h', hh'⟩ := Option.isSome_iff_exists.mp hs
    have hr' : h'.role? = some role := by simpa using List.find?_some hh'
    cases List.inj_on_of_nodup_map hn (List.mem_of_find?_eq_some hh') hm (hr'.trans hr.symm)
    exact ⟨h, hh', hv⟩

theorem initialFaults_eq_nil_iff (hn : (c.headers.map Header.role?).Nodup) :
    c.initialFaults = [] ↔ ∀ h ∈ c.headers, h.role? = some .initial → h.value ∈ c.subjects := by
  have hv : c.initialFaults = [] ↔ ∀ n, c.value? .initial = some n → n ∈ c.subjects := by
    unfold initialFaults
    split
    case h_1 hv => simp [hv]
    case h_2 hv => simp [hv, isDefined]
  simp only [hv, value?_eq_some_iff hn]
  grind

end Headers

section Blocks

theorem actionFaults_eq_nil_iff :
    c.actionFaults = [] ↔ ∀ b₁ ∈ c.blocks, ∀ b₂ ∈ c.blocks, b₁.head.name = b₂.head.name →
      b₁.head.hasActions → b₂.head.hasActions →
      b₁.head.entry = b₂.head.entry ∧ b₁.head.exit = b₂.head.exit := by
  have hf : c.actionFaults = [] ↔ ∀ b ∈ c.blocks, b.head.hasActions → ∀ first,
      (c.blocksOf b.head.name).find? (·.head.hasActions) = some first →
      first.head.entry = b.head.entry ∧ first.head.exit = b.head.exit := by
    simp only [actionFaults, List.filterMap_eq_nil_iff, List.mem_filter]
    refine forall_congr' fun b => ?_
    rw [and_imp]
    refine forall₂_congr fun _ _ => ?_
    split
    case h_1 hn => simp [hn]
    case h_2 first hs => simp [hs]
  rw [hf]
  constructor
  case mp =>
    intro hall b₁ h₁ b₂ h₂ hn ha₁ ha₂
    have hs : ((c.blocksOf b₁.head.name).find? (·.head.hasActions)).isSome := by
      simpa [mem_blocksOf_iff] using ⟨b₁, ⟨h₁, rfl⟩, ha₁⟩
    obtain ⟨first, hs⟩ := Option.isSome_iff_exists.mp hs
    obtain ⟨he₁, hx₁⟩ := hall b₁ h₁ ha₁ first hs
    obtain ⟨he₂, hx₂⟩ := hall b₂ h₂ ha₂ first (hn ▸ hs)
    exact ⟨he₁.symm.trans he₂, hx₁.symm.trans hx₂⟩
  case mpr =>
    intro hall b hb ha first hs
    obtain ⟨hm, hn⟩ := mem_blocksOf_iff.mp <| List.mem_of_find?_eq_some hs
    have hf : first.head.hasActions := by simpa using List.find?_some hs
    exact hall first hm b hb hn hf ha

theorem isAbstract_iff : c.isAbstract z ↔ ∃ b ∈ c.blocks, b.head.name = z ∧ b.head.isAbstract := by
  simp [isAbstract, mem_blocksOf_iff, and_assoc]

-- An arrow that names no next state leads back to a state that is there, abstract or not.
theorem arrowFaults_eq_nil_iff (hb : b ∈ c.blocks) :
    c.arrowFaults b.head.name a = [] ↔ ∀ n, a.next = some n → n ∈ c.subjects ∧ ¬c.isAbstract n := by
  have hs : b.head.name ∈ c.subjects := List.mem_map_of_mem hb
  unfold arrowFaults Arrow.target
  cases a.next
  case none   => simp [isDefined, hs]
  case some n => by_cases hn : n ∈ c.subjects <;> simp [isDefined, hn]

theorem blockFaults_eq_nil_iff (hb : b ∈ c.blocks) :
    c.blockFaults b = [] ↔ (∀ p ∈ b.head.supers, p ∈ c.subjects) ∧
      ∀ a ∈ b.arrows, ∀ n, a.next = some n → n ∈ c.subjects ∧ ¬c.isAbstract n := by
  rw [blockFaults, List.append_eq_nil_iff, List.flatMap_eq_nil_iff]
  simp only [arrowFaults_eq_nil_iff hb]
  simp [isDefined]

theorem duplicateFaults_eq_nil_iff : c.duplicateFaults = [] ↔ c.reactions.Nodup := by
  rw [duplicateFaults, List.map_eq_nil_iff, repeats_eq_nil_iff]

end Blocks

section States

theorem mem_values_states {s : State} : s ∈ c.states.values ↔ ∃ z ∈ c.subjects, c.state z = s := by
  simp [states, NameMap.values, NameMap.ofNames]

theorem mem_used_iff (hn : (c.headers.map Header.role?).Nodup) (hz : z ∈ c.subjects) :
    z ∈ c.used ↔ c.Used z := by
  simp only [used, List.mem_append, Option.mem_toList, List.mem_flatMap, mem_values_states,
    List.mem_map, ← NameSet.mem_def]
  constructor
  case mp =>
    rintro (hi | ⟨_, ⟨x, _, rfl⟩, hs | ⟨t, ht, rfl⟩⟩)
    case inl =>
      obtain ⟨h, hh, hr, hv⟩ := value?_eq_some_iff hn |>.mp hi
      exact .initial hh hr hv
    case inr.inl => exact .super (mem_supers_state.mp hs).1
    case inr.inr =>
      obtain ⟨b, hb, rfl, a, ha, _, rfl⟩ := mem_transitions_state.mp ht
      exact .next hb ha rfl
  case mpr =>
    intro hu
    cases hu
    case initial h hh hr hv => exact .inl <| value?_eq_some_iff hn |>.mpr ⟨h, hh, hr, hv⟩
    case super x hi =>
      exact .inr ⟨_, ⟨x, hi.mem_subjects, rfl⟩, .inl <| mem_supers_state.mpr ⟨hi, hz⟩⟩
    case next b a hb ha ht =>
      refine .inr ⟨_, ⟨b.head.name, List.mem_map_of_mem hb, rfl⟩, .inr ⟨⟨a.event, _, a.actions⟩, ?_, ht⟩⟩
      exact mem_transitions_state.mpr ⟨b, hb, rfl, a, ha, ht ▸ hz, rfl⟩

theorem unusedFaults_eq_nil_iff (hn : (c.headers.map Header.role?).Nodup) :
    c.unusedFaults = [] ↔ ∀ z ∈ c.subjects, c.Used z := by
  simp only [unusedFaults, List.map_eq_nil_iff, List.filter_eq_nil_iff, states, NameMap.keys_ofNames,
    mem_distinct, decide_eq_true_eq, not_not]
  exact forall₂_congr fun _ hz => mem_used_iff hn hz

end States

section Conflicts

theorem forall_mem_pairs {α : Type _} {r : α → α → Prop} {as : List α} :
    (∀ p ∈ pairs as, r p.1 p.2) ↔ as.Pairwise r := by
  induction as
  case nil => simp [pairs]
  case cons a as hi =>
    simp only [pairs, List.mem_append, or_imp, forall_and, hi, List.pairwise_cons]
    simp

theorem Agree.symm {state first second : State} (h : Agree state first second) :
    Agree state second first := by
  intro t ht u hu event hte hue ho
  obtain ⟨hn, ha⟩ := h u hu t ht event hue hte ho
  exact ⟨hn.symm, ha.symm⟩

theorem conflicts_eq_nil_iff {state first second : State} :
    conflicts state first second = [] ↔ Agree state first second := by
  simp only [conflicts, List.filterMap_eq_nil_iff, Agree]
  refine forall₂_congr fun t _ => ?_
  cases t.event
  case none       => simp
  case some event => simp; grind

theorem conflictFaults_eq_nil_iff :
    c.conflictFaults = [] ↔ ∀ z ∈ c.subjects, ∀ p ∈ (c.state z).supers, ∀ q ∈ (c.state z).supers,
      p ≠ q → Agree (c.state z) (c.state p) (c.state q) := by
  have hget (z p : Name) (hp : p ∈ (c.state z).supers) : c.states.get? p = some (c.state p) :=
    (NameMap.get?_ofNames ..).trans <| if_pos (mem_supers_state.mp hp).2
  have hmap (z : Name) :
      (c.state z).supers.toList.filterMap c.states.get? = (c.state z).supers.toList.map c.state := by
    rw [← List.filterMap_eq_map]
    exact List.filterMap_congr fun p hp => hget z p hp
  have hentries : c.states.entries = (distinct c.subjects).map fun z => (z, c.state z) := rfl
  simp only [conflictFaults, hentries, List.flatMap_eq_nil_iff, List.map_eq_nil_iff,
    List.forall_mem_map, mem_distinct, hmap, conflicts_eq_nil_iff]
  refine forall₂_congr fun z _ => ?_
  rw [forall_mem_pairs (r := Agree (c.state z)), List.pairwise_map]
  have hsymm : Std.Symm fun p q => Agree (c.state z) (c.state p) (c.state q) := ⟨fun _ _ h => h.symm⟩
  constructor
  case mp  => exact fun h p hp q hq hne => h.forall hp hq hne
  case mpr =>
    intro h
    refine (c.state z).supers.nodup.imp_of_mem fun hp hq hne => h _ hp _ hq hne

end Conflicts

theorem Complete.agree_iff (hc : c.Complete) {q : Name} :
    Agree (c.state z) (c.state p) (c.state q) ↔ ∀ e a₁ a₂, c.Reacts p e a₁ → c.Reacts q e a₂ →
      (∀ a, ¬c.Reacts z e a) → a₁.target p = a₂.target q ∧ a₁.actions = a₂.actions := by
  constructor
  case mp =>
    intro h e a₁ a₂ h₁ h₂ ho
    obtain ⟨ht, hte⟩ := hc.mem_transitions.mpr ⟨a₁, h₁, rfl⟩
    obtain ⟨hu, hue⟩ := hc.mem_transitions.mpr ⟨a₂, h₂, rfl⟩
    refine h _ ht _ hu e hte hue fun v hv he => ?_
    obtain ⟨a, ha, _⟩ := hc.mem_transitions.mp ⟨hv, he⟩
    exact ho a ha
  case mpr =>
    intro h t ht u hu e hte hue ho
    obtain ⟨a₁, h₁, rfl⟩ := hc.mem_transitions.mp ⟨ht, hte⟩
    obtain ⟨a₂, h₂, rfl⟩ := hc.mem_transitions.mp ⟨hu, hue⟩
    refine h e a₁ a₂ h₁ h₂ fun a ha => ?_
    obtain ⟨hv, he⟩ := hc.mem_transitions.mpr ⟨a, ha, rfl⟩
    exact ho _ hv he

theorem target_mem_subjects
    (hn : ∀ b ∈ c.blocks, ∀ a ∈ b.arrows, ∀ n, a.next = some n → n ∈ c.subjects)
    (hr : c.Reacts z event a) : a.target z ∈ c.subjects := by
  obtain ⟨b, hb, rfl, ha, _⟩ := hr
  rw [Arrow.target]
  cases h : a.next
  case none   => exact List.mem_map_of_mem hb
  case some n => exact hn b hb a ha n h

-- The checks look at what is left of a chart once references that lead nowhere have been dropped. As
-- these are faults themselves, nothing is missed.
theorem faultless_iff_wellFormed (c : Chart) : (Machine.ofChart c).faults = [] ↔ c.WellFormed := by
  have hd : (Machine.ofChart c).faults = [] ↔ c.faults = [] := by
    simp [Machine.ofChart, List.eq_nil_iff_forall_not_mem]
  simp only [hd, faults, List.append_eq_nil_iff, headerFaults_eq_nil_iff, missingHeaders_eq_nil_iff,
    actionFaults_eq_nil_iff, List.flatMap_eq_nil_iff, duplicateFaults_eq_nil_iff, and_assoc]
  constructor
  case mp =>
    rintro ⟨hroles, hnodup, hfsm, hinitial, hactions, hblocks, hvalue, hused, hdup, hconflict⟩
    have hsupers {x p : Name} (hi : c.Inherits x p) : p ∈ c.subjects := by
      obtain ⟨b, hb, _, hp⟩ := hi
      exact (blockFaults_eq_nil_iff hb |>.mp <| hblocks b hb).1 p hp
    have hnext (b : Block) (hb : b ∈ c.blocks) := (blockFaults_eq_nil_iff hb |>.mp <| hblocks b hb).2
    have hc : c.Complete :=
      ⟨hsupers, target_mem_subjects fun b hb a ha n hn => (hnext b hb a ha n hn).1⟩
    exact {
      roles           := hroles
      roles_nodup     := hnodup
      fsm             := hfsm
      initial         := hinitial
      initial_defined := initialFaults_eq_nil_iff hnodup |>.mp hvalue
      supers_defined  := hsupers
      next_defined    := fun hb ha hn => (hnext _ hb _ ha _ hn).1
      next_concrete   := fun hb ha hn hb' hn' habs =>
        (hnext _ hb _ ha _ hn).2 <| isAbstract_iff.mpr ⟨_, hb', hn', habs⟩
      used            := unusedFaults_eq_nil_iff hnodup |>.mp hused _
      deterministic   := hdup
      actions_agree   := fun h₁ h₂ => hactions _ h₁ _ h₂
      supers_agree    := fun hi₁ hi₂ hne => by
        have hag := conflictFaults_eq_nil_iff.mp hconflict _ hi₁.mem_subjects
          _ (mem_supers_state.mpr ⟨hi₁, hsupers hi₁⟩) _ (mem_supers_state.mpr ⟨hi₂, hsupers hi₂⟩) hne
        exact hc.agree_iff.mp hag _ _ _
    }
  case mpr =>
    intro w
    have hc : c.Complete :=
      ⟨w.supers_defined, target_mem_subjects fun b hb a ha n hn => w.next_defined hb ha hn⟩
    refine ⟨w.roles, w.roles_nodup, w.fsm, w.initial, ?actions, fun b hb => ?blocks, ?initial, ?used,
      w.deterministic, ?conflicts⟩
    case actions => exact fun b₁ h₁ b₂ h₂ => w.actions_agree h₁ h₂
    case blocks =>
      refine blockFaults_eq_nil_iff hb |>.mpr ⟨fun p hp => w.supers_defined ⟨b, hb, rfl, hp⟩, ?_⟩
      intro a ha n hn
      refine ⟨w.next_defined hb ha hn, fun habs => ?_⟩
      obtain ⟨b', hb', hn', habs⟩ := isAbstract_iff.mp habs
      exact w.next_concrete hb ha hn hb' hn' habs
    case initial => exact initialFaults_eq_nil_iff w.roles_nodup |>.mpr w.initial_defined
    case used    => exact unusedFaults_eq_nil_iff w.roles_nodup |>.mpr fun _ => w.used
    case conflicts =>
      refine conflictFaults_eq_nil_iff.mpr fun z _ p hp q hq hne => hc.agree_iff.mpr ?_
      intro e a₁ a₂
      exact w.supers_agree (mem_supers_state.mp hp).1 (mem_supers_state.mp hq).1 hne

end Chart

end Statechart
