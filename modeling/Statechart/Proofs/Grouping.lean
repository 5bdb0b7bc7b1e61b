import Mathlib.Data.List.Basic
import Statechart.Machine.OfChart
import Statechart.Proofs.Distinct

namespace Statechart

section Names

variable {α : Type} {ns ns' : List Name} {s s' : NameSet}

theorem NameSet.ext_mem (h : ∀ n, n ∈ s ↔ n ∈ s') : s = s' := by
  refine NameSet.ext <| List.Perm.eq_of_pairwise (fun n n' _ _ hn hn' => ?_) s.sorted s'.sorted ?_
  · exact absurd (String.lt_trans hn hn') (String.lt_irrefl n)
  · exact (List.perm_ext_iff_of_nodup s.nodup s'.nodup).mpr h

theorem NameMap.ofNames_congr {f f' : Name → α} (hn : distinct ns = distinct ns')
    (hf : ∀ n, f n = f' n) : ofNames ns f = ofNames ns' f' := by
  cases funext hf
  exact NameMap.ext <| congrArg (List.map _) hn

end Names

namespace Chart

-- The same blocks, but that some of them stand in two parts, each with the whole head.
inductive Regroups : List Block → List Block → Prop
  | nil   : Regroups [] []
  | keep  : Regroups bs bs' → Regroups (b :: bs) (b :: bs')
  | split : Regroups bs bs' → Regroups (⟨h, as ++ as'⟩ :: bs) (⟨h, as⟩ :: ⟨h, as'⟩ :: bs')

def Head.actionFault? (c : Chart) (h : Head) : Option Fault :=
  match ((c.blocksOf h.name).find? (·.head.hasActions)).map (·.head) with
  | none => none
  | some first =>
    if first.entry = h.entry ∧ first.exit = h.exit then none else some (.actionsDiffer h.name)

theorem actionFaults_eq {c : Chart} : c.actionFaults =
    (c.blocks.filter (·.head.hasActions)).flatMap fun b => (b.head.actionFault? c).toList := by
  rw [actionFaults, List.filterMap_eq_flatMap_toList]
  refine congrArg (List.flatMap · _) <| funext fun b => congrArg Option.toList ?_
  rw [Head.actionFault?]
  cases (c.blocksOf b.head.name).find? (·.head.hasActions) <;> rfl

namespace Regroups

section Blocks

variable {α : Type} {bs bs' : List Block}

theorem refl (bs : List Block) : Regroups bs bs := by
  induction bs
  case nil       => exact .nil
  case cons b hi => exact hi.keep

theorem append_left (before : List Block) (h : Regroups bs bs') :
    Regroups (before ++ bs) (before ++ bs') := by
  induction before
  case nil       => exact h
  case cons b hi => exact hi.keep

theorem filter (h : Regroups bs bs') (p : Head → Bool) :
    Regroups (bs.filter (p ·.head)) (bs'.filter (p ·.head)) := by
  induction h
  case nil => exact .nil
  case keep b _ hi =>
    by_cases hb : p b.head
    case pos => simpa [hb] using hi.keep
    case neg => simpa [hb] using hi
  case split h as as' _ hi =>
    by_cases hh : p h
    case pos => simpa [hh] using hi.split
    case neg => simpa [hh] using hi

theorem any_head (h : Regroups bs bs') (p : Head → Bool) :
    bs.any (p ·.head) = bs'.any (p ·.head) := by
  induction h
  case nil              => rfl
  case keep hi          => simp [hi]
  case split h _ _ _ hi => by_cases hh : p h <;> simp [hh, hi]

-- The first block of some kind may have become shorter, but it has the same head.
theorem find?_head (h : Regroups bs bs') (p : Head → Bool) :
    (bs.find? (p ·.head)).map (·.head) = (bs'.find? (p ·.head)).map (·.head) := by
  induction h
  case nil              => rfl
  case keep b _ hi      => by_cases hb : p b.head <;> simp [hb, hi]
  case split h _ _ _ hi => by_cases hh : p h <;> simp [hh, hi]

theorem flatMap_eq (h : Regroups bs bs') {f : Block → List α}
    (hf : ∀ h as as', f ⟨h, as ++ as'⟩ = f ⟨h, as⟩ ++ f ⟨h, as'⟩) :
    bs.flatMap f = bs'.flatMap f := by
  induction h
  case nil      => rfl
  case keep hi  => rw [List.flatMap_cons, List.flatMap_cons, hi]
  case split hi => simp only [List.flatMap_cons, hf, hi, List.append_assoc]

variable [DecidableEq α]

theorem distinct_flatMap (h : Regroups bs bs') {f : Block → List α}
    (hf : ∀ h as as', distinct (f ⟨h, as⟩ ++ f ⟨h, as'⟩) = distinct (f ⟨h, as ++ as'⟩)) :
    distinct (bs.flatMap f) = distinct (bs'.flatMap f) := by
  induction h
  case nil     => rfl
  case keep hi => exact distinct_append_congr rfl hi
  case split h as as' _ hi =>
    rw [List.flatMap_cons, List.flatMap_cons, List.flatMap_cons, ← List.append_assoc]
    exact distinct_append_congr (hf h as as').symm hi

theorem distinct_heads (h : Regroups bs bs') (f : Head → List α) :
    distinct (bs.flatMap (f ·.head)) = distinct (bs'.flatMap (f ·.head)) :=
  h.distinct_flatMap fun _ _ _ => distinct_append_of_subset <| List.Subset.refl _

theorem mem_heads (h : Regroups bs bs') (f : Head → List α) {a : α} :
    a ∈ bs.flatMap (f ·.head) ↔ a ∈ bs'.flatMap (f ·.head) := by
  rw [← mem_distinct, h.distinct_heads, mem_distinct]

end Blocks

variable {c c' : Chart}

section States

variable (h : Regroups c.blocks c'.blocks)
include h

theorem blocksOf (n : Name) : Regroups (c.blocksOf n) (c'.blocksOf n) :=
  h.filter (·.name = n)

theorem distinct_subjects : distinct c.subjects = distinct c'.subjects := by
  simpa [subjects, List.map_eq_flatMap] using h.distinct_heads fun h => [h.name]

theorem isDefined (n : Name) : c.isDefined n = c'.isDefined n := by
  have : n ∈ c.subjects ↔ n ∈ c'.subjects := by
    rw [← mem_distinct, h.distinct_subjects, mem_distinct]
  simp [Chart.isDefined, this]

theorem isAbstract (n : Name) : c.isAbstract n = c'.isAbstract n :=
  (h.blocksOf n).any_head (·.isAbstract)

theorem state (n : Name) : c.state n = c'.state n := by
  have hb := h.blocksOf n
  have ht : c.transition? n = c'.transition? n := by
    funext a
    simp only [transition?, h.isDefined]
  have ha := hb.flatMap_eq (f := (·.arrows)) fun _ _ _ => rfl
  simp only [Chart.state, h.isAbstract, ht, ha, hb.distinct_heads (·.entry),
    hb.distinct_heads (·.exit)]
  congr 1
  refine NameSet.ext_mem fun p => ?_
  simp only [NameSet.mem_ofList, List.mem_filter, h.isDefined, hb.mem_heads (·.supers)]

theorem states : c.states = c'.states :=
  NameMap.ofNames_congr h.distinct_subjects h.state

theorem events : c.events = c'.events := by
  rw [Chart.events, h.flatMap_eq fun _ _ _ => rfl]
  rfl

theorem actions : c.actions = c'.actions := by
  refine h.distinct_flatMap fun h as as' => ?_
  rw [List.flatMap_append]
  exact distinct_append_repeat

theorem warnings : c.warnings = c'.warnings := by
  have hc (n : Name) : (c.blocksOf n).any (!·.head.isAbstract) =
      (c'.blocksOf n).any (!·.head.isAbstract) := (h.blocksOf n).any_head (!·.isAbstract)
  simp only [Chart.warnings, h.states, h.isAbstract, hc]

end States

section Faults

variable (h : Regroups c.blocks c'.blocks)
include h

theorem actionFaults : distinct c.actionFaults = distinct c'.actionFaults := by
  have hf (head : Head) : head.actionFault? c = head.actionFault? c' := by
    rw [Head.actionFault?, (h.blocksOf head.name).find?_head]
    rfl
  rw [actionFaults_eq, actionFaults_eq]
  simp only [← hf]
  exact (h.filter (·.hasActions)).distinct_heads fun head => (head.actionFault? c).toList

theorem blockFaults :
    distinct (c.blocks.flatMap c.blockFaults) = distinct (c'.blocks.flatMap c'.blockFaults) := by
  have ha : c.arrowFaults = c'.arrowFaults := by
    funext n a
    simp only [arrowFaults, h.isDefined, h.isAbstract]
  have hf : c.blockFaults = c'.blockFaults := by
    funext b
    simp only [Chart.blockFaults, ha, h.isDefined]
  rw [← hf]
  refine h.distinct_flatMap fun head as as' => ?_
  rw [Chart.blockFaults, Chart.blockFaults, Chart.blockFaults, List.flatMap_append]
  exact distinct_append_repeat

theorem duplicateFaults : c.duplicateFaults = c'.duplicateFaults := by
  have hr : c.reactions = c'.reactions := h.flatMap_eq fun _ _ _ => by simp
  rw [Chart.duplicateFaults, hr]
  rfl

theorem conflictFaults : c.conflictFaults = c'.conflictFaults := by
  rw [Chart.conflictFaults, h.states]
  rfl

theorem faults (hh : c.headers = c'.headers) : distinct c.faults = distinct c'.faults := by
  have hv (role : Role) : c.value? role = c'.value? role := by
    simp only [value?, hh]
  have hheaders : c.headerFaults = c'.headerFaults := congrArg (headerFaults.go []) hh
  have hmissing : c.missingHeaders = c'.missingHeaders := by simp only [missingHeaders, hv]
  have hinitial : c.initialFaults = c'.initialFaults := by
    simp only [initialFaults, hv, h.isDefined]
  have hused : c.used = c'.used := by simp only [used, hv, h.states]
  have hunused : c.unusedFaults = c'.unusedFaults := by
    rw [unusedFaults, hused, h.states]
    rfl
  rw [Chart.faults, hheaders, hmissing, hinitial, hunused, h.duplicateFaults, h.conflictFaults]
  iterate 4 refine distinct_append_congr ?_ rfl
  exact distinct_append_congr (distinct_append_congr rfl h.actionFaults) h.blockFaults

end Faults

end Regroups

end Chart

namespace Machine

open Chart

variable {c c' : Chart}

theorem ofChart_of_regroups (h : Regroups c.blocks c'.blocks) (hh : c.headers = c'.headers) :
    ofChart c = ofChart c' := by
  simp only [ofChart, value?, hh, h.isDefined, h.states, h.events, h.actions, h.faults hh,
    h.warnings]

-- It does not matter whether the arrows of a state stand in one block or in two.
theorem ofChart_split_block (c : Chart) (before after : List Block) (head : Head)
    (as as' : List Arrow) :
    ofChart { c with blocks := before ++ ⟨head, as⟩ :: ⟨head, as'⟩ :: after } =
      ofChart { c with blocks := before ++ ⟨head, as ++ as'⟩ :: after } := by
  symm
  exact ofChart_of_regroups (.append_left before <| .split <| .refl after) rfl

end Machine

def Chart.twoBlocks : Chart where
  headers := [⟨"fsm", "f"⟩, ⟨"initial", "s"⟩]
  blocks  := [
    ⟨{ name := "s", entry := ["in"] }, [{ event := "e" }]⟩,
    ⟨{ name := "s", entry := ["in"] }, [{ event := "g" }]⟩
  ]
  closed := true

theorem Machine.ofChart_split_block_twoBlocks :
    ofChart .twoBlocks = ofChart { Chart.twoBlocks with
      blocks := [⟨{ name := "s", entry := ["in"] }, [{ event := "e" }, { event := "g" }]⟩] } ∧
    (ofChart .twoBlocks).faults = [] ∧ (ofChart .twoBlocks).events = ["e", "g"] ∧
    ((ofChart .twoBlocks).state? "s").map (·.transitions) =
      some [⟨"e", "s", []⟩, ⟨"g", "s", []⟩] := by
  have h : ofChart .twoBlocks = _ := ofChart_split_block .twoBlocks [] []
    { name := "s", entry := ["in"] } [{ event := "e" }] [{ event := "g" }]
  refine ⟨h, ?_⟩
  rw [h]
  decide +kernel

end Statechart
