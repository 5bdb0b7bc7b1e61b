import Statechart.Dispatch.Basic
import Statechart.Proofs.Printing.Transcript

namespace Statechart.Dispatch

open Transcript

section Names

def Entry.names (e : Entry) : List Name := e.event :: e.next :: e.actions

def Table.names (t : Table) : List Name := t.state :: t.entries.flatMap Entry.names

def names (d : Dispatch) : List Name :=
  d.initial.toList ++ d.fsm.toList ++ d.actionClass.toList ++ d.tables.flatMap Table.names

end Names

section Transcript

def Entry.arrow (e : Entry) : Chart.Arrow := ⟨e.event, e.next, e.actions⟩

def Table.block (t : Table) : Chart.Block := ⟨{ name := t.state }, t.entries.map Entry.arrow⟩

def transcript (d : Dispatch) : Transcript where
  fields := [("Initial", d.initial), ("Fsm", d.fsm), ("Actions", d.actionClass)]
  blocks := d.tables.map Table.block

theorem Entry.arrow_injective : Function.Injective Entry.arrow := by
  rintro ⟨event, next, actions⟩ ⟨event', next', actions'⟩ h
  simpa [arrow] using h

theorem Table.block_injective : Function.Injective Table.block := by
  rintro ⟨state, entries⟩ ⟨state', entries'⟩ h
  simp only [block, Chart.Block.mk.injEq, Chart.Head.mk.injEq, and_true] at h
  obtain ⟨rfl, he⟩ := h
  rw [Entry.arrow_injective.list_map he]

end Transcript

section Written

theorem Entry.writes {e : Entry} (h : ∀ n ∈ e.names, n.IsWord) :
    Writes e.render e.arrow.braced.tokens := by
  simp only [names, List.forall_mem_cons] at h
  obtain ⟨he, hn, ha⟩ := h
  exact writes_arrow he hn ha

theorem Table.writes {t : Table} (h : ∀ n ∈ t.names, n.IsWord) :
    Writes t.render t.block.braced.tokens := by
  have hl : Writes "  " [] := writes_of_punctuation rfl
  obtain ⟨hs, he⟩ := List.forall_mem_cons.mp h
  have hs : Spells ("  " ++ t.state) (Chart.Head.derivation { name := t.state }).tokens :=
    hl.append_spells hs.spells
  exact writes_block hs fun e hm =>
    Entry.writes fun n hn => he n <| List.mem_flatMap_of_mem hm hn

theorem writes {d : Dispatch} (h : ∀ n ∈ d.names, n.IsWord) :
    Writes d.render d.transcript.tokens := by
  simp only [names, List.forall_mem_append, Option.mem_toList] at h
  obtain ⟨⟨⟨hi, hf⟩, ha⟩, ht⟩ := h
  have hsep : Mark ": " [.colon] := ⟨rfl, by decide⟩
  have hinitial : Writes "Initial: " [.name "Initial", .colon] :=
    writes_label (by decide) hsep rfl
  have hfsm : Writes "Fsm: " [.name "Fsm", .colon] := writes_label (by decide) hsep rfl
  -- There is no blank behind the third label.
  have hcolon : Mark ":" [.colon] := ⟨rfl, by decide⟩
  have hactions : Writes "Actions:" [.name "Actions", .colon] :=
    writes_label (by decide) hcolon rfl
  have ho : Writes "\x7b\n" [.openBrace] := writes_of_punctuation rfl
  have hfields := writes_field writes_nil hinitial hi
  rw [String.empty_append] at hfields
  have hfields := writes_field (writes_field hfields hfsm hf) hactions ha
  exact writes_of_fields (x := d.transcript) (hfields.append ho) rfl fun t hm =>
    Table.writes fun n hn => ht n <| List.mem_flatMap_of_mem hm hn

end Written

variable (d d' : Dispatch)

-- Two dispatches of one text differ at most in what is not written, the lists of all states, events
-- and actions.
theorem render_determines (h : ∀ n ∈ d.names, n.IsWord) (h' : ∀ n ∈ d'.names, n.IsWord)
    (he : d.render = d'.render) : d.fsm = d'.fsm ∧ d.initial = d'.initial ∧
      d.actionClass = d'.actionClass ∧ d.tables = d'.tables := by
  have ht : d.transcript = d'.transcript := eq_of_writes he (writes h) (writes h')
  simp only [transcript, Transcript.mk.injEq, List.cons.injEq, Prod.mk.injEq, true_and,
    and_true] at ht
  obtain ⟨⟨hi, hf, ha⟩, ht⟩ := ht
  exact ⟨hf, hi, ha, Table.block_injective.list_map ht⟩

def sparse : Dispatch where
  fsm         := none
  initial     := "Fsm"
  actionClass := "A_1"
  states      := ["Actions", "Fsm"]
  events      := ["e", "f"]
  actions     := ["g"]
  tables      := [⟨"Actions", []⟩, ⟨"Fsm", [⟨"e", "Actions", []⟩, ⟨"f", "Fsm", ["g", "g"]⟩]⟩]

theorem render_determines_sparse :
    let d' := { sparse with states := [], events := [] }
    (∀ n ∈ sparse.names, n.IsWord) ∧ (∀ n ∈ d'.names, n.IsWord) ∧ sparse.render = d'.render ∧
      sparse.fsm = d'.fsm ∧ sparse.initial = d'.initial ∧ sparse.actionClass = d'.actionClass ∧
      sparse.tables = d'.tables := by
  have h : ∀ n ∈ sparse.names, n.IsWord := by decide
  exact ⟨h, h, rfl, render_determines _ _ h h rfl⟩

end Statechart.Dispatch
