import Statechart.Proofs.Text.LineIndex
import Statechart.Proofs.Token.Cover
import Statechart.Reader.Basic

namespace Statechart

open Text

namespace Position

instance : LT Position where
  lt p q := p.line < q.line ∨ p.line = q.line ∧ p.column < q.column

instance (p q : Position) : Decidable (p < q) :=
  inferInstanceAs (Decidable (_ ∨ _))

theorem after_lt_append {before text : String} (h : text ≠ "") :
    after before < after (before ++ text) := by
  have hcount : (before ++ text).toList.count '\n' =
      before.toList.count '\n' + text.toList.count '\n' := by
    rw [String.toList_append, List.count_append]
  by_cases hn : '\n' ∈ text.toList
  case pos =>
    left
    have := List.count_pos_iff.mpr hn
    simp only [after, hcount]
    omega
  case neg =>
    right
    have hzero : text.toList.count '\n' = 0 := List.count_eq_zero.mpr hn
    have hpos : 0 < text.toList.length := List.length_pos_iff.mpr (by simpa using h)
    have hall : ∀ c ∈ text.toList.reverse, decide (c ≠ '\n') := by
      intro c hc
      have hne : c ≠ '\n' := fun he => hn <| he ▸ List.mem_reverse.mp hc
      simpa using hne
    have htake : (before ++ text).toList.reverse.takeWhile (· ≠ '\n') =
        text.toList.reverse ++ before.toList.reverse.takeWhile (· ≠ '\n') := by
      rw [String.toList_append, List.reverse_append, List.takeWhile_append_of_pos hall]
    simp only [after, hcount, htake, List.length_append, List.length_reverse]
    omega

theorem after_lt_after {source before before' rest rest' : String} (h : source = before ++ rest)
    (h' : source = before' ++ rest') (hlt : before.utf8ByteSize < before'.utf8ByteSize) :
    after before < after before' := by
  have hp := String.Pos.splits_ofEqAppend h
  have hp' := String.Pos.splits_ofEqAppend h'
  have hlt : String.Pos.ofEqAppend h < String.Pos.ofEqAppend h' := by
    rw [String.Pos.lt_iff, hp.offset_eq_rawEndPos, hp'.offset_eq_rawEndPos]
    exact hlt
  obtain ⟨text, hne, rfl, _⟩ := (hp.lt_iff_exists_eq_append hp').mp hlt
  exact after_lt_append hne

end Position

namespace Lexeme

variable {index : LineIndex} {l : Lexeme} {ls : List Lexeme} {before cs : List Char}
  {source : String}

theorem Tiles.position_eq (h : Tiles index before cs ls) (hl : l ∈ ls) :
    l.position = index.locate l.span.start := by
  induction h
  case done => cases hl
  case next hi =>
    cases List.mem_cons.mp hl
    case inl hl => rw [hl]; rfl
    case inr hl => exact hi hl

theorem exists_before (hl : l ∈ ofSource source) : ∃ before rest : String,
    source = before ++ rest ∧ l.span.start = before.utf8ByteSize ∧ l.position = .after before ∧
    (LineIndex.ofSource source).locate? l.span.start = some l.position := by
  have ht := tiles_ofSource source
  obtain ⟨b, t, a, he, hstart, -⟩ := ht.exists_cut hl
  rw [List.nil_append] at he
  have hlocate := LineIndex.locate?_of_toList he
  have hposition : l.position = .after (String.ofList b) := by
    rw [ht.position_eq hl, hstart, LineIndex.locate_of_toList he]
  refine ⟨String.ofList b, String.ofList (t ++ a), ?_, ?_, hposition, ?_⟩
  · rw [← String.ofList_append, ← he, String.ofList_toList]
  · rw [hstart, utf8ByteSize_ofList]
  · rw [hstart, hlocate, hposition]

-- Lexemes and the end of a source are where the text before them leads to, and each lexeme is
-- earlier than those behind it.
theorem positions_exact (source : String) :
    (∀ l ∈ ofSource source, ∃ before rest : String, source = before ++ rest ∧
      l.span.start = before.utf8ByteSize ∧ l.position = .after before ∧
      (LineIndex.ofSource source).locate? l.span.start = some l.position) ∧
    Reader.Input.atEnd source =
      .terminal .endOfInput none (.after source) (.ofLength source.utf8ByteSize 0) ∧
    (LineIndex.ofSource source).locate? source.utf8ByteSize = some (.after source) ∧
    (ofSource source).Pairwise fun l l' => l.position < l'.position := by
  have hend : (LineIndex.ofSource source).locate? source.utf8ByteSize = some (.after source) := by
    have := LineIndex.locate?_append source ""
    rwa [String.append_empty] at this
  refine ⟨fun l => exists_before, ?atEnd, hend, ?earlier⟩
  case atEnd => rw [Reader.Input.atEnd, LineIndex.locate, hend]; rfl
  case earlier =>
    have ht := tiles_ofSource source
    refine ht.pairwise.imp_of_mem fun hl hl' h => ?_
    have h := Nat.lt_of_lt_of_le (ht.start_lt_stop hl) h
    obtain ⟨before, rest, hs, hstart, hposition, -⟩ := exists_before hl
    obtain ⟨before', rest', hs', hstart', hposition', -⟩ := exists_before hl'
    rw [hposition, hposition']
    exact Position.after_lt_after hs hs' (hstart ▸ hstart' ▸ h)

end Lexeme

def Source.accents : String := "é\r\n\né b"

theorem Lexeme.positions_exact_accents :
    (∃ l ∈ ofSource Source.accents, l.content = .token (.name "b") ∧ l.span.start = 8 ∧
      l.position = ⟨3, 2⟩ ∧ ∃ before rest : String, Source.accents = before ++ rest ∧
        l.span.start = before.utf8ByteSize ∧ l.position = .after before ∧
        (LineIndex.ofSource Source.accents).locate? l.span.start = some l.position) ∧
    (ofSource Source.accents).map (·.position) = [⟨1, 0⟩, ⟨3, 0⟩, ⟨3, 2⟩] ∧
    (ofSource Source.accents).Pairwise fun l l' => l.position < l'.position := by
  obtain ⟨l, hl, hc, hs, hp⟩ : ∃ l ∈ ofSource Source.accents, l.content = .token (.name "b") ∧
    l.span.start = 8 ∧ l.position = ⟨3, 2⟩ := by decide +kernel
  obtain ⟨hlexemes, _, _, hearlier⟩ := positions_exact Source.accents
  exact ⟨⟨l, hl, hc, hs, hp, hlexemes l hl⟩, by decide +kernel, hearlier⟩

end Statechart
