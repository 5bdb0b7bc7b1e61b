import Mathlib.Data.List.Induction
import Statechart.Text.LineIndex

namespace Statechart

open Text

-- The place that a text leads to: another line behind every newline, and in that line another
-- column behind every character.
def Position.after (text : String) : Position where
  line   := text.toList.count '\n' + 1
  column := (text.toList.reverse.takeWhile (· ≠ '\n')).length

theorem partitionPoint_append {α : Type u} {f : α → Bool} {as bs : List α} (ha : ∀ a ∈ as, f a)
    (hb : ∀ b ∈ bs, ¬f b) : partitionPoint f (as ++ bs).toArray = as.length := by
  refine partitionPoint_eq (by simp) fun i h => ?_
  rw [List.size_toArray] at h
  rw [List.getElem_toArray, List.getElem_append]
  split
  case isTrue hi  => exact iff_of_true (ha _ <| List.getElem_mem hi) hi
  case isFalse hi => exact iff_of_false (hb _ <| List.getElem_mem _) hi

section Slices

variable {source before text after : String}

theorem Text.exists_pos? (h : source = before ++ after) :
    ∃ p : source.Pos, source.pos? ⟨before.utf8ByteSize⟩ = some p ∧ p.Splits before after := by
  subst h
  have hv : String.Pos.Raw.IsValid (before ++ after) ⟨before.utf8ByteSize⟩ :=
    String.Pos.Raw.isValid_rawEndPos.append_right after
  refine ⟨_, ?_, String.Pos.splits_append_rawEndPos⟩
  rw [String.pos?, String.Slice.pos?,
    dif_pos <| String.Pos.Raw.isValidForSlice_eq_true_iff.mpr hv.toSlice]
  rfl

theorem Text.exists_slice? {p q : source.Pos} (hp : p.Splits before (text ++ after))
    (hq : q.Splits (before ++ text) after) : ∃ s, source.slice? p q = some s ∧ s.copy = text := by
  obtain ⟨h, hs⟩ := String.copy_slice_eq_iff_splits.mpr ⟨before, after, hp, hq⟩
  exact ⟨_, dif_pos h, hs⟩

end Slices

namespace LineIndex

variable {offset start : Nat} {cs ds : List Char} {before after : String}

@[simp]
theorem source_ofSource {source : String} : (ofSource source).source = source :=
  rfl

theorem startsFrom_append : startsFrom offset (cs ++ ds) =
    startsFrom offset cs ++ startsFrom (offset + byteLength cs) ds := by
  induction cs generalizing offset
  case nil => rfl
  case cons c cs hi =>
    rw [List.cons_append, startsFrom, startsFrom, hi, byteLength_cons, Nat.add_assoc]
    split <;> rfl

theorem length_startsFrom : (startsFrom offset cs).length = cs.count '\n' := by
  induction cs generalizing offset
  case nil => rfl
  case cons c cs hi =>
    rw [startsFrom, List.count_cons]
    split
    case isTrue h  => simp [h, hi]
    case isFalse h => simp [h, hi]

theorem bounds_of_mem_startsFrom (h : start ∈ startsFrom offset cs) :
    offset < start ∧ start ≤ offset + byteLength cs := by
  induction cs generalizing offset
  case nil => cases h
  case cons c cs hi =>
    have hc := c.utf8Size_pos
    have hnext (h : start ∈ startsFrom (offset + c.utf8Size) cs) :
        offset < start ∧ start ≤ offset + byteLength (c :: cs) := by
      have := hi h
      rw [byteLength_cons]
      omega
    rw [startsFrom] at h
    split at h
    case isFalse => exact hnext h
    case isTrue =>
      cases List.mem_cons.mp h
      case inl h => rw [h, byteLength_cons]; omega
      case inr h => exact hnext h

theorem exists_lastLine (cs : List Char) : ∃ head tail, cs = head ++ tail ∧
    (0 :: startsFrom 0 cs).getLast? = some (byteLength head) ∧
    tail.length = (cs.reverse.takeWhile (· ≠ '\n')).length := by
  induction cs using List.reverseRec
  case nil => exact ⟨[], [], rfl, rfl, rfl⟩
  case append_singleton cs c hi =>
    obtain ⟨head, tail, rfl, hs, ht⟩ := hi
    rw [startsFrom_append, startsFrom, startsFrom, Nat.zero_add]
    by_cases hc : c = '\n'
    case pos =>
      refine ⟨head ++ tail ++ [c], [], by simp, ?_, by simp [hc]⟩
      rw [if_pos hc, ← List.cons_append, List.getLast?_concat, byteLength_append (head ++ tail)]
      rfl
    case neg => exact ⟨head, tail ++ [c], by simp, by simpa [hc] using hs, by simpa [hc] using ht⟩

theorem starts_append : (ofSource (before ++ after)).starts = ((0 :: startsFrom 0 before.toList) ++
    startsFrom before.utf8ByteSize after.toList).toArray := by
  rw [ofSource, String.toList_append, startsFrom_append, byteLength_toList, Nat.zero_add]
  rfl

theorem partitionPoint_starts : partitionPoint (· ≤ before.utf8ByteSize)
    (ofSource (before ++ after)).starts = before.toList.count '\n' + 1 := by
  rw [starts_append, partitionPoint_append]
  case ha =>
    intro s h
    cases List.mem_cons.mp h
    case inl h => simp [h]
    case inr h => simpa [byteLength_toList] using (bounds_of_mem_startsFrom h).2
  case hb =>
    intro s h
    simpa using (bounds_of_mem_startsFrom h).1
  rw [List.length_cons, length_startsFrom]

theorem getElem?_starts {head : List Char}
    (h : (0 :: startsFrom 0 before.toList).getLast? = some (byteLength head)) :
    (ofSource (before ++ after)).starts[before.toList.count '\n']? =
      some (String.ofList head).utf8ByteSize := by
  rw [starts_append, List.getElem?_toArray, List.getElem?_append_left, utf8ByteSize_ofList, ← h,
    List.getLast?_eq_getElem?, List.length_cons, length_startsFrom, Nat.add_sub_cancel]
  rw [List.length_cons, length_startsFrom]
  exact Nat.lt_succ_self _

-- Every offset between two characters is located, at the place that the text before it leads to.
theorem locate?_append (before after : String) :
    (ofSource (before ++ after)).locate? before.utf8ByteSize = some (.after before) := by
  obtain ⟨head, tail, he, hstart, hcolumn⟩ := exists_lastLine before.toList
  have hb : before = String.ofList head ++ String.ofList tail := by
    rw [← String.ofList_append, ← he, String.ofList_toList]
  have hs : before ++ after = String.ofList head ++ (String.ofList tail ++ after) := by
    rw [hb, String.append_assoc]
  obtain ⟨p, hp, hps⟩ := exists_pos? hs
  obtain ⟨q, hq, hqs⟩ := exists_pos? (Eq.refl (before ++ after))
  obtain ⟨s, hs, hcopy⟩ := exists_slice? hps (hqs.of_eq hb rfl)
  have hcolumn : s.copy.length = (Position.after before).column := by
    rw [hcopy, String.length_ofList, hcolumn]
    rfl
  simp only [locate?, partitionPoint_starts, getElem?_starts hstart]
  simp [hp, hq, hs, hcolumn]
  rfl

theorem locate?_of_toList {source : String} (h : source.toList = cs ++ ds) :
    (ofSource source).locate? (byteLength cs) = some (.after (String.ofList cs)) := by
  have hs : source = String.ofList cs ++ String.ofList ds := by
    rw [← String.ofList_append, ← h, String.ofList_toList]
  rw [hs, ← utf8ByteSize_ofList, locate?_append]

theorem locate_of_toList {source : String} (h : source.toList = cs ++ ds) :
    (ofSource source).locate (byteLength cs) = .after (String.ofList cs) := by
  rw [locate, locate?_of_toList h]
  rfl

end LineIndex

end Statechart
