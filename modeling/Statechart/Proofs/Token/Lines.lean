import Statechart.Proofs.Text.LineIndex
import Statechart.Proofs.Token.Scan

namespace Statechart

open Text

def Position.below (p : Position) (lines : Nat) : Position := ⟨p.line + lines, p.column⟩

def Span.behind (s : Span) (length : Nat) : Span where
  start         := s.start + length
  stop          := s.stop + length
  start_le_stop := Nat.add_le_add_right s.start_le_stop length

def Lexeme.behind (l : Lexeme) (length lines : Nat) : Lexeme where
  content  := l.content
  position := l.position.below lines
  span     := l.span.behind length

section Breaks

variable {f : Char → Bool} {c : Char} {cs ds : List Char} {before text : String}

theorem Text.takeWhile_break (h : ¬f c) : (cs ++ c :: ds).takeWhile f = cs.takeWhile f := by
  induction cs
  case nil          => simp [h]
  case cons d cs hi => by_cases hd : f d <;> simp [hd, hi]

theorem Text.dropWhile_break (h : ¬f c) :
    (cs ++ c :: ds).dropWhile f = cs.dropWhile f ++ c :: ds := by
  induction cs
  case nil          => simp [h]
  case cons d cs hi => by_cases hd : f d <;> simp [hd, hi]

theorem Text.byteLength_split :
    byteLength (c :: cs.takeWhile f) + byteLength (cs.dropWhile f) = byteLength (c :: cs) := by
  rw [← byteLength_append, List.cons_append, List.takeWhile_append_dropWhile]

theorem Text.head?_break (ds : List Char) :
    (cs ++ '\n' :: ds).head? = some '/' ↔ cs.head? = some '/' := by
  cases cs
  case nil  => simp
  case cons => rfl

theorem Text.toList_break :
    (before ++ "\n" ++ text).toList = before.toList ++ '\n' :: text.toList := by
  simp [String.toList_append]

theorem Position.after_break :
    after (before ++ "\n" ++ text) = (after text).below (before.toList.count '\n' + 1) := by
  ext
  case line =>
    simp only [after, below, toList_break, List.count_append, List.count_cons_self]
    omega
  case column =>
    have hr : (before.toList ++ '\n' :: text.toList).reverse =
        text.toList.reverse ++ '\n' :: before.toList.reverse := by
      simp
    simp only [after, below, toList_break, hr]
    rw [takeWhile_break (by simp)]

end Breaks

namespace LineIndex

-- A text that stands at an offset of one source stands `length` further behind in another one, and
-- every place in it is there by so many lines further down.
def Below (index index' : LineIndex) (length lines offset : Nat) (cs : List Char) : Prop :=
  ∀ ds es, cs = ds ++ es → index'.locate (offset + byteLength ds + length) =
    (index.locate (offset + byteLength ds)).below lines

variable {index index' : LineIndex} {length lines offset : Nat} {cs : List Char} {a b : String}

theorem Below.here (h : index.Below index' length lines offset cs) :
    index'.locate (offset + length) = (index.locate offset).below lines :=
  h [] cs rfl

theorem Below.rest (text : List Char) (h : index.Below index' length lines offset (text ++ cs)) :
    index.Below index' length lines (offset + byteLength text) cs := by
  intro ds es he
  have := h (text ++ ds) es (by rw [he, List.append_assoc])
  rwa [byteLength_append, ← Nat.add_assoc] at this

theorem below_before_break :
    (ofSource a).Below (.ofSource (a ++ "\n" ++ b)) 0 0 0 a.toList := by
  intro ds es he
  have he' : (a ++ "\n" ++ b).toList = ds ++ (es ++ '\n' :: b.toList) := by
    rw [toList_break, he, List.append_assoc]
  rw [Nat.zero_add, Nat.add_zero, locate_of_toList he, locate_of_toList he']
  rfl

theorem below_behind_break : (ofSource b).Below (.ofSource (a ++ "\n" ++ b)) (a.utf8ByteSize + 1)
    (a.toList.count '\n' + 1) 0 b.toList := by
  intro ds es he
  have he' : (a ++ "\n" ++ b).toList = (a.toList ++ '\n' :: ds) ++ es := by
    rw [toList_break, he, List.append_assoc, List.cons_append]
  have ho : 0 + byteLength ds + (a.utf8ByteSize + 1) = byteLength (a.toList ++ '\n' :: ds) := by
    rw [byteLength_append, byteLength_toList]
    change _ = a.utf8ByteSize + (1 + byteLength ds)
    omega
  have ht : String.ofList (a.toList ++ '\n' :: ds) = a ++ "\n" ++ String.ofList ds := by
    rw [← String.toList_inj, toList_break, String.toList_ofList, String.toList_ofList]
  rw [ho, Nat.zero_add, locate_of_toList he, locate_of_toList he', ht, Position.after_break]

end LineIndex

namespace Lexeme

variable {index index' : LineIndex} {offset length lines : Nat} {cs ds : List Char}

theorem scan_break : scan index offset (cs ++ '\n' :: ds) =
    scan index offset cs ++ scan index (offset + byteLength cs + 1) ds := by
  fun_induction scan index offset cs
  case case1 =>
    rw [List.nil_append, scan, if_pos (by decide)]
    rfl
  case case2 offset c cs hb hi =>
    rw [List.cons_append, scan, if_pos hb, hi, byteLength_cons, Nat.add_assoc offset]
  case case3 offset c cs hb hc hi =>
    have hc' := (and_congr_right' <| head?_break ds).mpr hc
    rw [List.cons_append, scan, if_neg hb, if_pos hc', takeWhile_break (by decide),
      dropWhile_break (by decide), hi, Nat.add_assoc offset, byteLength_split]
  case case4 offset c cs hb hc hw word hi =>
    have hc' := (and_congr_right' <| head?_break ds).not.mpr hc
    have hword : byteLength word + byteLength (cs.dropWhile isWord) = byteLength (c :: cs) :=
      byteLength_split
    rw [Nat.add_assoc offset, hword] at hi
    rw [List.cons_append, scan, if_neg hb, if_neg hc', if_pos hw, takeWhile_break (by decide),
      dropWhile_break (by decide)]
    exact congrArg (_ :: ·) hi
  case case5 offset c cs hb hc hw hi =>
    have hc' := (and_congr_right' <| head?_break ds).not.mpr hc
    rw [List.cons_append, scan, if_neg hb, if_neg hc', if_neg hw, hi, byteLength_cons,
      Nat.add_assoc offset, List.cons_append]

theorem located_behind {content : Content}
    (h : index'.locate (offset + length) = (index.locate offset).below lines) :
    located index' (offset + length) content cs =
      (located index offset content cs).behind length lines := by
  have hspan : Span.ofLength (offset + length) (byteLength cs) =
      (Span.ofLength offset (byteLength cs)).behind length := by
    ext
    case start => rfl
    case stop  => exact Nat.add_right_comm ..
  rw [located, h, hspan]
  rfl

theorem scan_behind (h : index.Below index' length lines offset cs) :
    scan index' (offset + length) cs = (scan index offset cs).map (·.behind length lines) := by
  fun_induction scan index offset cs
  case case1 => rw [scan]; rfl
  case case2 offset c cs hb hi =>
    rw [scan, if_pos hb, ← hi <| h.rest [c], Nat.add_right_comm]
  case case3 offset c cs hb hc hi =>
    rw [← List.takeWhile_append_dropWhile (l := cs), ← List.cons_append] at h
    rw [scan, if_neg hb, if_pos hc, ← hi (h.rest _), Nat.add_right_comm]
  case case4 offset c cs hb hc hw word hi =>
    rw [← List.takeWhile_append_dropWhile (l := cs), ← List.cons_append] at h
    rw [scan, if_neg hb, if_neg hc, if_pos hw, List.map_cons, ← hi (h.rest _), Nat.add_right_comm,
      ← located_behind h.here]
  case case5 offset c cs hb hc hw hi =>
    rw [scan, if_neg hb, if_neg hc, if_neg hw, List.map_cons, ← hi <| h.rest [c],
      Nat.add_right_comm, ← located_behind h.here]

-- A line break divides the lexemes of a source: those before it are found as if nothing followed,
-- and those behind it as if nothing preceded them, but further down.
theorem ofSource_lines (a b : String) : ofSource (a ++ "\n" ++ b) = ofSource a ++
    (ofSource b).map (·.behind (a.utf8ByteSize + 1) (a.toList.count '\n' + 1)) := by
  have ha : scan (.ofSource (a ++ "\n" ++ b)) 0 a.toList = ofSource a :=
    (scan_behind LineIndex.below_before_break).trans <| List.map_id'' (fun _ => rfl) _
  have hb := scan_behind (LineIndex.below_behind_break (a := a) (b := b))
  rw [ofSource, toList_break, scan_break, byteLength_toList, Nat.add_assoc, hb, ha]
  rfl

theorem ofSource_lines_comment : ofSource ("a // é:" ++ "\n" ++ "b :") = [
    ⟨.token (.name "a"), ⟨1, 0⟩, .ofLength 0 1⟩,
    ⟨.token (.name "b"), ⟨2, 0⟩, .ofLength 9 1⟩,
    ⟨.token .colon,      ⟨2, 2⟩, .ofLength 11 1⟩
  ] := by
  have ha : ofSource "a // é:" = [⟨.token (.name "a"), ⟨1, 0⟩, .ofLength 0 1⟩] := by decide +kernel
  have hb : ofSource "b :" = [
    ⟨.token (.name "b"), ⟨1, 0⟩, .ofLength 0 1⟩,
    ⟨.token .colon,      ⟨1, 2⟩, .ofLength 2 1⟩
  ] := by decide +kernel
  rw [ofSource_lines, ha, hb]
  decide +kernel

end Lexeme

end Statechart
