import Mathlib.Data.List.TakeWhile
import Statechart.Proofs.Token.Scan

namespace Statechart

open Text

structure Span.Cuts (s : Span) (source before text after : String) : Prop where
  source : source = before ++ text ++ after
  start  : s.start = before.utf8ByteSize
  stop   : s.stop = (before ++ text).utf8ByteSize

-- Blanks and comments. A comment goes on up to the end of its line, so that it matters what comes
-- behind.
inductive Text.Trivia (after : List Char) : List Char → Prop
  | nil     : Trivia after []
  | blank   : isBlank c → Trivia after cs → Trivia after (c :: cs)
  | comment : (∀ c ∈ body, c ≠ '\n') → (∀ c ∈ (cs ++ after).head?, c = '\n') → Trivia after cs →
    Trivia after ('/' :: '/' :: (body ++ cs))

namespace Lexeme

inductive Content.Fits (before text after : List Char) : Content → Prop
  | name  : n.toList = text → (∀ c ∈ text, isWord c) → (∀ c ∈ before.getLast?, ¬isWord c) →
    (∀ c ∈ after.head?, ¬isWord c) → Fits before text after (.token (.name n))
  | mark  : t.name? = none → t.render.toList = text ∨ t = .dash ∧ text = ['*'] →
    Fits before text after (.token t)
  | stray : text = [c] → ¬isBlank c → ¬isWord c →
    c ∉ ['{', '}', '(', ')', '<', '>', '-', '*', ':'] → (c = '/' → after.head? ≠ some '/') →
    Fits before text after (.stray c)

-- A text is made up of lexemes, with blanks and comments before and behind each of them. The first
-- list is what has been read by then.
inductive Tiles (index : LineIndex) : List Char → List Char → List Lexeme → Prop
  | done : Trivia [] gap → Tiles index before gap []
  | next {content : Content} : Trivia (text ++ after) gap → text ≠ [] →
    content.Fits (before ++ gap) text after → Tiles index (before ++ gap ++ text) after ls →
    Tiles index before (gap ++ (text ++ after))
      (located index (byteLength (before ++ gap)) content text :: ls)

def gaps (start stop : Nat) : List Lexeme → List Span
  | []      => [.between start stop]
  | l :: ls => .between start l.span.start :: gaps l.span.stop stop ls

end Lexeme

section Characters

variable {c : Char} {t : Token} {cs ds before text after : List Char} {s : Span} {source : String}

theorem Text.byteLength_pos (h : cs ≠ []) : 0 < byteLength cs := by
  obtain ⟨c, cs, rfl⟩ := List.exists_cons_of_ne_nil h
  exact Nat.add_pos_left c.utf8Size_pos _

theorem Span.Cuts.of_toList (h : source.toList = before ++ (text ++ after))
    (hstart : s.start = byteLength before) (hstop : s.stop = byteLength (before ++ text)) :
    s.Cuts source (String.ofList before) (String.ofList text) (String.ofList after) where
  source := by rw [← String.toList_inj, h, ← String.ofList_append, ← String.ofList_append,
      String.toList_ofList, List.append_assoc]
  start  := by rw [hstart, utf8ByteSize_ofList]
  stop   := by rw [hstop, ← String.ofList_append, utf8ByteSize_ofList]

theorem Token.spelling (h : ofChar? c = some t) :
    t.name? = none ∧ (t.render.toList = [c] ∨ t = .dash ∧ [c] = ['*']) := by
  revert h
  fun_cases ofChar? c
  case case10 => intro h; cases h
  all_goals
    intro h
    cases h
    decide

theorem Token.not_mem_marks (h : ofChar? c = none) :
    c ∉ ['{', '}', '(', ')', '<', '>', '-', '*', ':'] := by
  revert h
  fun_cases ofChar? c
  case case10 => simp_all
  all_goals
    intro h
    cases h

theorem Text.Trivia.append (h : Trivia (ds ++ after) cs) (h' : Trivia after ds) :
    Trivia after (cs ++ ds) := by
  induction h
  case nil           => exact h'
  case blank hb _ hi => exact .blank hb hi
  case comment hn hc _ hi =>
    rw [List.cons_append, List.cons_append, List.append_assoc]
    exact .comment hn (by rwa [List.append_assoc]) hi

theorem Text.not_of_mem_head?_dropWhile {f : Char → Bool} (h : c ∈ (cs.dropWhile f).head?) :
    ¬f c := by
  have := List.head?_dropWhile_not f cs
  rw [Option.mem_def.mp h] at this
  simpa using this

theorem Text.Trivia.comment_of_head? (h : cs.head? = some '/') :
    Trivia (cs.dropWhile (· ≠ '\n')) ('/' :: cs.takeWhile (· ≠ '\n')) := by
  obtain ⟨ds, rfl⟩ := List.head?_eq_some_iff.mp h
  rw [List.takeWhile_cons_of_pos (by simp), List.dropWhile_cons_of_pos (by simp),
    ← List.append_nil (ds.takeWhile _)]
  refine .comment (fun c hc => ?_) (fun c hc => ?_) .nil
  · simpa using List.mem_takeWhile_imp hc
  · simpa using not_of_mem_head?_dropWhile hc

end Characters

namespace Lexeme

variable {index : LineIndex} {l : Lexeme} {ls : List Lexeme} {s : Span} {offset : Nat}
  {before cs gap : List Char}

def Joint (before cs : List Char) : Prop :=
  ∀ c ∈ before.getLast?, isWord c → Bounded cs

theorem Tiles.skip (h : Tiles index (before ++ gap) cs ls) (hg : Trivia cs gap) :
    Tiles index before (gap ++ cs) ls := by
  cases h
  case done h =>
    refine .done <| Trivia.append ?_ h
    rwa [List.append_nil]
  case next text after gap' content ls h hne hf ht =>
    have hgap : before ++ gap ++ gap' = before ++ (gap ++ gap') := List.append_assoc ..
    rw [hgap] at hf ht ⊢
    rw [← List.append_assoc gap gap']
    exact .next (hg.append h) hne hf ht

theorem Tiles.cons {content : Content} {text : List Char} (hne : text ≠ [])
    (hf : content.Fits before text cs) (h : Tiles index (before ++ text) cs ls) :
    Tiles index before (text ++ cs) (located index (byteLength before) content text :: ls) := by
  have : Tiles index before ([] ++ (text ++ cs))
      (located index (byteLength (before ++ [])) content text :: ls) := by
    refine .next .nil hne ?_ ?_
    all_goals rwa [List.append_nil]
  rwa [List.append_nil] at this

theorem Joint.of_last {c : Char} (h : ¬isWord c) : Joint (before ++ [c]) cs := by
  intro d hd hw
  rw [List.getLast?_concat, Option.mem_some_iff] at hd
  exact absurd (hd ▸ hw) h

theorem Joint.of_bounded (h : Bounded cs) : Joint before cs :=
  fun _ _ _ => h

-- A step reads a blank, a comment, a name or a single character. No name goes on across the place
-- where it stops.
theorem tiles_scan (ho : offset = byteLength before) (hj : Joint before cs) :
    Tiles index before cs (scan index offset cs) := by
  fun_induction scan index offset cs generalizing before
  all_goals subst ho
  case case1 => exact .done .nil
  case case2 c cs hb hi =>
    have hj' : Joint (before ++ [c]) cs := .of_last <| not_isWord_of_isBlank hb
    exact (hi (byteLength_append before [c]).symm hj').skip <| .blank hb .nil
  case case3 c cs hb hc hi =>
    obtain ⟨rfl, hc⟩ := hc
    have hj' : Bounded (cs.dropWhile (· ≠ '\n')) := by
      intro d hd
      have : d = '\n' := by simpa using not_of_mem_head?_dropWhile hd
      subst this
      decide
    have := (hi (byteLength_append ..).symm <| .of_bounded hj').skip <| .comment_of_head? hc
    rwa [List.cons_append, List.takeWhile_append_dropWhile] at this
  case case4 c cs hb hc hw word hi =>
    have hj' : Bounded (cs.dropWhile isWord) := fun d => not_of_mem_head?_dropWhile
    have hf : Content.Fits before word (cs.dropWhile isWord)
        (.token (.name (String.ofList word))) := by
      refine .name String.toList_ofList (fun d hd => ?_) (fun d hd hd' => hj d hd hd' c rfl hw) hj'
      cases List.mem_cons.mp hd
      case inl hd => exact hd ▸ hw
      case inr hd => exact List.mem_takeWhile_imp hd
    have := hi (byteLength_append ..).symm <| .of_bounded hj'
    have := Tiles.cons (List.cons_ne_nil _ _) hf this
    rwa [List.cons_append, List.takeWhile_append_dropWhile] at this
  case case5 c cs hb hc hw hi =>
    have hf : Content.Fits before [c] cs ((Token.ofChar? c).elim (.stray c) .token) := by
      cases ht : Token.ofChar? c
      case none => exact .stray rfl hb hw (Token.not_mem_marks ht) fun he hh => hc ⟨he, hh⟩
      case some t =>
        obtain ⟨hn, ht⟩ := Token.spelling ht
        exact .mark hn ht
    exact .cons (List.cons_ne_nil _ _) hf <| hi (byteLength_append before [c]).symm <| .of_last hw

theorem tiles_ofSource (source : String) :
    Tiles (.ofSource source) [] source.toList (ofSource source) :=
  tiles_scan rfl fun c hc => by cases hc

section Spans

theorem span_located {content : Content} {text : List Char} :
    (located index (byteLength before) content text).span.start = byteLength before ∧
    (located index (byteLength before) content text).span.stop = byteLength (before ++ text) := by
  rw [byteLength_append]
  exact ⟨rfl, rfl⟩

theorem Tiles.le_start (h : Tiles index before cs ls) (hl : l ∈ ls) :
    byteLength before ≤ l.span.start := by
  induction h
  case done => cases hl
  case next hi =>
    cases List.mem_cons.mp hl
    case inl hl =>
      rw [hl, span_located.1, byteLength_append]
      exact Nat.le_add_right ..
    case inr hl =>
      have := hi hl
      rw [byteLength_append, byteLength_append] at this
      omega

theorem Tiles.pairwise (h : Tiles index before cs ls) :
    ls.Pairwise fun l l' => l.span.stop ≤ l'.span.start := by
  induction h
  case done => exact .nil
  case next ht hi =>
    refine List.pairwise_cons.mpr ⟨fun l hl => ?_, hi⟩
    rw [span_located.2]
    exact ht.le_start hl

theorem Tiles.exists_cut (h : Tiles index before cs ls) (hl : l ∈ ls) :
    ∃ b t a, before ++ cs = b ++ (t ++ a) ∧ l.span.start = byteLength b ∧
      l.span.stop = byteLength (b ++ t) ∧ t ≠ [] ∧ l.content.Fits b t a := by
  induction h
  case done => cases hl
  case next text after gap before ls content _ hne hf _ hi =>
    cases List.mem_cons.mp hl
    case inl hl =>
      subst hl
      refine ⟨before ++ gap, text, after, ?_, span_located.1, span_located.2, hne, hf⟩
      rw [List.append_assoc]
    case inr hl =>
      obtain ⟨b, t, a, he, h⟩ := hi hl
      refine ⟨b, t, a, ?_, h⟩
      rw [← he]
      simp only [List.append_assoc]

theorem Tiles.start_lt_stop (h : Tiles index before cs ls) (hl : l ∈ ls) :
    l.span.start < l.span.stop := by
  obtain ⟨b, t, a, _, hstart, hstop, hne, _⟩ := h.exists_cut hl
  have := byteLength_pos hne
  rw [hstart, hstop, byteLength_append]
  omega

theorem Tiles.exists_gap (h : Tiles index before cs ls)
    (hs : s ∈ gaps (byteLength before) (byteLength (before ++ cs)) ls) :
    ∃ b t a, before ++ cs = b ++ (t ++ a) ∧ s.start = byteLength b ∧
      s.stop = byteLength (b ++ t) ∧ Trivia a t := by
  have hbetween {b t : List Char} : (Span.between (byteLength b) (byteLength (b ++ t))).stop =
      byteLength (b ++ t) := by
    rw [Span.between, byteLength_append]
    exact Nat.max_eq_right <| Nat.le_add_right ..
  induction h
  case done gap before h =>
    cases List.mem_singleton.mp hs
    exact ⟨before, gap, [], by rw [List.append_nil], rfl, hbetween, h⟩
  case next text after gap before ls content h _ _ _ hi =>
    cases List.mem_cons.mp hs
    case inl hs =>
      rw [span_located.1] at hs
      subst hs
      exact ⟨before, gap, text ++ after, rfl, rfl, hbetween, h⟩
    case inr hs =>
      have he : before ++ (gap ++ (text ++ after)) = before ++ gap ++ text ++ after := by
        simp only [List.append_assoc]
      rw [span_located.2, he] at hs
      rw [he]
      exact hi hs

end Spans

-- Every character of a source is in one lexeme, in a blank or in a comment.
theorem covers_source (source : String) :
    (∀ l ∈ ofSource source, l.span.start < l.span.stop ∧ ∃ before text after : String,
      l.span.Cuts source before text after ∧
      l.content.Fits before.toList text.toList after.toList) ∧
    (ofSource source).Pairwise (fun l l' => l.span.stop ≤ l'.span.start) ∧
    ∀ s ∈ gaps 0 source.utf8ByteSize (ofSource source), ∃ before text after : String,
      s.Cuts source before text after ∧ Trivia after.toList text.toList := by
  have h := tiles_ofSource source
  refine ⟨fun l hl => ?lexeme, h.pairwise, fun s hs => ?gap⟩
  case lexeme =>
    obtain ⟨b, t, a, he, hstart, hstop, _, hf⟩ := h.exists_cut hl
    refine ⟨h.start_lt_stop hl, _, _, _, .of_toList he hstart hstop, ?_⟩
    simpa only [String.toList_ofList] using hf
  case gap =>
    rw [← String.ofList_toList (s := source), utf8ByteSize_ofList, String.ofList_toList] at hs
    obtain ⟨b, t, a, he, hstart, hstop, ht⟩ := h.exists_gap hs
    refine ⟨_, _, _, .of_toList he hstart hstop, ?_⟩
    simpa only [String.toList_ofList] using ht

end Lexeme

-- A slash alone, a character of two bytes, and comments at the end of a line and of the source.
def Source.jumble : String := "a_/é//x\n*b//"

theorem Lexeme.covers_source_jumble :
    (∃ l ∈ ofSource Source.jumble, l.content = .stray 'é' ∧ l.span = .ofLength 3 2 ∧
      ∃ before text after : String, l.span.Cuts Source.jumble before text after ∧
        l.content.Fits before.toList text.toList after.toList) ∧
    ∃ s ∈ gaps 0 Source.jumble.utf8ByteSize (ofSource Source.jumble), s = .ofLength 5 4 ∧
      ∃ before text after : String, s.Cuts Source.jumble before text after ∧
        Trivia after.toList text.toList := by
  obtain ⟨l, hl, hc, hs⟩ : ∃ l ∈ ofSource Source.jumble, l.content = .stray 'é' ∧
    l.span = .ofLength 3 2 := by decide +kernel
  have hg : .ofLength 5 4 ∈ gaps 0 Source.jumble.utf8ByteSize (ofSource Source.jumble) := by
    decide +kernel
  obtain ⟨hlexemes, _, hgaps⟩ := covers_source Source.jumble
  exact ⟨⟨l, hl, hc, hs, (hlexemes l hl).2⟩, _, hg, rfl, hgaps _ hg⟩

end Statechart
