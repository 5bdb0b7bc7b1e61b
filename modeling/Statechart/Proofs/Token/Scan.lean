import Mathlib.Data.List.TakeWhile
import Statechart.Token.Scan

namespace Statechart

open Text

structure Name.IsWord (n : Name) : Prop where
  ne_nil : n.toList ≠ []
  word   : ∀ c ∈ n.toList, isWord c

instance {n : Name} : Decidable n.IsWord :=
  decidable_of_iff (n.toList ≠ [] ∧ n.toList.all isWord)
    ⟨fun h => ⟨h.1, List.all_eq_true.mp h.2⟩, fun h => ⟨h.ne_nil, List.all_eq_true.mpr h.word⟩⟩

-- No name goes on at the beginning of a text.
def Text.Bounded (cs : List Char) : Prop :=
  ∀ c ∈ cs.head?, ¬isWord c

theorem Text.not_isWord_of_isBlank {c : Char} (h : isBlank c) : ¬isWord c := by
  have hc : c ∈ [' ', '\t', '\n', '\x0c', '\r', '\x0b'] := by simpa [isBlank, or_assoc] using h
  have hw : [' ', '\t', '\n', '\x0c', '\r', '\x0b'].all (!isWord ·) := by decide
  simpa using List.all_eq_true.mp hw c hc

theorem Token.ofChar?_spec {c : Char} {t : Token} (h : ofChar? c = some t) :
    ¬isBlank c ∧ c ≠ '/' ∧ ¬isWord c := by
  revert h
  fun_cases ofChar? c
  case case10 => intro h; cases h
  all_goals
    intro _
    decide

namespace Lexeme

def Content.token? : Content → Option Token
  | token t => some t
  | stray _ => none

def Clean (source : String) : Prop :=
  ∀ l ∈ ofSource source, l.content.token?.isSome

instance {source : String} : Decidable (Clean source) :=
  inferInstanceAs (Decidable (∀ _ ∈ _, _))

theorem map_content_eq_iff {ls : List Lexeme} {ts : List Token} :
    ls.map (·.content) = ts.map .token ↔
      (∀ l ∈ ls, l.content.token?.isSome) ∧ ts = ls.filterMap (·.content.token?) := by
  induction ls generalizing ts
  case nil => cases ts <;> simp
  case cons l ls hi =>
    obtain ⟨content, position, span⟩ := l
    cases content
    case stray => cases ts <;> simp [Content.token?]
    case token t =>
      cases ts
      case nil        => simp [Content.token?]
      case cons t' ts =>
        simp only [List.map_cons, List.cons.injEq, hi, Content.token.injEq, List.forall_mem_cons,
          Content.token?, Option.isSome_some, true_and, List.filterMap_cons, eq_comm (a := t)]
        exact and_left_comm

variable {index : LineIndex} {offset : Nat} {c : Char} {cs : List Char} {n : Name} {t : Token}

section Contents

-- What is found in a text, wherever that stands.
def contents (cs : List Char) : List Content :=
  (scan default 0 cs).map (·.content)

theorem map_content_scan : (scan index offset cs).map (·.content) = contents cs := by
  have : ∀ o, (scan index offset cs).map (·.content) = (scan default o cs).map (·.content) := by
    fun_induction scan index offset cs
    case case1 => intro o; rw [scan]
    case case2 offset c cs hb hi =>
      intro o
      rw [hi, scan, if_pos hb]
    case case3 offset c cs hb hc hi =>
      intro o
      rw [hi, scan, if_neg hb, if_pos hc]
    case case4 offset c cs hb hc hw word hi =>
      intro o
      rw [List.map_cons, hi, scan, if_neg hb, if_neg hc, if_pos hw, List.map_cons]
      rfl
    case case5 offset c cs hb hc hw hi =>
      intro o
      rw [List.map_cons, hi, scan, if_neg hb, if_neg hc, if_neg hw, List.map_cons]
      rfl
  exact this 0

theorem map_content_ofSource {source : String} :
    (ofSource source).map (·.content) = contents source.toList :=
  map_content_scan

theorem contents_nil : contents [] = [] := by
  rw [contents, scan]
  rfl

theorem contents_blank (h : isBlank c) : contents (c :: cs) = contents cs := by
  rw [contents, scan, if_pos h, map_content_scan]

theorem contents_token (h : Token.ofChar? c = some t) :
    contents (c :: cs) = .token t :: contents cs := by
  obtain ⟨hb, hs, hw⟩ := Token.ofChar?_spec h
  rw [contents, scan, if_neg hb, if_neg fun h => hs h.1, if_neg hw, List.map_cons,
    map_content_scan, h]
  rfl

theorem takeWhile_append_eq {f : Char → Bool} {ws cs : List Char} (hw : ∀ c ∈ ws, f c)
    (hc : ∀ c ∈ cs.head?, ¬f c) : (ws ++ cs).takeWhile f = ws ∧ (ws ++ cs).dropWhile f = cs := by
  rw [List.takeWhile_append_of_pos hw, List.dropWhile_append_of_pos hw]
  cases cs
  case nil       => simp
  case cons c cs => simp [hc c rfl]

theorem contents_name (hn : n.IsWord) (hc : Bounded cs) :
    contents (n.toList ++ cs) = .token (.name n) :: contents cs := by
  obtain ⟨hne, hw⟩ := hn
  obtain ⟨c, ws, he⟩ := List.exists_cons_of_ne_nil hne
  rw [he] at hw
  have hc' := hw c List.mem_cons_self
  have hb : ¬isBlank c := fun hb => not_isWord_of_isBlank hb hc'
  have hs : c ≠ '/' := by
    intro h
    subst h
    exact absurd hc' (by decide)
  have ⟨htake, hdrop⟩ := takeWhile_append_eq (fun c h => hw c <| List.mem_cons_of_mem _ h) hc
  rw [contents, he, List.cons_append, scan, if_neg hb, if_neg fun h => hs h.1, if_pos hc', htake,
    hdrop, List.map_cons, map_content_scan, ← he]
  exact congrArg (fun n => Content.token (.name n) :: _) String.ofList_toList

theorem isWord_of_mem_contents (h : .token (.name n) ∈ contents cs) : n.IsWord := by
  rw [contents] at h
  generalize 0 = offset at h
  fun_induction scan default offset cs
  case case1 => cases h
  case case2 hi | case3 hi => exact hi h
  case case4 offset c cs _ _ hw word hi =>
    cases List.mem_cons.mp h
    case inr h => exact hi h
    case inl h =>
      cases h
      refine ⟨by simp [word], fun x hx => ?_⟩
      rw [String.toList_ofList] at hx
      cases List.mem_cons.mp hx
      case inl hx => exact hx ▸ hw
      case inr hx => exact List.mem_takeWhile_imp hx
  case case5 offset c cs _ _ _ hi =>
    cases List.mem_cons.mp h
    case inr h => exact hi h
    case inl h =>
      revert h
      dsimp only [located]
      fun_cases Token.ofChar? c
      all_goals
        intro h
        cases h

end Contents

end Lexeme

def Token.ofSource (source : String) : List Token :=
  (Lexeme.ofSource source).filterMap (·.content.token?)

end Statechart
