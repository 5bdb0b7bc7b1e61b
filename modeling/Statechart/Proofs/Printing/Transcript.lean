import Statechart.Proofs.Reader.Rendering

namespace Statechart

open Lexeme

structure Transcript where
  fields : List (Name × Option Name)
  blocks : List Chart.Block

namespace Chart

def Arrow.braced (a : Arrow) : Grammar.Arrow := ⟨a.event, a.next, some (.braces a.actions)⟩

def Block.braced (b : Block) : Grammar.Block :=
  ⟨b.head.derivation, .braces (b.arrows.map Arrow.braced)⟩

@[simp]
theorem Block.chart_braced (b : Block) : b.braced.chart = b := by
  simp [braced, Grammar.Block.chart, Grammar.Body.arrows, Function.comp_def, Arrow.braced,
    Grammar.Arrow.chart, Grammar.Group.names]

theorem Block.braced_injective : Function.Injective Block.braced :=
  Function.LeftInverse.injective Block.chart_braced

end Chart

namespace Transcript

def fieldTokens (f : Name × Option Name) : List Token :=
  .name f.1 :: .colon :: f.2.toList.map .name

def tokens (x : Transcript) : List Token :=
  x.fields.flatMap fieldTokens ++ Grammar.Description.tokens ⟨[], x.blocks.map Chart.Block.braced⟩

section Injective

variable {fs fs' : List (Name × Option Name)} {ts ts' : List Token}

-- The first name of a field has a colon behind it, and a value has not.
theorem fields_ne_name {n : Name} : fs.flatMap fieldTokens ++ .openBrace :: ts ≠
    .name n :: (fs'.flatMap fieldTokens ++ .openBrace :: ts') := by
  cases fs
  case nil  => simp
  case cons => cases fs' <;> simp [fieldTokens]

theorem fields_injective (h : fs.flatMap fieldTokens ++ .openBrace :: ts =
    fs'.flatMap fieldTokens ++ .openBrace :: ts') : fs = fs' ∧ ts = ts' := by
  induction fs generalizing fs' <;> cases fs'
  case nil.nil  => simpa using h
  case nil.cons => simp [fieldTokens] at h
  case cons.nil => simp [fieldTokens] at h
  case cons.cons f fs hi f' fs' =>
    obtain ⟨label, value⟩ := f
    obtain ⟨label', value'⟩ := f'
    simp only [List.flatMap_cons, fieldTokens, List.cons_append, List.append_assoc,
      List.cons.injEq, Token.name.injEq, true_and] at h
    obtain ⟨rfl, h⟩ := h
    cases value <;> cases value'
    case none.some => exact absurd h fields_ne_name
    case some.none => exact absurd h.symm fields_ne_name
    case none.none =>
      obtain ⟨rfl, rfl⟩ := hi h
      exact ⟨rfl, rfl⟩
    case some.some =>
      obtain ⟨hv, h⟩ := List.cons.inj h
      obtain ⟨rfl, rfl⟩ := hi h
      exact ⟨Token.name.inj hv ▸ rfl, rfl⟩

theorem tokens_injective : Function.Injective tokens := by
  rintro ⟨fs, bs⟩ ⟨fs', bs'⟩ h
  obtain ⟨rfl, h⟩ := fields_injective h
  have hd : Grammar.Description.mk [] (bs.map Chart.Block.braced) =
      ⟨[], bs'.map Chart.Block.braced⟩ :=
    Grammar.Description.tokens_injective <| congrArg (Token.openBrace :: ·) h
  have hb := congrArg Grammar.Description.blocks hd
  rw [Chart.Block.braced_injective.list_map hb]

end Injective

section Written

variable {α : Type} {xs : List α} {f : α → String}

theorem eq_of_writes {s s' : String} {x x' : Transcript} (hs : s = s') (h : Writes s x.tokens)
    (h' : Writes s' x'.tokens) : x = x' := by
  subst hs
  have ht := (h []).symm.trans (h' [])
  rw [contents_nil, List.append_nil, List.append_nil] at ht
  exact tokens_injective <| List.map_injective_iff.mpr (fun _ _ => Content.token.inj) ht

section Fields

variable {s text label sep : String} {value : Option Name} {fs : List (Name × Option Name)}

theorem writes_label (hl : Name.IsWord label) (hs : Mark sep [.colon]) (ht : text = label ++ sep) :
    Writes text [.name label, .colon] :=
  ht ▸ hl.spells.append_mark hs

theorem writes_nil : Writes "" (List.flatMap fieldTokens []) :=
  writes_empty

-- A value that is not there leaves its field open until a label follows.
theorem spells_field (h : Writes s (fs.flatMap fieldTokens))
    (hl : Writes text [.name label, .colon]) (hv : ∀ n ∈ value, n.IsWord) :
    Spells (s ++ text ++ value.getD "") ((fs ++ [(label, value)]).flatMap fieldTokens) := by
  have hvalue : Spells (value.getD "") (value.toList.map .name) := by
    cases value
    case none   => exact writes_empty.spells
    case some n => exact (hv n rfl).spells
  have := (h.append hl).append_spells hvalue
  simpa [fieldTokens] using this

theorem writes_field (h : Writes s (fs.flatMap fieldTokens))
    (hl : Writes text [.name label, .colon]) (hv : ∀ n ∈ value, n.IsWord) :
    Writes (s ++ text ++ value.getD "" ++ "\n")
      ((fs ++ [(label, value)]).flatMap fieldTokens) := by
  have := (spells_field h hl hv).append_mark mark_newline
  rwa [List.append_nil] at this

end Fields

theorem writes_arrow {event next : Name} {actions : List Name} (he : event.IsWord)
    (hn : next.IsWord) (ha : ∀ n ∈ actions, n.IsWord) :
    Writes ("    " ++ event ++ " " ++ next ++ " \x7b" ++ " ".intercalate actions ++ "\x7d\n")
      (Chart.Arrow.braced ⟨event, next, actions⟩).tokens := by
  have hl : Writes "    " [] := writes_of_punctuation rfl
  have ho : Mark " \x7b" [.openBrace] := ⟨rfl, by decide⟩
  have hc : Writes (" ".intercalate actions ++ "\x7d\n") (actions.map .name ++ [.closedBrace]) := by
    have := (Chart.writes_braces ha).append mark_newline.writes
    rwa [List.append_nil, String.append_assoc] at this
  rw [String.append_assoc]
  exact (hl.append_spells he.spells).append_mark mark_blank |>.append_spells hn.spells
    |>.append_mark ho |>.append hc

theorem writes_block {s : String} {h : Chart.Head} {g : α → Chart.Arrow}
    (hs : Spells s h.derivation.tokens) (hx : ∀ x ∈ xs, Writes (f x) (g x).braced.tokens) :
    Writes (s ++ " \x7b\n" ++ String.join (xs.map f) ++ "  \x7d\n")
      (Chart.Block.braced ⟨h, xs.map g⟩).tokens := by
  have ho : Mark " \x7b\n" [.openBrace] := ⟨rfl, by decide⟩
  have hc : Writes "  \x7d\n" [.closedBrace] := writes_of_punctuation rfl
  have := (hs.append_mark ho).append (Writes.join hx) |>.append hc
  simpa [Chart.Block.braced, Grammar.Block.tokens, Grammar.Body.tokens, List.flatMap_map] using this

theorem writes_of_fields {s : String} {x : Transcript} {b : α → Chart.Block}
    (hs : Writes s (x.fields.flatMap fieldTokens ++ [.openBrace])) (hx : x.blocks = xs.map b)
    (hb : ∀ a ∈ xs, Writes (f a) (b a).braced.tokens) :
    Writes (s ++ String.join (xs.map f) ++ "\x7d\n") x.tokens := by
  have hc : Writes "\x7d\n" [.closedBrace] := writes_of_punctuation rfl
  have := (hs.append (Writes.join hb)).append hc
  simpa [tokens, Grammar.Description.tokens, List.flatMap_map, hx] using this

end Written

end Transcript

end Statechart
