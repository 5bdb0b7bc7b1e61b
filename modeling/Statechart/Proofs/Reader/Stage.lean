import Mathlib.Data.List.Basic
import Statechart.Chart.Grammar

namespace Statechart.Grammar

inductive Position
  | alone
  | after (arrows : List Arrow)

-- How far a derivation has got. A stage holds the parts that are complete, and those of the present
-- part that have been read.
inductive Stage
  | header (headers : List Chart.Header)
  | headerColon (headers : List Chart.Header) (name : Name)
  | headerValue (headers : List Chart.Header) (name : Name)
  | block (d : Description)
  | abstractName (d : Description)
  | abstractClose (d : Description) (name : Name)
  | modifier (d : Description) (h : Head)
  | super (d : Description) (h : Head)
  | side (d : Description) (h : Head) (side : Side)
  | sideNames (d : Description) (h : Head) (side : Side) (names : List Name)
  | group (d : Description) (h : Head) (arrows : List Arrow)
  | event (d : Description) (h : Head) (p : Position) (event : Option Name)
  | target (d : Description) (h : Head) (p : Position) (event next : Option Name)
  | actions (d : Description) (h : Head) (p : Position) (event next : Option Name)
      (names : List Name)
  | finished (d : Description)

def Head.add (h : Head) (m : Modifier) : Head := { h with modifiers := h.modifiers ++ [m] }

def Description.add (d : Description) (b : Block) : Description :=
  { d with blocks := d.blocks ++ [b] }

namespace Stage

def commit (d : Description) (h : Head) (a : Arrow) : Position → Stage
  | .alone        => block (d.add ⟨h, .single a⟩)
  | .after arrows => group d h (arrows ++ [a])

def read : Stage → Token → Option Stage
  | header hs, .name n                  => some (headerColon hs n)
  | header hs, .openBrace               => some (block ⟨hs, []⟩)
  | headerColon hs n, .colon            => some (headerValue hs n)
  | headerValue hs n, .name v           => some (header (hs ++ [⟨n, v⟩]))
  | block d, .openParen                 => some (abstractName d)
  | block d, .name n                    => some (modifier d ⟨n, false, []⟩)
  | block d, .closedBrace               => some (finished d)
  | abstractName d, .name n             => some (abstractClose d n)
  | abstractClose d n, .closedParen     => some (modifier d ⟨n, true, []⟩)
  | modifier d h, .openAngle            => some (side d h .entry)
  | modifier d h, .closedAngle          => some (side d h .exit)
  | modifier d h, .colon                => some (super d h)
  | modifier d h, .name n               => some (event d h .alone (some n))
  | modifier d h, .dash                 => some (event d h .alone none)
  | modifier d h, .openBrace            => some (group d h [])
  | super d h, .name n                  => some (modifier d (h.add (.super n)))
  | side d h s, .name n                 => some (modifier d (h.add (.actions s (.single n))))
  | side d h s, .openBrace              => some (sideNames d h s [])
  | sideNames d h s ns, .name n         => some (sideNames d h s (ns ++ [n]))
  | sideNames d h s ns, .closedBrace    => some (modifier d (h.add (.actions s (.braces ns))))
  | group d h as, .closedBrace          => some (block (d.add ⟨h, .braces as⟩))
  | group d h as, .name n               => some (event d h (.after as) (some n))
  | group d h as, .dash                 => some (event d h (.after as) none)
  | event d h p e, .name n              => some (target d h p e (some n))
  | event d h p e, .dash                => some (target d h p e none)
  | target d h p e t, .name n           => some (commit d h ⟨e, t, some (.single n)⟩ p)
  | target d h p e t, .dash             => some (commit d h ⟨e, t, none⟩ p)
  | target d h p e t, .openBrace        => some (actions d h p e t [])
  | actions d h p e t ns, .name n       => some (actions d h p e t (ns ++ [n]))
  | actions d h p e t ns, .closedBrace  => some (commit d h ⟨e, t, some (.braces ns)⟩ p)
  | _, _                                => none

def readAll (x : Stage) (ts : List Token) : Option Stage := ts.foldlM read x

end Stage

section Written

def Description.opening (d : Description) : List Token :=
  d.headers.flatMap headerTokens ++ .openBrace :: d.blocks.flatMap Block.tokens

def Position.tokens : Position → List Token
  | .alone        => []
  | .after arrows => .openBrace :: arrows.flatMap Arrow.tokens

def Stage.tokens : Stage → List Token
  | header hs             => hs.flatMap headerTokens
  | headerColon hs n      => hs.flatMap headerTokens ++ [.name n]
  | headerValue hs n      => hs.flatMap headerTokens ++ [.name n, .colon]
  | block d               => d.opening
  | abstractName d        => d.opening ++ [.openParen]
  | abstractClose d n     => d.opening ++ [.openParen, .name n]
  | modifier d h          => d.opening ++ h.tokens
  | super d h             => d.opening ++ h.tokens ++ [.colon]
  | side d h s            => d.opening ++ h.tokens ++ [s.token]
  | sideNames d h s ns    => d.opening ++ h.tokens ++ s.token :: .openBrace :: ns.map .name
  | group d h as          => d.opening ++ h.tokens ++ (Position.after as).tokens
  | event d h p e         => d.opening ++ h.tokens ++ p.tokens ++ [slot e]
  | target d h p e t      => d.opening ++ h.tokens ++ p.tokens ++ [slot e, slot t]
  | actions d h p e t ns  =>
    d.opening ++ h.tokens ++ p.tokens ++ slot e :: slot t :: .openBrace :: ns.map .name
  | finished d            => d.tokens

variable {d : Description} {h : Head} {x y : Stage} {t : Token} {ts : List Token}

@[simp]
theorem Description.opening_nil {hs : List Chart.Header} :
    Description.opening ⟨hs, []⟩ = hs.flatMap headerTokens ++ [.openBrace] :=
  rfl

@[simp]
theorem Description.opening_add {b : Block} : (d.add b).opening = d.opening ++ b.tokens := by
  simp [opening, add]

theorem Description.tokens_eq : d.tokens = d.opening ++ [.closedBrace] := by
  simp [tokens, opening]

@[simp]
theorem Head.tokens_nil {n : Name} {b : Bool} : Head.tokens ⟨n, b, []⟩ = subject n b :=
  List.append_nil _

@[simp]
theorem Head.tokens_add {m : Modifier} : (h.add m).tokens = h.tokens ++ m.tokens := by
  simp [tokens, add]

namespace Stage

theorem tokens_commit {a : Arrow} {p : Position} :
    (commit d h a p).tokens = d.opening ++ h.tokens ++ p.tokens ++ a.tokens := by
  cases p <;> simp [commit, tokens, Position.tokens, Block.tokens, Body.tokens]

theorem tokens_read (h : x.read t = some y) : y.tokens = x.tokens ++ [t] := by
  revert h
  fun_cases read x t
  all_goals
    intro h
    cases h
  -- An arrow is complete.
  case case26 | case27 | case30 =>
    rw [tokens_commit]
    simp [tokens, Arrow.tokens, Group.tokens]
  all_goals
    simp [tokens, Position.tokens, headerTokens, Description.tokens_eq, subject, slot,
      Modifier.tokens, Group.tokens, Block.tokens, Body.tokens, Side.token]

theorem tokens_readAll (h : x.readAll ts = some y) : y.tokens = x.tokens ++ ts := by
  induction ts generalizing x
  case nil =>
    cases h
    simp
  case cons t ts hi =>
    obtain ⟨z, hz, h⟩ := Option.bind_eq_some_iff.mp h
    rw [hi h, tokens_read hz]
    simp

end Stage

end Written

section Complete

variable {d : Description} {h : Head} {p : Position} {e n : Option Name} {ts : List Token}

namespace Stage

theorem readAll_cons {x : Stage} {t : Token} :
    x.readAll (t :: ts) = (x.read t).bind (·.readAll ts) :=
  rfl

theorem readAll_sideNames {s : Side} (ns ms : List Name) :
    (sideNames d h s ns).readAll (ms.map .name ++ .closedBrace :: ts) =
      (modifier d (h.add (.actions s (.braces (ns ++ ms))))).readAll ts := by
  induction ms generalizing ns
  case nil =>
    rw [List.append_nil]
    rfl
  case cons m ms hi =>
    have := hi (ns ++ [m])
    rwa [List.append_assoc] at this

theorem readAll_modifier (m : Modifier) :
    (modifier d h).readAll (m.tokens ++ ts) = (modifier d (h.add m)).readAll ts := by
  cases m
  case super => rfl
  case actions s g =>
    have hside : (modifier d h).readAll ((s.token :: g.tokens) ++ ts) =
        (side d h s).readAll (g.tokens ++ ts) := by cases s <;> rfl
    refine hside.trans ?_
    cases g
    case single => rfl
    case braces ns =>
      rw [Group.tokens, List.cons_append, List.append_assoc]
      exact readAll_sideNames [] ns

theorem readAll_modifiers (ms : List Modifier) :
    (modifier d h).readAll (ms.flatMap Modifier.tokens ++ ts) =
      (modifier d { h with modifiers := h.modifiers ++ ms }).readAll ts := by
  induction ms generalizing h
  case nil => simp
  case cons m ms hi =>
    rw [List.flatMap_cons, List.append_assoc, readAll_modifier, hi]
    simp [Head.add]

theorem readAll_head (h : Head) :
    (block d).readAll (h.tokens ++ ts) = (modifier d h).readAll ts := by
  have hs : (block d).readAll (h.tokens ++ ts) = (modifier d ⟨h.name, h.isAbstract, []⟩).readAll
      (h.modifiers.flatMap Modifier.tokens ++ ts) := by
    rw [Head.tokens, List.append_assoc]
    cases h.isAbstract <;> rfl
  exact hs.trans <| readAll_modifiers h.modifiers

theorem readAll_actions (ns ms : List Name) :
    (actions d h p e n ns).readAll (ms.map .name ++ .closedBrace :: ts) =
      (commit d h ⟨e, n, some (.braces (ns ++ ms))⟩ p).readAll ts := by
  induction ms generalizing ns
  case nil =>
    rw [List.append_nil]
    rfl
  case cons m ms hi =>
    have := hi (ns ++ [m])
    rwa [List.append_assoc] at this

def before (d : Description) (h : Head) : Position → Stage
  | .alone        => modifier d h
  | .after arrows => group d h arrows

theorem readAll_arrow (p : Position) (a : Arrow) :
    (before d h p).readAll (a.tokens ++ ts) = (commit d h a p).readAll ts := by
  obtain ⟨e, n, as⟩ := a
  have hslots : (before d h p).readAll (Arrow.tokens ⟨e, n, as⟩ ++ ts) =
      (target d h p e n).readAll (as.elim [.dash] Group.tokens ++ ts) := by
    cases p <;> cases e <;> cases n <;> rfl
  refine hslots.trans ?_
  cases as
  case none => rfl
  case some g =>
    cases g
    case single => rfl
    case braces ns =>
      rw [Option.elim_some, Group.tokens, List.cons_append, List.append_assoc]
      exact readAll_actions [] ns

theorem readAll_arrows (as bs : List Arrow) :
    (group d h as).readAll (bs.flatMap Arrow.tokens ++ ts) = (group d h (as ++ bs)).readAll ts := by
  induction bs generalizing as
  case nil => simp
  case cons b bs hi =>
    rw [List.flatMap_cons, List.append_assoc]
    refine (readAll_arrow (.after as) b).trans <| (hi _).trans ?_
    rw [List.append_assoc]
    rfl

theorem readAll_block (b : Block) :
    (block d).readAll (b.tokens ++ ts) = (block (d.add b)).readAll ts := by
  obtain ⟨h, body⟩ := b
  rw [Block.tokens, List.append_assoc, readAll_head]
  cases body
  case single a => exact readAll_arrow .alone a
  case braces as =>
    rw [Body.tokens, List.cons_append, List.append_assoc]
    exact readAll_arrows [] as

theorem readAll_blocks (bs : List Block) :
    (block d).readAll (bs.flatMap Block.tokens ++ ts) =
      (block { d with blocks := d.blocks ++ bs }).readAll ts := by
  induction bs generalizing d
  case nil => simp
  case cons b bs hi =>
    rw [List.flatMap_cons, List.append_assoc, readAll_block, hi]
    simp [Description.add]

theorem readAll_headers {hs : List Chart.Header} (hs' : List Chart.Header) :
    (header hs).readAll (hs'.flatMap headerTokens ++ ts) = (header (hs ++ hs')).readAll ts := by
  induction hs' generalizing hs
  case nil => simp
  case cons h hs' hi =>
    have hh : (header hs).readAll (headerTokens h ++ (hs'.flatMap headerTokens ++ ts)) =
      (header (hs ++ [h])).readAll (hs'.flatMap headerTokens ++ ts) := rfl
    rw [List.flatMap_cons, List.append_assoc, hh, hi, List.append_assoc]
    rfl

theorem readAll_tokens (d : Description) : (header []).readAll d.tokens = some (finished d) := by
  have hb : (block ⟨d.headers, []⟩).readAll (d.blocks.flatMap Block.tokens ++ [.closedBrace]) =
    (block d).readAll [.closedBrace] := readAll_blocks d.blocks
  rw [Description.tokens, readAll_headers]
  exact hb

end Stage

-- The grammar is unambiguous.
theorem Description.tokens_injective {d d' : Description} (h : d.tokens = d'.tokens) : d = d' := by
  have hd := Stage.readAll_tokens d
  rw [h, Stage.readAll_tokens d'] at hd
  cases hd
  rfl

end Complete

end Statechart.Grammar
