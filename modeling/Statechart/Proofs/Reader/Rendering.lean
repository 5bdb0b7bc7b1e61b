import Statechart.Chart.Render
import Statechart.Proofs.Reader.Derivation

namespace Statechart

open Text Lexeme

section Spelling

variable {α : Type} {s s' : String} {ts ts' : List Token} {n : Name} {cs cs' : List Char}
  {xs : List α} {f : α → String} {g : α → List Token}

-- `Writes s ts` says that `s` is read as `ts` whatever follows it, and `Spells s ts` that it is so
-- if no name goes on behind it.
def Writes (s : String) (ts : List Token) : Prop :=
  ∀ cs, contents (s.toList ++ cs) = ts.map .token ++ contents cs

def Spells (s : String) (ts : List Token) : Prop :=
  ∀ cs, Bounded cs → contents (s.toList ++ cs) = ts.map .token ++ contents cs

def punctuation : List Char → Option (List Token)
  | []      => some []
  | c :: cs =>
    if isBlank c then punctuation cs else return (← Token.ofChar? c) :: (← punctuation cs)

-- A text that a name ends at.
structure Mark (s : String) (ts : List Token) : Prop where
  tokens : punctuation s.toList = some ts
  ne_nil : s.toList ≠ []

theorem Text.Bounded.append (h : Bounded cs) (h' : Bounded cs') : Bounded (cs ++ cs') := by
  cases cs
  case nil  => exact h'
  case cons => exact h

theorem bounded_join (h : ∀ x ∈ xs, Bounded (f x).toList) :
    Bounded (String.join <| xs.map f).toList := by
  induction xs
  case nil => rintro c ⟨⟩
  case cons x xs hi =>
    rw [List.forall_mem_cons] at h
    rw [List.map_cons, String.join_cons, String.toList_append]
    exact h.left.append <| hi h.right

theorem Mark.bounded (h : Mark s ts) (cs : List Char) : Bounded (s.toList ++ cs) := by
  obtain ⟨hp, hne⟩ := h
  obtain ⟨c, ws, he⟩ := List.exists_cons_of_ne_nil hne
  rw [he, punctuation] at hp
  rw [he]
  intro c' hc'
  cases hc'
  split at hp
  case isTrue hb => exact not_isWord_of_isBlank hb
  case isFalse =>
    obtain ⟨t, ht, _⟩ := Option.bind_eq_some_iff.mp hp
    exact (Token.ofChar?_spec ht).2.2

theorem writes_of_punctuation (h : punctuation s.toList = some ts) : Writes s ts := by
  intro cs
  generalize s.toList = ws at h ⊢
  induction ws generalizing ts
  case nil => cases h; rfl
  case cons c ws hi =>
    rw [punctuation] at h
    split at h
    case isTrue hb => rw [List.cons_append, contents_blank hb, hi h]
    case isFalse =>
      obtain ⟨t, ht, h⟩ := Option.bind_eq_some_iff.mp h
      obtain ⟨ts', hts, h⟩ := Option.bind_eq_some_iff.mp h
      cases h
      rw [List.cons_append, contents_token ht, hi hts]
      rfl

theorem Mark.writes (h : Mark s ts) : Writes s ts :=
  writes_of_punctuation h.tokens

theorem Name.IsWord.spells (h : n.IsWord) : Spells n [.name n] :=
  fun _ => contents_name h

theorem Writes.spells (h : Writes s ts) : Spells s ts :=
  fun cs _ => h cs

theorem Writes.append (h : Writes s ts) (h' : Writes s' ts') : Writes (s ++ s') (ts ++ ts') := by
  intro cs
  rw [String.toList_append, List.append_assoc, h, h', List.map_append, List.append_assoc]

theorem Writes.append_spells (h : Writes s ts) (h' : Spells s' ts') :
    Spells (s ++ s') (ts ++ ts') := by
  intro cs hc
  rw [String.toList_append, List.append_assoc, h, h' cs hc, List.map_append, List.append_assoc]

theorem Spells.append (h : Spells s ts) (h' : Spells s' ts') (hb : Bounded s'.toList) :
    Spells (s ++ s') (ts ++ ts') := by
  intro cs hc
  rw [String.toList_append, List.append_assoc, h _ (hb.append hc), h' cs hc, List.map_append,
    List.append_assoc]

theorem Spells.append_mark (h : Spells s ts) (h' : Mark s' ts') : Writes (s ++ s') (ts ++ ts') := by
  intro cs
  rw [String.toList_append, List.append_assoc, h _ (h'.bounded cs), h'.writes, List.map_append,
    List.append_assoc]

theorem writes_empty : Writes "" [] :=
  fun _ => rfl

theorem Writes.join (h : ∀ x ∈ xs, Writes (f x) (g x)) :
    Writes (String.join <| xs.map f) (xs.flatMap g) := by
  induction xs
  case nil => exact writes_empty
  case cons x xs hi =>
    rw [List.forall_mem_cons] at h
    rw [List.map_cons, String.join_cons, List.flatMap_cons]
    exact h.left.append <| hi h.right

theorem Spells.join (h : ∀ x ∈ xs, Spells (f x) (g x)) (hb : ∀ x ∈ xs, Bounded (f x).toList) :
    Spells (String.join <| xs.map f) (xs.flatMap g) := by
  induction xs
  case nil => exact writes_empty.spells
  case cons x xs hi =>
    rw [List.forall_mem_cons] at h hb
    rw [List.map_cons, String.join_cons, List.flatMap_cons]
    exact h.left.append (hi h.right hb.right) <| bounded_join hb.right

theorem mark_blank : Mark " " [] :=
  ⟨rfl, by decide⟩

theorem mark_newline : Mark "\n" [] :=
  ⟨rfl, by decide⟩

end Spelling

namespace Grammar

def Group.of : List Name → Group
  | [n] => .single n
  | ns  => .braces ns

def Body.of : List Arrow → Body
  | [a] => .single a
  | as  => .braces as

variable {ns : List Name} {as : List Arrow}

theorem Group.of_eq_braces (h : ∀ n, ns ≠ [n]) : Group.of ns = .braces ns := by
  fun_cases Group.of ns
  case case1 n => exact absurd rfl (h n)
  case case2   => rfl

theorem Body.of_eq_braces (h : ∀ a, as ≠ [a]) : Body.of as = .braces as := by
  fun_cases Body.of as
  case case1 a => exact absurd rfl (h a)
  case case2   => rfl

@[simp]
theorem Group.names_of (ns : List Name) : (Group.of ns).names = ns := by
  fun_cases Group.of ns <;> rfl

@[simp]
theorem Body.arrows_of (as : List Arrow) : (Body.of as).arrows = as := by
  fun_cases Body.of as <;> rfl

end Grammar

namespace Chart

section Derivation

def Arrow.derivation (a : Arrow) : Grammar.Arrow := ⟨a.event, a.next, some (.of a.actions)⟩

def Head.derivation (h : Head) : Grammar.Head where
  name       := h.name
  isAbstract := h.isAbstract
  modifiers  := h.supers.map .super ++ h.entry.map (.actions .entry <| .single ·) ++
    h.exit.map (.actions .exit <| .single ·)

def Block.derivation (b : Block) : Grammar.Block :=
  ⟨b.head.derivation, .of (b.arrows.map Arrow.derivation)⟩

def derivation (c : Chart) : Grammar.Description := ⟨c.headers, c.blocks.map Block.derivation⟩

@[simp]
theorem Arrow.chart_derivation (a : Arrow) : a.derivation.chart = a := by
  simp [derivation, Grammar.Arrow.chart]

@[simp]
theorem Head.chart_derivation (h : Head) : h.derivation.chart = h := by
  have he (ns : List Name) : ns.flatMap (fun _ => ([] : List Name)) = [] :=
    List.flatMap_eq_nil_iff.mpr fun _ _ => rfl
  simp [derivation, Grammar.Head.chart, List.flatMap_map, Grammar.Modifier.supers,
    Grammar.Modifier.actionsOn, Grammar.Group.names, he]

@[simp]
theorem Block.chart_derivation (b : Block) : b.derivation.chart = b := by
  simp [derivation, Grammar.Block.chart, Function.comp_def]

theorem chart_derivation {c : Chart} (he : c.errors = []) (hc : c.closed) :
    c.derivation.chart = c := by
  obtain ⟨headers, blocks, errors, closed⟩ := c
  subst he hc
  simp [derivation, Grammar.Description.chart, Function.comp_def]

end Derivation

section Names

def Head.names (h : Head) : List Name := h.name :: (h.supers ++ h.entry ++ h.exit)

def Arrow.names (a : Arrow) : List Name := a.event.toList ++ a.next.toList ++ a.actions

def Block.names (b : Block) : List Name := b.head.names ++ b.arrows.flatMap Arrow.names

def names (c : Chart) : List Name :=
  c.headers.flatMap (fun h => [h.name, h.value]) ++ c.blocks.flatMap Block.names

end Names

section Render

theorem spells_slot {n? : Option Name} (h : ∀ n ∈ n?, n.IsWord) :
    Spells (n?.getD "-") [Grammar.slot n?] := by
  cases n?
  case none   => exact (writes_of_punctuation rfl).spells
  case some n => exact (h n rfl).spells

-- Of the names in braces, the last one ends at the brace and all others at a blank.
theorem writes_braces {ns : List Name} (h : ∀ n ∈ ns, n.IsWord) :
    Writes (" ".intercalate ns ++ "\x7d") (ns.map .name ++ [.closedBrace]) := by
  have hb : Mark "\x7d" [.closedBrace] := ⟨rfl, by decide⟩
  induction ns
  case nil => exact hb.writes
  case cons n ns hi =>
    rw [List.forall_mem_cons] at h
    cases ns
    case nil        => exact h.left.spells.append_mark hb
    case cons n' ns =>
      rw [String.intercalate_cons_cons, String.append_assoc]
      exact (h.left.spells.append_mark mark_blank).append <| hi h.right

theorem Arrow.spells_actions {ns : List Name} (h : ∀ n ∈ ns, n.IsWord) :
    Spells (renderActions ns) (Grammar.Group.of ns).tokens := by
  fun_cases renderActions ns
  case case1 n => exact (h n List.mem_cons_self).spells
  case case2 hne =>
    have ho : Writes "\x7b" [.openBrace] := writes_of_punctuation rfl
    rw [Grammar.Group.of_eq_braces hne, String.append_assoc]
    exact (ho.append <| writes_braces h).spells

theorem Arrow.spells {a : Arrow} (h : ∀ n ∈ a.names, n.IsWord) :
    Spells a.render a.derivation.tokens := by
  have he : Spells _ [Grammar.slot a.event] := spells_slot fun n hn => h n (by simp_all [names])
  have hn : Spells _ [Grammar.slot a.next] := spells_slot fun n hn => h n (by simp_all [names])
  have ha : Spells (renderActions a.actions) _ :=
    spells_actions fun n hn => h n (by simp_all [names])
  exact (he.append_mark mark_blank).append_spells hn
    |>.append_mark mark_blank |>.append_spells ha

theorem spells_marked {mark : String} {t : Token} (ns : List Name) (hm : Mark mark [t])
    (h : ∀ n ∈ ns, n.IsWord) :
    Spells (String.join <| ns.map (mark ++ ·)) (ns.flatMap ([t, .name ·])) ∧
      Bounded (String.join <| ns.map (mark ++ ·)).toList := by
  have hb : ∀ n ∈ ns, Bounded (mark ++ n).toList := fun n _ => by
    rw [String.toList_append]
    exact hm.bounded n.toList
  exact ⟨.join (fun n hn => hm.writes.append_spells (h n hn).spells) hb, bounded_join hb⟩

theorem Head.spells_of_mark {d : Head} {mark : String} (hm : Mark mark [.colon])
    (h : ∀ n ∈ d.names, n.IsWord) :
    Spells ((if d.isAbstract then "(" ++ d.name ++ ")" else d.name) ++
      String.join (d.supers.map (mark ++ ·)) ++ String.join (d.entry.map (" <" ++ ·)) ++
      String.join (d.exit.map (" >" ++ ·))) d.derivation.tokens := by
  have hn : d.name.IsWord := h _ List.mem_cons_self
  have hname : Spells (if d.isAbstract then "(" ++ d.name ++ ")" else d.name)
      (Grammar.subject d.name d.isAbstract) := by
    cases d.isAbstract
    case false => exact hn.spells
    case true  =>
      have ho : Writes "(" [.openParen] := writes_of_punctuation rfl
      have hc : Mark ")" [.closedParen] := ⟨rfl, by decide⟩
      exact (ho.append_spells hn.spells).append_mark hc |>.spells
  have hm₂ : Mark " <" [.openAngle] := ⟨rfl, by decide⟩
  have hm₃ : Mark " >" [.closedAngle] := ⟨rfl, by decide⟩
  have hsuper := spells_marked d.supers hm fun n hn => h n (by simp_all [names])
  have hentry := spells_marked d.entry hm₂ fun n hn => h n (by simp_all [names])
  have hexit := spells_marked d.exit hm₃ fun n hn => h n (by simp_all [names])
  have he : d.derivation.tokens = Grammar.subject d.name d.isAbstract ++
      d.supers.flatMap ([.colon, .name ·]) ++ d.entry.flatMap ([.openAngle, .name ·]) ++
      d.exit.flatMap ([.closedAngle, .name ·]) := by
    simp [derivation, Grammar.Head.tokens, List.flatMap_map, Grammar.Modifier.tokens,
      Grammar.Group.tokens, Grammar.Side.token]
  rw [he]
  exact (hname.append hsuper.left hsuper.right).append hentry.left hentry.right
    |>.append hexit.left hexit.right

theorem Head.spells {d : Head} (h : ∀ n ∈ d.names, n.IsWord) :
    Spells d.render d.derivation.tokens :=
  spells_of_mark ⟨rfl, by decide⟩ h

theorem Block.spells_arrows {as : List Arrow} (h : ∀ n ∈ as.flatMap Arrow.names, n.IsWord) :
    Spells (renderArrows as) (Grammar.Body.of <| as.map Arrow.derivation).tokens := by
  have ha : ∀ a ∈ as, Spells a.render a.derivation.tokens := fun a ha =>
    Arrow.spells fun n hn => h n <| List.mem_flatMap_of_mem ha hn
  fun_cases renderArrows as
  case case1 a => exact ha a List.mem_cons_self
  case case2 hne =>
    have ho : Writes "\x7b\n" [.openBrace] := writes_of_punctuation rfl
    have hc : Writes "  \x7d" [.closedBrace] := writes_of_punctuation rfl
    have hl : Writes "    " [] := writes_of_punctuation rfl
    have hs := Writes.join fun a h => (hl.append_spells <| ha a h).append_mark mark_newline
    have hne' d : as.map Arrow.derivation ≠ [d] := by
      intro hd
      obtain ⟨a, ha, -⟩ := List.map_eq_singleton_iff.mp hd
      exact hne a ha
    rw [Grammar.Body.of_eq_braces hne']
    simpa [Grammar.Body.tokens, List.flatMap_map] using ((ho.append hs).append hc).spells

theorem Block.writes {b : Block} (h : ∀ n ∈ b.names, n.IsWord) :
    Writes b.render b.derivation.tokens := by
  have hl : Writes "  " [] := writes_of_punctuation rfl
  have hhead := Head.spells fun n hn => h n <| List.mem_append_left _ hn
  have hbody := spells_arrows fun n hn => h n <| List.mem_append_right _ hn
  have := (hl.append_spells hhead).append_mark mark_blank |>.append_spells hbody
    |>.append_mark mark_newline
  simpa [render, derivation, Grammar.Block.tokens] using this

theorem Header.writes {d : Header} (hn : d.name.IsWord) (hv : d.value.IsWord) :
    Writes d.render (Grammar.headerTokens d) := by
  have hc : Mark ":" [.colon] := ⟨rfl, by decide⟩
  exact (hn.spells.append_mark hc).append_spells hv.spells
    |>.append_mark mark_newline

theorem writes {c : Chart} (he : c.errors = []) (hc : c.closed) (h : ∀ n ∈ c.names, n.IsWord) :
    Writes c.render c.derivation.tokens := by
  have hheaders : Writes (String.join <| c.headers.map Header.render) _ := Writes.join fun d hd =>
    have hd : [d.name, d.value] ⊆ c.names := fun _ hn =>
      List.mem_append_left _ <| List.mem_flatMap_of_mem hd hn
    Header.writes (h _ <| hd <| by simp) (h _ <| hd <| by simp)
  have hblocks := Writes.join fun b hb =>
    Block.writes fun n hn => h n <| List.mem_append_right _ <| List.mem_flatMap_of_mem hb hn
  have ho : Writes "\x7b\n" [.openBrace] := writes_of_punctuation rfl
  have hc' : Writes "\x7d\n" [.closedBrace] := writes_of_punctuation rfl
  have := (hheaders.append <| (ho.append hblocks).append hc').append writes_empty
  simpa [render, renderBlocks, he, hc, derivation, Grammar.Description.tokens,
    List.flatMap_map] using this

end Render

end Chart

namespace Grammar

section Names

variable {n : Name}

theorem Group.mem_tokens {g : Group} : .name n ∈ g.tokens ↔ n ∈ g.names := by
  cases g <;> simp [tokens, names]

theorem Arrow.mem_tokens {a : Arrow} (h : n ∈ a.chart.names) : .name n ∈ a.tokens := by
  obtain ⟨event, next, actions⟩ := a
  simp only [chart, Chart.Arrow.names, List.mem_append, Option.mem_toList] at h
  obtain (rfl | rfl) | h := h
  case inl.inl => simp [tokens, slot]
  case inl.inr => simp [tokens, slot]
  case inr =>
    cases actions
    case none   => cases h
    case some g => simp [tokens, Group.mem_tokens.mpr h]

theorem Modifier.mem_tokens {m : Modifier} (side : Side)
    (h : n ∈ m.supers ∨ n ∈ m.actionsOn side) : .name n ∈ m.tokens := by
  fun_cases tokens m
  case case1 name        => simpa [supers, actionsOn] using h
  case case2 side' group =>
    simp only [supers, List.not_mem_nil, false_or, actionsOn] at h
    split at h
    case isTrue  => exact List.mem_cons_of_mem _ <| Group.mem_tokens.mpr h
    case isFalse => cases h

theorem Head.mem_tokens {h : Head} (hn : n ∈ h.chart.names) : .name n ∈ h.tokens := by
  have hm {ns : Modifier → List Name} (he : ∀ m, n ∈ ns m → .name n ∈ m.tokens)
      (hn : n ∈ h.modifiers.flatMap ns) : .name n ∈ h.tokens := by
    obtain ⟨m, hm, hn⟩ := List.mem_flatMap.mp hn
    exact List.mem_append_right _ <| List.mem_flatMap_of_mem hm <| he m hn
  simp only [chart, Chart.Head.names, List.mem_cons, List.mem_append] at hn
  obtain rfl | (hn | hn) | hn := hn
  case inl         => cases he : h.isAbstract <;> simp [tokens, subject, he]
  case inr.inl.inl => exact hm (fun _ h => Modifier.mem_tokens .entry <| .inl h) hn
  case inr.inl.inr => exact hm (fun _ h => Modifier.mem_tokens .entry <| .inr h) hn
  case inr.inr     => exact hm (fun _ h => Modifier.mem_tokens .exit <| .inr h) hn

theorem Body.mem_tokens {b : Body} {a : Arrow} {t : Token} (ha : a ∈ b.arrows) (ht : t ∈ a.tokens) :
    t ∈ b.tokens := by
  cases b
  case single => exact List.mem_singleton.mp ha ▸ ht
  case braces =>
    refine List.mem_cons_of_mem _ <| List.mem_append_left _ ?_
    exact List.mem_flatMap_of_mem ha ht

theorem Block.mem_tokens {b : Block} (h : n ∈ b.chart.names) : .name n ∈ b.tokens := by
  cases List.mem_append.mp h
  case inl h => exact List.mem_append_left _ <| Head.mem_tokens h
  case inr h =>
    obtain ⟨_, hm, hn⟩ := List.mem_flatMap.mp h
    obtain ⟨a, ha, rfl⟩ := List.mem_map.mp hm
    exact List.mem_append_right _ <| Body.mem_tokens ha <| Arrow.mem_tokens hn

theorem Description.mem_tokens {d : Description} (h : n ∈ d.chart.names) : .name n ∈ d.tokens := by
  cases List.mem_append.mp h
  case inl h =>
    obtain ⟨e, he, hn⟩ := List.mem_flatMap.mp h
    exact List.mem_append_left _ <| List.mem_flatMap.mpr ⟨e, he, by simp_all [headerTokens]⟩
  case inr h =>
    obtain ⟨_, hm, hn⟩ := List.mem_flatMap.mp h
    obtain ⟨b, hb, rfl⟩ := List.mem_map.mp hm
    refine List.mem_append_right _ <| List.mem_cons_of_mem _ <| List.mem_append_left _ ?_
    exact List.mem_flatMap_of_mem hb <| Block.mem_tokens hn

end Names

end Grammar

namespace Chart

variable {c : Chart} {source : String}

theorem ofSource_render (he : c.errors = []) (hc : c.closed) (h : ∀ n ∈ c.names, n.IsWord) :
    ofSource c.render = c := by
  have hw := writes he hc h []
  rw [List.append_nil, contents_nil, List.append_nil, ← map_content_ofSource] at hw
  rw [ofSource_eq hw, chart_derivation he hc]

theorem isWord_of_mem_names {n : Name} (he : (ofSource source).errors = [])
    (hn : n ∈ (ofSource source).names) : n.IsWord := by
  obtain ⟨d, hd⟩ := exists_derivation he
  rw [ofSource_eq hd] at hn
  have hm : .token (.name n) ∈ (Lexeme.ofSource source).map (·.content) :=
    hd ▸ List.mem_map_of_mem (Grammar.Description.mem_tokens hn)
  rw [map_content_ofSource] at hm
  exact isWord_of_mem_contents hm

theorem closed_of_errors (he : (ofSource source).errors = []) : (ofSource source).closed := by
  obtain ⟨d, hd⟩ := exists_derivation he
  rw [ofSource_eq hd]
  rfl

-- What is written is read back: any chart that could be read at all, so also what any source is
-- read as.
theorem render_reads_back :
    (∀ c : Chart, c.closed → c.errors = [] → (∀ n ∈ c.names, n.IsWord) → ofSource c.render = c) ∧
    ∀ source, (ofSource source).errors = [] →
      ofSource (ofSource source).render = ofSource source :=
  ⟨fun _ hc he h => ofSource_render he hc h,
    fun _ he => ofSource_render he (closed_of_errors he) fun _ => isWord_of_mem_names he⟩

end Chart

def Chart.layouts : Chart where
  headers := [⟨"fsm", "f"⟩, ⟨"initial", "a_1"⟩]
  blocks  := [
    ⟨{ name := "a_1", isAbstract := true, supers := ["b", "c"], entry := ["x", "y"] },
      [{ event := "e", actions := ["p"] }]⟩,
    ⟨{ name := "b", exit := ["z"] }, [{ next := "a_1", actions := ["p", "q"] }, { event := "e" }]⟩,
    ⟨{ name := "c" }, []⟩
  ]
  closed := true

theorem render_reads_back_layouts : (∀ n ∈ Chart.layouts.names, n.IsWord) ∧
    Chart.ofSource Chart.layouts.render = Chart.layouts ∧
    (Chart.ofSource Source.layouts).errors = [] ∧
    Chart.ofSource (Chart.ofSource Source.layouts).render = Chart.ofSource Source.layouts := by
  have hn : ∀ n ∈ Chart.layouts.names, n.IsWord := by decide
  have he : (Chart.ofSource Source.layouts).errors = [] := by decide +kernel
  obtain ⟨hwritten, hread⟩ := Chart.render_reads_back
  exact ⟨hn, hwritten _ rfl rfl hn, he, hread _ he⟩

end Statechart
