import Statechart.Proofs.Nest.Substitute

open Relation

namespace Statechart.Nest

-- What becomes of a nest when `source` is put somewhere below `target`. No state but the source has
-- anything above it that it did not have before, and only if something stands below the source. All
-- that could be reached still can be, without the source.
structure Absorbs (t : Nest) (source target : NodeId) (u : Nest) : Prop where
  sound    : u.Sound
  acyclic  : u.Acyclic
  size     : t.size ≤ u.size
  name     : i < t.size → u.name i = t.name i
  holder   : u.Holds a b → ∃ c, t.Holds a c
  holds    : u.Holds a b → t.Holds a b ∨ b = t.name source
  gains    : TransGen u.Holds a b → TransGen t.Holds a b ∨ b = t.name source ∧ ∃ c, t.Holds b c
  keeps    : ∀ {tops tops' : NodeId → Prop}, (∀ k, tops k → k = source ∨ tops' k) → tops' target →
    t.HoldsFrom tops a b → TransGen (u.HoldsFrom tops') a b
  placed   : ∀ {tops : NodeId → Prop}, tops target →
    ∃ a, TransGen (u.HoldsFrom tops) a (t.name source)
  rootward : u.HasChild root n j ↔ t.HasChild root n j
  apart    : j < t.size → source ≠ j → t.Apart j → u.Apart j

def Above (t : Nest) : Name → Name → Prop :=
  t.HoldsFrom (t.Leads root)

-- A nest in which some of the candidates have been put below others. What `m` declares still holds,
-- and only states with substates have come to stand below anything else.
structure Merging (m : Machine) (candidates : List (Name × NodeId)) (absorbed : List Name)
    (t : Nest) : Prop where
  sound    : t.Sound
  acyclic  : t.Acyclic
  rootward : t.HasChild root n j ↔ (n, j) ∈ candidates ∧ n ∉ absorbed
  apart    : t.HasChild root n j → t.Apart j
  keeps    : b ∈ m.supers a → TransGen t.Above b a
  gains    : TransGen t.Holds a b → TransGen (fun a b => a ∈ m.supers b) a b ∨ ∃ c, b ∈ m.supers c
  holder   : t.Holds a b → ∃ c, a ∈ m.supers c
  tops     : t.HasChild root n j → m.supers n = [] → ¬t.Holds a n
  placed   : n ∈ absorbed → ∃ a, TransGen t.Above a n

def Simplification.put (m : Machine) (source target : Name × NodeId) (s : Simplification) (u : Nest)
    (how : Absorption) : Simplification where
  nest     := u.eraseChild root source.1
  absorbed := source.1 :: s.absorbed
  warnings := s.warnings ++
    absorptionWarning m source.1 (s.nest.childNames source.2) target.1 how

structure Kept (m : Machine) (candidates : List (Name × NodeId)) (P : Simplification → Prop) :
    Prop where
  absorb : P s → source ∈ candidates → target ∈ candidates → target.1 ≠ source.1 →
    source.1 ∉ s.absorbed → target.1 ∉ s.absorbed →
    s.nest.absorb? source.2 target.2 = some (u, how) → P (s.put m source target u how)

structure Takes (m : Machine) (candidates : List (Name × NodeId)) (R : Name → Prop)
    (P : Simplification → Prop) : Prop extends Kept m candidates P where
  rootward : P s → (s.nest.HasChild root n j ↔ (n, j) ∈ candidates ∧ n ∉ s.absorbed)
  held     : P s → s.nest.HasChild root n j → ¬isTop m n → R n → ∃ q k i l, s.nest.HasChild root q k ∧
    q ≠ n ∧ R q ∧ s.nest.Reaches k i ∧ s.nest.HasChild i (s.nest.name j) l

-- No candidate is left to be tried: what stands at the root stands below nothing else.
structure Merged (m : Machine) (names : List Name) (t : Nest) : Prop where
  sound   : t.Sound
  acyclic : t.Acyclic
  top     : t.HasChild root n j → ¬t.Holds a n
  placed  : n ∈ names → (∃ j, t.HasChild root n j) ∨ ∃ a, t.Above a n
  keeps   : b ∈ m.supers a → TransGen t.Above b a
  gains   : TransGen t.Holds a b → TransGen (fun a b => a ∈ m.supers b) a b ∨ ∃ c, b ∈ m.supers c
  holder  : t.Holds a b → ∃ c, a ∈ m.supers c

variable {t u v : Nest} {source target d i j k l : NodeId} {found : NameMap NodeId} {n p a b : Name}

section Absorb

theorem Covered.absorbs (h : t.Covered source d found) (s : t.Sound) (ac : t.Acyclic)
    (hr : t.Reaches target d) : t.Absorbs source target (t.substitute source d) where
  sound   := h.sound_substitute s
  acyclic := h.acyclic_substitute s ac
  size    := size_substitute h.shared ▸ Nat.le_succ _
  name hi := (name_substitute h.shared).trans <| name_linked_of_lt hi
  holder hab := by
    cases h.holds_of_substitute s hab
    case inl hab => exact ⟨_, hab⟩
    case inr hab =>
      have ⟨_, _, hc⟩ := h.spec.child
      have ⟨_, hj⟩ := h.spec.every hc
      exact ⟨_, hab.1 ▸ hj.holds h.target_ne⟩
  holds hab := (h.holds_of_substitute s hab).imp_right (·.2)
  gains hab := by
    refine (h.transGen_holds_of_substitute s hab).imp_right fun hb => ⟨hb.2, ?_⟩
    have ⟨_, _, hc⟩ := h.spec.child
    exact ⟨_, hb.2 ▸ hc.holds h.source_ne⟩
  keeps htops hk hab := h.keeps s ac htops hk hr hab
  placed hk := ⟨_, .single ⟨target, d, t.size, hk, h.reaches_target hr, rfl, h.hasChild_wrapper⟩⟩
  rootward := h.hasChild_root_substitute s
  apart    := h.apart_substitute s

theorem absorbs_union (s : t.Sound) (ac : t.Acyclic) (hs : source ≠ root)
    (hr : t.Reaches target i) (hc : t.HasChild i (t.name source) j) :
    t.Absorbs source target (t.union source j) where
  sound     := (union_progress s hs (s.named hc).symm).sound s
  acyclic   := ac.of_holds <| holds_of_union s hs (s.named hc).symm
  size      := Nat.le_of_eq union_extends.size.symm
  name _    := union_extends.name _
  holder h  := ⟨_, holds_of_union s hs (s.named hc).symm h⟩
  holds h   := .inl <| holds_of_union s hs (s.named hc).symm h
  gains h   := .inl <| TransGen.mono (fun _ _ => holds_of_union s hs (s.named hc).symm) _ _ h
  keeps htops hk hab :=
    .single <| holdsFrom_union s hs (s.named hc).symm (s.bounded hc) htops hk (hr.tail ⟨_, hc⟩) hab
  placed hk :=
    have hx : t.Extends (t.union source j) := union_extends
    ⟨_, .single ⟨target, i, j, hk, hx.reaches hr, rfl, hx.child hc⟩⟩
  rootward := hasChild_root_union s hs (s.named hc).symm (s.rootless hc)
  apart _ hne h := h.union s hs (s.named hc).symm hne

theorem Absorbs.dropNested (h : t.Absorbs source target u) (ht : target ≠ root) :
    t.Absorbs source target (u.dropNested target) := by
  have r := dropNested_rearranges h.sound h.acyclic ht
  exact {
    sound       := r.sound
    acyclic     := r.acyclic
    size        := r.size ▸ h.size
    name hi     := (r.name _).trans <| h.name hi
    holder hab  := h.holder <| r.holds hab
    holds hab   := h.holds <| r.holds hab
    gains hab   := h.gains <| TransGen.mono (fun _ _ => r.holds) _ _ hab
    keeps htops hk hab := TransGen.closed (fun _ _ => r.keeps) _ _ <| h.keeps htops hk hab
    placed hk   :=
      have ⟨a, ha⟩ := h.placed hk
      ⟨a, TransGen.closed (fun _ _ => r.keeps) _ _ ha⟩
    rootward    := r.rootward.trans h.rootward
    apart hj hne ha :=
      have ha := h.apart hj hne ha
      r.apart (fun _ hc => ht <| ha.alone hc) ha
  }

theorem substituteBelow?_eq_some (h : t.substituteBelow? source target = some u) :
    ∃ d found, t.Reaches target d ∧ t.name d ≠ t.name source ∧
      t.shared? source d = some found ∧ u = t.substitute source d := by
  have ⟨d, hd, hu⟩ := Option.map_eq_some_iff.mp h
  have hc := List.find?_some hd
  simp only [isCovered, Bool.and_eq_true, decide_eq_true_eq] at hc
  have ⟨found, hf⟩ := Option.isSome_iff_exists.mp hc.2
  exact ⟨d, found, mem_preorder_iff.mp (List.mem_of_find?_eq_some hd), hc.1.2, hf, hu.symm⟩

theorem absorb?_cases {how : Absorption} (h : t.absorb? source target = some (u, how)) :
    (how = .substituted ∧ ∃ d found, t.Reaches target d ∧ t.name d ≠ t.name source ∧
      t.shared? source d = some found ∧ u = (t.substitute source d).dropNested target) ∨
    how = .united ∧ ∃ i j, t.Reaches target i ∧ t.HasChild i (t.name source) j ∧
      u = (t.union source j).dropNested target := by
  unfold absorb? at h
  split at h
  case h_1 v hv =>
    cases h
    obtain ⟨d, found, hd, hn, hf, hv⟩ := substituteBelow?_eq_some hv
    exact .inl ⟨rfl, d, found, hd, hn, hf, hv ▸ rfl⟩
  case h_2 =>
    split at h
    case h_2 => cases h
    case h_1 v hv =>
      cases h
      obtain ⟨i, j, hi, hj, hv⟩ := uniteBelow?_eq_some hv
      exact .inr ⟨rfl, i, j, hi, hj, hv ▸ rfl⟩

theorem absorb?_absorbs {how : Absorption} (s : t.Sound) (ac : t.Acyclic) (hs : source ≠ root)
    (hb : source < t.size) (ha : t.Apart source) (ht : target ≠ root)
    (h : t.absorb? source target = some (u, how)) : t.Absorbs source target u := by
  obtain ⟨-, d, found, hd, hn, hf, rfl⟩ | ⟨-, i, j, hi, hj, rfl⟩ := absorb?_cases h
  case inr => exact (absorbs_union s ac hs hi hj).dropNested ht
  case inl =>
    have hc : t.Covered source d found := {
      source_ne := hs
      bounded   := hb
      target_ne := s.reaches_ne_root hd ht
      name_ne   := hn
      apart     := ha
      shared    := hf
    }
    exact (hc.absorbs s ac hd).dropNested ht

end Absorb

theorem Sound.holdsFrom_eraseChild_root {tops : NodeId → Prop} (s : t.Sound)
    (ht : ∀ k, tops k → k ≠ root) (h : t.HoldsFrom tops a b) :
    (t.eraseChild root n).HoldsFrom tops a b := by
  have ⟨k, i, j, hk, hr, ha, hc⟩ := h
  refine ⟨k, i, j, hk, hr.eraseChild fun x hx => s.reaches_ne_root hx (ht k hk), ?_, ?_⟩
  case refine_1 => exact name_eraseChild.trans ha
  case refine_2 => exact hasChild_eraseChild.mpr ⟨fun he => s.reaches_ne_root hr (ht k hk) he.1, hc⟩

theorem holds_eraseChild_root : (t.eraseChild root n).Holds a b ↔ t.Holds a b := by
  simp only [Holds, name_eraseChild, hasChild_eraseChild]
  grind

namespace Merging

variable {m : Machine} {candidates : List (Name × NodeId)} {absorbed : List Name}

theorem absorb (h : Merging m candidates absorbed t) (hs : t.HasChild root n source)
    (ht : t.HasChild root p target) (hne : p ≠ n) (ha : t.Absorbs source target u) :
    Merging m candidates (n :: absorbed) (u.eraseChild root n) := by
  have hn : t.name source = n := h.sound.named hs
  have hlead : ∀ k, t.Leads root k → k = source ∨ (u.eraseChild root n).Leads root k := by
    intro k ⟨q, hq⟩
    by_cases he : q = n
    case pos => exact .inl <| (he ▸ hq).unique hs
    case neg => exact .inr ⟨q, hasChild_eraseChild.mpr ⟨fun h => he h.2, ha.rootward.mpr hq⟩⟩
  have htop : ∀ k, (u.eraseChild root n).Leads root k → k ≠ root := fun k ⟨_, hk⟩ =>
    ha.sound.eraseChild.rootless hk
  have htarget : (u.eraseChild root n).Leads root target :=
    ⟨p, hasChild_eraseChild.mpr ⟨fun h => hne h.2, ha.rootward.mpr ht⟩⟩
  have hup : ∀ {a b}, TransGen (u.HoldsFrom ((u.eraseChild root n).Leads root)) a b →
      TransGen (u.eraseChild root n).Above a b := fun h =>
    TransGen.mono (fun _ _ => ha.sound.holdsFrom_eraseChild_root htop) _ _ h
  have hkeeps : ∀ {a b}, TransGen t.Above a b → TransGen (u.eraseChild root n).Above a b :=
    fun h => TransGen.closed (fun _ _ h => hup <| ha.keeps hlead htarget h) _ _ h
  have hback : ∀ {q j}, (u.eraseChild root n).HasChild root q j → q ≠ n ∧ t.HasChild root q j := by
    intro q j hq
    have ⟨hne, hq⟩ := hasChild_eraseChild.mp hq
    exact ⟨fun h => hne ⟨rfl, h⟩, ha.rootward.mp hq⟩
  exact {
    sound   := ha.sound.eraseChild
    acyclic := ha.acyclic.of_holds holds_eraseChild_root.mp
    rootward := by
      simp only [hasChild_eraseChild, ha.rootward, h.rootward, List.mem_cons]
      grind
    apart hq := by
      have ⟨hq, hc⟩ := hback hq
      refine (ha.apart (h.sound.bounded hc) ?_ (h.apart hc)).eraseChild
      intro he
      exact hq <| h.sound.named hc ▸ he ▸ hn
    keeps hb := hkeeps <| h.keeps hb
    gains hab := by
      cases ha.gains <| TransGen.mono (fun _ _ => holds_eraseChild_root.mp) _ _ hab
      case inl hab => exact h.gains hab
      case inr hb =>
        have ⟨_, _, hc⟩ := hb
        exact .inr <| h.holder hc
    holder hab := by
      have ⟨_, hc⟩ := ha.holder <| holds_eraseChild_root.mp hab
      exact h.holder hc
    tops hq hm hh := by
      have ⟨hq, hc⟩ := hback hq
      cases ha.holds <| holds_eraseChild_root.mp hh
      case inl hh => exact h.tops hc hm hh
      case inr hb => exact hq <| hb.trans hn
    placed hm := by
      cases List.mem_cons.mp hm
      case inl hm =>
        have ⟨a, ha⟩ := ha.placed htarget
        rw [hn] at ha
        exact ⟨a, hm ▸ hup ha⟩
      case inr hm =>
        have ⟨a, ha⟩ := h.placed hm
        exact ⟨a, hkeeps ha⟩
  }

end Merging

end Statechart.Nest

namespace Statechart.Nest.Simplification

variable {m : Machine} {s : Simplification} {source : Name × NodeId}
  {candidates targets : List (Name × NodeId)}

theorem absorbInto_cases (m : Machine) (source : Name × NodeId) (s : Simplification)
    (targets : List (Name × NodeId)) :
    (absorbInto m source s targets = s ∧
      ∀ e ∈ targets, e.1 ∉ s.absorbed → s.nest.absorb? source.2 e.2 = none) ∨
    ∃ target ∈ targets, target.1 ∉ s.absorbed ∧ ∃ u how,
      s.nest.absorb? source.2 target.2 = some (u, how) ∧
      absorbInto m source s targets = s.put m source target u how := by
  induction targets
  case nil => exact .inl ⟨rfl, nofun⟩
  case cons e es hi =>
    unfold absorbInto
    by_cases he : e.1 ∈ s.absorbed
    case pos =>
      simp only [he, if_true]
      refine hi.imp (fun h => ⟨h.1, ?_⟩) fun ⟨target, ht, h⟩ => ⟨target, List.mem_cons_of_mem _ ht, h⟩
      intro e' he' hn
      cases List.mem_cons.mp he'
      case inl hc => exact absurd (hc ▸ he) hn
      case inr hc => exact h.2 e' hc hn
    case neg =>
      simp only [he, if_false]
      cases ha : s.nest.absorb? source.2 e.2
      case some r => exact .inr ⟨e, List.mem_cons_self, he, r.1, r.2, ha, rfl⟩
      case none =>
        refine hi.imp (fun h => ⟨h.1, ?_⟩) fun ⟨target, ht, h⟩ => ⟨target, List.mem_cons_of_mem _ ht, h⟩
        intro e' he' hn
        cases List.mem_cons.mp he'
        case inl hc => exact hc ▸ ha
        case inr hc => exact h.2 e' hc hn

def absorbNext (m : Machine) (source : Name × NodeId) (s : Simplification)
    (rest : List (Name × NodeId)) : Simplification :=
  if source.1 ∈ s.absorbed then s else absorbInto m source s rest

theorem absorbAll_cons {rest : List (Name × NodeId)} :
    absorbAll m s (source :: rest) = absorbAll m (absorbNext m source s rest) rest :=
  rfl

theorem subset_absorbNext : s.absorbed ⊆ (absorbNext m source s targets).absorbed := by
  unfold absorbNext
  split
  case isTrue => exact List.Subset.refl _
  case isFalse =>
    cases absorbInto_cases m source s targets
    case inl hc => rw [hc.1]; exact List.Subset.refl _
    case inr hc =>
      obtain ⟨_, _, _, _, _, _, hs⟩ := hc
      rw [hs]
      exact List.subset_cons_self ..

theorem subset_absorbAll {es : List (Name × NodeId)} : s.absorbed ⊆ (absorbAll m s es).absorbed := by
  induction es generalizing s
  case nil          => exact List.Subset.refl _
  case cons e es hi => exact List.Subset.trans subset_absorbNext hi

section Induction

variable {P : Simplification → Prop}

theorem absorbNext_kept (k : Kept m candidates P) (h : P s) (hs : source ∈ candidates)
    (ht : targets ⊆ candidates) (hn : source.1 ∉ targets.map Prod.fst) :
    P (absorbNext m source s targets) := by
  unfold absorbNext
  split
  case isTrue => exact h
  case isFalse hns =>
    cases absorbInto_cases m source s targets
    case inl hc => exact hc.1.symm ▸ h
    case inr hc =>
      obtain ⟨target, hm, hc, u, how, ha, hs'⟩ := hc
      rw [hs']
      exact k.absorb h hs (ht hm) (fun he => hn <| he ▸ List.mem_map_of_mem hm) hns hc ha

theorem absorbAll_kept {es : List (Name × NodeId)} (k : Kept m candidates P) (h : P s)
    (he : es ⊆ candidates) (hn : (es.map Prod.fst).Nodup) : P (absorbAll m s es) := by
  induction es generalizing s
  case nil => exact h
  case cons e es hi =>
    have ⟨hne, hn⟩ := List.nodup_cons.mp hn
    have ⟨hm, he⟩ := List.cons_subset.mp he
    exact hi (absorbNext_kept k h hm he hne) he hn

theorem mem_absorbNext {n : Name} {i j k : NodeId} (ht : (n, k) ∈ targets) (hn : n ∉ s.absorbed)
    (hr : s.nest.Reaches k i) (hc : s.nest.HasChild i (s.nest.name source.2) j) :
    source.1 ∈ (absorbNext m source s targets).absorbed := by
  unfold absorbNext
  split
  case isTrue hm => exact hm
  case isFalse =>
    cases absorbInto_cases m source s targets
    case inr h =>
      obtain ⟨_, _, _, _, _, _, hs⟩ := h
      exact hs ▸ List.mem_cons_self
    case inl h =>
      have hnone := h.2 _ ht hn
      have hu : s.nest.uniteBelow? source.2 k = none := by
        unfold absorb? at hnone
        grind
      exact absurd hc (not_hasChild_of_uniteBelow? hu hr)

-- The induction is on the states that inherit from something. Those before the present one have been
-- absorbed, so that all that is left at the root comes after it.
theorem mem_absorbAll {R : Name → Prop} {others tops : List (Name × NodeId)}
    (k : Takes m candidates R P) (h : P s) (he : others ++ tops ⊆ candidates)
    (hn : ((others ++ tops).map Prod.fst).Nodup) (ho : ∀ e ∈ others, ¬isTop m e.1)
    (hr : ∀ {n j}, s.nest.HasChild root n j → R n → (n, j) ∈ others ++ tops) :
    ∀ e ∈ others, R e.1 → e.1 ∈ (absorbAll m s (others ++ tops)).absorbed := by
  induction others generalizing s
  case nil => exact nofun
  case cons e es hi =>
    rw [List.cons_append] at he hn ⊢
    have ⟨hne, hn⟩ := List.nodup_cons.mp hn
    have ⟨hm, he⟩ := List.cons_subset.mp he
    have ⟨hoe, ho⟩ := List.forall_mem_cons.mp ho
    have hstep := absorbNext_kept k.toKept h hm he hne
    have hmem (hR : R e.1) : e.1 ∈ (absorbNext m e s (es ++ tops)).absorbed := by
      by_cases ha : e.1 ∈ s.absorbed
      case pos => exact subset_absorbNext ha
      case neg =>
        obtain ⟨q, l, i, j, hq, hqe, hRq, hri, hj⟩ := k.held h (k.rootward h |>.mpr ⟨hm, ha⟩) hoe hR
        refine mem_absorbNext ?_ (k.rootward h |>.mp hq).2 hri hj
        exact List.mem_of_ne_of_mem (fun hc => hqe <| congrArg Prod.fst hc) <| hr hq hRq
    rw [absorbAll_cons]
    intro e' he' hR
    cases List.mem_cons.mp he'
    case inl hc => subst hc; exact subset_absorbAll <| hmem hR
    case inr hc =>
      refine hi hstep he hn ho ?_ e' hc hR
      intro n j hc hR
      have ⟨hc, hna⟩ := k.rootward hstep |>.mp hc
      have hc := k.rootward h |>.mpr ⟨hc, fun hm => hna <| subset_absorbNext hm⟩
      cases List.mem_cons.mp <| hr hc hR
      case inl hc => subst hc; exact absurd (hmem hR) hna
      case inr hc => exact hc

end Induction

end Statechart.Nest.Simplification

namespace Statechart.Nest.Merging

open Simplification

variable {m : Machine} {candidates : List (Name × NodeId)}

theorem kept : Kept m candidates fun s => Merging m candidates s.absorbed s.nest where
  absorb h hs ht hne hns hnt ha := by
    have hsource := h.rootward.mpr ⟨hs, hns⟩
    have htarget := h.rootward.mpr ⟨ht, hnt⟩
    refine h.absorb hsource htarget hne ?_
    exact absorb?_absorbs h.sound h.acyclic (h.sound.rootless hsource) (h.sound.bounded hsource)
      (h.apart hsource) (h.sound.rootless htarget) ha

theorem takes : Takes m candidates (fun _ => True)
    fun s => Merging m candidates s.absorbed s.nest where
  toKept     := kept
  rootward h := h.rootward
  held {s n source} h hs hn _ := by
    obtain ⟨p, hp⟩ := List.exists_mem_of_ne_nil _ (mt List.isEmpty_iff.mpr hn)
    obtain ⟨a, _, ha⟩ := TransGen.tail'_iff.mp <| h.keeps hp
    obtain ⟨k, i, j, ⟨q, hk⟩, hr, _, hj⟩ := ha
    refine ⟨q, k, i, j, hk, ?_, trivial, hr, h.sound.named hs ▸ hj⟩
    -- Otherwise the state would stand below itself.
    rintro rfl
    have hh := h.sound.holds_of_reaches (h.sound.rootless hk) hr
    rw [h.sound.named hk] at hh
    exact absurd (.tail' hh <| hj.holds (h.sound.reaches_ne_root hr (h.sound.rootless hk)))
      (h.acyclic _)

end Statechart.Nest.Merging

namespace Statechart.Nest

variable {m : Machine} {t : Nest} {P : Simplification → Prop}

theorem mem_candidates_iff {e : Name × NodeId} : e ∈ t.candidates ↔ t.HasChild root e.1 e.2 := by
  rw [candidates, (perm_sortBy _).mem_iff, List.mem_reverse, hasChild_iff_mem]

theorem nodup_candidates : (t.candidates.map Prod.fst).Nodup := by
  rw [candidates, ((perm_sortBy _).map Prod.fst).nodup_iff, List.map_reverse]
  exact List.nodup_reverse.mpr (t.children root).nodup

section Simplify

open Simplification

theorem simplify_eq : t.simplify m =
    absorbAll m (absorbAll m { nest := t } (t.candidates.filter (isTop m ·.1)))
      (t.candidates.filter (!isTop m ·.1) ++ t.candidates.filter (isTop m ·.1)) := by
  simp only [simplify, List.partition_eq_filter_filter, Function.comp_def]

theorem perm_candidates :
    (t.candidates.filter (!isTop m ·.1) ++ t.candidates.filter (isTop m ·.1)).Perm t.candidates :=
  List.perm_append_comm.trans <| List.filter_append_perm (isTop m ·.1) t.candidates

theorem simplify_kept (k : Kept m t.candidates P) (h : P { nest := t }) : P (t.simplify m) := by
  rw [simplify_eq]
  refine absorbAll_kept k (absorbAll_kept k h ?_ ?_) perm_candidates.subset ?_
  · exact List.filter_sublist.subset
  · exact nodup_candidates.sublist <| List.filter_sublist.map _
  · exact (perm_candidates.map Prod.fst).nodup_iff.mpr nodup_candidates

theorem mem_absorbed_simplify {R : Name → Prop} {n : Name} {j : NodeId}
    (k : Takes m t.candidates R P) (h : P { nest := t }) (hj : t.HasChild root n j)
    (hn : ¬isTop m n) (hR : R n) : n ∈ (t.simplify m).absorbed := by
  have h₁ : P (absorbAll m { nest := t } (t.candidates.filter (isTop m ·.1))) :=
    absorbAll_kept k.toKept h List.filter_sublist.subset
      (nodup_candidates.sublist <| List.filter_sublist.map _)
  rw [simplify_eq]
  refine mem_absorbAll k h₁ perm_candidates.subset ?_ (by simp) ?_ (n, j) ?_ hR
  · exact (perm_candidates.map Prod.fst).nodup_iff.mpr nodup_candidates
  · exact fun hc _ => perm_candidates.mem_iff.mpr (k.rootward h₁ |>.mp hc).1
  · exact List.mem_filter.mpr ⟨mem_candidates_iff.mpr hj, by simpa using hn⟩

theorem simplify_merged (h : Merging m t.candidates [] t) :
    Merged m (t.childNames root) (t.simplify m).nest := by
  have hm : Merging m t.candidates (t.simplify m).absorbed (t.simplify m).nest :=
    simplify_kept Merging.kept h
  refine {
    sound   := hm.sound
    acyclic := hm.acyclic
    top     := ?top
    placed  := ?placed
    keeps   := hm.keeps
    gains   := hm.gains
    holder  := hm.holder
  }
  case top =>
    intro n j a hc
    have ⟨hc', hn⟩ := hm.rootward.mp hc
    refine hm.tops hc ?_
    by_contra ht
    have ht : ¬isTop m n := mt List.isEmpty_iff.mp ht
    exact hn <| mem_absorbed_simplify Merging.takes h (mem_candidates_iff.mp hc') ht trivial
  case placed =>
    intro n hn
    by_cases ha : n ∈ (t.simplify m).absorbed
    case pos =>
      have ⟨a, ha⟩ := hm.placed ha
      have ⟨b, _, hb⟩ := TransGen.tail'_iff.mp ha
      exact .inr ⟨b, hb⟩
    case neg =>
      have ⟨j, hj⟩ := mem_childNames_iff.mp hn
      exact .inl ⟨j, hm.rootward.mpr ⟨mem_candidates_iff.mpr hj, ha⟩⟩

end Simplify

end Statechart.Nest
