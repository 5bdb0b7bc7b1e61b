import Statechart.Nest.Resolve
import Statechart.Proofs.Nest.Lift

open Relation

namespace Statechart

def State.body (s : State) : State := { s with supers := ∅ }

def State.outline (s : State) : Bool × List Name × List Name := (s.isAbstract, s.entry, s.exit)

namespace Machine

variable {β : Type _} {m : Machine} {z n : Name} {super : Option Name} {ancestors : NameMap (List Name)}

theorem mem_states_iff : z ∈ m.states ↔ ∃ s, m.state? z = some s := by
  rw [NameMap.mem_iff_get?_isSome, Option.isSome_iff_exists]
  exact .rfl

theorem mem_states_of_supers_ne_nil (hz : m.supers z ≠ []) : z ∈ m.states := by
  by_contra hn
  exact hz <| supers_eq_nil hn

theorem nodup_supers : (m.supers z).Nodup := by
  rw [supers]
  cases m.state? z
  case none   => exact .nil
  case some s => exact s.supers.nodup

theorem state?_modifyState {f : State → State} :
    (m.modifyState n f).state? z = if z = n then (m.state? z).map f else m.state? z :=
  NameMap.get?_modify ..

section SetSuper

variable {as : List β} (name : β → Name) (super : β → Option Name)

theorem body_setSuper {p : Option Name} :
    ((m.setSuper n p).state? z).map State.body = (m.state? z).map State.body := by
  rw [setSuper, state?_modifyState]
  split
  case isTrue  => rw [Option.map_map]; rfl
  case isFalse => rfl

theorem body_foldl_setSuper :
    ((as.foldl (fun m a => m.setSuper (name a) (super a)) m).state? z).map State.body =
      (m.state? z).map State.body := by
  induction as generalizing m
  case nil          => rfl
  case cons a as hi => exact hi.trans body_setSuper

theorem mem_states_setSuper {p : Option Name} : z ∈ (m.setSuper n p).states ↔ z ∈ m.states :=
  NameMap.mem_modify

theorem supers_setSuper_of_ne {p : Option Name} (h : z ≠ n) :
    (m.setSuper n p).supers z = m.supers z := by
  rw [supers, setSuper, state?_modifyState, if_neg h]
  rfl

theorem supers_setSuper_self {p : Option Name} (h : z ∈ m.states) :
    (m.setSuper z p).supers z = p.toList := by
  have ⟨s, hs⟩ := mem_states_iff.mp h
  rw [supers, setSuper, state?_modifyState, if_pos rfl, hs]
  cases p <;> rfl

theorem supers_foldl_setSuper_of_forall_ne (h : ∀ a ∈ as, name a ≠ z) :
    (as.foldl (fun m a => m.setSuper (name a) (super a)) m).supers z = m.supers z := by
  induction as generalizing m
  case nil => rfl
  case cons a as hi =>
    rw [List.foldl_cons, hi fun b hb => h b <| List.mem_cons_of_mem _ hb]
    exact supers_setSuper_of_ne <| Ne.symm <| h a List.mem_cons_self

-- The last assignment to a name is the one that counts.
theorem exists_supers_foldl_setSuper (hz : z ∈ m.states) (ha : ∃ a ∈ as, name a = z) :
    ∃ a ∈ as, name a = z ∧
      (as.foldl (fun m a => m.setSuper (name a) (super a)) m).supers z = (super a).toList := by
  induction as generalizing m
  case nil => exact absurd ha.choose_spec.1 List.not_mem_nil
  case cons a as hi =>
    rw [List.foldl_cons]
    by_cases hex : ∃ b ∈ as, name b = z
    case pos =>
      obtain ⟨b, hb, h⟩ := hi (m := m.setSuper (name a) (super a)) (mem_states_setSuper.mpr hz) hex
      exact ⟨b, List.mem_cons_of_mem _ hb, h⟩
    case neg =>
      obtain ⟨b, hb, hn⟩ := ha
      cases List.mem_cons.mp hb
      case inr hb => exact absurd ⟨b, hb, hn⟩ hex
      case inl hb =>
        subst hb hn
        refine ⟨b, List.mem_cons_self, rfl, ?_⟩
        rw [supers_foldl_setSuper_of_forall_ne name super fun b hb hn => hex ⟨b, hb, hn⟩,
          supers_setSuper_self hz]

theorem supers_foldl_setSuper {p : Option Name} (hz : z ∈ m.states)
    (h : ∀ a ∈ as, name a = z → super a = p) (ha : ∃ a ∈ as, name a = z) :
    (as.foldl (fun m a => m.setSuper (name a) (super a)) m).supers z = p.toList := by
  obtain ⟨a, ha, hn, hs⟩ := exists_supers_foldl_setSuper name super hz ha
  rw [hs, h a ha hn]

end SetSuper

section Inherit

variable {as : List Name} {es : List (Name × List Name)}

def inherited (m : Machine) (ancestors : List Name) : List Transition :=
  (ancestors.reverse.filterMap m.state?).flatMap (·.transitions)

theorem state?_inherit :
    (m.inherit n as).state? z = if z = n then
      (m.state? z).map fun s => { s with transitions := s.transitions ++ m.inherited as }
    else m.state? z :=
  state?_modifyState

theorem inherited_inherit_of_not_mem {bs : List Name} (h : n ∉ bs) :
    (m.inherit n as).inherited bs = m.inherited bs := by
  simp only [inherited]
  congr 1
  refine List.filterMap_congr fun b hb => ?_
  rw [state?_inherit, if_neg]
  exact fun he => h <| he ▸ List.mem_reverse.mp hb

theorem state?_foldl_inherit_of_not_mem (h : z ∉ es.map Prod.fst) :
    (es.foldl (fun m e => m.inherit e.1 e.2) m).state? z = m.state? z := by
  induction es generalizing m
  case nil => rfl
  case cons e es hi =>
    rw [List.foldl_cons, hi (List.not_mem_of_not_mem_cons h), state?_inherit,
      if_neg (List.ne_of_not_mem_cons h)]

-- Ancestors that do not inherit anything themselves hand on what they had at first.
theorem state?_foldl_inherit (hn : (es.map Prod.fst).Nodup) (hz : (z, as) ∈ es)
    (ha : ∀ a ∈ as, a ∉ es.map Prod.fst) :
    (es.foldl (fun m e => m.inherit e.1 e.2) m).state? z =
      (m.state? z).map fun s => { s with transitions := s.transitions ++ m.inherited as } := by
  induction es generalizing m
  case nil => exact absurd hz List.not_mem_nil
  case cons e es hi =>
    have ⟨hne, hn⟩ := List.nodup_cons.mp hn
    rw [List.foldl_cons]
    cases List.mem_cons.mp hz
    case inl he =>
      subst he
      rw [state?_foldl_inherit_of_not_mem hne, state?_inherit, if_pos rfl]
    case inr hz =>
      have hne : z ≠ e.1 := fun h => hne <| h ▸ List.mem_map_of_mem hz
      have he : e.1 ∉ as := fun h => ha e.1 h List.mem_cons_self
      rw [hi hn hz fun a h hm => ha a h <| List.mem_cons_of_mem _ hm, state?_inherit, if_neg hne,
        inherited_inherit_of_not_mem he]

theorem state?_inheritAll_of_not_mem (h : z ∉ ancestors) :
    (m.inheritAll ancestors).state? z = m.state? z :=
  state?_foldl_inherit_of_not_mem h

theorem state?_inheritAll (hz : ancestors.get? z = some as) (ha : ∀ a ∈ as, a ∉ ancestors) :
    (m.inheritAll ancestors).state? z =
      (m.state? z).map fun s => { s with transitions := s.transitions ++ m.inherited as } :=
  state?_foldl_inherit ancestors.nodup (NameMap.get?_eq_some_iff.mp hz) ha

end Inherit

-- One machine has come out of another one by moving transitions about and adding actions to them.
structure Derives (m m' : Machine) : Prop where
  outline : ∀ z, (m'.state? z).map State.outline = (m.state? z).map State.outline
  origin  : ∀ {z s t}, m'.state? z = some s → t ∈ s.transitions →
    ∃ z₀ s₀ t₀, m.state? z₀ = some s₀ ∧ t₀ ∈ s₀.transitions ∧ t₀.event = t.event ∧ t₀.next = t.next

namespace Derives

variable {m' m'' : Machine} {as : List Name}

theorem refl (m : Machine) : Derives m m where
  outline _     := rfl
  origin hs ht  := ⟨_, _, _, hs, ht, rfl, rfl⟩

theorem trans (h : Derives m m') (h' : Derives m' m'') : Derives m m'' where
  outline z := (h'.outline z).trans (h.outline z)
  origin hs ht := by
    have ⟨_, _, _, hs, ht, he, hn⟩ := h'.origin hs ht
    have ⟨z₀, s₀, t₀, hs, ht, he', hn'⟩ := h.origin hs ht
    exact ⟨z₀, s₀, t₀, hs, ht, he'.trans he, hn'.trans hn⟩

theorem of_body (h : ∀ z, (m'.state? z).map State.body = (m.state? z).map State.body) :
    Derives m m' where
  outline z := by
    have := congrArg (Option.map State.outline) (h z)
    rwa [Option.map_map, Option.map_map] at this
  origin {z s t} hs ht := by
    have hb := h z
    rw [hs, Option.map_some] at hb
    have ⟨s₀, hs₀, hb⟩ := Option.map_eq_some_iff.mp hb.symm
    have : s₀.body.transitions = s.body.transitions := hb ▸ rfl
    replace this : s₀.transitions = s.transitions := this
    exact ⟨z, s₀, t, hs₀, this ▸ ht, rfl, rfl⟩

theorem inherit : Derives m (m.inherit n as) where
  outline z := by
    rw [state?_inherit]
    split
    case isTrue  => rw [Option.map_map]; rfl
    case isFalse => rfl
  origin {z s t} hs ht := by
    rw [state?_inherit] at hs
    split at hs
    case isFalse => exact ⟨z, s, t, hs, ht, rfl, rfl⟩
    case isTrue =>
      have ⟨s₀, hs₀, he⟩ := Option.map_eq_some_iff.mp hs
      subst he
      cases List.mem_append.mp ht
      case inl ht => exact ⟨z, s₀, t, hs₀, ht, rfl, rfl⟩
      case inr ht =>
        have ⟨s', hs', ht⟩ := List.mem_flatMap.mp ht
        have ⟨z', _, hs'⟩ := List.mem_filterMap.mp hs'
        exact ⟨z', s', t, hs', ht, rfl, rfl⟩

theorem inheritAll : Derives m (m.inheritAll ancestors) := by
  unfold Machine.inheritAll
  induction ancestors.entries generalizing m
  case nil          => exact .refl m
  case cons e es hi => exact inherit.trans hi

end Derives

section Crossing

theorem state?_crossAll : (m.crossAll ancestors).state? z = (m.state? z).map fun s =>
    { s with transitions := s.transitions.map fun t =>
      t.prepend (m.crossing ancestors z t.next) } :=
  NameMap.get?_map ..

theorem Derives.crossAll : Derives m (m.crossAll ancestors) where
  outline z := by
    rw [state?_crossAll, Option.map_map]
    rfl
  origin {z s t} hs ht := by
    rw [state?_crossAll] at hs
    have ⟨s₀, hs₀, he⟩ := Option.map_eq_some_iff.mp hs
    subst he
    have ⟨t₀, ht₀, he⟩ := List.mem_map.mp ht
    subst he
    exact ⟨z, s₀, t₀, hs₀, ht₀, rfl, rfl⟩

end Crossing

theorem body_separate : ((m.separate ancestors).state? z).map State.body =
    (((m.inheritAll ancestors).crossAll ancestors).state? z).map State.body :=
  body_foldl_setSuper id fun _ => none

theorem body_settle {t : Nest} : ((m.settle t).state? z).map State.body =
    (m.state? z).map State.body :=
  (body_foldl_setSuper Prod.fst fun a => some a.2).trans <|
    body_foldl_setSuper id fun _ => none

def lost (m : Machine) : NameMap (List Name) :=
  (Nest.merged m).intersections.map fun _ paths => (Nest.merged m).ancestors paths

def lifted (m : Machine) : Nest :=
  (Nest.merged m).liftAll (Nest.merged m).intersections

theorem state?_resolve : m.resolve.state? z = ((m.separate m.lost).settle m.lifted).state? z :=
  NameMap.get?_reorder ..

theorem body_resolve : (m.resolve.state? z).map State.body =
    (((m.inheritAll m.lost).crossAll m.lost).state? z).map State.body := by
  rw [state?_resolve, body_settle, body_separate]

section Apply

variable {γ : Type _} {f : Machine → γ}

theorem apply_foldl {g : Machine → β → Machine} {bs : List β} (h : ∀ m b, f (g m b) = f m) :
    f (bs.foldl g m) = f m := by
  induction bs generalizing m
  case nil          => rfl
  case cons b bs hi => exact hi.trans (h m b)

theorem apply_reorder_settle (hs : ∀ m states, f { m with states := states } = f m) :
    f (((m.separate m.lost).settle m.lifted).reorder m.lifted.order) = f m := by
  have hset : ∀ m n p, f (setSuper m n p) = f m := fun _ _ _ => hs ..
  have h₁ : f (m.inheritAll m.lost) = f m := apply_foldl fun _ _ => hs ..
  have h₂ : f ((m.inheritAll m.lost).crossAll m.lost) = f (m.inheritAll m.lost) := hs ..
  have h₃ : f (m.separate m.lost) = _ := apply_foldl fun _ _ => hset ..
  have h₄ : f ((m.lifted.childNames Nest.root).foldl (·.setSuper · none) (m.separate m.lost)) =
      f (m.separate m.lost) := apply_foldl fun _ _ => hset ..
  have h₅ : f ((m.separate m.lost).settle m.lifted) = _ := apply_foldl fun _ _ => hset ..
  have h₆ : f (((m.separate m.lost).settle m.lifted).reorder m.lifted.order) = _ := hs ..
  calc f (((m.separate m.lost).settle m.lifted).reorder m.lifted.order)
    _ = f (m.separate m.lost) := h₆.trans <| h₅.trans h₄
    _ = f m := h₃.trans <| h₂.trans h₁

theorem apply_resolve (hs : ∀ m states, f { m with states := states } = f m)
    (hw : ∀ m warnings, f { m with warnings := warnings } = f m) : f m.resolve = f m :=
  (hw ..).trans <| apply_reorder_settle hs

theorem initial_resolve : m.resolve.initial = m.initial :=
  apply_resolve (fun _ _ => rfl) fun _ _ => rfl

theorem faults_resolve : m.resolve.faults = m.faults :=
  apply_resolve (fun _ _ => rfl) fun _ _ => rfl

end Apply

theorem resolve_derives : Derives m m.resolve :=
  Derives.inheritAll.trans <| Derives.crossAll.trans <| .of_body fun _ => body_resolve

theorem Derives.mem_states {m' : Machine} (h : Derives m m') : z ∈ m'.states ↔ z ∈ m.states := by
  have := congrArg Option.isSome (h.outline z)
  simp only [Option.isSome_map] at this
  rw [NameMap.mem_iff_get?_isSome, NameMap.mem_iff_get?_isSome]
  exact this ▸ .rfl

section Supers

open Nest

variable {t : Nest} {a : Name}

theorem exists_supers_settle (hz : z ∈ m.states) (ha : t.Above a z) :
    ∃ b, t.Above b z ∧ (m.settle t).supers z = [b] := by
  have hd : Derives m ((t.childNames root).foldl (·.setSuper · none) m) :=
    .of_body fun _ => body_foldl_setSuper id fun _ => none
  obtain ⟨e, he, hn, hs⟩ := exists_supers_foldl_setSuper Prod.fst (fun a => some a.2)
    (hd.mem_states.mpr hz) ⟨(z, a), mem_assignments_iff.mpr ha, rfl⟩
  exact ⟨e.2, mem_assignments_iff.mp (hn ▸ he), hs⟩

theorem supers_settle_of_above (hz : z ∈ m.states) (ha : t.Above a z)
    (hu : ∀ b, t.Above b z → b = a) : (m.settle t).supers z = [a] := by
  obtain ⟨b, hb, hs⟩ := exists_supers_settle hz ha
  rw [hs, hu b hb]

theorem supers_settle_of_top {j : NodeId} (hz : z ∈ m.states) (ha : ∀ b, ¬t.Above b z)
    (hr : t.HasChild root z j) : (m.settle t).supers z = [] := by
  have h : ((t.childNames root).foldl (·.setSuper · none) m).supers z = [] :=
    supers_foldl_setSuper id (fun _ => none) hz (fun _ _ _ => rfl)
      ⟨z, mem_childNames_iff.mpr ⟨j, hr⟩, rfl⟩
  refine Eq.trans ?_ h
  refine supers_foldl_setSuper_of_forall_ne Prod.fst (fun a => some a.2) ?_
  intro e he hn
  exact ha e.2 <| mem_assignments_iff.mp <| hn ▸ he

theorem separate_derives : Derives m (m.separate ancestors) :=
  Derives.inheritAll.trans <| Derives.crossAll.trans <| .of_body fun _ => body_separate

theorem supers_resolve : m.resolve.supers z = ((m.separate m.lost).settle m.lifted).supers z := by
  rw [supers, state?_resolve]
  rfl

variable {names : List Name} (h : Merged m names (merged m)) (hz : z ∈ m.states)
include h hz

-- An intersection inherits from nothing.
theorem supers_resolve_of_mem (hd : ¬(merged m).Divided z) (hi : z ∈ (merged m).intersections) :
    m.resolve.supers z = [] := by
  have ⟨j, _, hj⟩ := (liftAll_lifted (t := merged m)).new hi
  rw [supers_resolve]
  exact supers_settle_of_top (separate_derives.mem_states.mpr hz)
    (fun b => h.not_above_liftAll hi hd) hj

theorem supers_resolve_of_above (hd : ¬(merged m).Divided z) (hi : z ∉ (merged m).intersections)
    (ha : (merged m).Above a z) : m.resolve.supers z = [a] := by
  rw [supers_resolve]
  refine supers_settle_of_above (separate_derives.mem_states.mpr hz) (h.above_liftAll hi |>.mpr ha) ?_
  intro b hb
  have ⟨i, _, hi', ha, hc⟩ := above_iff.mp ha
  have ⟨k, _, hk, hb, hc'⟩ := above_iff.mp <| h.above_liftAll hi |>.mp hb
  cases h.unique_place hd hi hi' hc hk hc'
  exact hb.symm.trans ha

theorem supers_resolve_of_top (hn : z ∈ names) (ha : ∀ b, ¬(merged m).Above b z) :
    m.resolve.supers z = [] := by
  have hi : z ∉ (merged m).intersections := by
    intro hi
    have ⟨i, j, hi, hc, _⟩ := exists_leaf_of_mem_intersections h.sound h.acyclic hi
    exact ha _ (hi.above hc)
  rw [supers_resolve]
  cases h.placed hn
  case inr hn => exact absurd hn.choose_spec (ha _)
  case inl hn =>
    have ⟨j, hj⟩ := hn
    refine supers_settle_of_top (separate_derives.mem_states.mpr hz) (fun b hb => ?_)
      (liftAll_lifted.old hi |>.mpr hj)
    exact ha b <| h.above_liftAll hi |>.mp hb

end Supers

end Machine

end Statechart
