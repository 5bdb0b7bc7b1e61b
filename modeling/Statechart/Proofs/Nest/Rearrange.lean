import Statechart.Nest.Absorb
import Statechart.Proofs.Nest.Union

open Relation

namespace Statechart.Nest

structure Apart (t : Nest) (j : NodeId) : Prop where
  alone : ∀ {i n}, t.HasChild i n j → i = root
  sole  : ∀ {i n l}, i ≠ root → t.name i = t.name j → t.HasChild i n l → i = j

-- Nodes have been moved about below the root, but none of `fixed`. Nothing stands below a name that
-- did not before, and what stood above another name, as far as it is reached from some nodes, still
-- does.
structure Rearranges (fixed : NodeId → Prop) (t u : Nest) : Prop where
  sound    : u.Sound
  acyclic  : u.Acyclic
  size     : u.size = t.size
  name     : ∀ i, u.name i = t.name i
  holds    : ∀ {a b}, u.Holds a b → t.Holds a b
  keeps    : ∀ {tops a b}, t.HoldsFrom tops a b → TransGen (u.HoldsFrom tops) a b
  rootward : ∀ {n j}, u.HasChild root n j ↔ t.HasChild root n j
  apart    : ∀ {j}, fixed j → t.Apart j → u.Apart j

variable {t u v : Nest} {fixed : NodeId → Prop} {source target d i j k : NodeId}
  {n m a b : Name}

theorem Apart.eq_of_reaches (h : t.Apart j) (s : t.Sound) (hi : i ≠ root) (hr : t.Reaches i j) :
    i = j := by
  cases hr
  case refl         => rfl
  case tail k hk hl => exact absurd (h.alone hl.choose_spec) (s.reaches_ne_root hk hi)

theorem Acyclic.of_holds (h : ∀ {a b}, u.Holds a b → t.Holds a b) (ac : t.Acyclic) : u.Acyclic :=
  fun n hn => ac n <| TransGen.mono (fun _ _ => h) _ _ hn

section Union

variable (s : t.Sound) (hs : source ≠ root) (hn : t.name source = t.name target)
include s hs hn

theorem holds_of_union (h : (t.union source target).Holds a b) : t.Holds a b := by
  have p := union_progress s hs hn
  have ⟨i, j, hi, ha, hc⟩ := h
  rw [p.extension.name] at ha
  cases p.drawn hc
  case inl hc => exact ⟨i, j, hi, ha, hc⟩
  case inr d =>
    have ⟨k, hr, hk, hc⟩ := d.origin
    exact ⟨k, j, s.reaches_ne_root hr hs, hk.trans ha, hc⟩

theorem Apart.union (h : t.Apart j) (hj : source ≠ j) : (t.union source target).Apart j where
  alone hc := by
    cases (union_progress s hs hn).drawn hc
    case inl hc => exact h.alone hc
    case inr d => exact absurd (h.eq_of_reaches s hs d.reaches) hj
  sole {i _ _} hi hij hc := by
    have p := union_progress s hs hn
    rw [p.extension.name, p.extension.name] at hij
    cases p.drawn hc
    case inl hc => exact h.sole hi hij hc
    case inr d =>
      have ⟨k, hr, hk, hc⟩ := d.origin
      have hk := h.sole (s.reaches_ne_root hr hs) (hk.trans hij) hc
      exact absurd (h.eq_of_reaches s hs (hk ▸ hr)) hj

theorem hasChild_root_union (ht : target ≠ root) :
    (t.union source target).HasChild root n j ↔ t.HasChild root n j := by
  constructor
  case mpr => exact union_extends.child
  case mp =>
    intro hc
    cases (union_progress s hs hn).drawn hc
    case inl hc => exact hc
    case inr d =>
      cases d.place
      case inl h => exact absurd h.symm ht
      case inr h => exact absurd rfl h.1

theorem holdsFrom_union {tops tops' : NodeId → Prop} (ht : target < t.size)
    (htops : ∀ k, tops k → k = source ∨ tops' k) (hk : tops' k) (hr : t.Reaches k target)
    (h : t.HoldsFrom tops a b) : (t.union source target).HoldsFrom tops' a b := by
  have hx : t.Extends (t.union source target) := union_extends
  have ⟨l, i, j, hl, hi, ha, hj⟩ := h
  cases htops l hl
  case inr hl => exact ⟨l, i, j, hl, hx.reaches hi, (hx.name i).trans ha, hx.child hj⟩
  case inl hl =>
    subst hl
    have ⟨i', hi', hn', hc⟩ := union_covers s hs ht hn hi
    have ⟨j', hj'⟩ := hc b j hj
    exact ⟨k, i', j', hk, (hx.reaches hr).trans hi', (hx.name i').trans (hn'.trans ha), hj'⟩

end Union

namespace Rearranges

theorem refl (s : t.Sound) (ac : t.Acyclic) : Rearranges fixed t t where
  sound    := s
  acyclic  := ac
  size     := rfl
  name _   := rfl
  holds    := id
  keeps    := .single
  rootward := .rfl
  apart _  := id

theorem trans (h₁ : Rearranges fixed t u) (h₂ : Rearranges fixed u v) : Rearranges fixed t v where
  sound     := h₂.sound
  acyclic   := h₂.acyclic
  size      := h₂.size.trans h₁.size
  name i    := (h₂.name i).trans (h₁.name i)
  holds h   := h₁.holds <| h₂.holds h
  keeps h   := TransGen.closed (fun _ _ => h₂.keeps) _ _ (h₁.keeps h)
  rootward  := h₂.rootward.trans h₁.rootward
  apart hf h := h₂.apart hf <| h₁.apart hf h

end Rearranges

section Uniting

theorem uniteBelow?_eq_some (h : t.uniteBelow? source target = some u) :
    ∃ i j, t.Reaches target i ∧ t.HasChild i (t.name source) j ∧ u = t.union source j := by
  have ⟨j, hj, hu⟩ := Option.map_eq_some_iff.mp h
  have ⟨i, hi, hc⟩ := List.exists_of_findSome?_eq_some hj
  exact ⟨i, j, mem_preorder_iff.mp hi, hc, hu.symm⟩

theorem not_hasChild_of_uniteBelow? (h : t.uniteBelow? source target = none)
    (hr : t.Reaches target i) : ¬t.HasChild i (t.name source) j := by
  have h := List.findSome?_eq_none_iff.mp (Option.map_eq_none_iff.mp h) i (mem_preorder_iff.mpr hr)
  intro hc
  rw [HasChild, h] at hc
  cases hc

end Uniting

section Nested

theorem reaches_or_through (h : t.Reaches k i) (hd : ∀ c, t.HasChild d n c → c = j) :
    (t.eraseChild d n).Reaches k i ∨ (t.eraseChild d n).Reaches k d ∧ t.Reaches j i := by
  induction h
  case refl => exact .inl .refl
  case tail x y _ hy hi =>
    have ⟨m, hy⟩ := hy
    cases hi
    case inr h => exact .inr ⟨h.1, h.2.tail ⟨m, hy⟩⟩
    case inl h =>
      by_cases hx : x = d ∧ m = n
      case pos =>
        have ⟨hx, hm⟩ := hx
        subst hx hm
        exact .inr ⟨h, hd y hy ▸ .refl⟩
      case neg => exact .inl <| h.tail ⟨m, hasChild_eraseChild.mpr ⟨hx, hy⟩⟩

theorem Reaches.eraseChild (h : t.Reaches k i) (hd : ∀ x, t.Reaches k x → x ≠ d) :
    (t.eraseChild d n).Reaches k i := by
  induction h
  case refl => exact .refl
  case tail x y hx hy hi =>
    have ⟨m, hy⟩ := hy
    exact hi.tail ⟨m, hasChild_eraseChild.mpr ⟨fun h => hd x hx h.1, hy⟩⟩

theorem Apart.eraseChild (h : t.Apart j) : (t.eraseChild d n).Apart j where
  alone hc := h.alone (hasChild_eraseChild.mp hc).2
  sole hi hij hc := by
    rw [name_eraseChild, name_eraseChild] at hij
    exact h.sole hi hij (hasChild_eraseChild.mp hc).2

-- A child of `d` that is also found below its sibling `k`, at `i`, is united with what is found
-- there and dropped.
structure Nested (t : Nest) (d child k i other : NodeId) : Prop where
  inner   : d ≠ root
  sibling : ∃ m, m ≠ t.name child ∧ t.HasChild d m k
  within  : t.Reaches k i
  found   : t.HasChild i (t.name child) other
  only    : ∀ {c}, t.HasChild d (t.name child) c → c = child

namespace Nested

variable {child other : NodeId}

theorem reaches (h : t.Nested d child k i other) : t.Reaches d i :=
  have ⟨m, _, hm⟩ := h.sibling
  .head ⟨m, hm⟩ h.within

theorem parent_ne_root (h : t.Nested d child k i other) (s : t.Sound) : i ≠ root :=
  s.reaches_ne_root h.reaches h.inner

theorem above (h : t.Nested d child k i other) (s : t.Sound) :
    TransGen t.Holds (t.name d) (t.name child) :=
  .tail' (s.holds_of_reaches h.inner h.reaches) (h.found.holds (h.parent_ne_root s))

theorem ne_of_reaches_sibling (h : t.Nested d child k i other) (s : t.Sound) (ac : t.Acyclic)
    (hj : t.Reaches k j) : j ≠ d := by
  have ⟨m, _, hm⟩ := h.sibling
  intro hd
  exact ac.not_reaches_parent s h.inner hm hj (hd ▸ rfl)

theorem ne_of_holds (h : t.Nested d child k i other) (s : t.Sound) (ac : t.Acyclic)
    (hj : ReflTransGen t.Holds (t.name child) (t.name j)) : j ≠ d := by
  intro hd
  exact ac _ <| (h.above s).trans_left (hd ▸ hj)

-- The child may have been the only way to what stands below it. There is another one now, through
-- the sibling.
theorem keeps {tops : NodeId → Prop} (h : t.Nested d child k i other) (s : t.Sound)
    (ac : t.Acyclic) (hc : child ≠ root) (hab : t.HoldsFrom tops a b) :
    TransGen (((t.union child other).eraseChild d (t.name child)).HoldsFrom tops) a b := by
  have hn : t.name child = t.name other := (s.named h.found).symm
  have hx : t.Extends (t.union child other) := union_extends
  have su := (union_progress s hc hn).sound s
  have acu : (t.union child other).Acyclic := ac.of_holds (holds_of_union s hc hn)
  have ⟨m, hm, hk⟩ := h.sibling
  have hdi : ((t.union child other).eraseChild d (t.name child)).Reaches d i := by
    refine .head ⟨m, hasChild_eraseChild.mpr ⟨fun h => hm h.2, hx.child hk⟩⟩ ?_
    refine (hx.reaches h.within).eraseChild fun x hr he => ?_
    exact acu.not_reaches_parent su h.inner (hx.child hk) hr (he ▸ rfl)
  have hio : ((t.union child other).eraseChild d (t.name child)).HasChild i (t.name child) other :=
    hasChild_eraseChild.mpr ⟨fun he => h.ne_of_reaches_sibling s ac h.within he.1, hx.child h.found⟩
  have ⟨l, x, j, hl, hr, ha, hb⟩ := hab
  subst ha
  cases reaches_or_through hr fun c => h.only
  case inl hr =>
    replace hr : ((t.union child other).eraseChild d (t.name child)).Reaches l x :=
      hr.extend fun _ _ _ he =>
        have ⟨hne, he⟩ := hasChild_eraseChild.mp he
        hasChild_eraseChild.mpr ⟨hne, hx.child he⟩
    by_cases he : x = d ∧ b = t.name child
    case neg =>
      refine .single ⟨l, x, j, hl, hr, ?_, hasChild_eraseChild.mpr ⟨he, hx.child hb⟩⟩
      rw [name_eraseChild, hx.name]
    case pos =>
      have ⟨hd, hb⟩ := he
      subst hd hb
      have hh := su.eraseChild.holdsFrom_of_reaches hl hr hdi
      rw [name_eraseChild, hx.name] at hh
      exact .tail' hh ⟨l, i, other, hl, hr.trans hdi, rfl, hio⟩
  case inr hr =>
    have ⟨hl', hr⟩ := hr
    replace hl' : ((t.union child other).eraseChild d (t.name child)).Reaches l d :=
      hl'.extend fun _ _ _ he =>
        have ⟨hne, he⟩ := hasChild_eraseChild.mp he
        hasChild_eraseChild.mpr ⟨hne, hx.child he⟩
    -- What stood below the child is found again below the node that it has been united with.
    have ⟨y, hy, hyn, hyc⟩ := union_covers s hc (s.bounded h.found) hn hr
    have ⟨j', hj'⟩ := hyc b j hb
    have hne : ∀ z, (t.union child other).Reaches other z → z ≠ d := by
      intro z hz
      have hz := su.holds_of_reaches (s.rootless h.found) hz
      rw [hx.name, hx.name, ← hn] at hz
      exact h.ne_of_holds s ac <| ReflTransGen.mono (fun _ _ => holds_of_union s hc hn) _ _ hz
    refine .single ⟨l, y, j', hl, ?_, ?_, hasChild_eraseChild.mpr ⟨fun he => hne y hy he.1, hj'⟩⟩
    · exact ((hl'.trans hdi).tail ⟨_, hio⟩).trans (hy.eraseChild hne)
    · rw [name_eraseChild, hx.name, hyn]

theorem rearranges (h : t.Nested d child k i other) (s : t.Sound) (ac : t.Acyclic)
    (hc : child ≠ root) (hf : ¬fixed child) :
    Rearranges fixed t ((t.union child other).eraseChild d (t.name child)) := by
  have hn : t.name child = t.name other := (s.named h.found).symm
  have ho := s.rootless h.found
  have hx : t.Extends (t.union child other) := union_extends
  have su := (union_progress s hc hn).sound s
  have hh : ∀ {a b}, ((t.union child other).eraseChild d (t.name child)).Holds a b → t.Holds a b :=
    fun h => holds_of_union s hc hn <| holds_of_eraseChild h
  exact {
    sound    := su.eraseChild
    acyclic  := ac.of_holds hh
    size     := size_eraseChild.trans hx.size
    name i   := name_eraseChild.trans (hx.name i)
    holds    := hh
    keeps    := h.keeps s ac hc
    rootward := by
      simp only [hasChild_eraseChild, Ne.symm h.inner, false_and, not_false_eq_true, true_and]
      exact hasChild_root_union s hc hn ho
    apart {j} hj ha := by
      refine (ha.union s hc hn ?_).eraseChild
      intro he
      exact hf (he ▸ hj)
  }

end Nested

structure Drops (fixed : NodeId → Prop) (d : NodeId) (n : Name) (t u : Nest) : Prop extends
    Rearranges fixed t u where
  others : ∀ {m k}, m ≠ n → t.HasChild d m k → u.HasChild d m k

theorem uniteBelow?_drops {child : NodeId} (s : t.Sound) (ac : t.Acyclic) (hd : d ≠ root)
    (hc : child ≠ root) (hf : ¬fixed child) (hn : t.name child = n)
    (ho : ∀ {c}, t.HasChild d n c → c = child) (hm : m ≠ n) (hk : t.HasChild d m k)
    (h : t.uniteBelow? child k = some u) : Drops fixed d n t (u.eraseChild d n) := by
  have ⟨i, other, hi, ho', hu⟩ := uniteBelow?_eq_some h
  subst hu hn
  have hn : t.Nested d child k i other := ⟨hd, ⟨m, hm, hk⟩, hi, ho', ho⟩
  refine { hn.rearranges s ac hc hf with others := fun hp hl => ?_ }
  exact hasChild_eraseChild.mpr ⟨fun h => hp h.2, union_extends.child hl⟩

theorem dropNested.foldl_drops {child : NodeId} {siblings : List (Name × NodeId)}
    (s : t.Sound) (ac : t.Acyclic) (hd : d ≠ root) (hc : child ≠ root) (hf : ¬fixed child)
    (hn : t.name child = n) (ho : ∀ {c}, t.HasChild d n c → c = child)
    (hs : ∀ e ∈ siblings, e.1 ≠ n ∧ t.HasChild d e.1 e.2) :
    Drops fixed d n t (siblings.foldl (fun t e => match t.uniteBelow? child e.2 with
      | some t => t.eraseChild d n
      | none   => t) t) := by
  induction siblings generalizing t
  case nil => exact { Rearranges.refl s ac with others := fun _ => id }
  case cons e es hi =>
    have ⟨he, hk⟩ := hs e List.mem_cons_self
    rw [List.foldl_cons]
    cases hu : t.uniteBelow? child e.2
    case none => exact hi s ac hn ho fun e he => hs e <| List.mem_cons_of_mem _ he
    case some u =>
      have h₁ : Drops fixed d n t (u.eraseChild d n) :=
        uniteBelow?_drops s ac hd hc hf hn ho he hk hu
      have h₂ := hi h₁.sound h₁.acyclic ((h₁.name child).trans hn) ?only ?siblings
      case only => exact fun h => absurd ⟨rfl, rfl⟩ (hasChild_eraseChild.mp h).1
      case siblings =>
        intro e he
        have ⟨hne, hk⟩ := hs e <| List.mem_cons_of_mem _ he
        exact ⟨hne, h₁.others hne hk⟩
      exact { h₁.trans h₂.toRearranges with others := fun hm h => h₂.others hm (h₁.others hm h) }

theorem dropNested.go_rearranges {es : List (Name × NodeId)} (s : t.Sound) (ac : t.Acyclic)
    (hd : d ≠ root) (hn : (es.map Prod.fst).Nodup) (he : ∀ e ∈ es, t.HasChild d e.1 e.2)
    (hf : ∀ e ∈ es, ¬fixed e.2) : Rearranges fixed t (dropNested.go d t es) := by
  induction es generalizing t
  case nil => exact .refl s ac
  case cons e es hi =>
    have ⟨hne, hn⟩ := List.nodup_cons.mp hn
    have hc := he e List.mem_cons_self
    have hs : ∀ e' ∈ es, e'.1 ≠ e.1 ∧ t.HasChild d e'.1 e'.2 := fun e' he' =>
      ⟨fun h => hne (h ▸ List.mem_map_of_mem he'), he e' <| List.mem_cons_of_mem _ he'⟩
    have h := foldl_drops s ac hd (s.rootless hc) (hf e List.mem_cons_self) (s.named hc)
      (fun h => h.unique hc) hs
    refine h.trans <| hi h.sound h.acyclic hn ?_ fun e' he' => hf e' <| List.mem_cons_of_mem _ he'
    intro e' he'
    exact h.others (hs e' he').1 (hs e' he').2

theorem dropNested_rearranges (s : t.Sound) (ac : t.Acyclic) (hd : d ≠ root) :
    Rearranges (fun j => ∀ n, ¬t.HasChild d n j) t (t.dropNested d) := by
  have hp : (sortBy (fun e => (t.children e.2).size) (t.children d).entries).Perm
      (t.children d).entries := perm_sortBy _
  have he : ∀ e ∈ sortBy (fun e => (t.children e.2).size) (t.children d).entries,
      t.HasChild d e.1 e.2 := fun e he => hasChild_iff_mem.mpr <| hp.mem_iff.mp he
  refine dropNested.go_rearranges s ac hd ?_ he fun e h hn => hn e.1 (he e h)
  exact (hp.map Prod.fst).nodup_iff.mpr (t.children d).nodup

end Nested

end Statechart.Nest
