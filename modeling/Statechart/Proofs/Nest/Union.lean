import Statechart.Nest.Union
import Statechart.Proofs.Nest.Child

open Relation

namespace Statechart.Nest

structure Extends (t u : Nest) : Prop where
  size  : u.size = t.size
  name  : ∀ i, u.name i = t.name i
  child : ∀ {i n j}, t.HasChild i n j → u.HasChild i n j

-- What a union may put below `i`: a child that some node of the same name has, which is found at
-- or below the source. The node `i` itself is found at or below the target.
structure Drawn (t : Nest) (source target i : NodeId) (n : Name) (j : NodeId) : Prop where
  origin : ∃ k, t.Reaches source k ∧ t.name k = t.name i ∧ t.HasChild k n j
  place  : i = target ∨ i ≠ root ∧ TransGen t.Holds (t.name target) (t.name i)

variable {t u v : Nest} {source target i j k l : NodeId} {n p : Name}

namespace Extends

theorem refl (t : Nest) : t.Extends t where
  size  := rfl
  name  := fun _ => rfl
  child := id

theorem trans (h₁ : t.Extends u) (h₂ : u.Extends v) : t.Extends v where
  size    := h₂.size.trans h₁.size
  name i  := (h₂.name i).trans (h₁.name i)
  child h := h₂.child <| h₁.child h

theorem insertChild (h : (t.children i).get? n = none) : t.Extends (t.insertChild i n j) where
  size    := size_insertChild ..
  name _  := name_insertChild
  child {k p l} hc := by
    simp only [HasChild, Nest.insertChild, children_modifyChildren] at hc ⊢
    split
    case isFalse   => exact hc
    case isTrue hk =>
      have hp : p ≠ n := by
        intro hp
        rw [hk.1, hp, h] at hc
        cases hc
      rw [NameMap.get?_insert, if_neg hp]
      exact hc

theorem reaches (h : t.Extends u) (hr : t.Reaches i j) : u.Reaches i j :=
  hr.extend fun _ _ _ => h.child

end Extends

theorem hasChild_of_insertChild (h : (t.insertChild i n j).HasChild k p l) :
    t.HasChild k p l ∨ k = i ∧ p = n ∧ l = j := by
  by_cases hi : i < t.size
  case pos =>
    rw [hasChild_insertChild hi] at h
    split at h
    case isTrue hc => exact .inr ⟨hc.1, hc.2, h⟩
    case isFalse   => exact .inl h
  case neg =>
    simp only [HasChild, insertChild, children_modifyChildren] at h
    have hk : ¬(k = i ∧ k < t.size) := fun hk => hi (hk.1 ▸ hk.2)
    rw [if_neg hk] at h
    exact .inl h

theorem mem_grafts {g : Graft} :
    g ∈ t.grafts source target ↔ g.parent = target ∧ t.HasChild source g.name g.child := by
  simp only [grafts, List.mem_map, hasChild_iff_mem]
  constructor
  case mp  => rintro ⟨e, he, hg⟩; subst hg; exact ⟨rfl, he⟩
  case mpr => rintro ⟨hp, hc⟩; exact ⟨(g.name, g.child), hc, by rw [← hp]⟩

section Soundness

structure Progress (t : Nest) (source target : NodeId) (u : Nest) : Prop where
  extension : t.Extends u
  drawn     : ∀ {i n j}, u.HasChild i n j → t.HasChild i n j ∨ t.Drawn source target i n j

theorem Drawn.hasChild (d : t.Drawn source target i n j) : ∃ k, t.HasChild k n j :=
  have ⟨k, _, _, hk⟩ := d.origin
  ⟨k, hk⟩

theorem Drawn.reaches (d : t.Drawn source target i n j) : t.Reaches source j :=
  have ⟨_, hr, _, hk⟩ := d.origin
  hr.tail ⟨n, hk⟩

namespace Progress

theorem hasChild (p : t.Progress source target u) (h : u.HasChild i n j) :
    ∃ k, t.HasChild k n j := by
  cases p.drawn h
  case inl h => exact ⟨i, h⟩
  case inr d => exact d.hasChild

theorem sound (p : t.Progress source target u) (s : t.Sound) : u.Sound where
  rooted := p.extension.size ▸ s.rooted
  bounded h := by
    have ⟨_, hk⟩ := p.hasChild h
    exact p.extension.size ▸ s.bounded hk
  named {_ _ j} h := by
    have ⟨_, hk⟩ := p.hasChild h
    exact (p.extension.name j).trans <| s.named hk
  rootless h := by
    have ⟨_, hk⟩ := p.hasChild h
    exact s.rootless hk

theorem insertChild {g : Graft} (p : t.Progress source target u)
    (d : t.Drawn source target g.parent g.name g.child)
    (h : (u.children g.parent).get? g.name = none) :
    t.Progress source target (u.insertChild g.parent g.name g.child) where
  extension := p.extension.trans <| .insertChild h
  drawn hc := by
    cases hasChild_of_insertChild hc
    case inl hc => exact p.drawn hc
    case inr hc =>
      have ⟨hi, hn, hj⟩ := hc
      exact .inr <| hi ▸ hn ▸ hj ▸ d

theorem drawn_grafts {g g' : Graft} (p : t.Progress source target u) (s : t.Sound)
    (hs : source ≠ root) (d : t.Drawn source target g.parent g.name g.child)
    (he : u.HasChild g.parent g.name k) (hg : g' ∈ u.grafts g.child k) :
    t.Drawn source target g'.parent g'.name g'.child := by
  have ⟨hp, hc⟩ := mem_grafts.mp hg
  have ⟨l, hr, hn, hl⟩ := d.origin
  have ⟨_, he⟩ := p.hasChild he
  have hk : t.name k = g.name := s.named he
  refine { origin := ?origin, place := .inr ⟨hp ▸ s.rootless he, ?place⟩ }
  case origin =>
    cases p.drawn hc
    case inl hc => exact ⟨g.child, d.reaches, by rw [hp, hk, s.named hl], hc⟩
    case inr d' =>
      have ⟨m, hr, hm, hc⟩ := d'.origin
      exact ⟨m, hr, by rw [hm, hp, hk, s.named hl], hc⟩
  case place =>
    have hh : t.Holds (t.name g.parent) g.name := hn ▸ hl.holds (s.reaches_ne_root hr hs)
    rw [hp, hk]
    cases d.place
    case inl h => exact .single (h ▸ hh)
    case inr h => exact h.2.tail hh

end Progress

theorem union.go_progress {visited : List (NodeId × NodeId)} {agenda : List Graft}
    (s : t.Sound) (hs : source ≠ root) (p : t.Progress source target u)
    (ha : ∀ g ∈ agenda, t.Drawn source target g.parent g.name g.child) :
    t.Progress source target (union.go u visited agenda) := by
  fun_induction union.go u visited agenda
  case case1 => exact p
  case case2 u visited g rest hn hi =>
    exact hi (p.insertChild (ha g List.mem_cons_self) hn)
      fun g' hg => ha g' <| List.mem_cons_of_mem _ hg
  case case3 u visited g rest k he _ hi =>
    refine hi p fun g' hg => ?_
    cases List.mem_append.mp hg
    case inl hg => exact p.drawn_grafts s hs (ha g List.mem_cons_self) he hg
    case inr hg => exact ha g' <| List.mem_cons_of_mem _ hg
  case case4 hi => exact hi p fun g' hg => ha g' <| List.mem_cons_of_mem _ hg

theorem Progress.refl (t : Nest) : t.Progress source target t where
  extension := .refl t
  drawn     := .inl

theorem union_progress (s : t.Sound) (hs : source ≠ root) (hn : t.name source = t.name target) :
    t.Progress source target (t.union source target) := by
  rw [union]
  split
  case isTrue => exact .refl t
  case isFalse =>
    refine union.go_progress s hs (.refl t) fun g hg => ?_
    have ⟨hp, hc⟩ := mem_grafts.mp hg
    exact ⟨⟨source, .refl, by rw [hp, hn], hc⟩, .inl hp⟩

end Soundness

section Completeness

def Follows (t u : Nest) (r : NodeId → NodeId → Prop) (a b : NodeId) : Prop :=
  ∀ n c, t.HasChild a n c → ∃ d, u.HasChild b n d ∧ (c = d ∨ r c d)

theorem Follows.mono {r : NodeId → NodeId → Prop} {a b : NodeId} (h : t.Extends u)
    (f : Follows u v r a b) : Follows t v r a b :=
  fun n c hc => f n c (h.child hc)

theorem union.go_extends {visited : List (NodeId × NodeId)} {agenda : List Graft} :
    t.Extends (union.go t visited agenda) := by
  fun_induction union.go t visited agenda
  case case1        => exact .refl _
  case case2 hn hi  => exact (Extends.insertChild hn).trans hi
  case case3 hi     => exact hi
  case case4 hi     => exact hi

-- The relation holds between the nodes that have been brought together when the union is done. A
-- pair that is passed over because it has been visited is part of it already.
theorem union.go_follows (visited : List (NodeId × NodeId)) (agenda : List Graft)
    (hb : ∀ {i n j}, t.HasChild i n j → j < t.size)
    (ha : ∀ g ∈ agenda, g.parent < t.size ∧ g.child < t.size) :
    ∃ r : NodeId → NodeId → Prop, (∀ q ∈ visited, r q.1 q.2) ∧
      (∀ g ∈ agenda, ∃ d, (union.go t visited agenda).HasChild g.parent g.name d ∧
        (g.child = d ∨ r g.child d)) ∧
      ∀ a b, r a b → (a, b) ∈ visited ∨ Follows t (union.go t visited agenda) r a b := by
  fun_induction union.go t visited agenda
  case case1 t visited =>
    exact ⟨fun a b => (a, b) ∈ visited, fun _ => id, nofun, fun _ _ => .inl⟩
  case case2 t visited g rest hn hi =>
    have hx : t.Extends (t.insertChild g.parent g.name g.child) := .insertChild hn
    have ⟨hp, hc⟩ := ha g List.mem_cons_self
    have hb' : ∀ {i n j}, (t.insertChild g.parent g.name g.child).HasChild i n j →
        j < (t.insertChild g.parent g.name g.child).size := by
      intro i n j h
      rw [hx.size]
      cases hasChild_of_insertChild h
      case inl h => exact hb h
      case inr h => exact h.2.2 ▸ hc
    have ⟨r, hv, hr, hf⟩ := hi hb' fun g' hg => hx.size ▸ ha g' (List.mem_cons_of_mem _ hg)
    refine ⟨r, hv, fun g' hg => ?agenda, fun a b hab => (hf a b hab).imp_right (·.mono hx)⟩
    case agenda =>
      cases List.mem_cons.mp hg
      case inr hg => exact hr g' hg
      case inl hg =>
        subst hg
        have hg : (t.insertChild g'.parent g'.name g'.child).HasChild g'.parent g'.name g'.child := by
          simp [hasChild_insertChild hp]
        exact ⟨g'.child, union.go_extends.child hg, .inl rfl⟩
  case case3 t visited g rest k he hc hi =>
    have ha' : ∀ g' ∈ t.grafts g.child k ++ rest, g'.parent < t.size ∧ g'.child < t.size := by
      intro g' hg
      cases List.mem_append.mp hg
      case inr hg => exact ha g' <| List.mem_cons_of_mem _ hg
      case inl hg =>
        have ⟨hp, hg⟩ := mem_grafts.mp hg
        exact ⟨hp ▸ hc.2.2, hb hg⟩
    have ⟨r, hv, hr, hf⟩ := hi hb ha'
    refine ⟨r, fun q hq => hv q <| List.mem_cons_of_mem _ hq, fun g' hg => ?agenda, fun a b hab => ?pairs⟩
    case agenda =>
      cases List.mem_cons.mp hg
      case inr hg => exact hr g' <| List.mem_append_right _ hg
      case inl hg =>
        subst hg
        exact ⟨k, union.go_extends.child he, .inr <| hv (g'.child, k) List.mem_cons_self⟩
    case pairs =>
      cases hf a b hab
      case inr hf => exact .inr hf
      case inl hm =>
        cases List.mem_cons.mp hm
        case inr hm => exact .inl hm
        case inl hm =>
          have ⟨h₁, h₂⟩ := Prod.mk.inj hm
          subst h₁ h₂
          -- The pair has just been entered: its children are on the agenda.
          refine .inr fun n c hc => ?_
          exact hr ⟨b, n, c⟩ <| List.mem_append_left _ <| mem_grafts.mpr ⟨rfl, hc⟩
  case case4 t visited g rest k he hc hi =>
    have ⟨r, hv, hr, hf⟩ := hi hb fun g' hg => ha g' (List.mem_cons_of_mem _ hg)
    refine ⟨r, hv, fun g' hg => ?agenda, hf⟩
    cases List.mem_cons.mp hg
    case inr hg => exact hr g' hg
    case inl hg =>
      subst hg
      refine ⟨k, union.go_extends.child he, ?_⟩
      by_contra h
      have ⟨hne, hr⟩ := not_or.mp h
      exact hc ⟨hne, fun hm => hr (hv _ hm), hb he⟩

theorem union_follows (source : NodeId) (hb : ∀ {i n j}, t.HasChild i n j → j < t.size)
    (ht : target < t.size) :
    ∃ r : NodeId → NodeId → Prop, Follows t (t.union source target) r source target ∧
      ∀ a b, r a b → Follows t (t.union source target) r a b := by
  rw [union]
  split
  case isTrue h => exact ⟨fun _ _ => False, fun n c hc => ⟨c, h ▸ hc, .inl rfl⟩, nofun⟩
  case isFalse h =>
    have ⟨r, hv, hr, hf⟩ := union.go_follows [(source, target)] (t.grafts source target)
      hb ?bounds
    case bounds =>
      intro g hg
      have ⟨hp, hg⟩ := mem_grafts.mp hg
      exact ⟨hp ▸ ht, hb hg⟩
    have hs : Follows t _ r source target := fun n c hc => hr ⟨target, n, c⟩ (mem_grafts.mpr ⟨rfl, hc⟩)
    refine ⟨r, hs, fun a b hab => ?_⟩
    cases hf a b hab
    case inr hf => exact hf
    case inl hm =>
      cases List.mem_singleton.mp hm
      exact hs

theorem union_extends : t.Extends (t.union source target) := by
  rw [union]
  split
  case isTrue  => exact .refl t
  case isFalse => exact union.go_extends

theorem union_covers (s : t.Sound) (hs : source ≠ root) (ht : target < t.size)
    (hn : t.name source = t.name target) (hr : t.Reaches source i) :
    ∃ k, (t.union source target).Reaches target k ∧ t.name k = t.name i ∧
      ∀ n j, t.HasChild i n j → ∃ l, (t.union source target).HasChild k n l := by
  have ⟨r, hf, hr'⟩ := union_follows source s.bounded ht
  have hx : t.Extends (t.union source target) := union_extends
  have s' := (union_progress s hs hn).sound s
  have : ∃ k, (t.union source target).Reaches target k ∧ t.name k = t.name i ∧
      (k = i ∨ Follows t (t.union source target) r i k) := by
    induction hr
    case refl => exact ⟨target, .refl, hn.symm, .inr hf⟩
    case tail a c _ hc hi =>
      have ⟨n, hc⟩ := hc
      have ⟨k, hk, _, hk'⟩ := hi
      cases hk'
      case inl h =>
        subst h
        exact ⟨c, hk.tail ⟨n, hx.child hc⟩, rfl, .inl rfl⟩
      case inr h =>
        have ⟨d, hd, hcd⟩ := h n c hc
        refine ⟨d, hk.tail ⟨n, hd⟩, ?_, hcd.imp Eq.symm (hr' c d)⟩
        rw [← hx.name, s'.named hd, s.named hc]
  have ⟨k, hk, hkn, h⟩ := this
  refine ⟨k, hk, hkn, fun n j hj => ?_⟩
  cases h
  case inl h => exact ⟨j, hx.child (h ▸ hj)⟩
  case inr h =>
    have ⟨l, hl, _⟩ := h n j hj
    exact ⟨l, hl⟩

end Completeness

end Statechart.Nest
