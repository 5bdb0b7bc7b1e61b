import Statechart.Proofs.Nest.Forest

open Relation

namespace Statechart

def Machine.TwoLevel (m : Machine) : Prop :=
  ∀ x a, a ∈ m.supers x → a ∈ m.states ∧ m.supers a = []

namespace Nest

-- Only states that inherit from nothing have anything below them, and each of these stands in one
-- place at most, the root apart.
structure Tiered (m : Machine) (t : Nest) : Prop where
  holder : t.Holds a b → m.supers a = []
  once   : m.supers n = [] → i ≠ root → i' ≠ root → t.HasChild i n j → t.HasChild i' n j' → i = i'

variable {m : Machine} {t : Nest} {source target d i : NodeId} {found : NameMap NodeId} {n : Name}
  {candidates : List (Name × NodeId)}

section Union

theorem union.go_eq_self {visited : List (NodeId × NodeId)} {agenda : List Graft}
    (h : ∀ g ∈ agenda, t.Leaf g.child ∧ ∃ k, t.HasChild g.parent g.name k) :
    union.go t visited agenda = t := by
  induction agenda generalizing visited
  case nil => rw [union.go]
  case cons g rest hi =>
    obtain ⟨⟨hl, k, hk⟩, h⟩ := List.forall_mem_cons.mp h
    have hg : t.grafts g.child k = [] := by
      refine List.eq_nil_iff_forall_not_mem.mpr fun g' hg => ?_
      exact hl _ _ (mem_grafts.mp hg).2
    rw [HasChild] at hk
    rw [union.go, hk]
    dsimp only
    rw [hg, List.nil_append, hi h, hi h, ite_self]

theorem union_eq_self
    (h : ∀ n c, t.HasChild source n c → t.Leaf c ∧ ∃ k, t.HasChild target n k) :
    t.union source target = t := by
  rw [union]
  split
  case isTrue => rfl
  case isFalse =>
    refine union.go_eq_self fun g hg => ?_
    obtain ⟨hp, hc⟩ := mem_grafts.mp hg
    exact hp ▸ h g.name g.child hc

end Union

namespace Tiered

theorem leaf (ti : Tiered m t) (hi : i ≠ root) (hn : m.supers (t.name i) ≠ []) : t.Leaf i :=
  fun _ _ hc => hn <| ti.holder <| hc.holds hi

theorem union_eq_self (ti : Tiered m t) (hs : source ≠ root) (hn : m.supers (t.name source) ≠ []) :
    t.union source target = t :=
  Nest.union_eq_self fun _ _ hc => absurd hc (ti.leaf hs hn _ _)

theorem eraseChild (ti : Tiered m t) : Tiered m (t.eraseChild d n) where
  holder h := ti.holder <| holds_of_eraseChild h
  once hn hi hi' hc hc' :=
    ti.once hn hi hi' (hasChild_eraseChild.mp hc).2 (hasChild_eraseChild.mp hc').2

end Tiered

section Nested

-- A child that is found below a sibling as well inherits from something, so that it is a leaf and
-- just goes away. The fold goes on with it all the same.
theorem dropNested.foldl_tiered {child : NodeId} {siblings : List (Name × NodeId)}
    (ti : Tiered m t) (s : t.Sound) (ac : t.Acyclic) (hd : d ≠ root) (hc : child ≠ root)
    (hn : t.name child = n) (hp : m.supers n = [] → t.HasChild d n child)
    (hs : ∀ e ∈ siblings, e.1 ≠ n ∧ t.HasChild d e.1 e.2) :
    Tiered m (siblings.foldl (fun t e => match t.uniteBelow? child e.2 with
      | some t => t.eraseChild d n
      | none   => t) t) := by
  induction siblings generalizing t
  case nil => exact ti
  case cons e es hi =>
    have hs' := List.forall_mem_cons.mp hs
    rw [List.foldl_cons]
    cases hu : t.uniteBelow? child e.2
    case none => exact hi ti s ac hn hp hs'.right
    case some u =>
      obtain ⟨i, other, hr, ho, rfl⟩ := uniteBelow?_eq_some hu
      have hk := hs'.left.right
      have hsub : m.supers n ≠ [] := by
        intro htop
        have hi := s.reaches_ne_root hr (s.rootless hk)
        have he := ti.once htop hd hi (hp htop) (hn ▸ ho)
        exact ac.not_reaches_parent s hd hk hr (he ▸ rfl)
      dsimp only
      rw [ti.union_eq_self hc (hn ▸ hsub)]
      refine hi ti.eraseChild s.eraseChild (ac.of_holds holds_of_eraseChild)
        (name_eraseChild.trans hn) (fun htop => absurd htop hsub) fun e' he' => ?_
      obtain ⟨hne, hc⟩ := hs'.right e' he'
      exact ⟨hne, hasChild_eraseChild.mpr ⟨fun h => hne h.2, hc⟩⟩

theorem dropNested.go_tiered {es : List (Name × NodeId)} (ti : Tiered m t) (s : t.Sound)
    (ac : t.Acyclic) (hd : d ≠ root) (hn : (es.map Prod.fst).Nodup)
    (he : ∀ e ∈ es, t.HasChild d e.1 e.2) : Tiered m (dropNested.go d t es) := by
  induction es generalizing t
  case nil => exact ti
  case cons e es hi =>
    obtain ⟨hne, hn⟩ := List.nodup_cons.mp hn
    obtain ⟨hc, he⟩ := List.forall_mem_cons.mp he
    have hs : ∀ e' ∈ es, e'.1 ≠ e.1 ∧ t.HasChild d e'.1 e'.2 := fun e' he' =>
      ⟨fun h => hne (h ▸ List.mem_map_of_mem he'), he e' he'⟩
    have h : Drops (fun _ => False) d e.1 t _ := foldl_drops s ac hd (s.rootless hc) id (s.named hc)
      (fun h => h.unique hc) hs
    refine hi ?_ h.sound h.acyclic hn fun e' he' => h.others (hs e' he').1 (hs e' he').2
    exact foldl_tiered ti s ac hd (s.rootless hc) (s.named hc) (fun _ => hc) hs

theorem Tiered.dropNested (ti : Tiered m t) (s : t.Sound) (ac : t.Acyclic) (hd : d ≠ root) :
    Tiered m (t.dropNested d) := by
  have hp : (sortBy (fun e => (t.children e.2).size) (t.children d).entries).Perm
      (t.children d).entries := perm_sortBy _
  refine dropNested.go_tiered ti s ac hd ?_ fun e he => hasChild_iff_mem.mpr <| hp.mem_iff.mp he
  exact (hp.map Prod.fst).nodup_iff.mpr (t.children d).nodup

end Nested

section Substitute

theorem Covered.linked_eq (h : t.Covered source d found) (ti : Tiered m t) (s : t.Sound) :
    t.linked source found = t.wrapped source found := by
  refine union_eq_self fun n c hc => ?_
  rw [hasChild_wrapped, if_neg (Nat.ne_of_lt h.bounded)] at hc
  obtain ⟨e, he⟩ := h.spec.every hc
  have hn : m.supers n ≠ [] := by
    intro htop
    exact h.name_ne <| ti.once htop h.target_ne h.source_ne he hc ▸ rfl
  constructor
  case left =>
    intro p l hl
    rw [hasChild_wrapped, if_neg (Nat.ne_of_lt (s.bounded hc))] at hl
    exact ti.leaf (s.rootless hc) (s.named hc ▸ hn) p l hl
  case right =>
    refine ⟨e, ?_⟩
    rw [hasChild_wrapped, if_pos rfl]
    exact h.spec.found.mpr ⟨mem_childNames_iff.mpr ⟨c, hc⟩, he⟩

theorem Covered.tiered (h : t.Covered source d found) (ti : Tiered m t) (s : t.Sound)
    (ht : m.supers (t.name source) = [] → ∀ a, ¬t.Holds a (t.name source)) :
    Tiered m (t.substitute source d) := by
  obtain ⟨p, c, hc⟩ := h.spec.child
  obtain ⟨e, he⟩ := h.spec.every hc
  -- Of the states that inherit from nothing, only the source stands where it did not.
  have hold {i n j} (hn : m.supers n = []) (hc : (t.substitute source d).HasChild i n j) :
      t.HasChild i n j ∨ i = d ∧ n = t.name source := by
    rw [hasChild_substitute h.shared h.target_lt] at hc
    split at hc
    case isTrue he => exact .inr he
    case isFalse =>
      obtain ⟨_, hc⟩ := hc
      rw [h.linked_eq ti s, hasChild_wrapped] at hc
      split at hc
      case isFalse => exact .inl hc
      case isTrue =>
        obtain ⟨hm, hc⟩ := h.spec.found.mp hc
        obtain ⟨c', hc'⟩ := mem_childNames_iff.mp hm
        exact absurd (ti.once hn h.target_ne h.source_ne hc hc' ▸ rfl) h.name_ne
  refine { holder := ?holder, once := ?once }
  case holder =>
    intro a b hab
    cases h.holds_of_substitute s hab
    case inl hab => exact ti.holder hab
    case inr hab => exact hab.1 ▸ ti.holder (he.holds h.target_ne)
  case once =>
    intro n i i' j j' hn hi hi' hc hc'
    cases hold hn hc <;> cases hold hn hc'
    case inl.inl ho ho' => exact ti.once hn hi hi' ho ho'
    case inl.inr ho he  => exact absurd (he.2 ▸ ho.holds hi) (ht (he.2 ▸ hn) _)
    case inr.inl he ho  => exact absurd (he.2 ▸ ho.holds hi') (ht (he.2 ▸ hn) _)
    case inr.inr he he' => exact he.1.trans he'.1.symm

end Substitute

namespace Tiered

theorem kept : Kept m candidates fun s =>
    Merging m candidates s.absorbed s.nest ∧ Tiered m s.nest where
  absorb {s source target u how} h hs ht hne hns hnt ha := by
    obtain ⟨hm, ti⟩ := h
    refine ⟨Merging.kept.absorb hm hs ht hne hns hnt ha, eraseChild ?_⟩
    have hsource := hm.rootward.mpr ⟨hs, hns⟩
    have htarget := hm.sound.rootless <| hm.rootward.mpr ⟨ht, hnt⟩
    have hroot := hm.sound.rootless hsource
    have htop (hn : m.supers (s.nest.name source.2) = []) (a : Name) :
        ¬s.nest.Holds a (s.nest.name source.2) := by
      rw [hm.sound.named hsource] at hn ⊢
      exact hm.tops hsource hn
    obtain ⟨-, d, found, hd, hn, hf, rfl⟩ | ⟨-, i, j, hi, hj, rfl⟩ := absorb?_cases ha
    case inl =>
      have hd := hm.sound.reaches_ne_root hd htarget
      have hc : s.nest.Covered source.2 d found :=
        ⟨hroot, hm.sound.bounded hsource, hd, hn, hm.apart hsource, hf⟩
      exact (hc.tiered ti hm.sound htop).dropNested (hc.sound_substitute hm.sound)
        (hc.acyclic_substitute hm.sound hm.acyclic) htarget
    case inr =>
      have hi := hm.sound.reaches_ne_root hi htarget
      rw [ti.union_eq_self hroot fun hn => htop hn _ (hj.holds hi)]
      exact ti.dropNested hm.sound hm.acyclic htarget

theorem clear (ti : Tiered m t) (s : t.Sound) : t.Clear n := by
  intro a _ hd
  obtain ⟨i, j, i', j', hi, hc, hl, hi', hc', hne⟩ := hd
  obtain ⟨_, _, hl⟩ := exists_child_of_not_leaf hl
  have htop := ti.holder <| hl.holds (s.rootless hc)
  rw [s.named hc] at htop
  exact hne <| ti.once htop (hi.ne_root s) (hi'.ne_root s) hc hc'

end Tiered

end Nest

namespace Machine.TwoLevel

open Nest

variable {m : Machine} {a x : Name}

theorem acyclic (h : m.TwoLevel) (n : Name) : ¬TransGen (fun a b => a ∈ m.supers b) n n := by
  intro hn
  obtain ⟨b, hb, _⟩ := TransGen.head'_iff.mp hn
  obtain ⟨c, _, hc⟩ := TransGen.tail'_iff.mp hn
  rw [(h b n hb).2] at hc
  cases hc

theorem tiered (h : m.TwoLevel) : Tiered m (merged m) := by
  have hf : Tiered m (ofMachine m) := by
    refine { holder := fun hab => (h _ _ <| ofMachine_flat.holds hab).2, once := ?once }
    case once =>
      intro n i i' j j' hn hi _ hc _
      have := ofMachine_flat.holds <| hc.holds hi
      rw [hn] at this
      cases this
  exact (simplify_kept Tiered.kept ⟨ofMachine_flat.merging h.acyclic, hf⟩).2

theorem transGen_above_iff (h : m.TwoLevel) (hx : m.supers x ≠ []) :
    TransGen (merged m).Above a x ↔ a ∈ m.supers x := by
  have hm := merged_merged h.acyclic
  refine ⟨fun ha => ?_, hm.keeps⟩
  cases hm.gains <| TransGen.mono (fun _ _ => hm.sound.holds_of_above) _ _ ha
  case inr hc =>
    obtain ⟨c, hc⟩ := hc
    exact absurd (h c x hc).2 hx
  case inl ha =>
    obtain ⟨c, ha, hc⟩ := TransGen.tail'_iff.mp ha
    cases ha.cases_tail
    case inl he => exact he ▸ hc
    case inr hb =>
      obtain ⟨b, _, hb⟩ := hb
      rw [(h x c hc).2] at hb
      cases hb

theorem two_le_length_supers (h : m.TwoLevel) (hx : m.supers x ≠ [])
    (hi : x ∈ (merged m).intersections) : 2 ≤ (m.supers x).length := by
  have hm := merged_merged h.acyclic
  by_contra hlen
  obtain ⟨a, ha⟩ := List.length_eq_one_iff.mp <|
    Nat.le_antisymm (Nat.le_of_lt_succ <| Nat.lt_of_not_le hlen) (List.length_pos_of_ne_nil hx)
  have hname {b : Name} (hb : TransGen (merged m).Above b x) : b = a := by
    rw [h.transGen_above_iff hx, ha] at hb
    exact List.mem_singleton.mp hb
  have hway {path : List NodeId} (hp : path ∈ (merged m).pathsTo x) :
      ∃ k, path = [k] ∧ (merged m).HasChild root a k := by
    obtain ⟨i, j, hd, hc, _⟩ := mem_leafPaths_root hm.sound hm.acyclic |>.mp <| mem_pathsTo.mp hp
    have hax := hd.inner.above hc
    cases hd
    case top n hk => exact ⟨i, rfl, hname (.single hax) ▸ hm.sound.named hk ▸ hk⟩
    case step path k n hd hk =>
      have hak := hd.inner.above hk
      rw [← hm.sound.named hk] at hak
      have he := (hname <| .head hak <| .single hax).trans (hname <| .single hax).symm
      exact absurd (.single <| hm.sound.holds_of_above <| he ▸ hak) (hm.acyclic _)
  refine not_mem_intersections_of_eq hm.sound (fun path hp path' hp' => ?_) hi
  obtain ⟨k, rfl, hk⟩ := hway hp
  obtain ⟨k', rfl, hk'⟩ := hway hp'
  rw [hk.unique hk']

end Machine.TwoLevel

end Statechart
