import Statechart.Proofs.Nest.Lift

namespace Statechart.Nest

-- Every node but the root goes by one of some names, nothing leads back to the root, and there are at
-- least so many nodes. Nodes may be moved about in any way, be it that they come to stand in circles.
structure Named (names : List Name) (least : Nat) (t : Nest) : Prop where
  rooted   : 0 < t.size
  size     : least ≤ t.size
  bounded  : t.HasChild i n j → j < t.size
  rootless : t.HasChild i n j → j ≠ root
  name     : i ≠ root → i < t.size → t.name i ∈ names

variable {m : Machine} {names : List Name} {least : Nat} {t u : Nest} {source target d i j : NodeId} {n a : Name}

section Union

theorem union.go_hasChild {visited : List (NodeId × NodeId)} {agenda : List Graft}
    (ha : ∀ g ∈ agenda, ∃ k, t.HasChild k g.name g.child)
    (h : (union.go t visited agenda).HasChild i n j) : ∃ k, t.HasChild k n j := by
  fun_induction union.go t visited agenda
  case case1 => exact ⟨i, h⟩
  case case2 t visited g rest hn hi =>
    obtain ⟨⟨k, hk⟩, ha⟩ := List.forall_mem_cons.mp ha
    have hx : t.Extends (t.insertChild g.parent g.name g.child) := .insertChild hn
    obtain ⟨l, hl⟩ := hi (fun g' hg => (ha g' hg).imp fun _ => hx.child) h
    cases hasChild_of_insertChild hl
    case inl hl => exact ⟨l, hl⟩
    case inr hl =>
      obtain ⟨_, rfl, rfl⟩ := hl
      exact ⟨k, hk⟩
  case case3 t visited g rest k he _ hi =>
    refine hi (fun g' hg => ?_) h
    cases List.mem_append.mp hg
    case inl hg => exact ⟨g.child, (mem_grafts.mp hg).2⟩
    case inr hg => exact ha g' <| List.mem_cons_of_mem _ hg
  case case4 hi => exact hi (fun g' hg => ha g' <| List.mem_cons_of_mem _ hg) h

theorem hasChild_of_union (h : (t.union source target).HasChild i n j) : ∃ k, t.HasChild k n j := by
  rw [union] at h
  split at h
  case isTrue  => exact ⟨i, h⟩
  case isFalse => exact union.go_hasChild (fun g hg => ⟨source, (mem_grafts.mp hg).2⟩) h

end Union

namespace Named

theorem of_hasChild (h : t.Named names least) (hs : u.size = t.size) (hn : ∀ i, u.name i = t.name i)
    (hc : ∀ {i n j}, u.HasChild i n j → ∃ k, t.HasChild k n j) : u.Named names least where
  rooted      := hs ▸ h.rooted
  size        := hs ▸ h.size
  bounded hj  := hs ▸ h.bounded (hc hj).choose_spec
  rootless hj := h.rootless (hc hj).choose_spec
  name hi hb  := hn _ ▸ h.name hi (hs ▸ hb)

theorem union (h : t.Named names least) : (t.union source target).Named names least :=
  h.of_hasChild union_extends.size union_extends.name hasChild_of_union

theorem eraseChild (h : t.Named names least) : (t.eraseChild d n).Named names least :=
  h.of_hasChild size_eraseChild (fun _ => name_eraseChild) fun hc =>
    ⟨_, (hasChild_eraseChild.mp hc).2⟩

theorem insertChild (h : t.Named names least) (hj : j ≠ root) (hb : j < t.size) :
    (t.insertChild d n j).Named names least where
  rooted := by simpa using h.rooted
  size   := by simpa using h.size
  bounded hc := by
    rw [size_insertChild]
    cases hasChild_of_insertChild hc
    case inl hc => exact h.bounded hc
    case inr hc => exact hc.2.2 ▸ hb
  rootless hc := by
    cases hasChild_of_insertChild hc
    case inl hc => exact h.rootless hc
    case inr hc => exact hc.2.2 ▸ hj
  name hi hb := by
    rw [name_insertChild]
    exact h.name hi <| by simpa using hb

theorem add {node : Node} (h : t.Named names least) (hn : node.name ∈ names)
    (hc : ∀ n j, node.children.get? n = some j → j ≠ root ∧ j < t.size) :
    (t.add node).1.Named names least := by
  have hback {i n j} (hj : (t.add node).1.HasChild i n j) : j ≠ root ∧ j < t.size := by
    by_cases hi : i = t.size
    case pos => exact hc n j <| hasChild_add_self.mp (hi ▸ hj)
    case neg =>
      have hj := hasChild_add_of_ne hi |>.mp hj
      exact ⟨h.rootless hj, h.bounded hj⟩
  refine { rooted := ?rooted, size := ?size, bounded := ?bounded, rootless := (hback · |>.1), name := ?name }
  case rooted  => simp
  case size    => exact size_add node ▸ Nat.le_succ_of_le h.size
  case bounded => exact fun hj => size_add node ▸ Nat.lt_succ_of_lt (hback hj).2
  case name =>
    intro i hi hb
    rw [size_add] at hb
    by_cases he : i = t.size
    case pos => rw [he, name_add_self]; exact hn
    case neg =>
      have hb := Nat.lt_of_le_of_ne (Nat.le_of_lt_succ hb) he
      rw [name_add_of_lt hb]
      exact h.name hi hb

theorem substitute (h : t.Named names least) (hs : source ≠ root) (hb : source < t.size) :
    (t.substitute source target).Named names least := by
  cases hf : t.shared? source target
  case none => simpa [Nest.substitute, hf] using h
  case some found =>
    have hn : t.name source ∈ names := h.name hs hb
    have hw : (t.wrapped source found).Named names least := h.add hn fun n j hj => by
      have hj := (shared?_eq_some hf).found.mp hj
      exact ⟨h.rootless hj.2, h.bounded hj.2⟩
    have hl : (t.linked source found).Named names least := hw.union
    rw [substitute_eq hf]
    have hi : ((t.linked source found).insertChild target (t.name source) t.size).Named names least := by
      refine hl.insertChild (Nat.ne_of_gt h.rooted) ?_
      rw [linked, union_extends.size]
      exact (size_add _).symm ▸ Nat.lt_succ_self _
    exact hi.of_hasChild size_foldl_eraseChild (fun _ => name_foldl_eraseChild) fun hc =>
      ⟨_, (hasChild_foldl_eraseChild.mp hc).2⟩

theorem uniteBelow? (h : t.Named names least) (hu : t.uniteBelow? source target = some u) :
    u.Named names least := by
  obtain ⟨i, j, _, _, rfl⟩ := uniteBelow?_eq_some hu
  exact h.union

theorem foldl_uniteBelow? {child : NodeId} {siblings : List (Name × NodeId)}
    (h : t.Named names least) :
    (siblings.foldl (fun t e => match t.uniteBelow? child e.2 with
      | some t => t.eraseChild d n
      | none   => t) t).Named names least := by
  induction siblings generalizing t
  case nil => exact h
  case cons e es hi =>
    rw [List.foldl_cons]
    cases hu : t.uniteBelow? child e.2
    case none   => exact hi h
    case some u => exact hi (h.uniteBelow? hu).eraseChild

theorem dropNested (h : t.Named names least) : (t.dropNested d).Named names least := by
  have hgo (es : List (Name × NodeId)) {t : Nest} (h : t.Named names least) :
      (dropNested.go d t es).Named names least := by
    induction es generalizing t
    case nil          => exact h
    case cons e es hi => exact hi h.foldl_uniteBelow?
  exact hgo _ h

theorem absorb? {how : Absorption} (h : t.Named names least) (hs : source ≠ root)
    (hb : source < least) (ha : t.absorb? source target = some (u, how)) : u.Named names least := by
  obtain ⟨-, d, found, _, _, _, rfl⟩ | ⟨-, i, j, _, _, rfl⟩ := absorb?_cases ha
  case inl => exact (h.substitute hs (Nat.lt_of_lt_of_le hb h.size)).dropNested
  case inr => exact h.union.dropNested

theorem simplify (h : t.Named names t.size) : (t.simplify m).nest.Named names t.size := by
  have k : Kept m t.candidates fun s => s.nest.Named names t.size := by
    refine ⟨fun hn hs _ _ _ _ ha => ?_⟩
    have hc := mem_candidates_iff.mp hs
    exact (hn.absorb? (h.rootless hc) (h.bounded hc) ha).eraseChild
  exact simplify_kept k h

end Named

section OfMachine

theorem Named.addLeaves {ns : List Name} (h : t.Named names least) (hn : ∀ n ∈ ns, n ∈ names) :
    (ofMachine.addLeaves t ns).1.Named names least := by
  have hgo (leaves : NameMap NodeId) : (ns.foldl (fun (r : Nest × NameMap NodeId) n =>
      ((r.1.add ⟨n, ∅⟩).1, r.2.insert n r.1.size)) (t, leaves)).1.Named names least := by
    induction ns generalizing t leaves
    case nil => exact h
    case cons n ns hi =>
      obtain ⟨hm, hn⟩ := List.forall_mem_cons.mp hn
      exact hi (h.add hm fun _ _ hj => absurd hj (by simp)) hn _
  exact hgo ∅

theorem Named.planted {ns : List Name} {leaves : NameMap NodeId} (h : u.Named names least)
    (hl : t.Leafed ns u leaves) (ht : 0 < t.size) (hn : n ∈ names) :
    (u.planted n leaves).Named names least := by
  refine (h.add hn fun p j hj => ?_).insertChild (Nat.ne_of_gt h.rooted) ?_
  · obtain ⟨hs, hb, _⟩ := hl.leaf hj
    exact ⟨Nat.ne_of_gt <| Nat.lt_of_lt_of_le ht hs, hb⟩
  · exact size_add _ ▸ Nat.lt_succ_self _

theorem ofMachine_named : (ofMachine m).Named (ofMachine.parents m) (ofMachine m).size := by
  have hgo (ps : List Name) (hps : ps ⊆ ofMachine.parents m) {t : Nest}
      (h : t.Named (ofMachine.parents m) 0) :
      (ps.foldl (fun t p =>
        let r := ofMachine.addLeaves t (m.substates p)
        r.1.planted p r.2) t).Named (ofMachine.parents m) 0 := by
    induction ps generalizing t
    case nil => exact h
    case cons p ps hi =>
      obtain ⟨hp, hps⟩ := List.cons_subset.mp hps
      refine hi hps <| (h.addLeaves fun n hn => ?_).planted addLeaves_leafed h.rooted hp
      exact mem_distinct.mpr <| List.mem_flatMap.mpr ⟨n, List.mem_of_mem_filter hn, List.mem_cons_self⟩
  have h : Named (ofMachine.parents m) 0 ⟨[⟨"", ∅⟩]⟩ := {
    rooted      := Nat.one_pos
    size        := Nat.zero_le _
    bounded hc  := absurd hc not_hasChild_bare
    rootless hc := absurd hc not_hasChild_bare
    name hi hb  := absurd (Nat.lt_one_iff.mp hb) hi
  }
  exact { hgo _ (List.Subset.refl _) h with size := Nat.le_refl _ }

theorem merged_named : (merged m).Named (ofMachine.parents m) (ofMachine m).size :=
  ofMachine_named.simplify

end OfMachine

section Lift

variable {is : NameMap (List (List NodeId))}

theorem Named.rootless_liftAll (h : t.Named names least) (hc : (t.liftAll is).HasChild i n j) :
    j ≠ root := by
  have hl : t.Lifted is.entries (t.liftAll is) := liftAll_lifted
  by_cases hi : i = root
  case neg => exact h.rootless (hl.inner hi |>.mp hc).1
  case pos =>
    subst hi
    by_cases hn : n ∈ is.entries.map Prod.fst
    case neg => exact h.rootless (hl.old hn |>.mp hc)
    case pos =>
      obtain ⟨k, hk, hc'⟩ := hl.new hn
      exact hc.unique hc' ▸ Nat.ne_of_gt (Nat.lt_of_lt_of_le h.rooted hk)

theorem Named.mem_of_above_liftAll (h : t.Named names least) (ha : (t.liftAll is).Above a n) :
    a ∈ names := by
  have hl : t.Lifted is.entries (t.liftAll is) := liftAll_lifted
  obtain ⟨i, j, hi, rfl, hc⟩ := above_iff.mp ha
  have hr : i ≠ root := by
    obtain ⟨_, hi⟩ | ⟨_, _, _, hi⟩ := hi.cases
    all_goals exact h.rootless_liftAll hi
  have hb := (hl.inner hr |>.mp hc).1.lt_size
  exact hl.name hb ▸ h.name hr hb

end Lift

end Statechart.Nest
