import Statechart.Proofs.Nest.Simplify

open Relation

namespace Statechart

def Machine.substates (m : Machine) (n : Name) : List Name :=
  m.states.keys.filter (n ∈ m.supers ·)

namespace Nest

structure Leafed (t : Nest) (names : List Name) (u : Nest) (leaves : NameMap NodeId) : Prop where
  size     : t.size ≤ u.size
  name     : i < t.size → u.name i = t.name i
  children : u.children i = t.children i
  keys     : leaves.keys = distinct names
  leaf     : leaves.get? n = some j → t.size ≤ j ∧ j < u.size ∧ u.name j = n

-- For some parents, below the root there are nodes, and below these a leaf for everything that
-- inherits from them.
structure Flat (m : Machine) (parents : List Name) (t : Nest) : Prop where
  sound : t.Sound
  tops  : t.childNames root = parents
  subs  : t.HasChild root n j → t.childNames j = m.substates n
  flat  : t.HasChild i x l → i ≠ root → t.HasChild root (t.name i) i ∧ ∀ p, ¬t.HasChild root p l

variable {m : Machine} {t u : Nest} {i j k l : NodeId} {n p x a b : Name}
  {names parents : List Name} {leaves : NameMap NodeId}

theorem Leafed.add (h : t.Leafed names u leaves) :
    t.Leafed (names ++ [n]) (u.add ⟨n, ∅⟩).1 (leaves.insert n u.size) where
  size     := Nat.le_trans h.size <| by simp
  name hi  := (name_add_of_lt (Nat.lt_of_lt_of_le hi h.size)).trans <| h.name hi
  children := children_add_leaf.trans h.children
  keys     := by
    rw [NameMap.keys_insert, distinct, List.foldl_append, ← distinct, ← h.keys]
    rfl
  leaf hj := by
    rw [NameMap.get?_insert] at hj
    split at hj
    case isTrue hn =>
      cases hj
      exact ⟨h.size, by simp, hn ▸ name_add_self _⟩
    case isFalse =>
      obtain ⟨hs, hj, hn⟩ := h.leaf hj
      refine ⟨hs, ?_, (name_add_of_lt hj).trans hn⟩
      exact Nat.lt_of_lt_of_eq (Nat.lt_succ_of_lt hj) (size_add _).symm

theorem Leafed.foldl {more : List Name} (h : t.Leafed names u leaves) :
    t.Leafed (names ++ more)
      (more.foldl (fun (r : Nest × NameMap NodeId) n =>
        ((r.1.add ⟨n, ∅⟩).1, r.2.insert n r.1.size)) (u, leaves)).1
      (more.foldl (fun (r : Nest × NameMap NodeId) n =>
        ((r.1.add ⟨n, ∅⟩).1, r.2.insert n r.1.size)) (u, leaves)).2 := by
  induction more generalizing names u leaves
  case nil => simpa using h
  case cons n more hi =>
    have := hi (h.add (n := n))
    rwa [List.append_assoc] at this

theorem addLeaves_leafed :
    t.Leafed names (ofMachine.addLeaves t names).1 (ofMachine.addLeaves t names).2 := by
  have h : t.Leafed [] t ∅ := {
    size     := Nat.le_refl _
    name _   := rfl
    children := rfl
    keys     := rfl
    leaf hj  := nomatch hj
  }
  exact h.foldl

def planted (t : Nest) (n : Name) (leaves : NameMap NodeId) : Nest :=
  (t.add ⟨n, leaves⟩).1.insertChild root n t.size

namespace Leafed

variable {names : List Name}

theorem root_lt (h : t.Leafed names u leaves) (s : t.Sound) : root < u.size :=
  Nat.lt_of_lt_of_le s.rooted h.size

theorem children_planted (h : t.Leafed names u leaves) (s : t.Sound) :
    (u.planted p leaves).children i =
      if i = root then (t.children root).insert p u.size
      else if i = u.size then leaves else t.children i := by
  have hr : root < u.size := h.root_lt s
  have hr' : root < (u.add ⟨p, leaves⟩).1.size :=
    Nat.lt_of_lt_of_eq (Nat.lt_succ_of_lt hr) (size_add _).symm
  rw [planted, insertChild, children_modifyChildren]
  by_cases hi : i = root
  case pos =>
    subst hi
    rw [if_pos ⟨rfl, hr'⟩, if_pos rfl, children_add_of_ne (Nat.ne_of_lt hr), h.children]
  case neg =>
    rw [if_neg fun hc => hi hc.1, if_neg hi]
    split
    case isTrue hs  => rw [hs, children_add_self]
    case isFalse hs => rw [children_add_of_ne hs, h.children]

theorem hasChild_planted (h : t.Leafed names u leaves) (s : t.Sound) :
    (u.planted p leaves).HasChild i n j ↔
      if i = root ∧ n = p then j = u.size
      else if i = u.size then leaves.get? n = some j else t.HasChild i n j := by
  have hr : root ≠ u.size := Nat.ne_of_lt (h.root_lt s)
  simp only [HasChild, h.children_planted s]
  by_cases hi : i = root
  case neg =>
    simp only [hi, if_false, false_and]
    split <;> rfl
  case pos =>
    subst hi
    by_cases hn : n = p <;> simp [hn, hr, NameMap.get?_insert, eq_comm]

theorem name_planted_of_lt (h : t.Leafed names u leaves) (hi : i < t.size) :
    (u.planted p leaves).name i = t.name i := by
  rw [planted, name_insertChild, name_add_of_lt (Nat.lt_of_lt_of_le hi h.size), h.name hi]

theorem name_planted_self : (u.planted p leaves).name u.size = p := by
  rw [planted, name_insertChild, name_add_self]

theorem name_planted_leaf (h : t.Leafed names u leaves) (hj : leaves.get? n = some j) :
    (u.planted p leaves).name j = n := by
  have ⟨_, hj, hn⟩ := h.leaf hj
  rw [planted, name_insertChild, name_add_of_lt hj, hn]

theorem size_planted : (u.planted p leaves).size = u.size + 1 := by
  rw [planted, size_insertChild, size_add]

theorem sound_planted (h : t.Leafed names u leaves) (s : t.Sound) :
    (u.planted p leaves).Sound where
  rooted := size_planted ▸ Nat.succ_pos _
  bounded hc := by
    rw [h.hasChild_planted s] at hc
    rw [size_planted]
    split at hc
    case isTrue => exact hc ▸ Nat.lt_succ_self _
    split at hc
    case isTrue  => exact Nat.lt_succ_of_lt (h.leaf hc).2.1
    case isFalse => exact Nat.lt_succ_of_lt <| Nat.lt_of_lt_of_le (s.bounded hc) h.size
  named hc := by
    rw [h.hasChild_planted s] at hc
    split at hc
    case isTrue he => rw [hc, name_planted_self, he.2]
    split at hc
    case isTrue  => exact h.name_planted_leaf hc
    case isFalse => exact (h.name_planted_of_lt (s.bounded hc)).trans (s.named hc)
  rootless hc := by
    rw [h.hasChild_planted s] at hc
    split at hc
    case isTrue => exact hc ▸ Nat.ne_of_gt (h.root_lt s)
    split at hc
    case isTrue  => exact Nat.ne_of_gt <| Nat.lt_of_lt_of_le s.rooted (h.leaf hc).1
    case isFalse => exact s.rootless hc

end Leafed

theorem mem_substates_iff : x ∈ m.substates p ↔ p ∈ m.supers x := by
  simp only [Machine.substates, List.mem_filter, decide_eq_true_eq, and_iff_right_iff_imp]
  intro hp
  by_contra hx
  rw [Machine.supers_eq_nil hx] at hp
  exact nomatch hp

namespace Flat

theorem top (f : Flat m parents t) : (∃ j, t.HasChild root n j) ↔ n ∈ parents :=
  f.tops ▸ mem_childNames_iff.symm

theorem sub (f : Flat m parents t) (hc : t.HasChild root n j) :
    (∃ l, t.HasChild j x l) ↔ n ∈ m.supers x := by
  rw [← mem_childNames_iff, f.subs hc, mem_substates_iff]

end Flat

theorem Flat.plant (f : Flat m parents t) (h : t.Leafed names u leaves) (hp : p ∉ parents)
    (hn : leaves.keys = m.substates p) : Flat m (parents ++ [p]) (u.planted p leaves) := by
  have hroot : root ≠ u.size := Nat.ne_of_lt (h.root_lt f.sound)
  -- The other children of the root are where they were.
  have htop : ∀ {n j}, (u.planted p leaves).HasChild root n j →
      n = p ∧ j = u.size ∨ n ≠ p ∧ t.HasChild root n j := by
    intro n j hc
    rw [h.hasChild_planted f.sound] at hc
    grind
  have hleaf : ∀ {q l}, l < u.size → (u.planted p leaves).HasChild root q l → t.HasChild root q l := by
    intro q l hl hc
    cases htop hc
    case inl hc => exact absurd hc.2 (Nat.ne_of_lt hl)
    case inr hc => exact hc.2
  refine { sound := h.sound_planted f.sound, tops := ?tops, subs := ?subs, flat := ?flat }
  case tops =>
    have hp : p ∉ t.children root := by rwa [← f.tops] at hp
    rw [childNames, h.children_planted f.sound, if_pos rfl, NameMap.keys_insert, if_neg hp]
    exact congrArg (· ++ [p]) f.tops
  case subs =>
    intro n j hc
    have hj := (h.sound_planted f.sound).rootless hc
    rw [childNames, h.children_planted f.sound, if_neg hj]
    cases htop hc
    case inl hc => rw [if_pos hc.2, hn, hc.1]
    case inr hc =>
      have hj' : j ≠ u.size := Nat.ne_of_lt <| Nat.lt_of_lt_of_le (f.sound.bounded hc.2) h.size
      rw [if_neg hj']
      exact f.subs hc.2
  case flat =>
    intro i x l hc hi
    rw [h.hasChild_planted f.sound, if_neg fun he => hi he.1] at hc
    split at hc
    case isTrue he =>
      obtain ⟨hsize, hl, _⟩ := h.leaf hc
      subst he
      refine ⟨by simp [h.hasChild_planted f.sound, Leafed.name_planted_self], fun q hq => ?_⟩
      exact Nat.not_lt_of_le hsize <| f.sound.bounded <| hleaf hl hq
    case isFalse he =>
      obtain ⟨hr, hl⟩ := f.flat hc hi
      have hp : t.name i ≠ p := fun hp' => hp <| hp' ▸ f.top.mp ⟨i, hr⟩
      refine ⟨?_, fun q hq => hl q <| hleaf ?_ hq⟩
      · rw [h.name_planted_of_lt hc.lt_size]
        simpa [h.hasChild_planted f.sound, hp, hroot] using hr
      · exact Nat.lt_of_lt_of_le (f.sound.bounded hc) h.size

theorem Flat.foldl {more : List Name} (f : Flat m parents t) (h : (parents ++ more).Nodup) :
    Flat m (parents ++ more) (more.foldl (fun t p =>
      let r := ofMachine.addLeaves t (m.substates p)
      r.1.planted p r.2) t) := by
  induction more generalizing parents t
  case nil => simpa using f
  case cons p more hi =>
    rw [List.append_cons] at h ⊢
    have hp : p ∉ parents := by grind [List.nodup_append]
    refine hi (f.plant addLeaves_leafed hp ?_) h
    exact addLeaves_leafed.keys.trans <| distinct_eq_self <| m.states.keys_nodup.filter _

theorem not_hasChild_bare : ¬(⟨[⟨"", ∅⟩]⟩ : Nest).HasChild i n j := by
  intro hc
  cases Nat.lt_one_iff.mp hc.lt_size
  exact nomatch hc

theorem ofMachine_flat : Flat m (ofMachine.parents m) (ofMachine m) := by
  have f : Flat m [] ⟨[⟨"", ∅⟩]⟩ := {
    sound := {
      rooted      := Nat.one_pos
      bounded hc  := absurd hc not_hasChild_bare
      named hc    := absurd hc not_hasChild_bare
      rootless hc := absurd hc not_hasChild_bare
    }
    tops      := rfl
    subs hc   := absurd hc not_hasChild_bare
    flat hc _ := absurd hc not_hasChild_bare
  }
  exact f.foldl (nodup_distinct _)

theorem mem_parents_of_supers (h : a ∈ m.supers b) : a ∈ ofMachine.parents m := by
  have hb := List.mem_of_mem_filter <| mem_substates_iff.mpr h
  exact mem_distinct.mpr <| List.mem_flatMap.mpr ⟨b, hb, List.mem_cons_of_mem _ h⟩

namespace Flat

theorem holds (f : Flat m parents t) (h : t.Holds a b) : a ∈ m.supers b := by
  have ⟨i, j, hi, ha, hc⟩ := h
  subst ha
  exact f.sub (f.flat hc hi).1 |>.mp ⟨j, hc⟩

theorem above (f : Flat m (ofMachine.parents m) t) (h : a ∈ m.supers b) : t.Above a b := by
  have ⟨i, hi⟩ := f.top.mpr <| mem_parents_of_supers h
  have ⟨j, hj⟩ := f.sub hi |>.mpr h
  exact ⟨i, i, j, ⟨a, hi⟩, .refl, f.sound.named hi, hj⟩

theorem apart (f : Flat m parents t) (h : t.HasChild root n j) : t.Apart j where
  alone hc := by
    by_contra hi
    exact (f.flat hc hi).2 n h
  sole hi hn hc := by
    have hr := (f.flat hc hi).1
    rw [hn, f.sound.named h] at hr
    exact hr.unique h

theorem merging (f : Flat m (ofMachine.parents m) t)
    (ac : ∀ n, ¬TransGen (fun a b => a ∈ m.supers b) n n) : Merging m t.candidates [] t where
  sound     := f.sound
  acyclic n := fun h => ac n <| TransGen.mono (fun _ _ => f.holds) _ _ h
  rootward  := by simp [mem_candidates_iff]
  apart     := f.apart
  keeps h   := .single <| f.above h
  gains h   := .inl <| TransGen.mono (fun _ _ => f.holds) _ _ h
  holder h  := ⟨_, f.holds h⟩
  tops _ ht h := by
    have := f.holds h
    rw [ht] at this
    exact nomatch this
  placed := nofun

end Flat

def merged (m : Machine) : Nest :=
  ((ofMachine m).simplify m).nest

theorem merged_merged (ac : ∀ n, ¬TransGen (fun a b => a ∈ m.supers b) n n) :
    Merged m (ofMachine.parents m) (merged m) := by
  have h := simplify_merged (ofMachine_flat.merging ac)
  exact { h with
    placed := fun hn => h.placed <| mem_childNames_iff.mpr <| ofMachine_flat.top.mpr hn }

end Nest

end Statechart
