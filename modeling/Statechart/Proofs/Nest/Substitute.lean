import Statechart.Proofs.Nest.Rearrange

open Relation

namespace Statechart.Nest

structure Shared (t : Nest) (source target : NodeId) (found : NameMap NodeId) : Prop where
  child : ∃ n i, t.HasChild source n i
  every : t.HasChild source n i → ∃ j, t.HasChild target n j
  found : found.get? n = some j ↔ n ∈ t.childNames source ∧ t.HasChild target n j

-- The source stands apart, and all of its children are found below the target as well.
structure Covered (t : Nest) (source target : NodeId) (found : NameMap NodeId) : Prop where
  source_ne : source ≠ root
  bounded   : source < t.size
  target_ne : target ≠ root
  name_ne   : t.name target ≠ t.name source
  apart     : t.Apart source
  shared    : t.shared? source target = some found

variable {t u : Nest} {source target d i j k l : NodeId} {found : NameMap NodeId} {n m a b : Name}

section Shared

theorem keys_nodup_filterMap {ns : List Name} {f : Name → Option NodeId} (h : ns.Nodup) :
    ((ns.filterMap fun n => (f n).map (n, ·)).map Prod.fst).Nodup := by
  induction ns
  case nil => simp
  case cons n ns hi =>
    have ⟨hn, hs⟩ := List.nodup_cons.mp h
    cases hf : f n
    case none => simpa [hf] using hi hs
    case some => simp_all

theorem shared?_eq_some (h : t.shared? source target = some found) :
    t.Shared source target found := by
  have ⟨hc, hf⟩ := Option.ite_none_right_eq_some.mp h
  simp only [Bool.and_eq_true, Bool.not_eq_true', decide_eq_true_eq] at hc
  have hall := List.filterMap_length_eq_length.mp hc.2
  cases hf
  refine { child := ?child, every := ?every, found := ?found }
  case child =>
    have ⟨e, he⟩ := List.exists_mem_of_ne_nil _ (List.isEmpty_eq_false_iff.mp hc.1)
    have ⟨n, hn, _⟩ := List.mem_filterMap.mp he
    exact ⟨n, mem_childNames_iff.mp hn⟩
  case every =>
    intro n i hn
    have h := hall n <| mem_childNames_iff.mpr ⟨i, hn⟩
    rw [Option.isSome_map] at h
    exact Option.isSome_iff_exists.mp h
  case found =>
    intro n j
    have hn : (t.childNames source).Nodup := (t.children source).keys_nodup
    rw [NameMap.get?_ofList (keys_nodup_filterMap hn), List.mem_filterMap]
    simp only [Option.map_eq_some_iff, Prod.mk.injEq, HasChild]
    grind

end Shared

section EraseAll

variable {ns : List Name}

theorem size_foldl_eraseChild : (ns.foldl (·.eraseChild d ·) t).size = t.size := by
  induction ns generalizing t
  case nil          => rfl
  case cons n ns hi => rw [List.foldl_cons, hi, size_eraseChild]

theorem name_foldl_eraseChild : (ns.foldl (·.eraseChild d ·) t).name i = t.name i := by
  induction ns generalizing t
  case nil          => rfl
  case cons n ns hi => rw [List.foldl_cons, hi, name_eraseChild]

theorem hasChild_foldl_eraseChild :
    (ns.foldl (·.eraseChild d ·) t).HasChild i n j ↔ ¬(i = d ∧ n ∈ ns) ∧ t.HasChild i n j := by
  induction ns generalizing t
  case nil => simp
  case cons m ns hi =>
    rw [List.foldl_cons, hi, hasChild_eraseChild, List.mem_cons]
    grind

end EraseAll

section Linked

def wrapped (t : Nest) (source : NodeId) (found : NameMap NodeId) : Nest :=
  (t.add ⟨t.name source, found⟩).1

-- The node that stands for the source below the target has got all that the source has. It is the
-- last one, and nothing leads to it yet.
def linked (t : Nest) (source : NodeId) (found : NameMap NodeId) : Nest :=
  (t.wrapped source found).union source t.size

theorem name_wrapped_of_lt (h : i < t.size) : (t.wrapped source found).name i = t.name i :=
  name_add_of_lt h

theorem name_wrapped_self (found : NameMap NodeId) : (t.wrapped source found).name t.size = t.name source :=
  name_add_self _

theorem hasChild_wrapped :
    (t.wrapped source found).HasChild i n j ↔
      if i = t.size then found.get? n = some j else t.HasChild i n j := by
  split
  case isTrue h  => exact h ▸ hasChild_add_self
  case isFalse h => exact hasChild_add_of_ne h

theorem HasChild.wrapped (h : t.HasChild i n j) : (t.wrapped source found).HasChild i n j :=
  hasChild_add_of_ne (Nat.ne_of_lt h.lt_size) |>.mpr h

namespace Covered

theorem spec (h : t.Covered source target found) : t.Shared source target found :=
  shared?_eq_some h.shared

theorem target_lt (h : t.Covered source target found) : target < t.size := by
  have ⟨_, _, hc⟩ := h.spec.child
  have ⟨_, hj⟩ := h.spec.every hc
  exact hj.lt_size

theorem name_source (h : t.Covered source target found) :
    (t.wrapped source found).name source = t.name source :=
  name_wrapped_of_lt h.bounded

theorem name_linked_of_lt (hi : i < t.size) : (t.linked source found).name i = t.name i :=
  (union_extends.name i).trans <| name_wrapped_of_lt hi

theorem name_linked_self : (t.linked source found).name t.size = t.name source :=
  (union_extends.name _).trans <| name_wrapped_self _

theorem hasChild_linked (hc : t.HasChild i n j) : (t.linked source found).HasChild i n j :=
  union_extends.child hc.wrapped

theorem holds_target (h : t.Covered source target found) (hc : t.Holds (t.name source) n) :
    t.Holds (t.name target) n := by
  have ⟨i, j, hi, hn, hj⟩ := hc
  cases h.apart.sole hi hn hj
  have ⟨k, hk⟩ := h.spec.every hj
  exact hk.holds h.target_ne

theorem not_holds_target (h : t.Covered source target found) (ac : t.Acyclic) :
    ¬ReflTransGen t.Holds (t.name source) (t.name target) := by
  intro hr
  cases hr.cases_head
  case inl hn => exact h.name_ne hn.symm
  case inr hr =>
    have ⟨c, hc, hr⟩ := hr
    exact ac _ <| .head' (h.holds_target hc) hr

theorem sound_wrapped (h : t.Covered source target found) (s : t.Sound) :
    (t.wrapped source found).Sound := by
  have hp : ∀ {i n j}, (t.wrapped source found).HasChild i n j → ∃ k, t.HasChild k n j := by
    intro i n j hc
    rw [hasChild_wrapped] at hc
    split at hc
    case isTrue  => exact ⟨target, (h.spec.found.mp hc).2⟩
    case isFalse => exact ⟨i, hc⟩
  have hs : (t.wrapped source found).size = t.size + 1 := size_add _
  exact {
    rooted := hs ▸ Nat.succ_pos _
    bounded := by
      intro i n j hc
      have ⟨k, hk⟩ := hp hc
      exact hs ▸ Nat.lt_succ_of_lt (s.bounded hk)
    named := by
      intro i n j hc
      have ⟨k, hk⟩ := hp hc
      exact (name_wrapped_of_lt (s.bounded hk)).trans (s.named hk)
    rootless := by
      intro i n j hc
      have ⟨k, hk⟩ := hp hc
      exact s.rootless hk
  }

theorem progress (h : t.Covered source target found) (s : t.Sound) :
    (t.wrapped source found).Progress source t.size (t.linked source found) :=
  union_progress (h.sound_wrapped s) h.source_ne (h.name_source.trans (name_wrapped_self found).symm)

theorem holds_of_linked (h : t.Covered source target found) (s : t.Sound)
    (hab : (t.linked source found).Holds a b) : t.Holds a b := by
  have hn := h.name_source.trans (name_wrapped_self found).symm
  have ⟨i, j, hi, ha, hc⟩ := holds_of_union (h.sound_wrapped s) h.source_ne hn hab
  rw [hasChild_wrapped] at hc
  split at hc
  case isFalse =>
    rw [name_wrapped_of_lt hc.lt_size] at ha
    exact ⟨i, j, hi, ha, hc⟩
  case isTrue he =>
    have ⟨k, hk⟩ := mem_childNames_iff.mp (h.spec.found.mp hc).1
    rw [he, name_wrapped_self] at ha
    exact ha ▸ hk.holds h.source_ne

end Covered

end Linked

section Substitute

theorem transGen_or_through {α : Type _} {r r' : α → α → Prop} {q s x y : α}
    (h : ∀ {x y}, r' x y → r x y ∨ x = q ∧ y = s) (hxy : TransGen r' x y) :
    TransGen r x y ∨ ReflTransGen r x q ∧ ReflTransGen r s y := by
  induction hxy
  case single hr =>
    cases h hr
    case inl hr => exact .inl <| .single hr
    case inr he => exact .inr <| he.1 ▸ he.2 ▸ ⟨.refl, .refl⟩
  case tail hr hi =>
    cases h hr <;> cases hi
    case inl.inl hr hi => exact .inl <| hi.tail hr
    case inl.inr hr hi => exact .inr ⟨hi.1, hi.2.tail hr⟩
    case inr.inl he hi => exact .inr <| he.1 ▸ he.2 ▸ ⟨hi.to_reflTransGen, .refl⟩
    case inr.inr he hi => exact .inr <| he.2 ▸ ⟨hi.1, .refl⟩

theorem substitute_eq (h : t.shared? source target = some found) :
    t.substitute source target = (found.keys.filter (· ≠ t.name source)).foldl
      (·.eraseChild target ·) ((t.linked source found).insertChild target (t.name source) t.size) := by
  simp only [substitute, h]
  rfl

theorem size_substitute (h : t.shared? source target = some found) :
    (t.substitute source target).size = t.size + 1 := by
  rw [substitute_eq h, size_foldl_eraseChild, size_insertChild, linked, union_extends.size]
  exact size_add _

theorem name_substitute (h : t.shared? source target = some found) :
    (t.substitute source target).name i = (t.linked source found).name i := by
  rw [substitute_eq h, name_foldl_eraseChild, name_insertChild]

theorem hasChild_substitute (h : t.shared? source target = some found) (ht : target < t.size) :
    (t.substitute source target).HasChild i n j ↔
      if i = target ∧ n = t.name source then j = t.size
      else ¬(i = target ∧ n ∈ found) ∧ (t.linked source found).HasChild i n j := by
  have ht : target < (t.linked source found).size := by
    rw [linked, union_extends.size]
    exact Nat.lt_of_lt_of_eq (Nat.lt_succ_of_lt ht) (size_add _).symm
  rw [substitute_eq h, hasChild_foldl_eraseChild, hasChild_insertChild ht, List.mem_filter]
  simp only [NameMap.mem_def]
  grind

namespace Covered

theorem holds_of_substitute (h : t.Covered source target found) (s : t.Sound)
    (hab : (t.substitute source target).Holds a b) :
    t.Holds a b ∨ a = t.name target ∧ b = t.name source := by
  have ⟨i, j, hi, ha, hc⟩ := hab
  rw [name_substitute h.shared] at ha
  rw [hasChild_substitute h.shared h.target_lt] at hc
  split at hc
  case isTrue he =>
    rw [he.1, name_linked_of_lt h.target_lt] at ha
    exact .inr ⟨ha.symm, he.2⟩
  case isFalse => exact .inl <| h.holds_of_linked s ⟨i, j, hi, ha, hc.2⟩

-- Only the source gains anything above it, for the target has had what stands below the source.
theorem transGen_holds_of_substitute (h : t.Covered source target found) (s : t.Sound)
    (hab : TransGen (t.substitute source target).Holds a b) :
    TransGen t.Holds a b ∨ ReflTransGen t.Holds a (t.name target) ∧ b = t.name source := by
  cases transGen_or_through (h.holds_of_substitute s) hab
  case inl hab => exact .inl hab
  case inr hab =>
    cases hab.2.cases_head
    case inl hb => exact .inr ⟨hab.1, hb.symm⟩
    case inr hb =>
      have ⟨c, hc, hb⟩ := hb
      exact .inl <| TransGen.trans_right hab.1 <| .head' (h.holds_target hc) hb

theorem acyclic_substitute (h : t.Covered source target found) (s : t.Sound) (ac : t.Acyclic) :
    (t.substitute source target).Acyclic := by
  intro n hn
  cases h.transGen_holds_of_substitute s hn
  case inl hn => exact ac n hn
  case inr hn => exact h.not_holds_target ac (hn.2 ▸ hn.1)

theorem sound_substitute (h : t.Covered source target found) (s : t.Sound) :
    (t.substitute source target).Sound := by
  have sl := (h.progress s).sound (h.sound_wrapped s)
  have hs := size_substitute h.shared
  have hl : (t.linked source found).size = t.size + 1 :=
    (h.progress s).extension.size.trans (size_add _)
  exact {
    rooted := hs ▸ Nat.succ_pos _
    bounded := by
      intro i n j hc
      rw [hasChild_substitute h.shared h.target_lt] at hc
      split at hc
      case isTrue  => rw [hc, hs]; exact Nat.lt_succ_self _
      case isFalse => rw [hs, ← hl]; exact sl.bounded hc.2
    named := by
      intro i n j hc
      rw [hasChild_substitute h.shared h.target_lt] at hc
      rw [name_substitute h.shared]
      split at hc
      case isTrue he => rw [hc, name_linked_self, he.2]
      case isFalse   => exact sl.named hc.2
    rootless := by
      intro i n j hc
      rw [hasChild_substitute h.shared h.target_lt] at hc
      split at hc
      case isTrue  => exact hc ▸ Nat.ne_of_gt s.rooted
      case isFalse => exact sl.rootless hc.2
  }

theorem hasChild_root_substitute (h : t.Covered source target found) (s : t.Sound) :
    (t.substitute source target).HasChild root n j ↔ t.HasChild root n j := by
  have hn := h.name_source.trans (name_wrapped_self found).symm
  have hr := hasChild_root_union (n := n) (j := j) (h.sound_wrapped s) h.source_ne hn
    (Nat.ne_of_gt s.rooted)
  simp only [hasChild_substitute h.shared h.target_lt, Ne.symm h.target_ne, false_and, if_false,
    not_false_eq_true, true_and]
  refine hr.trans ?_
  rw [hasChild_wrapped, if_neg (show root ≠ t.size from Nat.ne_of_lt s.rooted)]

theorem apart_substitute (h : t.Covered source target found) (s : t.Sound) (hj : j < t.size)
    (hne : source ≠ j) (ha : t.Apart j) : (t.substitute source target).Apart j := by
  have hn := h.name_source.trans (name_wrapped_self found).symm
  have hw : (t.wrapped source found).Apart j := by
    refine { alone := ?alone, sole := ?sole }
    case alone =>
      intro i n hc
      rw [hasChild_wrapped] at hc
      split at hc
      case isTrue  => exact absurd (ha.alone (h.spec.found.mp hc).2) h.target_ne
      case isFalse => exact ha.alone hc
    case sole =>
      intro i n l hi hij hc
      rw [hasChild_wrapped] at hc
      rw [name_wrapped_of_lt hj] at hij
      split at hc
      case isFalse => exact ha.sole hi (name_wrapped_of_lt hc.lt_size ▸ hij) hc
      case isTrue he =>
        have ⟨_, hk⟩ := mem_childNames_iff.mp (h.spec.found.mp hc).1
        rw [he, name_wrapped_self] at hij
        exact absurd (ha.sole h.source_ne hij hk) hne
  have hl : (t.linked source found).Apart j := hw.union (h.sound_wrapped s) h.source_ne hn hne
  refine { alone := ?alone, sole := ?sole }
  case alone =>
    intro i n hc
    rw [hasChild_substitute h.shared h.target_lt] at hc
    split at hc
    case isTrue  => exact absurd hc (Nat.ne_of_lt hj)
    case isFalse => exact hl.alone hc.2
  case sole =>
    intro i n l hi hij hc
    rw [hasChild_substitute h.shared h.target_lt] at hc
    rw [name_substitute h.shared, name_substitute h.shared] at hij
    split at hc
    case isFalse => exact hl.sole hi hij hc.2
    case isTrue he =>
      have ⟨_, _, hc⟩ := h.spec.child
      have ⟨_, hk⟩ := h.spec.every hc
      exact hl.sole hi hij <| hasChild_linked (he.1 ▸ hk)

end Covered

section Keeps

namespace Covered

theorem hasChild_wrapper (h : t.Covered source target found) :
    (t.substitute source target).HasChild target (t.name source) t.size := by
  simp [hasChild_substitute h.shared h.target_lt]

theorem hasChild_substitute_of_ne (h : t.Covered source target found) (hi : i ≠ target)
    (hc : (t.linked source found).HasChild i n j) :
    (t.substitute source target).HasChild i n j := by
  simpa [hasChild_substitute h.shared h.target_lt, hi] using hc

theorem hasChild_through_wrapper (h : t.Covered source target found)
    (hc : t.HasChild target n j) (hn : n ∈ found) :
    (t.substitute source target).HasChild t.size n j := by
  have ⟨k, hk⟩ := Option.isSome_iff_exists.mp <| NameMap.mem_iff_get?_isSome.mp hn
  cases (h.spec.found.mp hk).2.unique hc
  refine h.hasChild_substitute_of_ne (Nat.ne_of_gt h.target_lt) <| union_extends.child ?_
  rwa [hasChild_wrapped, if_pos rfl]

theorem reaches_target (h : t.Covered source target found) (hr : t.Reaches k target) :
    (t.substitute source target).Reaches k target := by
  induction hr using ReflTransGen.head_induction_on
  case refl => exact .refl
  case head x _ hx _ hi =>
    have ⟨n, hn⟩ := hx
    by_cases hx : x = target
    case pos => exact hx ▸ .refl
    case neg => exact .head ⟨n, h.hasChild_substitute_of_ne hx (hasChild_linked hn)⟩ hi

-- A node named as the source that is not the source is a leaf.
theorem eq_source (h : t.Covered source target found) (s : t.Sound) (hi : i ≠ root)
    (hc : t.HasChild i (t.name source) j) : ¬t.HasChild j n k := by
  intro hk
  cases h.apart.sole (s.rootless hc) (s.named hc) hk
  exact hi (h.apart.alone hc)

theorem reaches_substitute (h : t.Covered source target found) (s : t.Sound)
    (hr : t.Reaches k i) (hc : t.HasChild i n j) : (t.substitute source target).Reaches k i := by
  induction hr generalizing n j
  case refl => exact .refl
  case tail x y _ hy hi =>
    have ⟨m, hm⟩ := hy
    have hx := hi hm
    by_cases ht : x = target
    case neg => exact hx.tail ⟨m, h.hasChild_substitute_of_ne ht (hasChild_linked hm)⟩
    case pos =>
      subst ht
      have hn : m ≠ t.name source := fun hn => h.eq_source s h.target_ne (hn ▸ hm) hc
      by_cases hf : m ∈ found
      case pos => exact hx.tail ⟨_, h.hasChild_wrapper⟩ |>.tail ⟨m, h.hasChild_through_wrapper hm hf⟩
      case neg =>
        refine hx.tail ⟨m, ?_⟩
        simpa [hasChild_substitute h.shared h.target_lt, hn, hf] using hasChild_linked hm

theorem ne_target_of_reaches (h : t.Covered source target found) (s : t.Sound) (ac : t.Acyclic)
    (hr : (t.linked source found).Reaches t.size i) : i ≠ target := by
  intro hi
  have sl := (h.progress s).sound (h.sound_wrapped s)
  have hh := sl.holds_of_reaches (Nat.ne_of_gt s.rooted) hr
  rw [name_linked_self, hi, name_linked_of_lt h.target_lt] at hh
  exact h.not_holds_target ac <| ReflTransGen.mono (fun _ _ => h.holds_of_linked s) _ _ hh

theorem reaches_wrapper (h : t.Covered source target found) (s : t.Sound) (ac : t.Acyclic)
    (hr : (t.linked source found).Reaches t.size i) :
    (t.substitute source target).Reaches t.size i := by
  induction hr
  case refl => exact .refl
  case tail hx hy hi =>
    have ⟨m, hm⟩ := hy
    exact hi.tail ⟨m, h.hasChild_substitute_of_ne (h.ne_target_of_reaches s ac hx) hm⟩

theorem keeps {tops tops' : NodeId → Prop} (h : t.Covered source target found) (s : t.Sound)
    (ac : t.Acyclic) (htops : ∀ k, tops k → k = source ∨ tops' k) (hk : tops' k)
    (hr : t.Reaches k target) (hab : t.HoldsFrom tops a b) :
    TransGen ((t.substitute source target).HoldsFrom tops') a b := by
  have ⟨l, i, j, hl, hi, ha, hj⟩ := hab
  subst ha
  have hn : (t.substitute source target).name i = t.name i :=
    (name_substitute h.shared).trans <| name_linked_of_lt hj.lt_size
  cases htops l hl
  case inl hl =>
    have hs := h.name_source.trans (name_wrapped_self found).symm
    have ht : t.size < (t.wrapped source found).size :=
      Nat.lt_of_lt_of_eq (Nat.lt_succ_self _) (size_add _).symm
    have hi : (t.wrapped source found).Reaches source i := hl ▸ hi.extend fun _ _ _ => .wrapped
    have ⟨y, hy, hyn, hyc⟩ := union_covers (h.sound_wrapped s) h.source_ne ht hs hi
    have ⟨j', hj'⟩ := hyc b j hj.wrapped
    refine .single ⟨k, y, j', hk, ?reaches, ?name, ?child⟩
    case reaches =>
      exact (h.reaches_target hr).tail ⟨_, h.hasChild_wrapper⟩ |>.trans (h.reaches_wrapper s ac hy)
    case name =>
      rw [name_substitute h.shared, (h.progress s).extension.name, hyn,
        name_wrapped_of_lt hj.lt_size]
    case child => exact h.hasChild_substitute_of_ne (h.ne_target_of_reaches s ac hy) hj'
  case inr hl =>
    have hi := h.reaches_substitute s hi hj
    by_cases ht : i = target
    case neg =>
      exact .single ⟨l, i, j, hl, hi, hn, h.hasChild_substitute_of_ne ht (hasChild_linked hj)⟩
    case pos =>
      subst ht
      by_cases hb : b = t.name source
      case pos => exact .single ⟨l, i, t.size, hl, hi, hn, hb ▸ h.hasChild_wrapper⟩
      by_cases hf : b ∈ found
      case pos =>
        -- The new node now stands between the two.
        refine .head (b := t.name source) ⟨l, i, t.size, hl, hi, hn, h.hasChild_wrapper⟩ <| .single ?_
        refine ⟨l, t.size, j, hl, hi.tail ⟨_, h.hasChild_wrapper⟩, ?_, h.hasChild_through_wrapper hj hf⟩
        exact (name_substitute h.shared).trans name_linked_self
      case neg =>
        refine .single ⟨l, i, j, hl, hi, hn, ?_⟩
        simpa [hasChild_substitute h.shared h.target_lt, hb, hf] using hasChild_linked hj

end Covered

end Keeps

end Substitute

end Statechart.Nest
