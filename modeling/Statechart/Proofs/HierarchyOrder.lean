import Statechart.Proofs.Nest.Clear
import Statechart.Proofs.Nest.Order
import Statechart.Proofs.OneSuper

open Relation

namespace Statechart

-- What a state inherits from comes before it, and all that inherits from it, be it through others,
-- comes right behind it.
def Machine.Heads (m : Machine) (z : Name) : Prop :=
  ∃ before block after, m.states.keys = before ++ z :: (block ++ after) ∧
    (∀ p ∈ m.supers z, p ∈ before) ∧
    ∀ x, x ∈ block ↔ TransGen (fun a b => a ∈ m.supers b) z x

namespace Nest

variable {m : Machine} {names : List Name} {t : Nest} {i j k l : NodeId} {n a : Name}

namespace Merged

theorem unique_node (h : Merged m names t) (hd : ¬t.Divided (t.name i)) (hi : t.Inner i)
    (hl : ¬t.Leaf i) (hk : t.Inner k) (hn : t.name k = t.name i) : k = i := by
  cases hk.cases
  case inr hp =>
    obtain ⟨k', n, hk', hc⟩ := hp
    rw [← h.sound.named hc, hn] at hc
    obtain ⟨i', hi', _, hc'⟩ := h.above_node hi hl hd <| hk'.above hc
    exact (unique_parent hd hi' hc' hl hk' hc).2
  case inl hr =>
    obtain ⟨n, hr⟩ := hr
    rw [← h.sound.named hr, hn] at hr
    cases hi.cases
    case inl hr' =>
      obtain ⟨n', hr'⟩ := hr'
      rw [← h.sound.named hr'] at hr'
      exact hr.unique hr'
    case inr hp =>
      obtain ⟨i', n', hi', hc⟩ := hp
      rw [← h.sound.named hc] at hc
      exact absurd (hc.holds <| hi'.ne_root h.sound) (h.top hr)

end Merged

end Nest

namespace Machine

open Nest

variable {m : Machine} {names : List Name} {i j k l : NodeId} {n p a x z : Name}

section Lifted

variable (h : Merged m names (Nest.merged m))
include h

theorem sound_lifted : m.lifted.Sound :=
  h.sound.liftAll

theorem inner_of_lifted (hi : m.lifted.Inner i) (hc : m.lifted.HasChild i n j) :
    (Nest.merged m).Inner i ∧ (Nest.merged m).HasChild i n j ∧
      ¬(n ∈ (Nest.merged m).intersections ∧ (Nest.merged m).Leaf j) :=
  h.child_of_liftAll (h.inner_of_liftAll hi) hc

theorem mem_intersections_of_size_le (hi : m.lifted.Inner i) (hs : (Nest.merged m).size ≤ i) :
    m.lifted.name i ∈ (Nest.merged m).intersections := by
  cases hi.cases
  case inl hr =>
    obtain ⟨n, hr⟩ := hr
    rw [(sound_lifted h).named hr]
    by_contra hn
    exact Nat.not_le_of_lt (h.sound.bounded <| liftAll_lifted.old hn |>.mp hr) hs
  case inr hp =>
    obtain ⟨k, _, hk, hc⟩ := hp
    exact absurd hs <| Nat.not_le_of_lt <| h.sound.bounded (inner_of_lifted h hk hc).2.1

theorem unique_node_lifted (hi : m.lifted.Inner i) (hc : m.lifted.HasChild i n j)
    (hd : ¬(Nest.merged m).Divided (m.lifted.name i)) (hk : m.lifted.Inner k)
    (hn : m.lifted.name k = m.lifted.name i) : k = i := by
  obtain ⟨hi, hc, _⟩ := inner_of_lifted h hi hc
  have hname {i : NodeId} (hi : i < (Nest.merged m).size) :
      m.lifted.name i = (Nest.merged m).name i := liftAll_lifted.name hi
  rw [hname hc.lt_size] at hd hn
  cases h.inner_of_liftAll hk
  case inr hs =>
    have hm := mem_intersections_of_size_le h hk hs
    exact absurd (hn ▸ hm) <| h.not_mem_intersections hi hc.not_leaf hd
  case inl hk =>
    rw [hname (hk.lt_size h.sound)] at hn
    exact h.unique_node hd hi hc.not_leaf hk hn

theorem unique_parent_lifted (hd : ¬(Nest.merged m).Divided n) (hi : m.lifted.Inner i)
    (hc : m.lifted.HasChild i n j) (hk : m.lifted.Inner k) (hc' : m.lifted.HasChild k n l) :
    k = i := by
  obtain ⟨hi, hc, hl⟩ := inner_of_lifted h hi hc
  obtain ⟨hk, hc', _⟩ := inner_of_lifted h hk hc'
  refine h.unique_place hd (fun hn => hl ⟨hn, ?_⟩) hk hc' hi hc
  exact h.leaf_of_mem_intersections hd hn hi hc

theorem not_above_of_top (hd : ¬(Nest.merged m).Divided n) (hr : m.lifted.HasChild root n j) :
    ¬m.lifted.Above a n := by
  by_cases hn : n ∈ (Nest.merged m).intersections
  case pos => exact h.not_above_liftAll hn hd
  case neg =>
    intro ha
    exact h.top (liftAll_lifted.old hn |>.mp hr) <| h.sound.holds_of_above <| h.above_of_liftAll ha

theorem mem_order_of_clear (hi : m.lifted.Inner i) (hc : (Nest.merged m).Clear (m.lifted.name i)) :
    m.lifted.name i ∈ m.lifted.order := by
  have s := sound_lifted h
  have hstart : m.lifted.Walking m.lifted.outer [] [] := .outer s
  rw [order_eq, List.mem_reverse]
  obtain ⟨path, hp⟩ := hi.descends
  clear hi
  induction hp
  case top n k hr =>
    rw [s.named hr] at hc ⊢
    refine order.mem_go <| .inr <| List.mem_map.mpr ⟨(n, k), mem_outer_iff.mpr ⟨hr, ?_⟩, rfl⟩
    exact fun a => not_above_of_top h hc.not_divided hr
  case step path i n j hp hj hi =>
    rw [s.named hj] at hc ⊢
    have hci := hc.above <| h.above_of_liftAll <| hp.inner.above hj
    obtain ⟨k, rest, seen, visited, w, hn, hgo⟩ :=
      hstart.exists_first s (hi hci) List.not_mem_nil
    have hk : k = i := unique_node_lifted h hp.inner hj hci.not_divided
      (w.inner List.mem_cons_self) (w.named List.mem_cons_self)
    subst hk
    rw [hgo, w.go_eq hn]
    refine order.mem_go <| .inr ?_
    rw [List.map_append]
    exact List.mem_append_left _ <| mem_childNames_iff.mpr ⟨j, hj⟩

section Below

variable (hb : ∀ x, TransGen (Nest.merged m).Above z x → ¬(Nest.merged m).Divided x)
  (hk : m.lifted.Inner k) (hn : m.lifted.name k = z)
include hb hk hn

theorem whole_lifted : m.lifted.Whole k := by
  intro j k' n l l' hr hc hk' hc'
  have hj := hk.reaches hr
  obtain ⟨r, hroot, hrk⟩ := hk
  have hz := (sound_lifted h).holdsFrom_of_reaches hroot hrk hr
  rw [hn] at hz
  refine unique_parent_lifted h (hb n ?_) hj hc hk' hc'
  exact TransGen.mono (fun _ _ => h.above_of_liftAll) _ _ <| .tail' hz (hj.above hc)

theorem mem_out_iff {out : List (Name × NodeId)} (hd : ¬(Nest.merged m).Divided z)
    (hl : Lists (fun e : Name × NodeId => (m.lifted.children e.2).entries)
      (m.lifted.children k).entries out) :
    x ∈ out.map Prod.fst ↔ TransGen m.lifted.Above z x := by
  have s := sound_lifted h
  have hout {e : Name × NodeId} (he : e ∈ out) :
      m.lifted.Inner e.2 ∧ m.lifted.name e.2 = e.1 ∧ TransGen m.lifted.Above z e.1 := by
    obtain ⟨c, hc, hce⟩ := hl.mem_iff.mp he
    clear he
    induction hce
    case refl =>
      have hc := hasChild_iff_mem.mpr hc
      exact ⟨hk.child hc, s.named hc, .single <| hn ▸ hk.above hc⟩
    case tail e e' _ he hi =>
      have he := hasChild_iff_mem.mpr he
      obtain ⟨hi, hname, ha⟩ := hi
      exact ⟨hi.child he, s.named he, ha.tail <| hname ▸ hi.above he⟩
  rw [List.mem_map]
  constructor
  case mp =>
    rintro ⟨e, he, rfl⟩
    exact (hout he).2.2
  case mpr =>
    intro hx
    induction hx
    case single x hx =>
      obtain ⟨i, l, hi, hiz, hc⟩ := above_iff.mp hx
      have hki : k = i := unique_node_lifted h hi hc (hiz ▸ hd) hk (hn.trans hiz.symm)
      subst hki
      exact ⟨(x, l), hl.mem_of_mem_agenda <| hasChild_iff_mem.mp hc, rfl⟩
    case tail y x hy hx ih =>
      obtain ⟨e, he, rfl⟩ := ih
      obtain ⟨i, l, hi, hie, hc⟩ := above_iff.mp hx
      obtain ⟨hinner, hname, ha⟩ := hout he
      have hd := hb e.1 <| TransGen.mono (fun _ _ => h.above_of_liftAll) _ _ ha
      have hei : e.2 = i := unique_node_lifted h hi hc (hie ▸ hd) hinner (hname.trans hie.symm)
      subst hei
      exact ⟨(x, l), hl.mem_of_mem_next he <| hasChild_iff_mem.mp hc, rfl⟩

end Below

end Lifted

namespace Ordered

theorem mem_states_of_below (h : m.Ordered) (ha : (Nest.merged m).Above a x) : x ∈ m.states := by
  cases h.merged.gains <| .single <| h.merged.sound.holds_of_above ha
  case inl hs =>
    obtain ⟨b, _, hb⟩ := TransGen.tail'_iff.mp hs
    exact mem_states_of_supers_ne_nil <| List.ne_nil_of_mem hb
  case inr hs =>
    obtain ⟨c, hc⟩ := hs
    exact h.defined hc

theorem above_of_mem_supers (h : m.Ordered) (ha : a ∈ m.resolve.supers x) : m.lifted.Above a x := by
  have hx := resolve_derives.mem_states.mp <| mem_states_of_supers_ne_nil <| List.ne_nil_of_mem ha
  obtain hs | ⟨b, hb, hs⟩ := supers_resolve_cases_lifted h.merged hx (mem_parents hx)
  all_goals rw [hs] at ha
  case inl => cases ha
  case inr => exact List.mem_singleton.mp ha ▸ hb

theorem mem_supers_of_above (h : m.Ordered) (hd : ¬(Nest.merged m).Divided x)
    (ha : m.lifted.Above a x) : a ∈ m.resolve.supers x := by
  have ha' := h.merged.above_of_liftAll ha
  have hi : x ∉ (Nest.merged m).intersections := fun hi => h.merged.not_above_liftAll hi hd ha
  rw [supers_resolve_of_above h.merged (h.mem_states_of_below ha') hd hi ha']
  exact List.mem_singleton_self a

theorem transGen_supers_iff (h : m.Ordered)
    (hb : ∀ x, TransGen (Nest.merged m).Above z x → ¬(Nest.merged m).Divided x) :
    TransGen (fun a b => a ∈ m.resolve.supers b) z x ↔ TransGen m.lifted.Above z x := by
  have hlow {x : Name} (hx : TransGen m.lifted.Above z x) : TransGen (Nest.merged m).Above z x :=
    TransGen.mono (fun _ _ => h.merged.above_of_liftAll) _ _ hx
  constructor
  case mp => exact fun hx => TransGen.mono (fun _ _ => h.above_of_mem_supers) _ _ hx
  case mpr =>
    intro hx
    induction hx
    case single x hx => exact .single <| h.mem_supers_of_above (hb x <| hlow <| .single hx) hx
    case tail y x hy hx hi => exact hi.tail <| h.mem_supers_of_above (hb x <| hlow <| hy.tail hx) hx

theorem mem_order (h : m.Ordered) (hz : z ∈ m.states) (hc : (Nest.merged m).Clear z) :
    z ∈ m.lifted.order := by
  have s := sound_lifted h.merged
  obtain ⟨i, hi, rfl⟩ : ∃ i, m.lifted.Inner i ∧ m.lifted.name i = z := by
    obtain ⟨a, ha⟩ | ⟨j, hj⟩ := placed_lifted h.merged <| mem_parents hz
    case inl =>
      obtain ⟨i, j, hi, _, hj⟩ := above_iff.mp ha
      exact ⟨j, hi.child hj, s.named hj⟩
    case inr => exact ⟨j, hj.inner, s.named hj⟩
  exact mem_order_of_clear h.merged hi hc

-- The walk enters the state below what it stands below, and lists all that is below it before it
-- goes on.
theorem exists_block (h : m.Ordered) (hz : z ∈ m.states) (hc : (Nest.merged m).Clear z)
    (hb : ∀ x, TransGen (Nest.merged m).Above z x → ¬(Nest.merged m).Divided x) :
    ∃ before block after, m.lifted.order = before ++ z :: (block ++ after) ∧
      (∀ p, m.lifted.Above p z → p ∈ before) ∧ ∀ x, x ∈ block ↔ TransGen m.lifted.Above z x := by
  have s := sound_lifted h.merged
  have hmem : z ∈ order.go m.lifted m.lifted.outer [] [] := by
    rw [← List.mem_reverse, ← order_eq]
    exact h.mem_order hz hc
  obtain ⟨k, rest, seen, visited, w, hns, hfirst⟩ :=
    (Walking.outer s).exists_first s hmem List.not_mem_nil
  have hk := w.inner List.mem_cons_self
  have hkz := w.named List.mem_cons_self
  have w' : m.lifted.Walking ([(z, k)] ++ rest) seen visited := w
  obtain ⟨out, visited', hl, hgo⟩ := w'.lists s (List.nodup_singleton z) (by simpa using hns)
    (by simpa using whole_lifted h.merged hb hk hkz)
  obtain ⟨new, hnew⟩ : ∃ new, order.go m.lifted rest ((out.map Prod.fst).reverse ++ seen) visited' =
      new ++ ((out.map Prod.fst).reverse ++ seen) := order.go_eq_append
  cases hl
  case cons out hl =>
    rw [List.append_nil] at hl
    refine ⟨seen.reverse, out.map Prod.fst, new.reverse, ?order, fun p hp => ?above,
      fun x => ?below⟩
    case order =>
      have hgo := hfirst.trans <| hgo.trans hnew
      rw [order_eq, hgo]
      simp
    case above =>
      obtain ⟨i, hi, j, hj⟩ := w.origin (.inr List.mem_cons_self) hp
      obtain ⟨hi, hseen⟩ := w.entered hi
      obtain ⟨l, _, hl, rfl, hl'⟩ := above_iff.mp hp
      have hli := unique_parent_lifted h.merged hc.not_divided hi hj hl hl'
      subst hli
      exact List.mem_reverse.mpr hseen
    case below => exact mem_out_iff h.merged hb hk hkz hc.not_divided hl

end Ordered

-- The states come in the order of the hierarchy wherever a state and all that stands above and
-- below it have one place each.
theorem heads_of_undivided (m : Machine) (h : m.Ordered) (z : Name) (hz : z ∈ m.states)
    (hc : (Nest.merged m).Clear z)
    (hb : ∀ x, TransGen (Nest.merged m).Above z x → ¬(Nest.merged m).Divided x) :
    m.resolve.Heads z := by
  obtain ⟨before, block, after, ho, habove, hbelow⟩ := h.exists_block hz hc hb
  have hstates {x : Name} : x ∈ ((m.separate m.lost).settle m.lifted).states ↔ x ∈ m.states :=
    NameMap.mem_reorder.symm.trans <| resolve_derives.mem_states
  have hkeys : m.resolve.states.keys = m.lifted.order.filter (· ∈ m.states) ++
      ((m.separate m.lost).settle m.lifted).states.keys.filter (· ∉ m.lifted.order) := by
    simp only [← hstates]
    exact NameMap.keys_reorder nodup_order
  have hblock : block.filter (· ∈ m.states) = block := by
    refine List.filter_eq_self.mpr fun x hx => decide_eq_true ?_
    obtain ⟨a, _, ha⟩ := TransGen.tail'_iff.mp <| (hbelow x).mp hx
    exact h.mem_states_of_below <| h.merged.above_of_liftAll ha
  refine ⟨before.filter (· ∈ m.states), block, after.filter (· ∈ m.states) ++
    ((m.separate m.lost).settle m.lifted).states.keys.filter (· ∉ m.lifted.order), ?keys,
    fun p hp => ?above, fun x => ?below⟩
  case keys =>
    rw [hkeys, ho]
    simp only [List.filter_append, List.filter_cons, hz, decide_true, if_true, hblock,
      List.append_assoc, List.cons_append]
  case above =>
    have hp := h.above_of_mem_supers hp
    refine List.mem_filter.mpr ⟨habove p hp, decide_eq_true ?_⟩
    exact h.mem_states_of_above <| h.merged.above_of_liftAll hp
  case below => rw [hbelow, h.transGen_supers_iff hb]

def isOrdered (m : Machine) : Bool :=
  m.isAcyclic && m.states.keys.all fun n => (m.supers n).all (· ∈ m.states)

theorem isOrdered_iff : m.isOrdered ↔ m.Ordered := by
  simp only [isOrdered, Bool.and_eq_true, isAcyclic_iff, List.all_eq_true, decide_eq_true_eq]
  constructor
  case mp =>
    rintro ⟨ac, hd⟩
    refine ⟨fun ha => hd _ ?_ _ ha, ac⟩
    exact mem_states_of_supers_ne_nil <| List.ne_nil_of_mem ha
  case mpr => exact fun h => ⟨h.acyclic, fun _ _ _ ha => h.defined ha⟩

def partlySplit : Machine where
  states := .ofList [
    ("s", { supers := .ofList ["q"] }),
    ("q", { supers := .ofList ["o", "p"] }),
    ("a", { supers := .ofList ["b"] }),
    ("b", { supers := .ofList ["e"] }),
    ("r", { supers := .ofList ["p"] }),
    ("o", {}),
    ("d", { supers := .ofList ["a", "e"] }),
    ("p", {}),
    ("e", {})
  ]

theorem heads_of_undivided_partlySplit : partlySplit.Ordered ∧
    (Nest.merged partlySplit).Divided "a" ∧ (Nest.merged partlySplit).Clear "o" ∧
    partlySplit.resolve.supers "o" = ["p"] ∧ partlySplit.resolve.supers "q" = ["o"] ∧
    partlySplit.resolve.Heads "o" := by
  have h : partlySplit.Ordered := isOrdered_iff.mp (by decide +kernel)
  obtain ⟨hd, hc, hb⟩ : (Nest.merged partlySplit).isDivided "a" ∧
    (Nest.merged partlySplit).isClear "o" ∧ (Nest.merged partlySplit).isClearBelow "o" := by
      decide +kernel
  obtain ⟨ho, hq⟩ : partlySplit.resolve.supers "o" = ["p"] ∧
    partlySplit.resolve.supers "q" = ["o"] := by decide +kernel
  exact ⟨h, isDivided_iff.mp hd, isClear_iff.mp hc, ho, hq,
    heads_of_undivided partlySplit h "o" (by decide +kernel) (isClear_iff.mp hc) fun _ =>
      not_divided_of_isClearBelow hb⟩

-- `a` stands below `b`, where the walk enters it, and below `e`, where `d` and `c` are. They are
-- never entered and stay in the order in which they were.
def splitSupers : Machine where
  states := .ofList [
    ("a", { supers := .ofList ["b"] }),
    ("b", { supers := .ofList ["e"] }),
    ("c", { supers := .ofList ["d"] }),
    ("d", { supers := .ofList ["a", "e"] }),
    ("e", {})
  ]

theorem not_heads_splitSupers : splitSupers.Ordered ∧ "c" ∈ splitSupers.states ∧
    splitSupers.resolve.states.keys = ["e", "b", "a", "c", "d"] ∧
    splitSupers.resolve.supers "c" = ["d"] ∧ ¬splitSupers.resolve.Heads "c" := by
  have hs : splitSupers.resolve.supers "c" = ["d"] := by decide +kernel
  have hk : splitSupers.resolve.states.keys = ["e", "b", "a", "c", "d"] := by decide +kernel
  refine ⟨isOrdered_iff.mp (by decide +kernel), by decide +kernel, hk, hs, ?_⟩
  rintro ⟨before, block, after, hk', habove, _⟩
  have hd : "d" ∈ before := habove "d" (hs ▸ List.mem_singleton_self "d")
  have hp : splitSupers.resolve.states.keys.Pairwise fun x y => ¬(x = "d" ∧ y = "c") := by
    rw [hk]
    decide
  rw [hk'] at hp
  exact (List.pairwise_append.mp hp).2.2 "d" hd "c" List.mem_cons_self ⟨rfl, rfl⟩

end Machine

end Statechart
