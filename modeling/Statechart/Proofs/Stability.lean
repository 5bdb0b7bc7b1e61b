import Mathlib.Data.List.Induction
import Statechart.Proofs.Distinct
import Statechart.Proofs.Nest.Forest
import Statechart.Proofs.Nest.Order
import Statechart.Proofs.OneSuper

open Relation

namespace Statechart

namespace Machine

def tops (m : Machine) : List Name :=
  (Nest.ofMachine.parents m).filter (Nest.isTop m)

def topsAt (m : Machine) (n : Name) : List Name :=
  (n :: m.supers n).filter (Nest.isTop m)

end Machine

namespace Nest

variable {m : Machine} {t : Nest} {es : List (Name × NodeId)} {absorbed : List Name}
  {e e' : Name × NodeId} {n : Name} {i j : NodeId}

namespace Growing

theorem whole (g : Growing m es absorbed t) (h : m.Single) (hi : t.Inner i) : t.Whole i :=
  fun _ _ _ _ _ hr hc hk hc' => g.unique_place h hk hc' (hi.reaches hr) hc

-- The walk starts from what inherits from nothing. That is never put below anything.
theorem outer_eq (g : Growing m es absorbed t) : t.outer = es.filter (isTop m ·.1) := by
  rw [outer, g.top, List.filter_filter]
  refine List.filter_congr fun e _ => ?_
  have hn : e.1 ∈ t.nested ↔ m.supers e.1 ≠ [] := by
    simp only [mem_nested_iff, g.above_iff_supers]
    exact ⟨fun h => List.ne_nil_of_mem h.choose_spec, List.exists_mem_of_ne_nil _⟩
  have ha : e.1 ∈ absorbed → m.supers e.1 ≠ [] := fun ha =>
    List.ne_nil_of_mem (g.nested ha).choose_spec
  simp only [isTop, hn]
  grind

end Growing

section Merged

variable (h : m.Single)
include h

theorem rooted_of_walk (he : e ∈ (merged m).outer)
    (hr : ReflTransGen (fun e e' : Name × NodeId => e' ∈ ((merged m).children e.2).entries) e e') :
    m.Rooted e'.1 ∧ ((merged m).HasChild root e'.1 e'.2 ∨
      ∃ i, i ≠ root ∧ (merged m).HasChild i e'.1 e'.2) := by
  have g := merged_growing h
  induction hr
  case refl =>
    obtain ⟨hc, ha⟩ := mem_outer_iff.mp he
    refine ⟨⟨e.1, ?_, .refl⟩, .inl hc⟩
    exact List.eq_nil_iff_forall_not_mem.mpr fun a hs => ha a <| g.keeps hs
  case tail e e' _ hc hi =>
    have hc := hasChild_iff_mem.mpr hc
    obtain ⟨⟨a, ha, hae⟩, hpl⟩ := hi
    have hne : e.2 ≠ root := by
      cases hpl
      case inl hpl => exact g.sound.rootless hpl
      case inr hpl => exact g.sound.rootless hpl.choose_spec.2
    have hname : (merged m).name e.2 = e.1 := by
      cases hpl
      case inl hpl => exact g.sound.named hpl
      case inr hpl => exact g.sound.named hpl.choose_spec.2
    exact ⟨⟨a, ha, hae.tail <| g.plain _ _ <| hname ▸ hc.holds hne⟩, .inr ⟨e.2, hne, hc⟩⟩

theorem childNames_of_walk (he : e ∈ (merged m).outer)
    (hr : ReflTransGen (fun e e' : Name × NodeId => e' ∈ ((merged m).children e.2).entries) e e') :
    (merged m).childNames e'.2 = m.substates e'.1 := by
  have g := merged_growing h
  obtain ⟨hroot, hpl⟩ := rooted_of_walk h he hr
  cases hpl
  case inl hc => exact g.full hc
  case inr hc =>
    obtain ⟨i, hi, hc⟩ := hc
    have hs := g.plain _ _ <| hc.holds hi
    refine g.filled (mem_absorbed h ?_ (List.ne_nil_of_mem hs) hroot) hi hc
    exact Machine.Ordered.mem_parents <| List.mem_of_mem_filter <| mem_substates_iff.mpr hs

-- The states are listed by going down from the tops, as the machine lists its substates.
theorem lists_order : Lists m.substates m.tops (merged m).order := by
  have g := merged_growing h
  have w : (merged m).Walking ((merged m).outer ++ []) [] [] := by
    rw [List.append_nil]
    exact .outer g.sound
  have hn : ((merged m).outer.map Prod.fst).Nodup :=
    ((merged m).children root).nodup.sublist <| List.filter_sublist.map _
  obtain ⟨out, _, hl, hgo⟩ := w.lists g.sound hn (fun _ _ => List.not_mem_nil) fun e he =>
    g.whole h (mem_outer_iff.mp he).1.inner
  have ho : (merged m).order = out.map Prod.fst := by
    rw [List.append_nil, order.go] at hgo
    rw [order_eq, hgo, List.append_nil, List.reverse_reverse]
  have ht : m.tops = (merged m).outer.map Prod.fst := by
    rw [g.outer_eq, Machine.tops, ← ofMachine_flat.tops, childNames, NameMap.keys, List.filter_map]
    rfl
  rw [ho, ht]
  refine hl.map fun e he => ?_
  obtain ⟨_, hs, hr⟩ := hl.mem_iff.mp he
  rw [← childNames_of_walk h hs hr, childNames, NameMap.keys]

end Merged

end Nest

namespace Machine

open Nest

variable {m m' : Machine} {as out : List Name} {n z a : Name}

theorem state?_eq_of_body (hb : (m'.state? z).map State.body = (m.state? z).map State.body)
    (hs : m'.supers z = m.supers z) : m'.state? z = m.state? z := by
  rw [supers, supers] at hs
  cases h' : m'.state? z <;> cases h : m.state? z <;> simp only [h', h] at hb hs
  case none.none => rfl
  case none.some | some.none => cases hb
  case some.some s' s =>
    have hb := Option.some.inj hb
    have hs : s'.supers = s.supers := NameSet.ext hs
    cases s'
    cases s
    simp_all [State.body]

theorem keys_settle {t : Nest} : (m.settle t).states.keys = m.states.keys := by
  have hset (m : Machine) (n : Name) (p : Option Name) :
      (m.setSuper n p).states.keys = m.states.keys := NameMap.keys_modify ..
  have h₁ : (m.settle t).states.keys = _ := apply_foldl (f := (·.states.keys)) fun m e => hset m ..
  exact h₁.trans <| apply_foldl (f := (·.states.keys)) fun m e => hset m ..

theorem separate_empty : m.separate ∅ = m := by
  have hs : m.states.map (fun _ s => { s with transitions := s.transitions.map (·.prepend []) }) =
      m.states := by
    refine NameMap.ext ((List.map_congr_left fun e _ => ?_).trans (List.map_id _))
    change (e.1, { e.2 with transitions := e.2.transitions.map id }) = e
    rw [List.map_id]
  exact congrArg (fun states => { m with states := states }) hs

section Single

variable (h : m.Single)
include h

theorem supers_eq_singleton (ha : a ∈ m.supers z) : m.supers z = [a] := by
  refine List.perm_singleton.mp ?_
  refine (List.perm_ext_iff_of_nodup nodup_supers (List.nodup_singleton a)).mpr fun b => ?_
  rw [List.mem_singleton]
  exact ⟨fun hb => h z b a hb ha, fun hb => hb ▸ ha⟩

theorem intersections_eq_empty : (Nest.merged m).intersections = ∅ := by
  refine NameMap.ext <| List.eq_nil_iff_forall_not_mem.mpr fun e he => ?_
  exact (merged_growing h).not_mem_intersections h <| List.mem_map_of_mem he

theorem supers_settle_merged : (m.settle (Nest.merged m)).supers z = m.supers z := by
  have g := merged_growing h
  by_cases hz : z ∈ m.states
  case neg =>
    have hz' : z ∉ (m.settle (Nest.merged m)).states.keys := by rwa [keys_settle]
    rw [supers_eq_nil hz', supers_eq_nil hz]
  case pos =>
    by_cases hex : ∃ a, a ∈ m.supers z
    case pos =>
      obtain ⟨a, ha⟩ := hex
      rw [supers_eq_singleton h ha]
      exact supers_settle_of_above hz (g.keeps ha) fun b hb => h z b a (g.above_iff_supers.mp hb) ha
    case neg =>
      have hn : m.supers z = [] := List.eq_nil_iff_forall_not_mem.mpr fun a ha => hex ⟨a, ha⟩
      obtain ⟨j, hj⟩ := ofMachine_flat.top.mpr <| Ordered.mem_parents hz
      have hr : (Nest.merged m).HasChild root z j := g.hasChild_root_iff.mpr
        ⟨hasChild_iff_mem.mp hj, fun hm => hex <| g.nested hm⟩
      rw [hn]
      exact supers_settle_of_top hz (fun b hb => hex ⟨b, g.above_iff_supers.mp hb⟩) hr

theorem resolve_eq_reorder : m.resolve = m.reorder (Nest.merged m).order := by
  have hi := intersections_eq_empty h
  have hsettle : (m.settle (Nest.merged m)).states = m.states :=
    NameMap.ext_get? keys_settle fun z => state?_eq_of_body body_settle (supers_settle_merged h)
  have hstates : m.resolve.states = m.states.reorder (Nest.merged m).order := by
    change ((m.separate m.lost).settle m.lifted).states.reorder m.lifted.order = _
    have hlost : m.lost = ∅ := by rw [lost, hi]; rfl
    have hlifted : m.lifted = Nest.merged m := by rw [lifted, hi]; rfl
    rw [hlost, hlifted, separate_empty, hsettle]
  have hwarnings : m.resolve.warnings = m.warnings := by
    rw [warnings_resolve, remarks, warnings_simplify h, hi]
    exact List.append_nil _
  have hrest : { m.resolve with states := ∅, warnings := [] } =
      { m with states := ∅, warnings := [] } :=
    apply_resolve (f := fun m => { m with states := ∅, warnings := [] }) (fun _ _ => rfl)
      fun _ _ => rfl
  calc m.resolve
    _ = { { m.resolve with states := ∅, warnings := [] } with
          states := m.resolve.states, warnings := m.resolve.warnings } := rfl
    _ = m.reorder (Nest.merged m).order := by
      rw [hrest, hstates, hwarnings]
      rfl

end Single

section Substates

variable (h : m.Single)
include h

theorem filter_substates_of_ne (hne : a ≠ n) : (m.substates a).filter (n ∈ m.supers ·) = [] := by
  refine List.filter_eq_nil_iff.mpr fun x hx hn => hne ?_
  exact h x a n (mem_substates_iff.mp hx) (of_decide_eq_true hn)

theorem filter_lists_of_not_mem (hl : Lists m.substates as out) (hn : n ∉ out) :
    out.filter (n ∈ m.supers ·) = as.filter (n ∈ m.supers ·) := by
  induction hl
  case nil => rfl
  case cons a rest out _ hi =>
    obtain ⟨hna, hn⟩ := List.ne_and_not_mem_of_not_mem_cons hn
    rw [List.filter_cons, List.filter_cons, hi hn, List.filter_append,
      filter_substates_of_ne h (Ne.symm hna), List.nil_append]

theorem filter_lists (hl : Lists m.substates as out) (hd : out.Nodup) (hn : n ∈ out)
    (ha : ∀ a ∈ as, n ∉ m.supers a) : out.filter (n ∈ m.supers ·) = m.substates n := by
  induction hl
  case nil => cases hn
  case cons a rest out hl hi =>
    obtain ⟨hna, hd⟩ := List.nodup_cons.mp hd
    obtain ⟨haa, ha⟩ := List.forall_mem_cons.mp ha
    have hrest : rest.filter (n ∈ m.supers ·) = [] :=
      List.filter_eq_nil_iff.mpr fun b hb hn => ha b hb (of_decide_eq_true hn)
    rw [List.filter_cons_of_neg (by simpa using haa)]
    by_cases he : a = n
    case pos =>
      subst he
      rw [filter_lists_of_not_mem h hl hna, List.filter_append, hrest, List.append_nil, substates,
        List.filter_filter]
      simp
    case neg =>
      refine hi hd ((List.mem_cons.mp hn).resolve_left (Ne.symm he)) fun b hb => ?_
      cases List.mem_append.mp hb
      case inl hb => exact fun hn => he <| h b a n (mem_substates_iff.mp hb) hn
      case inr hb => exact ha b hb

end Substates

section Tops

theorem tops_eq : m.tops = distinct (m.states.keys.flatMap m.topsAt) := by
  rw [tops, ofMachine.parents, filter_distinct, List.filter_flatMap]
  rfl

theorem topsAt_of_mem_tops (ha : a ∈ m.tops) : m.topsAt a = [a] := by
  have ha := (List.mem_filter.mp ha).2
  simp [topsAt, ha, List.isEmpty_iff.mp ha]

theorem topsAt_of_mem_substates (h : m.Single) (hn : n ∈ m.substates a) :
    m.topsAt n = [a].filter (isTop m) := by
  have hs := supers_eq_singleton h <| mem_substates_iff.mp hn
  rw [topsAt, hs, List.filter_cons_of_neg]
  simp [isTop, hs]

-- A top that is no state is known by its substates alone.
theorem distinct_topsAt_lists (h : m.Single) (hl : Lists m.substates as out)
    (hu : ∀ a ∈ out, a ∉ m.states → m.substates a ≠ []) :
    distinct ((out.filter (· ∈ m.states)).flatMap m.topsAt) = distinct (as.flatMap m.topsAt) := by
  induction hl
  case nil => rfl
  case cons a rest out _ hi =>
    obtain ⟨hua, hu⟩ := List.forall_mem_cons.mp hu
    have hi := hi hu
    rw [List.flatMap_append] at hi
    have hsub : (m.substates a).flatMap m.topsAt ⊆ m.topsAt a := by
      intro x hx
      obtain ⟨n, hn, hx⟩ := List.mem_flatMap.mp hx
      rw [topsAt_of_mem_substates h hn] at hx
      obtain ⟨hx, ht⟩ := List.mem_filter.mp hx
      cases List.mem_singleton.mp hx
      exact List.mem_filter.mpr ⟨List.mem_cons_self, ht⟩
    rw [List.flatMap_cons]
    by_cases ha : a ∈ m.states
    case pos =>
      rw [List.filter_cons_of_pos (by simpa using ha), List.flatMap_cons]
      calc distinct (m.topsAt a ++ (out.filter (· ∈ m.states)).flatMap m.topsAt)
        _ = distinct ((m.topsAt a ++ (m.substates a).flatMap m.topsAt) ++ rest.flatMap m.topsAt) := by
          rw [List.append_assoc]
          exact distinct_append_congr rfl hi
        _ = distinct (m.topsAt a ++ rest.flatMap m.topsAt) :=
          distinct_append_congr (distinct_append_of_subset hsub) rfl
    case neg =>
      rw [List.filter_cons_of_neg (by simpa using ha), hi]
      refine distinct_append_congr ?_ rfl
      have hta : m.topsAt a = [a].filter (isTop m) := by rw [topsAt, supers_eq_nil ha]
      obtain ⟨n, ns, hn⟩ := List.exists_cons_of_ne_nil (hua ha)
      have hnt := topsAt_of_mem_substates h <| hn ▸ List.mem_cons_self
      rw [hn, List.flatMap_cons, hnt, ← hta] at hsub ⊢
      exact distinct_append_of_subset (List.append_subset.mp hsub).2

end Tops

section Reorder

variable {order : List Name}

theorem state?_reorder : (m.reorder order).state? z = m.state? z :=
  NameMap.get?_reorder ..

theorem supers_reorder : (m.reorder order).supers z = m.supers z := by
  rw [supers, supers, state?_reorder]

theorem topsAt_reorder : (m.reorder order).topsAt = m.topsAt := by
  have ht : isTop (m.reorder order) = isTop m := funext fun a => by rw [isTop, isTop, supers_reorder]
  funext z
  rw [topsAt, topsAt, supers_reorder, ht]

theorem supers_of_mem_tops (ha : a ∈ m.tops) : m.supers a = [] :=
  List.isEmpty_iff.mp (List.mem_filter.mp ha).2

theorem mem_tops_of_mem_topsAt (hz : z ∈ m.states) (ha : a ∈ m.topsAt z) : a ∈ m.tops := by
  rw [tops_eq]
  exact mem_distinct.mpr <| List.mem_flatMap.mpr ⟨z, hz, ha⟩

variable (h : m.Single) (hl : Lists m.substates m.tops order) (hn : order.Nodup)
include h hl hn

theorem substates_reorder (ha : a ∈ order) : (m.reorder order).substates a = m.substates a := by
  have hstates : (order.filter (· ∈ m.states)).filter (a ∈ m.supers ·) =
      order.filter (a ∈ m.supers ·) := by
    rw [List.filter_filter]
    refine List.filter_congr fun x _ => ?_
    have hx : a ∈ m.supers x → x ∈ m.states := fun hx =>
      mem_states_of_supers_ne_nil <| List.ne_nil_of_mem hx
    grind
  have hrest : (m.states.keys.filter (· ∉ order)).filter (a ∈ m.supers ·) = [] := by
    refine List.filter_eq_nil_iff.mpr fun x hx hs => ?_
    have hx := (List.mem_filter.mp hx).2
    exact of_decide_eq_true hx <| hl.mem_of_mem_next ha <| mem_substates_iff.mpr (of_decide_eq_true hs)
  have hkeys : (m.reorder order).states.keys = _ := NameMap.keys_reorder hn
  simp only [substates, supers_reorder]
  rw [hkeys, List.filter_append, hstates, hrest, List.append_nil]
  exact filter_lists h hl hn ha fun t ht => by simp [supers_of_mem_tops ht]

theorem tops_reorder : (m.reorder order).tops = m.tops := by
  have hrest : (m.states.keys.filter (· ∉ order)).flatMap m.topsAt = [] := by
    refine List.flatMap_eq_nil_iff.mpr fun x hx => List.eq_nil_iff_forall_not_mem.mpr fun a ha => ?_
    obtain ⟨hx, hxo⟩ := List.mem_filter.mp hx
    have hao := hl.mem_of_mem_agenda <| mem_tops_of_mem_topsAt hx ha
    refine of_decide_eq_true hxo ?_
    cases List.mem_cons.mp (List.mem_filter.mp ha).1
    case inl hax => exact hax ▸ hao
    case inr hax => exact hl.mem_of_mem_next hao <| mem_substates_iff.mpr hax
  have hu : ∀ a ∈ order, a ∉ m.states → m.substates a ≠ [] := by
    intro a ha hs
    obtain ⟨t, ht, hta⟩ := hl.mem_iff.mp ha
    cases hta.cases_tail
    case inr hb =>
      obtain ⟨b, _, hb⟩ := hb
      exact absurd (List.mem_of_mem_filter hb) hs
    case inl hat =>
      subst hat
      obtain ⟨x, hx, hax⟩ := List.mem_flatMap.mp <| mem_distinct.mp <| List.mem_of_mem_filter ht
      cases List.mem_cons.mp hax
      case inl hax => exact absurd (hax ▸ hx) hs
      case inr hax => exact List.ne_nil_of_mem <| mem_substates_iff.mpr hax
  have hkeys : (m.reorder order).states.keys = _ := NameMap.keys_reorder hn
  have htops : m.tops.flatMap m.topsAt = m.tops :=
    (List.flatMap_congr fun a ha => topsAt_of_mem_tops ha).trans <| List.flatMap_singleton' _
  rw [tops_eq, hkeys, topsAt_reorder, List.flatMap_append, hrest, List.append_nil,
    distinct_topsAt_lists h hl hu, htops]
  exact distinct_eq_self <| (nodup_distinct _).filter _

theorem lists_reorder : Lists (m.reorder order).substates (m.reorder order).tops order := by
  rw [tops_reorder h hl hn]
  exact hl.congr fun a ha => (substates_reorder h hl hn ha).symm

end Reorder

-- Where no state has two superstates, resolving a machine puts its states in order and does nothing
-- else to it, even if there are circles of superstates and superstates that are not states.
theorem resolve_of_single (m : Machine) (h : m.Single) :
    m.resolve = { m with states := m.resolve.states } ∧
    m.resolve.states.entries.Perm m.states.entries ∧ m.resolve.resolve = m.resolve := by
  have hr := resolve_eq_reorder h
  refine ⟨?rest, ?states, ?again⟩
  case rest => rw [hr]; rfl
  case states => rw [hr]; exact NameMap.perm_reorder ..
  case again =>
    have h' : (m.reorder (Nest.merged m).order).Single := by
      simpa only [Single, supers_reorder] using h
    have ho := (lists_order h').unique <| lists_reorder h (lists_order h) nodup_order
    rw [hr, resolve_eq_reorder h', ho]
    exact congrArg (fun states => { m with states := states }) <| NameMap.reorder_reorder nodup_order

theorem single_of_length_le (h : ∀ x ∈ m.states.keys, (m.supers x).length ≤ 1) : m.Single := by
  intro x a b ha hb
  have hx := h x <| mem_states_of_supers_ne_nil <| List.ne_nil_of_mem ha
  obtain hx | hx := Nat.le_one_iff_eq_zero_or_eq_one.mp hx
  case inl => simp [List.length_eq_zero_iff.mp hx] at ha
  case inr =>
    obtain ⟨c, hc⟩ := List.length_eq_one_iff.mp hx
    simp_all

def circledSupers : Machine where
  states := .ofList [
    ("c", { supers := .ofList ["b"] }),
    ("p", { supers := .ofList ["q"] }),
    ("y", { supers := .ofList ["u"] }),
    ("b", { supers := .ofList ["a"] }),
    ("r", { supers := .ofList ["q"] }),
    ("q", { supers := .ofList ["p"] }),
    ("a", {}),
    ("x", { supers := .ofList ["u"] })
  ]

theorem resolve_of_single_circledSupers : circledSupers.Single ∧
    circledSupers.resolve.states.keys = ["y", "x", "a", "b", "c", "p", "r", "q"] ∧
    circledSupers.resolve = { circledSupers with states := circledSupers.resolve.states } ∧
    circledSupers.resolve.states.entries.Perm circledSupers.states.entries ∧
    circledSupers.resolve.resolve = circledSupers.resolve := by
  have h : circledSupers.Single := single_of_length_le (by decide +kernel)
  exact ⟨h, by decide +kernel, resolve_of_single circledSupers h⟩

end Machine

end Statechart
