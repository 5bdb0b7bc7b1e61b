import Statechart.Proofs.Frame

namespace Statechart.Machine

-- Intersections get the transitions of their ancestors one after another. Where an ancestor is an
-- intersection too, it gets none that it could hand on.
def Undisturbed (m : Machine) (es : List (Name × List Name)) : Prop :=
  ∀ e ∈ es, ∀ e' ∈ es, e'.1 ∈ e.2 → e'.1 ≠ e.1 → e.1 ∈ m.states → e'.1 ∈ m.states →
    m.inherited e'.2 = []

variable {m : Machine} {n z a : Name} {as bs : List Name} {e : Name × List Name}
  {es : List (Name × List Name)} {ancestors order : NameMap (List Name)}

section Inherited

theorem inherited_cons : m.inherited (a :: as) = m.inherited as ++ m.transitionsOf a := by
  simp only [inherited_eq, List.reverse_cons, List.flatMap_append, List.flatMap_singleton]

theorem inherited_eq_nil_iff : m.inherited as = [] ↔ ∀ a ∈ as, m.transitionsOf a = [] := by
  simp only [inherited_eq, List.flatMap_eq_nil_iff, List.mem_reverse]

theorem mem_states_inherit : z ∈ (m.inherit n as).states ↔ z ∈ m.states :=
  Derives.inherit.mem_states

theorem inherited_inherit (h : n ∈ bs → n ∈ m.states → m.inherited as = []) :
    (m.inherit n as).inherited bs = m.inherited bs := by
  simp only [inherited_eq]
  refine List.flatMap_congr fun b hb => ?_
  by_cases hs : b ∈ m.states
  case neg => rw [transitionsOf_of_not_mem hs, transitionsOf_of_not_mem (mt mem_states_inherit.mp hs)]
  case pos =>
    by_cases hn : b = n
    case neg => exact transitionsOf_inherit_of_ne hn
    case pos =>
      subst hn
      rw [transitionsOf_inherit_self hs, h (List.mem_reverse.mp hb) hs, List.append_nil]

theorem length_inherited_le : (m.inherited as).length ≤ ((m.inherit n bs).inherited as).length := by
  induction as
  case nil => exact Nat.le_refl _
  case cons a as hi =>
    have ha : (m.transitionsOf a).length ≤ ((m.inherit n bs).transitionsOf a).length :=
      isPrefix_inherit.length_le
    simp only [inherited_cons, List.length_append]
    omega

theorem length_inherited_add_le (ha : n ∈ as) (hn : n ∈ m.states) :
    (m.inherited as).length + (m.inherited bs).length ≤
      ((m.inherit n bs).inherited as).length := by
  induction as
  case nil => cases ha
  case cons a as hi =>
    simp only [inherited_cons, List.length_append]
    cases List.mem_cons.mp ha
    case inl ha =>
      subst ha
      have hle : (m.inherited as).length ≤ ((m.inherit n bs).inherited as).length :=
        length_inherited_le
      rw [transitionsOf_inherit_self hn, List.length_append]
      omega
    case inr ha =>
      have hle : (m.transitionsOf a).length ≤ ((m.inherit n bs).transitionsOf a).length :=
        isPrefix_inherit.length_le
      have := hi ha
      omega

end Inherited

section Visits

theorem transitionsOf_visits_of_not_mem (hz : z ∉ es.map Prod.fst) :
    (es.foldl (fun m e => m.inherit e.1 e.2) m).transitionsOf z = m.transitionsOf z := by
  rw [transitionsOf, state?_foldl_inherit_of_not_mem hz]
  rfl

theorem transitionsOf_visits_cons (hz : z ∈ m.states) (hn : z ∉ es.map Prod.fst) :
    (((z, as) :: es).foldl (fun m e => m.inherit e.1 e.2) m).transitionsOf z =
      m.transitionsOf z ++ m.inherited as := by
  rw [List.foldl_cons, transitionsOf_visits_of_not_mem hn, transitionsOf_inherit_self hz]

theorem Undisturbed.tail (h : m.Undisturbed (e :: es)) (hn : e.1 ∉ es.map Prod.fst) :
    (m.inherit e.1 e.2).Undisturbed es := by
  intro f hf f' hf' hm hne hs hs'
  replace hs := mem_states_inherit.mp hs
  replace hs' := mem_states_inherit.mp hs'
  have hnil := h f (List.mem_cons_of_mem _ hf) f' (List.mem_cons_of_mem _ hf') hm hne hs hs'
  refine (inherited_inherit fun he hes => ?_).trans hnil
  have hef : e.1 ≠ f'.1 := fun hc => hn <| hc ▸ List.mem_map_of_mem hf'
  exact h f' (List.mem_cons_of_mem _ hf') e List.mem_cons_self he hef hs' hes

theorem Undisturbed.transitionsOf_visits (h : m.Undisturbed es) (hn : (es.map Prod.fst).Nodup)
    (hz : (z, as) ∈ es) (hs : z ∈ m.states) :
    (es.foldl (fun m e => m.inherit e.1 e.2) m).transitionsOf z =
      m.transitionsOf z ++ m.inherited as := by
  induction es generalizing m
  case nil => cases hz
  case cons e es hi =>
    obtain ⟨hne, hn⟩ := List.nodup_cons.mp hn
    cases List.mem_cons.mp hz
    case inl he =>
      subst he
      exact transitionsOf_visits_cons hs hne
    case inr hm =>
      have hez : e.1 ≠ z := fun hc => hne <| hc ▸ List.mem_map_of_mem hm
      rw [List.foldl_cons, hi (h.tail hne) hn hm (mem_states_inherit.mpr hs),
        transitionsOf_inherit_of_ne hez.symm, inherited_inherit]
      exact fun he hes => h (z, as) hz e List.mem_cons_self he hez hs hes

end Visits

section Separate

theorem transitionsOf_separate : (m.separate ancestors).transitionsOf z =
    ((m.inheritAll ancestors).transitionsOf z).map fun t =>
      t.prepend (m.crossing ancestors z t.next) := by
  rw [transitionsOf_of_body body_separate, transitionsOf_crossAll]
  simp only [crossing_inheritAll]

theorem length_transitionsOf_separate : ((m.separate ancestors).transitionsOf z).length =
    ((m.inheritAll ancestors).transitionsOf z).length := by
  rw [transitionsOf_separate, List.length_map]

theorem get?_of_perm (h : order.entries.Perm ancestors.entries) :
    order.get? z = ancestors.get? z := by
  ext as
  simp only [NameMap.get?_eq_some_iff, h.mem_iff]

theorem transitionsOf_separate_of_undisturbed (hp : order.entries.Perm ancestors.entries)
    (h : m.Undisturbed ancestors.entries) :
    (m.separate order).transitionsOf z = (m.separate ancestors).transitionsOf z := by
  have h' : m.Undisturbed order.entries := by
    intro e he e' he'
    exact h e (hp.mem_iff.mp he) e' (hp.mem_iff.mp he')
  have hall : (m.inheritAll order).transitionsOf z = (m.inheritAll ancestors).transitionsOf z := by
    by_cases hs : z ∈ m.states
    case neg =>
      have hd : ∀ {map}, z ∉ (m.inheritAll map).states := mt Derives.inheritAll.mem_states.mp hs
      rw [transitionsOf_of_not_mem hd, transitionsOf_of_not_mem hd]
    case pos =>
      cases hg : ancestors.get? z
      case none =>
        have hz := NameMap.get?_eq_none_iff.mp hg
        have hz' := NameMap.get?_eq_none_iff.mp <| (get?_of_perm hp).trans hg
        exact (transitionsOf_visits_of_not_mem hz').trans (transitionsOf_visits_of_not_mem hz).symm
      case some as =>
        have hz := NameMap.get?_eq_some_iff.mp hg
        exact (h'.transitionsOf_visits order.nodup (hp.mem_iff.mpr hz) hs).trans
          (h.transitionsOf_visits ancestors.nodup hz hs).symm
  simp only [transitionsOf_separate, hall, crossing, get?_of_perm hp]

theorem exists_orders (hz : (z, as) ∈ ancestors.entries) (ha : (a, bs) ∈ ancestors.entries)
    (hne : a ≠ z) : ∃ es, ∃ order order' : NameMap (List Name),
      order.entries = (z, as) :: (a, bs) :: es ∧ order'.entries = (a, bs) :: (z, as) :: es ∧
      order.entries.Perm ancestors.entries ∧ order'.entries.Perm ancestors.entries := by
  have hm : (a, bs) ∈ ancestors.entries.erase (z, as) :=
    (List.mem_erase_of_ne fun h => hne <| congrArg Prod.fst h).mpr ha
  have hp : ((z, as) :: (a, bs) :: (ancestors.entries.erase (z, as)).erase (a, bs)).Perm
      ancestors.entries :=
    (((List.perm_cons_erase hm).cons _).symm).trans (List.perm_cons_erase hz).symm
  have hp' := (List.Perm.swap (z, as) (a, bs) _).trans hp
  have hn {es : List (Name × List Name)} (h : es.Perm ancestors.entries) : (es.map Prod.fst).Nodup :=
    (h.map _).nodup_iff.mpr ancestors.nodup
  exact ⟨_, ⟨_, hn hp⟩, ⟨_, hn hp'⟩, rfl, rfl, hp, hp'⟩

-- Of two intersections, the later one has all that the earlier one has got. It has more than it would
-- have got before.
theorem inherited_eq_nil_of_orders {order' : NameMap (List Name)}
    (ho : order.entries = (z, as) :: (a, bs) :: es)
    (ho' : order'.entries = (a, bs) :: (z, as) :: es) (ha : a ∈ as) (hz : z ∈ m.states)
    (hs : a ∈ m.states)
    (h : (m.separate order).transitionsOf z = (m.separate order').transitionsOf z) :
    m.inherited bs = [] := by
  have hn := ho ▸ order.nodup
  obtain ⟨hn, hn'⟩ := List.nodup_cons.mp hn
  have hza : z ≠ a := fun hc => hn <| hc ▸ List.mem_cons_self
  have hfirst : (m.inheritAll order).transitionsOf z = m.transitionsOf z ++ m.inherited as := by
    rw [inheritAll, ho]
    exact transitionsOf_visits_cons hz hn
  have hsecond : (m.inheritAll order').transitionsOf z =
      m.transitionsOf z ++ (m.inherit a bs).inherited as := by
    rw [inheritAll, ho', List.foldl_cons, transitionsOf_visits_cons (mem_states_inherit.mpr hz)
      (List.not_mem_of_not_mem_cons hn), transitionsOf_inherit_of_ne hza]
  have hlen := congrArg List.length h
  rw [length_transitionsOf_separate, length_transitionsOf_separate, hfirst, hsecond,
    List.length_append, List.length_append] at hlen
  have hadd : (m.inherited as).length + (m.inherited bs).length ≤ _ :=
    length_inherited_add_le ha hs
  exact List.length_eq_zero_iff.mp (by omega)

end Separate

theorem mem_lost_entries (ha : a ∈ m.lostBy z) : (z, m.lostBy z) ∈ m.lost.entries := by
  refine NameMap.get?_eq_some_iff.mp ?_
  rw [lostBy] at ha ⊢
  cases hg : m.lost.get? z
  case none   => simp [hg] at ha
  case some _ => rfl

theorem lostBy_of_mem_entries (h : (z, as) ∈ m.lost.entries) : m.lostBy z = as := by
  rw [lostBy, NameMap.get?_eq_some_iff.mpr h]
  rfl

theorem undisturbed_lost_iff : m.Undisturbed m.lost.entries ↔
    ∀ z ∈ m.states, ∀ a ∈ m.states, a ∈ m.lostBy z → a ≠ z →
      ∀ b ∈ m.lostBy a, m.transitionsOf b = [] := by
  constructor
  case mp =>
    intro h z hz a ha hm hne b hb
    have := h _ (mem_lost_entries hm) _ (mem_lost_entries hb) hm hne hz ha
    exact inherited_eq_nil_iff.mp this b hb
  case mpr =>
    rintro h ⟨z, as⟩ he ⟨a, bs⟩ he' hm hne hz ha
    rw [← lostBy_of_mem_entries he] at hm
    refine inherited_eq_nil_iff.mpr fun b hb => h z hz a ha hm hne b ?_
    rwa [lostBy_of_mem_entries he']

-- The intersections may be visited in any order just in case none of them that is an ancestor of
-- another one has an ancestor with transitions.
theorem order_irrelevant_iff (m : Machine) :
    (∀ order : NameMap (List Name), order.entries.Perm m.lost.entries → ∀ z,
      (m.separate order).transitionsOf z = (m.separate m.lost).transitionsOf z) ↔
    ∀ z ∈ m.states, ∀ a ∈ m.states, a ∈ m.lostBy z → a ≠ z →
      ∀ b ∈ m.lostBy a, m.transitionsOf b = [] := by
  rw [← undisturbed_lost_iff]
  constructor
  case mpr => exact fun h order hp z => transitionsOf_separate_of_undisturbed hp h
  case mp =>
    rintro h ⟨z, as⟩ he ⟨a, bs⟩ he' hm hne hz ha
    obtain ⟨es, order, order', ho, ho', hp, hp'⟩ := exists_orders he he' hne
    exact inherited_eq_nil_of_orders ho ho' hm hz ha <| (h order hp z).trans (h order' hp' z).symm

def quietSupers : Machine where
  states := .ofList [
    ("b", { exit := ["out"] }),
    ("c", {}),
    ("d", { entry := ["in"] }),
    ("e", { supers := .ofList ["b", "c", "d"], transitions := [⟨"k", "a", ["x"]⟩] }),
    ("a", { supers := .ofList ["c", "d", "e"], transitions := [⟨"l", "b", []⟩] })
  ]

theorem order_irrelevant_iff_quietSupers :
    quietSupers.lost.keys = ["e", "a"] ∧ "e" ∈ quietSupers.lostBy "a" ∧
    ∀ order : NameMap (List Name), order.entries.Perm quietSupers.lost.entries → ∀ z,
      (quietSupers.separate order).transitionsOf z =
        (quietSupers.separate quietSupers.lost).transitionsOf z := by
  have h : ∀ z ∈ quietSupers.states.keys, ∀ a ∈ quietSupers.states.keys, a ∈ quietSupers.lostBy z →
      a ≠ z → ∀ b ∈ quietSupers.lostBy a, quietSupers.transitionsOf b = [] := by decide +kernel
  exact ⟨by decide +kernel, by decide +kernel, (order_irrelevant_iff quietSupers).mpr h⟩

-- `e` gets `h` from `b`, which is not among the ancestors of `a`. Whether `a` gets it from `e` depends
-- on whether `e` has got it by then.
def stackedSupers : Machine where
  states := .ofList [
    ("b", { isAbstract := true, transitions := [⟨"h", "b", []⟩] }),
    ("c", { isAbstract := true, transitions := [⟨"i", "c", []⟩] }),
    ("d", { isAbstract := true, transitions := [⟨"j", "d", []⟩] }),
    ("e", { supers := .ofList ["b", "c", "d"], transitions := [⟨"k", "e", []⟩] }),
    ("a", { supers := .ofList ["c", "d", "e"], transitions := [⟨"l", "a", []⟩] })
  ]

theorem order_relevant_stackedSupers : ∃ order : NameMap (List Name),
    order.entries.Perm stackedSupers.lost.entries ∧
    ((stackedSupers.separate order).transitionsOf "a").map (·.event) =
      ["l", "k", "j", "i"] ∧
    ((stackedSupers.separate stackedSupers.lost).transitionsOf "a").map (·.event) =
      ["l", "k", "h", "j", "i", "j", "i"] ∧
    (stackedSupers.separate order).transitionsOf "a" ≠
      (stackedSupers.separate stackedSupers.lost).transitionsOf "a" := by
  refine ⟨⟨stackedSupers.lost.entries.reverse, ?_⟩, List.reverse_perm _, ?_, ?_, ?_⟩
  all_goals decide +kernel

end Statechart.Machine
