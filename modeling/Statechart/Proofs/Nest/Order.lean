import Statechart.Proofs.Nest.Lift

open Relation

namespace Statechart

-- What a walk lists if it goes down from everything on its agenda before it turns to what is next.
inductive Lists {α : Type _} (next : α → List α) : List α → List α → Prop
  | nil  : Lists next [] []
  | cons : Lists next (next a ++ rest) as → Lists next (a :: rest) (a :: as)

namespace Lists

variable {α β : Type _} {next : α → List α} {as bs bs' : List α} {b : α}

theorem unique (h : Lists next as bs) (h' : Lists next as bs') : bs = bs' := by
  induction h generalizing bs'
  case nil => cases h'; rfl
  case cons hi =>
    cases h'
    case cons h' => rw [hi h']

theorem map {next' : β → List β} {f : α → β} (h : Lists next as bs)
    (hf : ∀ b ∈ bs, (next b).map f = next' (f b)) : Lists next' (as.map f) (bs.map f) := by
  induction h
  case nil => exact .nil
  case cons hi =>
    obtain ⟨ha, hf⟩ := List.forall_mem_cons.mp hf
    have hi := hi hf
    rw [List.map_append, ha] at hi
    exact .cons hi

theorem congr {next' : α → List α} (h : Lists next as bs) (hn : ∀ b ∈ bs, next b = next' b) :
    Lists next' as bs := by
  simpa using h.map (f := id) (by simpa using hn)

theorem mem_iff (h : Lists next as bs) :
    b ∈ bs ↔ ∃ a ∈ as, ReflTransGen (fun a b => b ∈ next a) a b := by
  induction h
  case nil => simp
  case cons a rest as _ hi =>
    rw [List.mem_cons, hi, List.exists_mem_cons_iff, ReflTransGen.cases_head_iff]
    simp only [List.mem_append, or_and_right, exists_or, or_assoc, eq_comm]

theorem mem_of_mem_agenda (h : Lists next as bs) (hb : b ∈ as) : b ∈ bs :=
  h.mem_iff.mpr ⟨b, hb, .refl⟩

theorem mem_of_mem_next {c : α} (h : Lists next as bs) (hb : b ∈ bs) (hc : c ∈ next b) : c ∈ bs :=
  have ⟨a, ha, hab⟩ := h.mem_iff.mp hb
  h.mem_iff.mpr ⟨a, ha, hab.tail hc⟩

end Lists

namespace Nest

def outer (t : Nest) : List (Name × NodeId) :=
  (t.children root).entries.filter (·.1 ∉ t.nested)

-- The walk through the states on its way. What stands below anything is met only after that has been
-- entered.
structure Walking (t : Nest) (agenda : List (Name × NodeId)) (seen : List Name)
    (visited : List NodeId) : Prop where
  inner   : e ∈ agenda → t.Inner e.2
  named   : e ∈ agenda → t.name e.2 = e.1
  entered : i ∈ visited → t.Inner i ∧ t.name i ∈ seen
  origin  : n ∈ seen ∨ n ∈ agenda.map Prod.fst → t.Above a n →
    ∃ i ∈ visited, ∃ j, t.HasChild i n j

def Whole (t : Nest) (i : NodeId) : Prop :=
  ∀ j k n l l', t.Reaches i j → t.HasChild j n l → t.Inner k → t.HasChild k n l' → k = j

variable {t : Nest} {i j k : NodeId} {n p : Name} {agenda front rest : List (Name × NodeId)}
  {seen : List Name} {visited : List NodeId}

section Go

theorem order.go_eq_append : ∃ new, order.go t agenda seen visited = new ++ seen := by
  fun_induction order.go t agenda seen visited
  case case1 => exact ⟨[], rfl⟩
  case case2 hi => exact hi
  case case3 hi | case4 hi =>
    obtain ⟨new, hi⟩ := hi
    exact ⟨new ++ [_], by rw [hi, List.append_assoc, List.singleton_append]⟩

theorem order.mem_go (h : n ∈ seen ∨ n ∈ agenda.map Prod.fst) :
    n ∈ order.go t agenda seen visited := by
  fun_induction order.go t agenda seen visited
  all_goals grind

theorem order.nodup_go (h : seen.Nodup) : (order.go t agenda seen visited).Nodup := by
  fun_induction order.go t agenda seen visited
  all_goals grind

end Go

theorem order_eq : t.order = (order.go t t.outer [] []).reverse :=
  rfl

theorem nodup_order : t.order.Nodup :=
  List.nodup_reverse.mpr <| order.nodup_go .nil

theorem Whole.child (h : t.Whole i) (hc : t.HasChild i n j) : t.Whole j :=
  fun _ _ _ _ _ hr => h _ _ _ _ _ <| .head ⟨n, hc⟩ hr

theorem mem_nested_iff : n ∈ t.nested ↔ ∃ a, t.Above a n := by
  have hi (i : NodeId) : i ∈ t.graph.preorder (t.children root).values ↔ t.Inner i := by
    rw [FiniteGraph.mem_preorder]
    exact exists_congr fun k => and_congr mem_next_graph reaches_graph_iff
  simp only [nested, List.mem_flatMap, hi, mem_childNames_iff, above_iff]
  grind

theorem mem_outer_iff {e : Name × NodeId} :
    e ∈ t.outer ↔ t.HasChild root e.1 e.2 ∧ ∀ a, ¬t.Above a e.1 := by
  simp [outer, mem_nested_iff, hasChild_iff_mem]

namespace Walking

theorem outer (s : t.Sound) : t.Walking t.outer [] [] where
  inner he   := (mem_outer_iff.mp he).1.inner
  named he   := s.named (mem_outer_iff.mp he).1
  entered hi := absurd hi List.not_mem_nil
  origin hn ha := by
    obtain ⟨e, he, rfl⟩ := List.mem_map.mp <| hn.resolve_left List.not_mem_nil
    exact absurd ha <| (mem_outer_iff.mp he).2 _

theorem tail {e : Name × NodeId} (w : t.Walking (e :: rest) seen visited) :
    t.Walking rest seen visited where
  inner he  := w.inner <| List.mem_cons_of_mem _ he
  named he  := w.named <| List.mem_cons_of_mem _ he
  entered   := w.entered
  origin hn := w.origin <| hn.imp_right <| List.mem_cons_of_mem _

section Enter

variable (w : t.Walking ((n, i) :: rest) seen visited)
include w

theorem not_mem_visited (hn : n ∉ seen) : i ∉ visited := by
  intro hi
  have hi := (w.entered hi).2
  rw [w.named List.mem_cons_self] at hi
  exact hn hi

theorem go_eq (hn : n ∉ seen) : order.go t ((n, i) :: rest) seen visited =
    order.go t ((t.children i).entries ++ rest) (n :: seen) (i :: visited) := by
  rw [order.go, if_neg hn, if_neg (w.not_mem_visited hn)]

theorem enter (s : t.Sound) :
    t.Walking ((t.children i).entries ++ rest) (n :: seen) (i :: visited) where
  inner he := by
    cases List.mem_append.mp he
    case inl he => exact (w.inner List.mem_cons_self).child <| hasChild_iff_mem.mpr he
    case inr he => exact w.inner <| List.mem_cons_of_mem _ he
  named he := by
    cases List.mem_append.mp he
    case inl he => exact s.named <| hasChild_iff_mem.mpr he
    case inr he => exact w.named <| List.mem_cons_of_mem _ he
  entered hk := by
    cases List.mem_cons.mp hk
    case inl hk =>
      subst hk
      exact ⟨w.inner List.mem_cons_self, w.named List.mem_cons_self ▸ List.mem_cons_self⟩
    case inr hk => exact (w.entered hk).imp_right <| List.mem_cons_of_mem _
  origin {x _} hx ha := by
    by_cases hc : x ∈ t.childNames i
    case pos => exact ⟨i, List.mem_cons_self, mem_childNames_iff.mp hc⟩
    case neg =>
      have hx : x ∈ seen ∨ x ∈ ((n, i) :: rest).map Prod.fst := by
        simp only [childNames, NameMap.keys] at hc
        grind
      obtain ⟨k, hk, hc⟩ := w.origin hx ha
      exact ⟨k, List.mem_cons_of_mem _ hk, hc⟩

theorem not_mem_of_child (hn : n ∉ seen) (hw : t.Whole i) (hc : t.HasChild i p j) :
    ¬(p ∈ seen ∨ p ∈ ((n, i) :: rest).map Prod.fst) := by
  intro hp
  obtain ⟨k, hk, l, hl⟩ := w.origin hp <| (w.inner List.mem_cons_self).above hc
  cases hw i k p j l .refl hc (w.entered hk).1 hl
  exact w.not_mem_visited hn hk

end Enter

theorem exists_first (w : t.Walking agenda seen visited) (s : t.Sound)
    (h : n ∈ order.go t agenda seen visited) (hn : n ∉ seen) :
    ∃ i rest seen' visited', t.Walking ((n, i) :: rest) seen' visited' ∧ n ∉ seen' ∧
      order.go t agenda seen visited = order.go t ((n, i) :: rest) seen' visited' := by
  induction agenda, seen, visited using order.go.induct t
  case case1 =>
    rw [order.go] at h
    exact absurd h hn
  case case2 seen visited p i rest hp hi =>
    rw [order.go, if_pos hp] at h ⊢
    exact hi w.tail h hn
  case case3 seen visited p i rest hp hi _ =>
    exact absurd hi <| w.not_mem_visited hp
  case case4 seen visited p i rest hp _ hi =>
    by_cases he : n = p
    case pos =>
      subst he
      exact ⟨i, rest, seen, visited, w, hn, rfl⟩
    case neg =>
      rw [w.go_eq hp] at h ⊢
      exact hi (w.enter s) h <| List.not_mem_cons_of_ne_of_not_mem he hn

-- As long as everything below stands in one place, nothing of it has been met before.
theorem lists (w : t.Walking (front ++ rest) seen visited) (s : t.Sound)
    (hn : (front.map Prod.fst).Nodup) (hf : ∀ e ∈ front, e.1 ∉ seen)
    (hw : ∀ e ∈ front, t.Whole e.2) :
    ∃ out visited', Lists (fun e : Name × NodeId => (t.children e.2).entries) front out ∧
      order.go t (front ++ rest) seen visited =
        order.go t rest ((out.map Prod.fst).reverse ++ seen) visited' := by
  generalize ha : front ++ rest = agenda at w ⊢
  induction agenda, seen, visited using order.go.induct t generalizing front
  all_goals cases front
  case case1.nil | case2.nil | case3.nil | case4.nil =>
    exact ⟨[], _, .nil, congrArg (order.go t · _ _) ha.symm⟩
  all_goals cases ha
  case case2.cons.refl hp _ _    => exact absurd hp <| hf _ List.mem_cons_self
  case case3.cons.refl hp hi _ _ => exact absurd hi <| w.not_mem_visited hp
  case case4.cons.refl seen visited p i hp _ front hi =>
    obtain ⟨hwi, hw⟩ := List.forall_mem_cons.mp hw
    have hnew {x : Name} (hx : x ∈ (t.children i).keys) :
        ¬(x ∈ seen ∨ x ∈ ((p, i) :: (front ++ rest)).map Prod.fst) := by
      obtain ⟨_, hx⟩ := mem_childNames_iff.mp hx
      exact w.not_mem_of_child hp hwi hx
    have hnodup : (((t.children i).entries ++ front).map Prod.fst).Nodup := by
      have hfront := (List.nodup_cons.mp hn).2
      rw [List.map_append]
      refine List.nodup_append'.mpr ⟨(t.children i).keys_nodup, hfront, fun x hx hx' => hnew hx ?_⟩
      simp only [List.map_cons, List.map_append]
      exact .inr <| List.mem_cons_of_mem _ <| List.mem_append_left _ hx'
    have hfresh : ∀ e ∈ (t.children i).entries ++ front, e.1 ∉ p :: seen := by
      intro e he
      cases List.mem_append.mp he
      case inl he =>
        have := hnew <| List.mem_map_of_mem he
        grind
      case inr he =>
        have := List.nodup_cons.mp hn
        have := hf e <| List.mem_cons_of_mem _ he
        grind
    have hwhole : ∀ e ∈ (t.children i).entries ++ front, t.Whole e.2 := by
      intro e he
      cases List.mem_append.mp he
      case inl he => exact hwi.child <| hasChild_iff_mem.mpr he
      case inr he => exact hw e he
    obtain ⟨out, visited', hl, hg⟩ :=
      hi hnodup hfresh hwhole (List.append_assoc ..) (w.enter s)
    refine ⟨(p, i) :: out, visited', .cons hl, ?_⟩
    simp only [List.map_cons, List.reverse_cons, List.append_assoc, List.singleton_append]
    exact (w.go_eq hp).trans hg

end Walking

end Nest

end Statechart
