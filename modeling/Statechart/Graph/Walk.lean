namespace Statechart

-- A graph given by the successors of each vertex, in order. Only the listed vertices have any, so
-- that a walk comes to an end.
structure FiniteGraph (α : Type u) where
  vertices : List α
  next : α → List α
  next_eq_nil : ∀ a, a ∉ vertices → next a = []

namespace FiniteGraph

variable {α : Type u}

inductive Reaches (g : FiniteGraph α) : α → α → Prop
  | refl : Reaches g a a
  | step : b ∈ g.next a → Reaches g b c → Reaches g a c

def reversed (g : FiniteGraph α) : FiniteGraph α where
  vertices := g.vertices
  next a := (g.next a).reverse
  next_eq_nil a h := by simp [g.next_eq_nil a h]

variable [DecidableEq α]

def total {β : Type v} (f : β → Nat) : List β → Nat
  | []      => 0
  | b :: bs => f b + total f bs

omit [DecidableEq α] in
theorem total_append (f : α → Nat) (as bs : List α) :
    total f (as ++ bs) = total f as + total f bs := by
  induction as with
  | nil => simp [total]
  | cons a as ih => simp [total, ih, Nat.add_assoc]

section Remaining

variable (g : FiniteGraph α)

-- The number of edges that leave a vertex which has not been visited. Every walk below gives up
-- as many of them as it puts new vertices on its agenda.
def remaining (visited : List α) : Nat :=
  total (fun a => (g.next a).length) (g.vertices.filter (· ∉ visited))

theorem total_filter_cons_le (f : α → Nat) (as visited : List α) (a : α) :
    total f (as.filter (· ∉ a :: visited)) ≤ total f (as.filter (· ∉ visited)) := by
  induction as with
  | nil => simp
  | cons b bs ih => grind [total]

theorem add_total_filter_cons_le (f : α → Nat) {as visited : List α} {a : α}
    (hm : a ∈ as) (hv : a ∉ visited) :
    f a + total f (as.filter (· ∉ a :: visited)) ≤ total f (as.filter (· ∉ visited)) := by
  induction as with
  | nil => simp at hm
  | cons b bs ih =>
    by_cases hb : b = a
    case pos =>
      have := total_filter_cons_le f bs visited a
      subst hb
      simp_all [total]
    case neg =>
      have := ih (by grind)
      by_cases h : b ∈ visited
      case pos => simp_all
      case neg => simp_all [total]; omega

theorem length_next_add_remaining_le {visited : List α} {a : α} (h : a ∉ visited) :
    (g.next a).length + g.remaining (a :: visited) ≤ g.remaining visited := by
  by_cases hm : a ∈ g.vertices
  case pos => exact add_total_filter_cons_le (fun a => (g.next a).length) hm h
  case neg =>
    rw [g.next_eq_nil a hm, List.length_nil, Nat.zero_add]
    exact total_filter_cons_le _ _ _ _

end Remaining

-- The vertices reached from `starts`, each before its successors. A vertex is entered where it is
-- first met.
def preorder (g : FiniteGraph α) (starts : List α) : List α :=
  (go g starts []).reverse
where
  go (g : FiniteGraph α) (agenda visited : List α) : List α :=
    match agenda with
    | [] => visited
    | a :: rest =>
      if a ∈ visited then go g rest visited
      else go g (g.next a ++ rest) (a :: visited)
  termination_by agenda.length + g.remaining visited
  decreasing_by
    · simp
    · have := g.length_next_add_remaining_le ‹_›
      simp only [List.length_append, List.length_cons]
      omega

inductive Visit (α : Type u)
  | enter (a : α)
  | leave (a : α)

-- What a visit costs the walk: a vertex that is entered has to be left as well.
def Visit.weight : Visit α → Nat
  | enter _ => 2
  | leave _ => 1

def Visit.enterAll (as : List α) : List (Visit α) := as.map .enter

omit [DecidableEq α] in
theorem Visit.total_weight_enterAll (as : List α) :
    total weight (enterAll as) = 2 * as.length := by
  induction as with
  | nil => rfl
  | cons _ _ ih => simp_all [enterAll, weight, total]; omega

-- The vertices reached from `start`, each after its successors, as far as they do not lead back to
-- it.
def postorder (g : FiniteGraph α) (start : α) : List α :=
  (go g [.enter start] [] []).reverse
where
  go (g : FiniteGraph α) (agenda : List (Visit α)) (visited done : List α) : List α :=
    match agenda with
    | [] => done
    | .leave a :: rest => go g rest visited (a :: done)
    | .enter a :: rest =>
      if a ∈ visited then go g rest visited done
      else go g (Visit.enterAll (g.next a) ++ .leave a :: rest) (a :: visited) done
  termination_by total Visit.weight agenda + 2 * g.remaining visited
  decreasing_by
    · simp [total, Visit.weight]
    · simp [total, Visit.weight]
    · have := g.length_next_add_remaining_le ‹_›
      simp only [total_append, total, Visit.total_weight_enterAll, Visit.weight]
      omega

end FiniteGraph

end Statechart
