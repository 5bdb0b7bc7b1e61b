import Statechart.Proofs.Hierarchy

open Relation

namespace Statechart

namespace FiniteGraph

-- The recursion that the agenda of a postorder stands for. Vertices are collected one after another:
-- one that has been visited is passed over, any other one is marked as visited, its successors are
-- collected, and then it is listed itself. The first two lists are what has been visited and listed
-- before, the last two what has been visited and listed afterwards.
inductive Collects {α : Type u} [DecidableEq α] (g : FiniteGraph α) :
    List α → List α → List α → List α → List α → Prop
  | done  : Collects g visited listed [] visited listed
  | pass  : a ∈ visited → Collects g visited listed rest visited' listed' →
    Collects g visited listed (a :: rest) visited' listed'
  | enter : a ∉ visited → Collects g (a :: visited) listed (g.next a) between found →
    Collects g between (addNew found a) rest visited' listed' →
    Collects g visited listed (a :: rest) visited' listed'

-- What is listed while vertices are collected. An edge to something later in the list is part of a
-- circle.
structure Collected {α : Type u} (g : FiniteGraph α) (visited agenda new : List α) : Prop where
  nodup    : new.Nodup
  fresh    : a ∈ new → a ∉ visited
  sound    : a ∈ new → ∃ b ∈ agenda, g.Reaches b a
  complete : a ∈ agenda → a ∈ visited ∨ a ∈ new
  closed   : a ∈ new → b ∈ g.next a → b ∈ visited ∨ b ∈ new
  order    : new.Pairwise fun a b => b ∈ g.next a → g.Reaches b a

variable {α : Type u} {g : FiniteGraph α} {a b c : α}
  {agenda rest visited visited' between listed listed' found new inner outer before after : List α}

namespace Collected

theorem nil : g.Collected visited [] [] where
  nodup       := .nil
  fresh ha    := absurd ha List.not_mem_nil
  sound ha    := absurd ha List.not_mem_nil
  complete    := .inr
  closed ha _ := absurd ha List.not_mem_nil
  order       := .nil

theorem pass (h : g.Collected visited rest outer) (ha : a ∈ visited) :
    g.Collected visited (a :: rest) outer where
  nodup := h.nodup
  fresh := h.fresh
  sound hb := by
    obtain ⟨c, hc, hr⟩ := h.sound hb
    exact ⟨c, List.mem_cons_of_mem a hc, hr⟩
  complete hb := by
    cases List.mem_cons.mp hb
    case inl hb => exact .inl (hb ▸ ha)
    case inr hb => exact h.complete hb
  closed := h.closed
  order := h.order

theorem mem_of_reaches (h : g.Collected [] agenda new) (ha : a ∈ new) (hr : g.Reaches a b) :
    b ∈ new := by
  induction hr
  case refl         => exact ha
  case step hn _ hi => exact hi <| (h.closed ha hn).resolve_left List.not_mem_nil

section Enter

variable (hi : g.Collected (a :: visited) (g.next a) inner) (ho : g.Collected between rest outer)
  (hb : ∀ x, x ∈ between ↔ x ∈ a :: visited ∨ x ∈ inner)
include hi

theorem reaches_inner (h : b ∈ inner) : g.Reaches a b := by
  obtain ⟨c, hc, hr⟩ := hi.sound h
  exact .step hc hr

include ho hb

-- All successors of a vertex and of what is found below it have been visited by the time that the
-- rest is collected.
theorem not_mem_next_outer {x y : α} (hx : x ∈ inner ++ [a]) (hy : y ∈ outer) : y ∉ g.next x := by
  intro hn
  refine ho.fresh hy <| (hb y).mpr ?_
  cases List.mem_append.mp hx
  case inl hx => exact hi.closed hx hn
  case inr hx => exact hi.complete (List.mem_singleton.mp hx ▸ hn)

theorem enter (ha : a ∉ visited) : g.Collected visited (a :: rest) (inner ++ a :: outer) where
  nodup := by
    have hfresh : ∀ x ∈ outer, x ∉ a :: visited ∧ x ∉ inner := by
      intro x hx
      exact not_or.mp <| mt (hb x).mpr (ho.fresh hx)
    refine List.nodup_append.mpr ⟨hi.nodup, List.nodup_cons.mpr ⟨?head, ho.nodup⟩, ?apart⟩
    case head => exact fun h => (hfresh a h).1 List.mem_cons_self
    case apart =>
      rintro x hx y hy rfl
      cases List.mem_cons.mp hy
      case inl hy => exact hi.fresh hx (hy ▸ List.mem_cons_self)
      case inr hy => exact (hfresh x hy).2 hx
  fresh {x} hx hv := by
    have hv' := List.mem_cons_of_mem a hv
    rw [List.mem_append, List.mem_cons] at hx
    obtain hx | hx | hx := hx
    · exact hi.fresh hx hv'
    · exact ha (hx ▸ hv)
    · exact ho.fresh hx <| (hb x).mpr <| .inl hv'
  sound {x} hx := by
    rw [List.mem_append, List.mem_cons] at hx
    obtain hx | hx | hx := hx
    · exact ⟨a, List.mem_cons_self, hi.reaches_inner hx⟩
    · exact ⟨a, List.mem_cons_self, hx ▸ .refl⟩
    · obtain ⟨c, hc, hr⟩ := ho.sound hx
      exact ⟨c, List.mem_cons_of_mem a hc, hr⟩
  complete {x} hx := by
    cases List.mem_cons.mp hx
    case inl hx => exact .inr <| List.mem_append_right _ <| hx ▸ List.mem_cons_self
    case inr hx =>
      have hx : (x ∈ a :: visited ∨ x ∈ inner) ∨ x ∈ outer :=
        (ho.complete hx).imp_left (hb x).mp
      grind
  closed {x y} hx hy := by
    have hy : (y ∈ a :: visited ∨ y ∈ inner) ∨ y ∈ outer := by
      rw [List.mem_append, List.mem_cons] at hx
      obtain hx | hx | hx := hx
      · exact .inl <| hi.closed hx hy
      · exact .inl <| hi.complete (hx ▸ hy)
      · exact (ho.closed hx hy).imp_left (hb y).mp
    grind
  order := by
    refine List.pairwise_append.mpr ⟨hi.order, List.pairwise_cons.mpr ⟨?head, ho.order⟩, ?apart⟩
    case head =>
      intro y hy hn
      exact absurd hn <| hi.not_mem_next_outer ho hb (List.mem_append_right _ <| .head _) hy
    case apart =>
      intro x hx y hy hn
      cases List.mem_cons.mp hy
      case inl hy => exact hy ▸ hi.reaches_inner hx
      case inr hy =>
        exact absurd hn <| hi.not_mem_next_outer ho hb (List.mem_append_left _ hx) hy

end Enter

end Collected

variable [DecidableEq α]

namespace Collects

theorem unique {visited'' listed''} (h : g.Collects visited listed agenda visited' listed')
    (h' : g.Collects visited listed agenda visited'' listed'') :
    visited' = visited'' ∧ listed' = listed'' := by
  induction h generalizing visited'' listed''
  case done =>
    cases h'
    exact ⟨rfl, rfl⟩
  case pass ha _ hi =>
    cases h'
    case pass h       => exact hi h
    case enter hn _ _ => exact absurd ha hn
  case enter hn _ _ hi ho =>
    cases h'
    case pass ha _ => exact absurd ha hn
    case enter h h' =>
      obtain ⟨rfl, rfl⟩ := hi h
      exact ho h'

theorem remaining_le (h : g.Collects visited listed agenda visited' listed') :
    g.remaining visited' ≤ g.remaining visited := by
  induction h
  case done        => exact Nat.le_refl _
  case pass _ _ hi => exact hi
  case enter hn _ _ hi ho =>
    have := g.length_next_add_remaining_le hn
    omega

theorem exists_outcome (g : FiniteGraph α) (visited listed agenda : List α) :
    ∃ visited' listed', g.Collects visited listed agenda visited' listed' := by
  induction hk : agenda.length + g.remaining visited using Nat.strongRecOn
    generalizing visited listed agenda
  case ind k hi =>
    cases agenda
    case nil => exact ⟨visited, listed, .done⟩
    case cons a rest =>
      rw [List.length_cons] at hk
      by_cases ha : a ∈ visited
      case pos =>
        obtain ⟨visited', listed', h⟩ := hi _ (by omega) visited listed rest rfl
        exact ⟨visited', listed', .pass ha h⟩
      case neg =>
        have hn := g.length_next_add_remaining_le ha
        obtain ⟨between, found, h⟩ := hi _ (by omega) (a :: visited) listed (g.next a) rfl
        have hle := h.remaining_le
        obtain ⟨visited', listed', h'⟩ := hi _ (by omega) between (addNew found a) rest rfl
        exact ⟨visited', listed', .enter ha h h'⟩

theorem addNew_found (hf : found = listed ++ inner) (hl : listed ⊆ visited) (ha : a ∉ visited)
    (hi : g.Collected (a :: visited) agenda inner) : addNew found a = found ++ [a] := by
  subst hf
  refine if_neg fun hm => ?_
  cases List.mem_append.mp hm
  case inl hm => exact ha (hl hm)
  case inr hm => exact hi.fresh hm List.mem_cons_self

theorem exists_collected (h : g.Collects visited listed agenda visited' listed')
    (hl : listed ⊆ visited) : ∃ new, listed' = listed ++ new ∧
      (∀ x, x ∈ visited' ↔ x ∈ visited ∨ x ∈ new) ∧ g.Collected visited agenda new := by
  induction h
  case done => exact ⟨[], by simp, by simp, .nil⟩
  case pass ha _ hi =>
    obtain ⟨new, he, hv, hc⟩ := hi hl
    exact ⟨new, he, hv, hc.pass ha⟩
  case enter visited a listed between found rest _ _ ha _ _ hi ho =>
    obtain ⟨inner, hf, hb, hi⟩ := hi <| List.subset_cons_of_subset a hl
    rw [addNew_found hf hl ha hi] at ho
    obtain ⟨outer, he, hv, ho⟩ := ho (by grind)
    exact ⟨inner ++ a :: outer, by simp [he, hf], by grind, hi.enter ho hb ha⟩

theorem go_eq (h : g.Collects visited listed agenda visited' listed') (hl : listed ⊆ visited)
    (tail : List (Visit α)) :
    postorder.go g (Visit.enterAll agenda ++ tail) visited listed.reverse =
      postorder.go g tail visited' listed'.reverse := by
  induction h generalizing tail
  case done => rfl
  case pass ha _ hi =>
    rw [← hi hl, Visit.enterAll, List.map_cons, List.cons_append, postorder.go, if_pos ha]
    rfl
  case enter visited a listed between found rest _ _ ha h _ hi ho =>
    have hl' : listed ⊆ a :: visited := List.subset_cons_of_subset a hl
    obtain ⟨inner, hf, hb, hc⟩ := h.exists_collected hl'
    have hd := addNew_found hf hl ha hc
    rw [Visit.enterAll, List.map_cons, List.cons_append, postorder.go, if_neg ha, hi hl',
      postorder.go, ← ho (by grind), hd, List.reverse_concat]
    rfl

theorem getLast?_eq (h : g.Collects [] [] [a] visited listed) : listed.getLast? = some a := by
  cases h
  case pass ha _ => cases ha
  case enter ha h h' =>
    obtain ⟨inner, hf, _, hc⟩ := h.exists_collected (List.nil_subset _)
    rw [addNew_found hf (List.nil_subset _) ha hc] at h'
    cases h'
    exact List.getLast?_concat

end Collects

section Postorder

theorem collects_postorder (g : FiniteGraph α) (a : α) :
    ∃ visited, g.Collects [] [] [a] visited (g.postorder a) := by
  obtain ⟨visited, listed, h⟩ := Collects.exists_outcome g [] [] [a]
  have he : g.postorder a = listed := by
    have hgo := h.go_eq (List.nil_subset _) []
    rw [postorder.go.eq_1 g visited] at hgo
    rw [← List.reverse_reverse listed, ← hgo]
    rfl
  exact ⟨visited, he ▸ h⟩

theorem exists_collects_iff : (∃ visited, g.Collects [] [] [a] visited listed) ↔
    listed = g.postorder a := by
  obtain ⟨visited, h⟩ := g.collects_postorder a
  constructor
  case mp =>
    rintro ⟨_, h'⟩
    exact (h'.unique h).2
  case mpr =>
    rintro rfl
    exact ⟨visited, h⟩

theorem collected_postorder (g : FiniteGraph α) (a : α) : g.Collected [] [a] (g.postorder a) := by
  obtain ⟨_, h⟩ := g.collects_postorder a
  obtain ⟨new, he, _, hc⟩ := h.exists_collected (List.nil_subset _)
  exact he ▸ hc

theorem getLast?_postorder : (g.postorder a).getLast? = some a := by
  obtain ⟨_, h⟩ := g.collects_postorder a
  exact h.getLast?_eq

theorem mem_postorder : b ∈ g.postorder a ↔ g.Reaches a b := by
  have hc := g.collected_postorder a
  constructor
  case mp =>
    intro hb
    obtain ⟨c, he, hr⟩ := hc.sound hb
    exact List.mem_singleton.mp he ▸ hr
  case mpr =>
    exact hc.mem_of_reaches <| List.mem_of_getLast? getLast?_postorder

theorem mem_before_or_reaches (he : g.postorder a = before ++ b :: after) (hn : c ∈ g.next b) :
    c ∈ before ∨ g.Reaches c b := by
  have hc := g.collected_postorder a
  rw [he] at hc
  have hm := hc.closed (List.mem_append_right before List.mem_cons_self) hn
  replace hm := hm.resolve_left List.not_mem_nil
  rw [List.mem_append, List.mem_cons] at hm
  obtain hm | rfl | hm := hm
  · exact .inl hm
  · exact .inr .refl
  · exact .inr <| List.rel_of_pairwise_cons (List.pairwise_append.mp hc.order).2.1 hm hn

theorem mem_before_of_transGen
    (h : ∀ before b after, g.postorder a = before ++ b :: after → ∀ c ∈ g.next b, c ∈ before)
    (he : g.postorder a = before ++ b :: after) (ht : TransGen (fun b c => c ∈ g.next b) b c) :
    c ∈ before := by
  induction ht
  case single hn => exact h before b after he _ hn
  case tail c d _ hn hi =>
    obtain ⟨before', after', rfl⟩ := List.append_of_mem hi
    rw [List.append_assoc, List.cons_append] at he
    exact List.mem_append_left _ <| h before' c _ he d hn

theorem acyclic_iff_postorder :
    (∀ b, g.Reaches a b → ¬TransGen (fun b c => c ∈ g.next b) b b) ↔
    ∀ before b after, g.postorder a = before ++ b :: after → ∀ c ∈ g.next b, c ∈ before := by
  constructor
  case mp =>
    intro ac before b after he c hn
    have hb : g.Reaches a b :=
      mem_postorder.mp <| he ▸ List.mem_append_right before List.mem_cons_self
    refine (mem_before_or_reaches he hn).resolve_right fun hr => ?_
    exact ac b hb <| .head' hn hr.reflTransGen
  case mpr =>
    intro h b hr ht
    obtain ⟨before, after, he⟩ := List.append_of_mem <| mem_postorder.mpr hr
    have hn := (g.collected_postorder a).nodup
    rw [he] at hn
    exact (List.nodup_append.mp hn).2.2 b (mem_before_of_transGen h he ht) b List.mem_cons_self rfl

end Postorder

end FiniteGraph

namespace Machine

variable {m : Machine} {z a : Name}

theorem mem_chain_iff : a ∈ m.chain z ↔ ReflTransGen (fun a b => b ∈ m.supers a) z a :=
  FiniteGraph.mem_postorder.trans reaches_inheritance_iff

-- Whatever inherits from whatever else: the recursion that collects the chain of a name ends, and it
-- lists the name itself last and all that it inherits from once. The superstates of each name come
-- before it just in case nothing in the chain inherits from itself.
theorem chain_enumerates (m : Machine) (z : Name) :
    (∀ names, (∃ visited, m.inheritance.Collects [] [] [z] visited names) ↔ names = m.chain z) ∧
    (m.chain z).Nodup ∧
    (m.chain z).getLast? = some z ∧
    (∀ a, a ∈ m.chain z ↔ ReflTransGen (fun a b => b ∈ m.supers a) z a) ∧
    (∀ a, a ∈ m.chain z ↔ a ∈ m.hierarchy z) ∧
    ((∀ a, ReflTransGen (fun a b => b ∈ m.supers a) z a →
        ¬TransGen (fun a b => b ∈ m.supers a) a a) ↔
      ∀ before a after, m.chain z = before ++ a :: after → ∀ p ∈ m.supers a, p ∈ before) := by
  refine ⟨fun _ => FiniteGraph.exists_collects_iff, (m.inheritance.collected_postorder z).nodup,
    FiniteGraph.getLast?_postorder, fun a => mem_chain_iff,
    fun a => mem_chain_iff.trans mem_hierarchy_iff.symm, ?order⟩
  case order =>
    simp only [← reaches_inheritance_iff]
    exact FiniteGraph.acyclic_iff_postorder

theorem not_transGen_iff : ¬TransGen (fun a b => b ∈ m.supers a) a a ↔
    ∀ p ∈ m.supers a, a ∉ m.hierarchy p := by
  simp only [TransGen.head'_iff, mem_hierarchy_iff, not_exists, not_and]

-- `z` inherits from `t` in two ways, and from `gone`, which is no state. Below it `x` and `y` inherit
-- from each other.
def besideCircle : Machine where
  states := .ofList [
    ("x", { supers := .ofList ["y"] }),
    ("y", { supers := .ofList ["x", "z"] }),
    ("z", { supers := .ofList ["l", "r"] }),
    ("l", { supers := .ofList ["t"] }),
    ("r", { supers := .ofList ["gone", "t"] }),
    ("t", {})
  ]

theorem chain_enumerates_besideCircle :
    besideCircle.chain "x" = ["t", "l", "gone", "r", "z", "y", "x"] ∧
    besideCircle.chain "z" = ["t", "l", "gone", "r", "z"] ∧
    (∀ a, ReflTransGen (fun a b => b ∈ besideCircle.supers a) "z" a →
      ¬TransGen (fun a b => b ∈ besideCircle.supers a) a a) ∧
    (∀ before a after, besideCircle.chain "z" = before ++ a :: after →
      ∀ p ∈ besideCircle.supers a, p ∈ before) ∧
    ¬∀ before a after, besideCircle.chain "x" = before ++ a :: after →
      ∀ p ∈ besideCircle.supers a, p ∈ before := by
  obtain ⟨hx, hz⟩ : besideCircle.chain "x" = ["t", "l", "gone", "r", "z", "y", "x"] ∧
    besideCircle.chain "z" = ["t", "l", "gone", "r", "z"] := by decide +kernel
  have hc : ∀ a ∈ besideCircle.hierarchy "z", ∀ p ∈ besideCircle.supers a,
      a ∉ besideCircle.hierarchy p := by decide +kernel
  have hcx : ¬∀ p ∈ besideCircle.supers "x", "x" ∉ besideCircle.hierarchy p := by decide +kernel
  have ac : ∀ a, ReflTransGen (fun a b => b ∈ besideCircle.supers a) "z" a →
      ¬TransGen (fun a b => b ∈ besideCircle.supers a) a a :=
    fun a ha => not_transGen_iff.mpr <| hc a <| mem_hierarchy_iff.mpr ha
  obtain ⟨_, _, _, _, _, hordz⟩ := chain_enumerates besideCircle "z"
  obtain ⟨_, _, _, _, _, hordx⟩ := chain_enumerates besideCircle "x"
  exact ⟨hx, hz, ac, hordz.mp ac, fun h => hcx <| not_transGen_iff.mp <| hordx.mpr h "x" .refl⟩

end Machine

end Statechart
