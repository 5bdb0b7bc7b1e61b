import Statechart.Proofs.Nest.Growth

open Relation

namespace Statechart.Nest

variable {m : Machine} {t : Nest} {i j k l : NodeId} {n a b : Name}

section LeafPaths

variable {path path' : List NodeId}

theorem isPrefix_of_mem_leafPaths (h : (n, path') ∈ t.leafPaths path i) : path <+: path' := by
  induction path, i using leafPaths.induct t
  case case1 path i hi =>
    obtain ⟨m, j, _, hj, h⟩ := mem_leafPaths.mp h
    cases h
    case inl h => exact h.2.2.2 ▸ List.prefix_rfl
    case inr h =>
      have hp := hi (m, j) hj (mt isEmpty_children_iff_leaf.mp h.1) h.2
      exact (List.prefix_append ..).trans hp

-- No way is found twice: the children that the walk goes on with are different nodes, so that the
-- ways through them differ right behind the present one.
theorem nodup_leafPaths (s : t.Sound) : (t.leafPaths path i).Nodup := by
  induction path, i using leafPaths.induct t
  case case1 path i hi =>
    rw [leafPaths, List.nodup_flatMap]
    constructor
    case left =>
      intro e _
      split
      case isTrue => exact .nil
      case isFalse hp =>
        split
        case isTrue  => split <;> simp
        case isFalse hl => exact hi e hp hl
    case right =>
      have hn := List.pairwise_map.mp (t.children i).nodup
      refine hn.imp_of_mem ?_
      intro e e' he he' hne x hx hx'
      have hway : ∀ {e : Name × NodeId}, (x ∈ if e.2 ∈ path then [] else
          if (t.children e.2).isEmpty then if path.isEmpty then [] else [(e.1, path)]
          else t.leafPaths (path ++ [e.2]) e.2) → x = (e.1, path) ∨ path ++ [e.2] <+: x.2 := by
        intro e hx
        split at hx
        case isTrue => cases hx
        split at hx
        case isFalse => exact .inr <| isPrefix_of_mem_leafPaths hx
        split at hx
        case isTrue  => cases hx
        case isFalse => exact .inl <| List.mem_singleton.mp hx
      have hlen : ∀ {j : NodeId}, ¬path ++ [j] <+: path := fun hp =>
        Nat.not_succ_le_self path.length <| by simpa using hp.length_le
      cases hway hx
      case inl h =>
        subst h
        cases hway hx'
        case inl h' => exact hne (Prod.mk.inj h').1
        case inr h' => exact hlen h'
      case inr h =>
        cases hway hx'
        case inl h' => exact hlen (h' ▸ h)
        case inr h' =>
          have hp := List.prefix_of_prefix_length_le h h' (by simp)
          have he₂ : e.2 = e'.2 := by simpa using hp
          have hc := s.named (hasChild_iff_mem.mpr he)
          have hc' := s.named (hasChild_iff_mem.mpr he')
          exact hne <| hc.symm.trans <| he₂ ▸ hc'

theorem nodup_pathsTo (s : t.Sound) : (t.pathsTo n).Nodup := by
  refine ((nodup_leafPaths s).filter _).map_on ?_
  intro e he e' he' hp
  simp only [List.mem_filter, decide_eq_true_eq] at he he'
  exact Prod.ext (he.2.trans he'.2.symm) hp

theorem not_mem_intersections_of_eq (s : t.Sound)
    (h : ∀ path ∈ t.pathsTo n, ∀ path' ∈ t.pathsTo n, path = path') : n ∉ t.intersections := by
  intro hn
  have hnodup : (t.pathsTo n).Nodup := nodup_pathsTo s
  have hlen := mem_intersections.mp hn
  match hp : t.pathsTo n with
  | [] | [_] => simp [hp] at hlen
  | p :: q :: ps =>
    have he := h p (by simp [hp]) q (by simp [hp])
    rw [hp] at hnodup
    exact List.not_nodup_cons_of_mem (he ▸ List.mem_cons_self) hnodup

end LeafPaths

namespace Growing

variable {es : List (Name × NodeId)} {absorbed : List Name} {path path' : List NodeId}

section Place

variable (g : Growing m es absorbed t)
include g

theorem above_iff_supers : t.Above a b ↔ a ∈ m.supers b :=
  ⟨fun h => g.plain _ _ <| g.sound.holds_of_above h, g.keeps⟩

theorem unique_node (hi : t.Inner i) (hk : t.Inner k) (hli : ¬t.Leaf i) (hlk : ¬t.Leaf k)
    (hn : t.name i = t.name k) : i = k := by
  obtain ⟨_, _, hc⟩ := exists_child_of_not_leaf hli
  obtain ⟨_, _, hc'⟩ := exists_child_of_not_leaf hlk
  cases hi.cases
  case inl hr => exact .symm <| (g.apart hr.choose_spec).sole (hk.ne_root g.sound) hn.symm hc'
  case inr hp =>
    cases hk.cases
    case inl hr => exact (g.apart hr.choose_spec).sole (hi.ne_root g.sound) hn hc
    case inr hp' =>
      obtain ⟨i', _, hi', hci⟩ := hp
      obtain ⟨k', _, hk', hck⟩ := hp'
      rw [← g.sound.named hci] at hci
      rw [← g.sound.named hck, ← hn] at hck
      exact g.place (hi'.ne_root g.sound) (hk'.ne_root g.sound) hci hck

variable (h : m.Single)
include h

theorem unique_place (hi : t.Inner i) (hc : t.HasChild i n j) (hk : t.Inner k)
    (hc' : t.HasChild k n l) : i = k :=
  g.unique_node hi hk hc.not_leaf hc'.not_leaf <|
    g.plain.name_eq h (hi.ne_root g.sound) (hk.ne_root g.sound) hc hc'

theorem clear : t.Clear n :=
  fun _ _ ⟨_, _, _, _, hi, hc, _, hk, hc', hne⟩ => hne <| g.unique_place h hi hc hk hc'

theorem descends_unique (hp : t.Descends path i) (hp' : t.Descends path' i) : path = path' := by
  have htop {n p : Name} {j k : NodeId} (hn : t.HasChild root n j) (hk : t.Inner k) :
      ¬t.HasChild k p j := fun hc => hk.ne_root g.sound <| (g.apart hn).alone hc
  induction hp generalizing path'
  case top hn =>
    cases hp'
    case top => rfl
    case step hk hc => exact absurd hc (htop hn hk.inner)
  case step path k n j hk hc hi =>
    cases hp'
    case top hn => exact absurd hc (htop hn hk.inner)
    case step path' k' n' hk' hc' =>
      rw [← g.sound.named hc', g.sound.named hc] at hc'
      cases g.unique_place h hk.inner hc hk'.inner hc'
      rw [hi hk']

theorem not_mem_intersections : n ∉ t.intersections := by
  refine not_mem_intersections_of_eq g.sound fun path hp path' hp' => ?_
  obtain ⟨i, _, hd, hc, _⟩ := leafPaths_descends (.inl ⟨rfl, rfl⟩) <| mem_pathsTo.mp hp
  obtain ⟨k, _, hd', hc', _⟩ := leafPaths_descends (.inl ⟨rfl, rfl⟩) <| mem_pathsTo.mp hp'
  cases g.unique_place h hd.inner hc hd'.inner hc'
  exact g.descends_unique h hd hd'

end Place

end Growing

end Statechart.Nest
