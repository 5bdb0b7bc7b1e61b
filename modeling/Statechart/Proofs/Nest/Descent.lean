import Statechart.Nest.Intersection
import Statechart.Proofs.Nest.OfMachine

open Relation

namespace Statechart.Nest

def Inner (t : Nest) (i : NodeId) : Prop :=
  ∃ k, t.Leads root k ∧ t.Reaches k i

def Leaf (t : Nest) (i : NodeId) : Prop :=
  ∀ n j, ¬t.HasChild i n j

inductive Descends (t : Nest) : List NodeId → NodeId → Prop
  | top  : t.HasChild root n k → Descends t [k] k
  | step : Descends t path i → t.HasChild i n j → Descends t (path ++ [j]) j

-- There are several places where a state stands, and in one of them there is something below it.
def Divided (t : Nest) (n : Name) : Prop :=
  ∃ i j i' j', t.Inner i ∧ t.HasChild i n j ∧ ¬t.Leaf j ∧ t.Inner i' ∧ t.HasChild i' n j' ∧ i ≠ i'

-- Neither a state nor anything that it stands below is divided.
def Clear (t : Nest) (n : Name) : Prop :=
  ∀ a, ReflTransGen t.Above a n → ¬t.Divided a

variable {m : Machine} {names : List Name} {t : Nest} {i i' j j' k l : NodeId} {n a b : Name}
  {path path' : List NodeId}

theorem HasChild.not_leaf (h : t.HasChild i n j) : ¬t.Leaf i :=
  fun hl => hl n j h

theorem exists_child_of_not_leaf (h : ¬t.Leaf i) : ∃ n j, t.HasChild i n j := by
  by_contra hn
  exact h fun n j hc => hn ⟨n, j, hc⟩

theorem HasChild.inner (h : t.HasChild root n k) : t.Inner k :=
  ⟨k, ⟨n, h⟩, .refl⟩

theorem Inner.reaches (hi : t.Inner i) (h : t.Reaches i j) : t.Inner j :=
  have ⟨k, hk, hr⟩ := hi
  ⟨k, hk, hr.trans h⟩

theorem Inner.child (hi : t.Inner i) (h : t.HasChild i n j) : t.Inner j :=
  hi.reaches <| .single ⟨n, h⟩

theorem Inner.ne_root (s : t.Sound) (hi : t.Inner i) : i ≠ root :=
  have ⟨_, ⟨_, hk⟩, hr⟩ := hi
  s.reaches_ne_root hr (s.rootless hk)

theorem above_iff : t.Above a b ↔ ∃ i j, t.Inner i ∧ t.name i = a ∧ t.HasChild i b j := by
  constructor
  case mp  => intro ⟨k, i, j, hk, hr, ha, hc⟩; exact ⟨i, j, ⟨k, hk, hr⟩, ha, hc⟩
  case mpr => intro ⟨i, j, ⟨k, hk, hr⟩, ha, hc⟩; exact ⟨k, i, j, hk, hr, ha, hc⟩

theorem Inner.above (hi : t.Inner i) (h : t.HasChild i n j) : t.Above (t.name i) n :=
  above_iff.mpr ⟨i, j, hi, rfl, h⟩

theorem Sound.holds_of_above (s : t.Sound) (h : t.Above a b) : t.Holds a b :=
  have ⟨i, j, hi, ha, hc⟩ := above_iff.mp h
  ⟨i, j, hi.ne_root s, ha, hc⟩

namespace Descends

theorem inner (h : t.Descends path i) : t.Inner i := by
  induction h
  case top hk       => exact hk.inner
  case step hc hi   => exact hi.child hc

theorem ne_nil (h : t.Descends path i) : path ≠ [] := by
  cases h <;> simp

theorem getLast? (h : t.Descends path i) : path.getLast? = some i := by
  cases h <;> simp

theorem last_unique (h : t.Descends path i) (h' : t.Descends path j) : i = j :=
  Option.some.inj <| h.getLast?.symm.trans h'.getLast?

theorem reaches_of_mem (h : t.Descends path i) (hk : k ∈ path) : t.Inner k ∧ t.Reaches k i := by
  induction h
  case top l hl =>
    cases List.mem_singleton.mp hk
    exact ⟨hl.inner, .refl⟩
  case step path x n y hx hc hi =>
    cases List.mem_append.mp hk
    case inl hk => exact ⟨(hi hk).1, (hi hk).2.tail ⟨n, hc⟩⟩
    case inr hk =>
      cases List.mem_singleton.mp hk
      exact ⟨hx.inner.child hc, .refl⟩

theorem child_not_mem (h : t.Descends path i) (s : t.Sound) (ac : t.Acyclic)
    (hc : t.HasChild i n j) : j ∉ path :=
  fun hj => ac.not_reaches_parent s (h.inner.ne_root s) hc (h.reaches_of_mem hj).2 rfl

end Descends

theorem Inner.descends (hi : t.Inner i) : ∃ path, t.Descends path i := by
  have ⟨k, ⟨n, hk⟩, hr⟩ := hi
  clear hi
  induction hr
  case refl => exact ⟨[k], .top hk⟩
  case tail hc hi =>
    have ⟨path, hp⟩ := hi
    have ⟨m, hm⟩ := hc
    exact ⟨_, hp.step hm⟩

section LeafPaths

theorem isEmpty_children_iff_leaf : (t.children i).isEmpty ↔ t.Leaf i :=
  isEmpty_children_iff

theorem mem_leafPaths : (n, path') ∈ t.leafPaths path i ↔ ∃ m j, t.HasChild i m j ∧ j ∉ path ∧
    (t.Leaf j ∧ path ≠ [] ∧ n = m ∧ path' = path ∨
      ¬t.Leaf j ∧ (n, path') ∈ t.leafPaths (path ++ [j]) j) := by
  rw [leafPaths]
  simp only [List.mem_flatMap, hasChild_iff_mem, ← isEmpty_children_iff_leaf, Prod.exists]
  grind

theorem leafPaths_descends (hp : path = [] ∧ i = root ∨ t.Descends path i)
    (h : (n, path') ∈ t.leafPaths path i) :
    ∃ k j, t.Descends path' k ∧ t.HasChild k n j ∧ t.Leaf j := by
  induction path, i using leafPaths.induct t
  case case1 path i hi =>
    have ⟨m, j, hc, hj, h⟩ := mem_leafPaths.mp h
    cases h
    case inl h =>
      have ⟨hl, hne, hn, hp'⟩ := h
      subst hn hp'
      cases hp
      case inl hp => exact absurd hp.1 hne
      case inr hp => exact ⟨i, j, hp, hc, hl⟩
    case inr h =>
      refine hi (m, j) hj (mt isEmpty_children_iff_leaf.mp h.1) (.inr ?_) h.2
      cases hp
      case inr hp => exact hp.step hc
      case inl hp =>
        have ⟨hp, hr⟩ := hp
        subst hp hr
        exact .top hc

-- Going down further only finds leaves that are found from further up as well.
theorem leafPaths_subset (s : t.Sound) (ac : t.Acyclic) (hp : t.Descends path i)
    (hi : ¬t.Leaf i) : t.leafPaths path i ⊆ t.leafPaths [] root := by
  induction hp
  case top hk =>
    intro ⟨n, path'⟩ h
    exact mem_leafPaths.mpr ⟨_, _, hk, List.not_mem_nil, .inr ⟨hi, h⟩⟩
  case step hp hc hs =>
    refine List.Subset.trans ?_ (hs hc.not_leaf)
    intro ⟨n, path'⟩ h
    exact mem_leafPaths.mpr ⟨_, _, hc, hp.child_not_mem s ac hc, .inr ⟨hi, h⟩⟩

theorem mem_leafPaths_root (s : t.Sound) (ac : t.Acyclic) :
    (n, path) ∈ t.leafPaths [] root ↔
      ∃ i j, t.Descends path i ∧ t.HasChild i n j ∧ t.Leaf j := by
  constructor
  case mp  => exact leafPaths_descends (.inl ⟨rfl, rfl⟩)
  case mpr =>
    intro ⟨i, j, hp, hc, hl⟩
    refine leafPaths_subset s ac hp hc.not_leaf ?_
    exact mem_leafPaths.mpr ⟨n, j, hc, hp.child_not_mem s ac hc, .inl ⟨hl, hp.ne_nil, rfl, rfl⟩⟩

def pathsTo (t : Nest) (n : Name) : List (List NodeId) :=
  ((t.leafPaths [] root).filter (·.1 = n)).map (·.2)

theorem mem_pathsTo : path ∈ t.pathsTo n ↔ (n, path) ∈ t.leafPaths [] root := by
  simp only [pathsTo, List.mem_map, List.mem_filter, decide_eq_true_eq, Prod.exists]
  grind

theorem get?_intersections {paths : List (List NodeId)} :
    t.intersections.get? n = some paths ↔ paths = t.pathsTo n ∧ 2 ≤ paths.length := by
  have h : 2 ≤ (t.pathsTo n).length → n ∈ (t.leafPaths [] root).map (·.1) := by
    intro h
    have ⟨path, hp⟩ := List.exists_mem_of_length_pos (Nat.lt_of_lt_of_le Nat.two_pos h)
    exact List.mem_map_of_mem (mem_pathsTo.mp hp)
  simp only [intersections, NameMap.get?_eq_some_iff, NameMap.filter, List.mem_filter,
    decide_eq_true_eq, NameMap.ofNames, List.mem_map, mem_distinct, Prod.mk.injEq]
  change (∃ x, _ ∧ x = n ∧ t.pathsTo x = paths) ∧ _ ↔ _
  grind

theorem mem_intersections : n ∈ t.intersections ↔ 2 ≤ (t.pathsTo n).length := by
  simp only [NameMap.mem_iff_get?_isSome, Option.isSome_iff_exists, get?_intersections]
  grind

theorem exists_leaf_of_mem_intersections (s : t.Sound) (ac : t.Acyclic)
    (h : n ∈ t.intersections) : ∃ i j, t.Inner i ∧ t.HasChild i n j ∧ t.Leaf j := by
  have h := Nat.lt_of_lt_of_le Nat.two_pos <| mem_intersections.mp h
  have ⟨path, hp⟩ := List.exists_mem_of_length_pos h
  have ⟨i, j, hp, hc, hl⟩ := mem_leafPaths_root s ac |>.mp <| mem_pathsTo.mp hp
  exact ⟨i, j, hp.inner, hc, hl⟩

theorem mem_intersections_of_ne (s : t.Sound) (ac : t.Acyclic) (hi : t.Inner i)
    (hc : t.HasChild i n j) (hl : t.Leaf j) (hi' : t.Inner i') (hc' : t.HasChild i' n j')
    (hl' : t.Leaf j') (hne : i ≠ i') : n ∈ t.intersections := by
  have ⟨path, hp⟩ := hi.descends
  have ⟨path', hp'⟩ := hi'.descends
  have hm := mem_pathsTo.mpr <| mem_leafPaths_root s ac |>.mpr ⟨i, j, hp, hc, hl⟩
  have hm' := mem_pathsTo.mpr <| mem_leafPaths_root s ac |>.mpr ⟨i', j', hp', hc', hl'⟩
  have : path ≠ path' := fun he => hne <| hp.last_unique (he ▸ hp')
  refine mem_intersections.mpr <| Nat.lt_of_not_le fun hlen => this ?_
  have ⟨p, hp⟩ := List.length_eq_one_iff.mp <| Nat.le_antisymm hlen (List.length_pos_of_mem hm)
  rw [hp] at hm hm'
  rw [List.mem_singleton.mp hm, List.mem_singleton.mp hm']

end LeafPaths

theorem Clear.above (h : t.Clear n) (ha : t.Above a n) : t.Clear a :=
  fun b hb => h b <| hb.tail ha

theorem Clear.not_divided (h : t.Clear n) : ¬t.Divided n :=
  h n .refl

theorem Inner.cases (hj : t.Inner j) :
    (∃ n, t.HasChild root n j) ∨ ∃ i n, t.Inner i ∧ t.HasChild i n j := by
  have ⟨path, hp⟩ := hj.descends
  cases hp
  case top n hk        => exact .inl ⟨n, hk⟩
  case step path i n hp hc => exact .inr ⟨i, n, hp.inner, hc⟩

theorem Inner.lt_size (hi : t.Inner i) (s : t.Sound) : i < t.size := by
  obtain ⟨_, hc⟩ | ⟨_, _, _, hc⟩ := hi.cases
  all_goals exact s.bounded hc

-- A state that is not divided stands in one place, unless all of its nodes are leaves.
theorem unique_parent (hd : ¬t.Divided n) (hi : t.Inner i) (hc : t.HasChild i n j)
    (hl : ¬t.Leaf j) (hi' : t.Inner i') (hc' : t.HasChild i' n j') : i' = i ∧ j' = j := by
  have he : i = i' := by
    by_contra hne
    exact hd ⟨i, j, i', j', hi, hc, hl, hi', hc', hne⟩
  subst he
  exact ⟨rfl, hc'.unique hc⟩

namespace Merged

theorem above_node (h : Merged m names t) (hj : t.Inner j) (hl : ¬t.Leaf j)
    (hd : ¬t.Divided (t.name j)) (ha : t.Above a (t.name j)) :
    ∃ i, t.Inner i ∧ t.name i = a ∧ t.HasChild i (t.name j) j := by
  have ⟨i, k, hi, hn, hc⟩ := above_iff.mp ha
  cases hj.cases
  case inl hr =>
    have ⟨n, hr⟩ := hr
    rw [h.sound.named hr] at ha
    exact absurd (h.sound.holds_of_above ha) (h.top hr)
  case inr hp =>
    have ⟨i', n, hi', hc'⟩ := hp
    rw [← h.sound.named hc'] at hc'
    cases (unique_parent hd hi' hc' hl hi hc).1
    exact ⟨i, hi, hn, hc'⟩

theorem not_mem_intersections (h : Merged m names t) (hi : t.Inner i) (hl : ¬t.Leaf i)
    (hd : ¬t.Divided (t.name i)) : t.name i ∉ t.intersections := by
  intro hm
  have ⟨k, l, hk, hc, hl'⟩ := exists_leaf_of_mem_intersections h.sound h.acyclic hm
  have ⟨i', hi', _, hc'⟩ := h.above_node hi hl hd (hk.above hc)
  cases (unique_parent hd hi' hc' hl hk hc).2
  exact hl hl'

theorem leaf_of_mem_intersections (h : Merged m names t) (hd : ¬t.Divided n)
    (hm : n ∈ t.intersections) (hi : t.Inner i) (hc : t.HasChild i n j) : t.Leaf j := by
  have ⟨i', j', hi', hc', hl⟩ := exists_leaf_of_mem_intersections h.sound h.acyclic hm
  by_contra hn
  cases (unique_parent hd hi hc hn hi' hc').2
  exact hn hl

theorem unique_place (h : Merged m names t) (hd : ¬t.Divided n) (hm : n ∉ t.intersections)
    (hi : t.Inner i) (hc : t.HasChild i n j) (hi' : t.Inner i') (hc' : t.HasChild i' n j') :
    i = i' := by
  by_contra hne
  by_cases hl : t.Leaf j
  case neg => exact hd ⟨i, j, i', j', hi, hc, hl, hi', hc', hne⟩
  by_cases hl' : t.Leaf j'
  case neg => exact hd ⟨i', j', i, j, hi', hc', hl', hi, hc, Ne.symm hne⟩
  exact hm <| mem_intersections_of_ne h.sound h.acyclic hi hc hl hi' hc' hl' hne

theorem mem_names_iff (h : Merged m names t) (hp : t.Descends path i) (hl : ¬t.Leaf i)
    (hc : t.Clear (t.name i)) :
    a ∈ path.map t.name ↔ ReflTransGen t.Above a (t.name i) := by
  induction hp
  case top n k hk =>
    simp only [List.map_cons, List.map_nil, List.mem_singleton]
    constructor
    case mp => intro ha; exact ha ▸ .refl
    case mpr =>
      intro ha
      cases ha.cases_tail
      case inl ha => exact ha.symm
      case inr ha =>
        have ⟨b, _, hb⟩ := ha
        rw [h.sound.named hk] at hb
        exact absurd (h.sound.holds_of_above hb) (h.top hk)
  case step path x n y hp hy hi =>
    have hn := h.sound.named hy
    have hx := hi hy.not_leaf (hc.above <| hn ▸ hp.inner.above hy)
    simp only [List.map_append, List.map_cons, List.map_nil, List.mem_append, List.mem_singleton, hx]
    constructor
    case mp =>
      intro ha
      cases ha
      case inl ha => exact ha.tail <| hn ▸ hp.inner.above hy
      case inr ha => exact ha ▸ .refl
    case mpr =>
      intro ha
      cases ha.cases_tail
      case inl ha => exact .inr ha.symm
      case inr ha =>
        have ⟨b, ha, hb⟩ := ha
        have ⟨x', hx', hb, hy'⟩ := h.above_node (hp.inner.child hy) hl hc.not_divided hb
        rw [← hn] at hy
        cases (unique_parent hc.not_divided hp.inner hy hl hx' hy').1
        exact .inl <| hb ▸ ha

end Merged

section Ancestors

-- If all that is related to an element comes before it, then this is also so once repetitions are
-- left out: an element cannot be related to one that is listed already without being listed itself.
theorem pairwise_foldl_addNew {α : Type _} [DecidableEq α] {r : α → α → Prop} {as bs : List α}
    (ha : as.Pairwise fun x y => ¬r y x) (hc : ∀ x ∈ as, ∀ y, r y x → y ∈ as)
    (hb : ∀ l x l', bs = l ++ x :: l' → ∀ y, r y x → y ∈ as ∨ y ∈ l) :
    (bs.foldl addNew as).Pairwise fun x y => ¬r y x := by
  induction bs generalizing as
  case nil => exact ha
  case cons b bs hi =>
    have hnew : ∀ y, r y b → y ∈ as := fun y hy => by simpa using hb [] b bs rfl y hy
    refine hi ?pairwise ?closed ?rest
    case pairwise =>
      unfold addNew
      split
      case isTrue => exact ha
      case isFalse hn =>
        refine List.pairwise_append.mpr ⟨ha, List.pairwise_singleton .., fun x hx y hy hyx => ?_⟩
        exact hn <| List.mem_singleton.mp hy ▸ hc x hx y hyx
    case closed =>
      intro x hx y hy
      cases mem_addNew.mp hx
      case inl hx => exact mem_addNew.mpr <| .inl <| hc x hx y hy
      case inr hx => exact mem_addNew.mpr <| .inl <| hnew y (hx ▸ hy)
    case rest =>
      intro l x l' he y hy
      cases hb (b :: l) x l' (by rw [he, List.cons_append]) y hy
      case inl h => exact .inl <| mem_addNew.mpr <| .inl h
      case inr h =>
        cases List.mem_cons.mp h
        case inl h => exact .inl <| mem_addNew.mpr <| .inr h
        case inr h => exact .inr h

theorem exists_of_flatten_eq {α : Type _} {xss : List (List α)} {x : α} {l l' : List α}
    (h : xss.flatten = l ++ x :: l') : ∃ p q, p ++ x :: q ∈ xss ∧ p ⊆ l := by
  cases List.flatten_eq_append_iff.mp h
  case inl h =>
    have ⟨_, bs, hx, _, hb⟩ := h
    have ⟨as, q, cs, hb, _⟩ := List.flatten_eq_cons_iff.mp hb.symm
    exact ⟨[], q, by simp [hx, hb], List.nil_subset _⟩
  case inr h =>
    have ⟨as, p, y, q, ds, hx, hl, hy⟩ := h
    cases hy
    exact ⟨p, q, by simp [hx], hl ▸ List.subset_append_right ..⟩

theorem Descends.split {p₁ p₂ : List NodeId} (h : t.Descends (p₁ ++ k :: p₂) i) :
    t.Descends (p₁ ++ [k]) k ∧ (k = i ∨ ¬t.Leaf k) := by
  generalize hp : p₁ ++ k :: p₂ = path at h
  induction h generalizing p₂
  case top l hl =>
    have ⟨h₁, h₂⟩ : p₁ = [] ∧ k = l := by
      cases p₁ <;> simp_all
    subst h₁ h₂
    exact ⟨.top hl, .inl rfl⟩
  case step path x n y hx hc hi =>
    cases List.eq_nil_or_concat p₂
    case inl hn =>
      subst hn
      have ⟨h₁, h₂⟩ := List.append_inj' hp rfl
      cases h₂
      exact ⟨h₁ ▸ hx.step hc, .inl rfl⟩
    case inr hn =>
      have ⟨p₃, z, hz⟩ := hn
      subst hz
      rw [List.concat_eq_append, ← List.cons_append, ← List.append_assoc] at hp
      have ⟨hd, hk⟩ := hi (List.append_inj_left' hp rfl)
      refine ⟨hd, .inr ?_⟩
      cases hk
      case inl hk => exact hk ▸ hc.not_leaf
      case inr hk => exact hk

theorem Descends.above (h : t.Descends path i) (s : t.Sound) (hk : k ∈ path) :
    ReflTransGen t.Above (t.name k) (t.name i) :=
  have ⟨⟨_, hl, hr⟩, hk⟩ := h.reaches_of_mem hk
  s.holdsFrom_of_reaches hl hr hk

namespace Merged

variable {paths : List (List NodeId)}

theorem mem_ancestors_iff (h : Merged m names t) (hc : t.Clear n) (hm : n ∈ t.intersections) :
    a ∈ t.ancestors (t.pathsTo n) ↔ TransGen t.Above a n := by
  simp only [ancestors, mem_distinct, List.mem_map, List.mem_flatten]
  constructor
  case mp =>
    rintro ⟨k, ⟨path, hp, hk⟩, ha⟩
    obtain ⟨i, j, hp, hj, _⟩ := mem_leafPaths_root h.sound h.acyclic |>.mp <| mem_pathsTo.mp hp
    exact .tail' (ha ▸ hp.above h.sound hk) (hp.inner.above hj)
  case mpr =>
    intro ha
    obtain ⟨b, ha, hb⟩ := TransGen.tail'_iff.mp ha
    obtain ⟨i, j, hi, hn, hj⟩ := above_iff.mp hb
    obtain ⟨path, hp⟩ := hi.descends
    have hl := h.leaf_of_mem_intersections hc.not_divided hm hi hj
    subst hn
    obtain ⟨k, hk, ha⟩ := List.mem_map.mp <| h.mem_names_iff hp hj.not_leaf (hc.above hb) |>.mpr ha
    refine ⟨k, ⟨path, ?_, hk⟩, ha⟩
    exact mem_pathsTo.mpr <| mem_leafPaths_root h.sound h.acyclic |>.mpr ⟨i, j, hp, hj, hl⟩

theorem pairwise_ancestors (h : Merged m names t) (hc : t.Clear n) :
    (t.ancestors (t.pathsTo n)).Pairwise fun x y => ¬TransGen t.Above y x := by
  refine pairwise_foldl_addNew .nil nofun fun l x l' he y hy => .inr ?_
  have ⟨ks, ks', hks, hl, hx⟩ := List.map_eq_append_iff.mp he
  have ⟨k, _, hks', hk, _⟩ := List.map_eq_cons_iff.mp hx
  subst hl hk hks'
  have ⟨p, q, hp, hsub⟩ := exists_of_flatten_eq hks
  have ⟨i, j, hd, hj, _⟩ := mem_leafPaths_root h.sound h.acyclic |>.mp <| mem_pathsTo.mp hp
  have ⟨hdk, hk⟩ := hd.split
  have hkl : ¬t.Leaf k := by
    cases hk
    case inl hk => exact hk ▸ hj.not_leaf
    case inr hk => exact hk
  have hck : t.Clear (t.name k) := fun b hb =>
    hc b <| (hb.trans (hd.above h.sound (by simp))).tail (hd.inner.above hj)
  have hy' := h.mem_names_iff hdk hkl hck |>.mpr hy.to_reflTransGen
  rw [List.map_append, List.mem_append] at hy'
  cases hy'
  case inl hy' => exact List.map_subset _ hsub hy'
  case inr hy' =>
    -- It would stand above itself.
    cases List.mem_singleton.mp hy'
    exact absurd (TransGen.mono (fun _ _ => h.sound.holds_of_above) _ _ hy) (h.acyclic _)

end Merged

end Ancestors

end Statechart.Nest
