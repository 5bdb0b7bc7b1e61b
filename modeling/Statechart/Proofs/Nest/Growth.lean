import Statechart.Proofs.Nest.Descent

open Relation

namespace Statechart

def Machine.Single (m : Machine) : Prop :=
  ∀ x a b, a ∈ m.supers x → b ∈ m.supers x → a = b

def Machine.Rooted (m : Machine) (n : Name) : Prop :=
  ∃ a, m.supers a = [] ∧ ReflTransGen (fun a b => a ∈ m.supers b) a n

namespace Nest

def Plain (m : Machine) (t : Nest) : Prop :=
  ∀ a b, t.Holds a b → a ∈ m.supers b

-- A nest in which some of the states at the root have been put below their only superstates. Each
-- state has one place below the root at most, and all of its substates there once it is absorbed.
structure Growing (m : Machine) (es : List (Name × NodeId)) (absorbed : List Name) (t : Nest) :
    Prop where
  sound  : t.Sound
  plain  : t.Plain m
  top    : (t.children root).entries = es.filter (·.1 ∉ absorbed)
  apart  : t.HasChild root n j → t.Apart j
  place  : i ≠ root → k ≠ root → t.HasChild i n j → t.HasChild k n l → j = l
  keeps  : a ∈ m.supers b → t.Above a b
  full   : t.HasChild root n j → t.childNames j = m.substates n
  filled : n ∈ absorbed → i ≠ root → t.HasChild i n j → t.childNames j = m.substates n
  nested : n ∈ absorbed → ∃ a, a ∈ m.supers n

end Nest

namespace Machine.Rooted

variable {m : Machine} {n p : Name}

theorem super (hr : m.Rooted n) (h : m.Single) (hp : p ∈ m.supers n) : m.Rooted p := by
  obtain ⟨a, ha, hr⟩ := hr
  refine ⟨a, ha, ?_⟩
  cases hr.cases_tail
  case inl he =>
    rw [he, ha] at hp
    cases hp
  case inr hb =>
    obtain ⟨b, hb, hn⟩ := hb
    exact h n b p hn hp ▸ hb

theorem up (hr : m.Rooted n) (h : m.Single)
    (hp : ReflTransGen (fun a b => a ∈ m.supers b) p n) : m.Rooted p := by
  induction hp using ReflTransGen.head_induction_on
  case refl            => exact hr
  case head hp _ hroot => exact hroot.super h hp

-- Whoever goes up in a circle does not get out of it.
theorem irrefl (hr : m.Rooted n) (h : m.Single) :
    ¬TransGen (fun a b => a ∈ m.supers b) n n := by
  obtain ⟨a, ha, hr⟩ := hr
  induction hr
  case refl =>
    intro hc
    obtain ⟨b, _, hb⟩ := TransGen.tail'_iff.mp hc
    rw [ha] at hb
    cases hb
  case tail b n _ hb hi =>
    intro hc
    obtain ⟨c, hnc, hc⟩ := TransGen.tail'_iff.mp hc
    cases h n c b hc hb
    exact hi <| .head' hb hnc

end Machine.Rooted

namespace Nest

variable {m : Machine} {t u : Nest} {source target d i j k l : NodeId} {n p x a b : Name}
  {es : List (Name × NodeId)} {absorbed : List Name}

theorem foldl_eq_self {α β : Type _} {f : β → α → β} {b : β} {as : List α}
    (h : ∀ a ∈ as, f b a = b) : as.foldl f b = b := by
  induction as
  case nil => rfl
  case cons a as hi =>
    rw [List.foldl_cons, h a List.mem_cons_self]
    exact hi fun a' ha' => h a' <| List.mem_cons_of_mem _ ha'

section Union

theorem union.go_leaf {visited : List (NodeId × NodeId)} {agenda : List Graft} (hj : j < t.size)
    (hp : ∀ g ∈ agenda, g.parent = j)
    (hn : ((t.children j).keys ++ agenda.map Graft.name).Nodup) :
    ((union.go t visited agenda).children k).entries = (t.children k).entries ++
      if k = j then agenda.map fun g => (g.name, g.child) else [] := by
  induction agenda generalizing t
  case nil => simp [union.go]
  case cons g rest hi =>
    obtain ⟨hg, hp⟩ := List.forall_mem_cons.mp hp
    subst hg
    have hnew : g.name ∉ t.children g.parent := by
      rw [NameMap.mem_def]
      grind [List.nodup_append]
    rw [union.go, NameMap.get?_eq_none_iff.mpr hnew]
    dsimp only
    rw [hi (by simpa using hj) hp ?nodup, insertChild, children_modifyChildren]
    case nodup =>
      rw [insertChild, children_modifyChildren, if_pos ⟨rfl, hj⟩, NameMap.keys_insert, if_neg hnew]
      simpa using hn
    by_cases hk : k = g.parent
    case neg => simp [hk]
    case pos => simp [hk, hj, NameMap.entries_insert_of_not_mem hnew]

theorem children_union_leaf (hl : t.Leaf j) (hb : j < t.size) (hne : source ≠ j) :
    (t.union source j).children k = if k = j then t.children source else t.children k := by
  have hempty : (t.children j).entries = [] := List.isEmpty_iff.mp <| isEmpty_children_iff.mpr hl
  refine NameMap.ext ?_
  rw [union, if_neg hne, union.go_leaf hb]
  case hp => exact fun g hg => (mem_grafts.mp hg).1
  case hn =>
    rw [NameMap.keys, hempty, grafts, List.map_map]
    exact (t.children source).keys_nodup
  by_cases hk : k = j
  case neg => simp [hk]
  case pos => simp [hk, hempty, grafts, Function.comp_def]

end Union

namespace Plain

theorem name_eq (f : t.Plain m) (h : m.Single) (hi : i ≠ root) (hk : k ≠ root)
    (hc : t.HasChild i n j) (hc' : t.HasChild k n l) : t.name i = t.name k :=
  h n _ _ (f _ _ <| hc.holds hi) (f _ _ <| hc'.holds hk)

-- What stands below a sibling does not stand beside it.
theorem dropNested_eq (f : t.Plain m) (h : m.Single) (s : t.Sound) (hd : d ≠ root)
    (ap : t.Apart d) : t.dropNested d = t := by
  have hnone : ∀ {e e' : Name × NodeId}, t.HasChild d e.1 e.2 → t.HasChild d e'.1 e'.2 →
      t.uniteBelow? e.2 e'.2 = none := by
    intro e e' he he'
    refine Option.eq_none_iff_forall_ne_some.mpr fun u hu => ?_
    have ⟨i, j, hi, hj, _⟩ := uniteBelow?_eq_some hu
    rw [s.named he] at hj
    have hr := s.reaches_ne_root hi (s.rootless he')
    cases ap.sole hr (f.name_eq h hr hd hj he) hj
    have he'd := ap.eq_of_reaches s (s.rootless he') hi
    exact hd <| ap.alone (he'd ▸ he')
  have hgo : ∀ es : List (Name × NodeId), (∀ e ∈ es, t.HasChild d e.1 e.2) →
      dropNested.go d t es = t := by
    intro es hes
    induction es
    case nil => rfl
    case cons e es hi =>
      refine (congrArg (dropNested.go d · es) <| foldl_eq_self fun e' he' => ?_).trans ?_
      case refine_1 =>
        rw [hnone (hes e List.mem_cons_self) (hes e' (List.mem_cons_of_mem _ he'))]
      case refine_2 => exact hi fun e' he' => hes e' <| List.mem_cons_of_mem _ he'
  exact hgo _ fun e he => hasChild_iff_mem.mpr <| (perm_sortBy _).mem_iff.mp he

end Plain

namespace Growing

theorem hasChild_root_iff (g : Growing m es absorbed t) :
    t.HasChild root n j ↔ (n, j) ∈ es ∧ n ∉ absorbed := by
  simp [hasChild_iff_mem, g.top]

section Unite

variable (g : Growing m es absorbed t) (hs : t.HasChild root n source) (hj : t.HasChild i n j)
include g hs hj

theorem name_source : t.name source = t.name j :=
  (g.sound.named hs).trans (g.sound.named hj).symm

theorem sound_union : (t.union source j).Sound :=
  (union_progress g.sound (g.sound.rootless hs) (g.name_source hs hj)).sound g.sound

theorem plain_union : (t.union source j).Plain m :=
  fun a b h => g.plain a b <| holds_of_union g.sound (g.sound.rootless hs) (g.name_source hs hj) h

theorem apart_union (hx : t.HasChild root x l) (hne : x ≠ n) : (t.union source j).Apart l := by
  refine (g.apart hx).union g.sound (g.sound.rootless hs) (g.name_source hs hj) fun he => hne ?_
  exact (g.sound.named hx).symm.trans <| he ▸ g.sound.named hs

theorem hasChild_root_of_unite (hc : ((t.union source j).eraseChild root n).HasChild root x l) :
    x ≠ n ∧ t.HasChild root x l := by
  obtain ⟨hx, hc⟩ := hasChild_eraseChild.mp hc
  refine ⟨fun he => hx ⟨rfl, he⟩, ?_⟩
  exact hasChild_root_union g.sound (g.sound.rootless hs) (g.name_source hs hj)
    (g.sound.rootless hj) |>.mp hc

theorem above_unite (ht : t.HasChild root p target) (hne : p ≠ n) (hr : t.Reaches target i)
    (ha : t.Above a b) : ((t.union source j).eraseChild root n).Above a b := by
  have hx : t.Extends (t.union source j) := union_extends
  have hsu := g.sound_union hs hj
  have hlead {q : Name} {k : NodeId} (hq : t.HasChild root q k) (hqn : q ≠ n) :
      ((t.union source j).eraseChild root n).Leads root k :=
    ⟨q, hasChild_eraseChild.mpr ⟨fun he => hqn he.2, hx.child hq⟩⟩
  have htops (k : NodeId) (hk : t.Leads root k) :
      k = source ∨ ((t.union source j).eraseChild root n).Leads root k := by
    obtain ⟨q, hq⟩ := hk
    by_cases hqn : q = n
    case pos => exact .inl <| (hqn ▸ hq).unique hs
    case neg => exact .inr <| hlead hq hqn
  refine hsu.holdsFrom_eraseChild_root (fun k hk => hsu.eraseChild.rootless hk.choose_spec) ?_
  exact holdsFrom_union g.sound (g.sound.rootless hs) (g.name_source hs hj) (g.sound.bounded hj)
    htops (hlead ht hne) (hr.tail ⟨n, hj⟩) ha

variable (hi : i ≠ root)
include hi

theorem source_ne : source ≠ j :=
  fun he => hi <| (g.apart hs).alone (he ▸ hj)

theorem leaf : t.Leaf j := by
  intro _ _ hc
  have hj' := (g.apart hs).sole (g.sound.rootless hj) (g.name_source hs hj).symm hc
  exact g.source_ne hs hj hi hj'.symm

theorem children_unite : ((t.union source j).eraseChild root n).children k =
    if k = root then (t.children root).erase n
    else if k = j then t.children source else t.children k := by
  have hx : t.Extends (t.union source j) := union_extends
  have hb : root < (t.union source j).size := hx.size ▸ g.sound.rooted
  rw [eraseChild, children_modifyChildren,
    children_union_leaf (g.leaf hs hj hi) (g.sound.bounded hj) (g.source_ne hs hj hi)]
  by_cases hk : k = root
  case neg => simp [hk]
  case pos => simp [hk, hb, (g.sound.rootless hj).symm]

theorem hasChild_of_unite (hk : k ≠ root)
    (hc : ((t.union source j).eraseChild root n).HasChild k x l) :
    ∃ k', k' ≠ root ∧ t.HasChild k' x l := by
  rw [HasChild, g.children_unite hs hj hi, if_neg hk] at hc
  split at hc
  case isTrue  => exact ⟨source, g.sound.rootless hs, hc⟩
  case isFalse => exact ⟨k, hk, hc⟩

theorem unite (ht : t.HasChild root p target) (hne : p ≠ n) (hr : t.Reaches target i) :
    Growing m es (n :: absorbed) ((t.union source j).eraseChild root n) where
  sound := (g.sound_union hs hj).eraseChild
  plain a b h := g.plain_union hs hj a b <| holds_eraseChild_root.mp h
  top := by
    rw [g.children_unite hs hj hi, if_pos rfl]
    change (t.children root).entries.filter _ = _
    rw [g.top, List.filter_filter]
    refine List.filter_congr fun e _ => ?_
    grind
  apart hc := by
    obtain ⟨hx, hc⟩ := g.hasChild_root_of_unite hs hj hc
    exact (g.apart_union hs hj hc hx).eraseChild
  place hk hk' hc hc' := by
    obtain ⟨_, hk, hc⟩ := g.hasChild_of_unite hs hj hi hk hc
    obtain ⟨_, hk', hc'⟩ := g.hasChild_of_unite hs hj hi hk' hc'
    exact g.place hk hk' hc hc'
  keeps ha := g.above_unite hs hj ht hne hr <| g.keeps ha
  full {x l} hc := by
    obtain ⟨_, hc⟩ := g.hasChild_root_of_unite hs hj hc
    have hl : l ≠ j := fun he => hi <| (g.apart hc).alone (he ▸ hj)
    rw [childNames, g.children_unite hs hj hi, if_neg (g.sound.rootless hc), if_neg hl]
    exact g.full hc
  filled {x k l} hx hk hc := by
    obtain ⟨k', hk', hc'⟩ := g.hasChild_of_unite hs hj hi hk hc
    rw [childNames, g.children_unite hs hj hi, if_neg (g.sound.rootless hc')]
    split
    case isTrue hl =>
      have hn : n = x := (g.sound.named hj).symm.trans <| hl ▸ g.sound.named hc'
      exact hn ▸ g.full hs
    case isFalse hl =>
      refine g.filled ((List.mem_cons.mp hx).resolve_left fun he => hl ?_) hk' hc'
      exact g.place hk' hi (he ▸ hc') hj
  nested hx := by
    cases List.mem_cons.mp hx
    case inl hx => exact ⟨_, hx ▸ g.plain _ _ (hj.holds hi)⟩
    case inr hx => exact g.nested hx

end Unite

theorem absorb {how : Absorption} (g : Growing m es absorbed t) (h : m.Single)
    (hs : t.HasChild root n source) (ht : t.HasChild root p target) (hne : p ≠ n)
    (ha : t.absorb? source target = some (u, how)) :
    how = .united ∧ Growing m es (n :: absorbed) (u.eraseChild root n) := by
  have s := g.sound
  obtain ⟨-, d, found, hd, hdn, hf, -⟩ | ⟨hu, i, j, hr, hj, rfl⟩ := absorb?_cases ha
  case inl =>
    have hsh := shared?_eq_some hf
    obtain ⟨_, _, hc⟩ := hsh.child
    obtain ⟨_, hc'⟩ := hsh.every hc
    exact absurd (g.plain.name_eq h (s.reaches_ne_root hd (s.rootless ht)) (s.rootless hs) hc' hc) hdn
  case inr =>
    rw [s.named hs] at hj
    rw [(g.plain_union hs hj).dropNested_eq h (g.sound_union hs hj) (s.rootless ht)
      (g.apart_union hs hj ht hne)]
    exact ⟨hu, g.unite hs hj (s.reaches_ne_root hr (s.rootless ht)) ht hne hr⟩

theorem supers_of_reaches (g : Growing m es absorbed t) (hi : i ≠ root) (hr : t.Reaches i j) :
    ReflTransGen (fun a b => a ∈ m.supers b) (t.name i) (t.name j) :=
  ReflTransGen.mono g.plain _ _ <| g.sound.holds_of_reaches hi hr

theorem takes (h : m.Single) : Takes m t.candidates m.Rooted fun s =>
    Growing m (t.children root).entries s.absorbed s.nest ∧ s.warnings = [] where
  absorb {s source target _ _} hP hs ht hne hns hnt ha := by
    obtain ⟨g, hw⟩ := hP
    have hsource := g.hasChild_root_iff.mpr ⟨hasChild_iff_mem.mp <| mem_candidates_iff.mp hs, hns⟩
    have htarget := g.hasChild_root_iff.mpr ⟨hasChild_iff_mem.mp <| mem_candidates_iff.mp ht, hnt⟩
    obtain ⟨hu, g⟩ := g.absorb h hsource htarget hne ha
    subst hu
    exact ⟨g, (List.append_nil _).trans hw⟩
  rootward hP := by
    rw [hP.1.hasChild_root_iff, mem_candidates_iff, hasChild_iff_mem]
  held {s n source} hP hs hn hroot := by
    obtain ⟨g, _⟩ := hP
    obtain ⟨p, hp⟩ := List.exists_mem_of_ne_nil _ (mt List.isEmpty_iff.mpr hn)
    obtain ⟨k, i, l, ⟨q, hq⟩, hr, rfl, hc⟩ := g.keeps hp
    have hqp := g.supers_of_reaches (g.sound.rootless hq) hr
    rw [g.sound.named hq] at hqp
    refine ⟨q, k, i, l, hq, ?_, hroot.up h (hqp.tail hp), hr, g.sound.named hs ▸ hc⟩
    rintro rfl
    exact hroot.irrefl h <| .tail' hqp hp

end Growing

theorem Flat.growing (f : Flat m (ofMachine.parents m) t) (h : m.Single) :
    Growing m (t.children root).entries [] t where
  sound    := f.sound
  plain    := fun _ _ => f.holds
  top      := by simp
  apart    := f.apart
  keeps    := f.above
  full     := f.subs
  filled   := nofun
  nested   := nofun
  place {i k n _ _} hi hk hc hc' := by
    have hn : t.name i = t.name k := h n _ _ (f.holds <| hc.holds hi) (f.holds <| hc'.holds hk)
    have hik : i = k := (f.flat hc hi).1.unique <| hn ▸ (f.flat hc' hk).1
    exact hc.unique <| hik ▸ hc'

section Merged

variable (h : m.Single)
include h

theorem merged_growing_and : Growing m ((ofMachine m).children root).entries
    ((ofMachine m).simplify m).absorbed (merged m) ∧ ((ofMachine m).simplify m).warnings = [] :=
  simplify_kept (Growing.takes h).toKept ⟨ofMachine_flat.growing h, rfl⟩

theorem merged_growing : Growing m ((ofMachine m).children root).entries
    ((ofMachine m).simplify m).absorbed (merged m) :=
  (merged_growing_and h).1

theorem warnings_simplify : ((ofMachine m).simplify m).warnings = [] :=
  (merged_growing_and h).2

-- Only in a circle, or below one, can a state be left at the root that inherits from something.
theorem mem_absorbed (hn : n ∈ ofMachine.parents m) (hs : m.supers n ≠ []) (hr : m.Rooted n) :
    n ∈ ((ofMachine m).simplify m).absorbed := by
  obtain ⟨j, hj⟩ := ofMachine_flat.top.mpr hn
  exact mem_absorbed_simplify (Growing.takes h) ⟨ofMachine_flat.growing h, rfl⟩ hj
    (mt List.isEmpty_iff.mp hs) hr

end Merged

end Nest

end Statechart
