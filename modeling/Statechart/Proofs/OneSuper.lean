import Mathlib.Data.List.Count
import Statechart.Proofs.Hierarchy

open Relation

namespace Statechart

namespace Nest

def Remarked (m : Machine) (s : Simplification) : Prop :=
  ∀ n ∈ s.absorbed, m.supers n = [] → ∃ p, .implicitSuper n p ∈ s.warnings

variable {m : Machine} {t u : Nest} {source target : NodeId} {n p a : Name}
  {candidates : List (Name × NodeId)} {absorbed : List Name} {how : Absorption}

-- What inherits from nothing stands below nothing as long as it is at the root, so that there is no
-- node to unite it with.
theorem Merging.absorptionWarning_eq (h : Merging m candidates absorbed t)
    (hs : t.HasChild root n source) (ht : t.HasChild root p target) (hn : m.supers n = [])
    (ha : t.absorb? source target = some (u, how)) :
    absorptionWarning m n (t.childNames source) p how = [.implicitSuper n p] := by
  obtain ⟨rfl, d, found, _, _, hf, _⟩ | ⟨-, i, j, hi, hj, _⟩ := absorb?_cases ha
  case inl =>
    obtain ⟨x, hx⟩ := (shared?_eq_some hf).child
    have hne : t.childNames source ≠ [] := List.ne_nil_of_mem <| mem_childNames_iff.mpr hx
    simp [absorptionWarning, isTop, hn, hne]
  case inr =>
    rw [h.sound.named hs] at hj
    have hi := h.sound.reaches_ne_root hi (h.sound.rootless ht)
    exact absurd (hj.holds hi) (h.tops hs hn)

theorem Remarked.kept : Kept m candidates fun s =>
    Merging m candidates s.absorbed s.nest ∧ Remarked m s where
  absorb h hs ht hne hns hnt ha := by
    obtain ⟨hm, hr⟩ := h
    refine ⟨Merging.kept.absorb hm hs ht hne hns hnt ha, fun n hn htop => ?_⟩
    cases List.mem_cons.mp hn
    case inr hn =>
      obtain ⟨p, hp⟩ := hr n hn htop
      exact ⟨p, List.mem_append_left _ hp⟩
    case inl hn =>
      subst hn
      have hsource := hm.rootward.mpr ⟨hs, hns⟩
      have htarget := hm.rootward.mpr ⟨ht, hnt⟩
      have hw := hm.absorptionWarning_eq hsource htarget htop ha
      exact ⟨_, List.mem_append_right _ <| hw ▸ List.mem_singleton_self _⟩

theorem exists_implicitSuper (ac : ∀ n, ¬TransGen (fun a b => a ∈ m.supers b) n n)
    (hn : n ∈ ofMachine.parents m) (ht : m.supers n = []) (ha : (merged m).Above a n) :
    ∃ p, .implicitSuper n p ∈ ((ofMachine m).simplify m).warnings := by
  obtain ⟨hm, hr⟩ : Merging m (ofMachine m).candidates _ (merged m) ∧ Remarked m _ :=
    simplify_kept Remarked.kept ⟨ofMachine_flat.merging ac, fun _ hn => absurd hn List.not_mem_nil⟩
  refine hr n ?_ ht
  by_contra hna
  obtain ⟨j, hj⟩ := ofMachine_flat.top.mpr hn
  have hroot := hm.rootward.mpr ⟨mem_candidates_iff.mpr hj, hna⟩
  exact hm.tops hroot ht <| hm.sound.holds_of_above ha

theorem kind_of_mem_warnings {w : Warning} (h : w ∈ ((ofMachine m).simplify m).warnings) :
    w.kind = .implicitSuper ∨ w.kind = .redundantSuper := by
  have k : Kept m (ofMachine m).candidates fun s =>
      ∀ w ∈ s.warnings, w.kind = .implicitSuper ∨ w.kind = .redundantSuper := by
    refine ⟨fun h _ _ _ _ _ _ w hw => ?_⟩
    cases List.mem_append.mp hw
    case inl hw => exact h w hw
    case inr hw =>
      revert hw
      fun_cases absorptionWarning
      all_goals
        intro hw
        simp_all [Warning.implicitSuper, Warning.redundantSuper]
  exact simplify_kept k (fun _ hw => absurd hw List.not_mem_nil) w h

theorem intersection_not_mem_warnings : .intersection n ∉ ((ofMachine m).simplify m).warnings := by
  intro h
  cases kind_of_mem_warnings h
  case inl hk => cases hk
  case inr hk => cases hk

end Nest

namespace Machine

open Nest

variable {m : Machine} {z a : Name}

def isAcyclic (m : Machine) : Bool :=
  m.states.keys.all fun n => (m.supers n).all (n ∉ m.hierarchy ·)

theorem isAcyclic_iff : m.isAcyclic ↔ ∀ n, ¬TransGen (fun a b => a ∈ m.supers b) n n := by
  simp only [isAcyclic, List.all_eq_true, decide_eq_true_eq, mem_hierarchy_iff]
  constructor
  case mp =>
    intro h n hn
    obtain ⟨p, hp, hn⟩ := TransGen.head'_iff.mp <| transGen_swap.mp hn
    refine h n ?_ p hp hn
    by_contra hk
    rw [supers_eq_nil hk] at hp
    cases hp
  case mpr =>
    intro h n _ p hp hn
    exact h n <| transGen_swap.mp <| .head' hp hn

def remarks (m : Machine) : List Warning :=
  ((ofMachine m).simplify m).warnings ++ (Nest.merged m).intersections.keys.map .intersection

theorem warnings_resolve : m.resolve.warnings = m.warnings ++ m.remarks := by
  have h : (((m.separate m.lost).settle m.lifted).reorder m.lifted.order).warnings = m.warnings :=
    apply_reorder_settle fun _ _ => rfl
  rw [remarks, ← List.append_assoc, ← h]
  rfl

theorem count_remarks : m.remarks.count (.intersection z) =
    if z ∈ (Nest.merged m).intersections then 1 else 0 := by
  have hinj : Function.Injective Warning.intersection := fun _ _ h => congrArg Warning.subject h
  rw [remarks, List.count_append, List.count_eq_zero.mpr intersection_not_mem_warnings,
    Nat.zero_add, List.count_map_of_injective _ _ hinj, (NameMap.keys_nodup _).count]
  rfl

section Supers

variable {names : List Name} (h : Merged m names (Nest.merged m))
include h

theorem placed_lifted (hz : z ∈ names) :
    (∃ a, m.lifted.Above a z) ∨ ∃ j, m.lifted.HasChild root z j := by
  by_cases hi : z ∈ (Nest.merged m).intersections
  case pos =>
    obtain ⟨j, _, hj⟩ := (liftAll_lifted (t := Nest.merged m)).new hi
    exact .inr ⟨j, hj⟩
  case neg =>
    cases h.placed hz
    case inl hr =>
      obtain ⟨j, hj⟩ := hr
      exact .inr ⟨j, liftAll_lifted.old hi |>.mpr hj⟩
    case inr ha =>
      obtain ⟨a, ha⟩ := ha
      exact .inl ⟨a, h.above_liftAll hi |>.mpr ha⟩

theorem supers_resolve_cases_lifted (hz : z ∈ m.states) (hn : z ∈ names) :
    m.resolve.supers z = [] ∨ ∃ a, m.lifted.Above a z ∧ m.resolve.supers z = [a] := by
  have hz' : z ∈ (m.separate m.lost).states := separate_derives.mem_states.mpr hz
  rw [supers_resolve]
  by_cases ha : ∃ a, m.lifted.Above a z
  case pos =>
    obtain ⟨a, ha⟩ := ha
    exact .inr <| exists_supers_settle hz' ha
  case neg =>
    obtain ⟨j, hj⟩ := (placed_lifted h hn).resolve_left ha
    exact .inl <| supers_settle_of_top hz' (fun b hb => ha ⟨b, hb⟩) hj

theorem supers_resolve_cases (hz : z ∈ m.states) (hn : z ∈ names) :
    m.resolve.supers z = [] ∨ ∃ a, (Nest.merged m).Above a z ∧ m.resolve.supers z = [a] :=
  (supers_resolve_cases_lifted h hz hn).imp_right fun ⟨a, ha, hs⟩ => ⟨a, h.above_of_liftAll ha, hs⟩

theorem exists_supers_resolve (hz : z ∈ m.states) (hi : z ∉ (Nest.merged m).intersections)
    (ha : (Nest.merged m).Above a z) : ∃ b, m.resolve.supers z = [b] := by
  rw [supers_resolve]
  obtain ⟨b, _, hs⟩ := exists_supers_settle (separate_derives.mem_states.mpr hz)
    (h.above_liftAll hi |>.mpr ha)
  exact ⟨b, hs⟩

end Supers

-- Whatever inherits from whatever else, as long as nothing inherits from itself: the machine that
-- results is a forest, and warnings tell where that was not to be had for nothing.
theorem resolves_to_forest (m : Machine) (ac : ∀ n, ¬TransGen (fun a b => a ∈ m.supers b) n n) :
    ∃ new, m.resolve.warnings = m.warnings ++ new ∧
      (∀ z, (m.resolve.supers z).length ≤ 1) ∧
      (∀ n, ¬TransGen (fun a b => a ∈ m.resolve.supers b) n n) ∧
      ∀ z ∈ m.states,
        (m.supers z ≠ [] → .intersection z ∉ new → ∃ a, m.resolve.supers z = [a]) ∧
        (m.supers z = [] → m.resolve.supers z ≠ [] → ∃ p, .implicitSuper z p ∈ new) := by
  have h := merged_merged ac
  have hcases (z : Name) :
      m.resolve.supers z = [] ∨ ∃ a, (Nest.merged m).Above a z ∧ m.resolve.supers z = [a] := by
    by_cases hz : z ∈ m.states
    case pos => exact supers_resolve_cases h hz <| Ordered.mem_parents hz
    case neg => exact .inl <| supers_eq_nil <| mt resolve_derives.mem_states.mp hz
  have habove {a z : Name} (ha : a ∈ m.resolve.supers z) : (Nest.merged m).Above a z := by
    obtain hs | ⟨b, hb, hs⟩ := hcases z <;> rw [hs] at ha
    case inl => cases ha
    case inr => exact List.mem_singleton.mp ha ▸ hb
  refine ⟨m.remarks, warnings_resolve, fun z => ?single, fun n hn => ?acyclic,
    fun z hz => ⟨fun hs hi => ?kept, fun hs hs' => ?implicit⟩⟩
  case single => obtain hs | ⟨_, _, hs⟩ := hcases z <;> simp [hs]
  case acyclic =>
    exact h.acyclic n <| TransGen.mono (fun _ _ ha => h.sound.holds_of_above (habove ha)) _ _ hn
  case kept =>
    obtain ⟨b, hb⟩ := List.exists_mem_of_ne_nil _ hs
    obtain ⟨a, _, ha⟩ := TransGen.tail'_iff.mp <| h.keeps hb
    refine exists_supers_resolve h hz (fun hm => hi ?_) ha
    exact List.mem_append_right _ <| List.mem_map_of_mem hm
  case implicit =>
    obtain ⟨a, ha⟩ := List.exists_mem_of_ne_nil _ hs'
    obtain ⟨p, hp⟩ := exists_implicitSuper ac (Ordered.mem_parents hz) hs (habove ha)
    exact ⟨p, List.mem_append_left _ hp⟩

-- Of the superstates only `e` is a state, and it comes to stand below `c`. Neither of `a` and `b` can
-- be put below the other.
def mixedSupers : Machine where
  states := .ofList [
    ("q", { supers := .ofList ["c", "e"] }),
    ("r", { supers := .ofList ["c"] }),
    ("x", { supers := .ofList ["a", "b"] }),
    ("y", { supers := .ofList ["a"] }),
    ("z", { supers := .ofList ["b"] }),
    ("e", {})
  ]

theorem resolves_to_forest_mixedSupers :
    (∀ n, ¬TransGen (fun a b => a ∈ mixedSupers.supers b) n n) ∧
    (∀ z, (mixedSupers.resolve.supers z).length ≤ 1) ∧
    mixedSupers.supers "q" ≠ [] ∧ .intersection "q" ∉ mixedSupers.resolve.warnings ∧
    (∃ a, mixedSupers.resolve.supers "q" = [a]) ∧
    mixedSupers.supers "e" = [] ∧ mixedSupers.resolve.supers "e" ≠ [] ∧
    ∃ p, .implicitSuper "e" p ∈ mixedSupers.resolve.warnings := by
  have ac := isAcyclic_iff (m := mixedSupers) |>.mp (by decide +kernel)
  have hq : Warning.intersection "q" ∉ mixedSupers.resolve.warnings := by decide +kernel
  have hs : mixedSupers.resolve.supers "e" ≠ [] := by decide +kernel
  obtain ⟨new, hw, hone, _, hstates⟩ := resolves_to_forest mixedSupers ac
  have hw : mixedSupers.resolve.warnings = new := hw
  obtain ⟨hkept, _⟩ := hstates "q" (by decide +kernel)
  obtain ⟨_, himplicit⟩ := hstates "e" (by decide +kernel)
  rw [hw] at hq ⊢
  exact ⟨ac, hone, by decide +kernel, hq, hkept (by decide +kernel) hq, by decide +kernel, hs,
    himplicit (by decide +kernel) hs⟩

end Machine

end Statechart
