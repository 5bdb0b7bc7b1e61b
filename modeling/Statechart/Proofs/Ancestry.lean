import Statechart.Proofs.OneSuper

open Relation

namespace Statechart.Nest

namespace Simplification

def taken? (s : Simplification) (source : Name × NodeId) (targets : List (Name × NodeId)) :
    Option ((Name × NodeId) × Nest × Absorption) :=
  if source.1 ∈ s.absorbed then none
  else targets.findSome? fun target =>
    if target.1 ∈ s.absorbed then none else (s.nest.absorb? source.2 target.2).map (target, ·)

def absorptions (m : Machine) (s : Simplification) :
    List (Name × NodeId) → List (Name × Absorption)
  | []             => []
  | source :: rest =>
    ((s.taken? source rest).toList.map fun r => (source.1, r.2.2)) ++
      absorptions m (absorbNext m source s rest) rest

end Simplification

def absorptions (t : Nest) (m : Machine) : List (Name × Absorption) :=
  let tops := t.candidates.filter (isTop m ·.1)
  let others := t.candidates.filter (!isTop m ·.1)
  Simplification.absorptions m { nest := t } tops ++
    Simplification.absorptions m (Simplification.absorbAll m { nest := t } tops) (others ++ tops)

structure Logged (m : Machine) (candidates : List (Name × NodeId))
    (P : Simplification → List (Name × Absorption) → Prop) : Prop where
  absorb : P s log → source ∈ candidates → target ∈ candidates → target.1 ≠ source.1 →
    source.1 ∉ s.absorbed → target.1 ∉ s.absorbed →
    s.nest.absorb? source.2 target.2 = some (u, how) →
    P (s.put m source target u how) (log ++ [(source.1, how)])

-- Whatever stands below a state that it does not inherit from has been substituted.
structure Explained (m : Machine) (candidates : List (Name × NodeId)) (s : Simplification)
    (log : List (Name × Absorption)) : Prop where
  merging : Merging m candidates s.absorbed s.nest
  gains   : TransGen s.nest.Holds a b →
    TransGen (fun a b => a ∈ m.supers b) a b ∨ (b, .substituted) ∈ log

variable {m : Machine} {t u : Nest} {how : Absorption} {a b n : Name} {source target : NodeId}
  {P : Simplification → List (Name × Absorption) → Prop} {log : List (Name × Absorption)}
  {candidates : List (Name × NodeId)}

namespace Simplification

variable {s : Simplification} {e : Name × NodeId} {es targets : List (Name × NodeId)}

theorem absorbNext_eq : absorbNext m e s targets =
    (s.taken? e targets).elim s fun r => s.put m e r.1 r.2.1 r.2.2 := by
  unfold absorbNext taken?
  split
  case isTrue  => rfl
  case isFalse =>
    induction targets
    case nil => rfl
    case cons target targets hi =>
      unfold absorbInto
      rw [List.findSome?_cons]
      split
      case isTrue  => exact hi
      case isFalse =>
        cases s.nest.absorb? e.2 target.2
        case none => exact hi
        case some => rfl

theorem taken?_eq_some {r : (Name × NodeId) × Nest × Absorption}
    (h : s.taken? e targets = some r) : e.1 ∉ s.absorbed ∧ r.1 ∈ targets ∧ r.1.1 ∉ s.absorbed ∧
      s.nest.absorb? e.2 r.1.2 = some r.2 := by
  obtain ⟨he, h⟩ := Option.ite_none_left_eq_some.mp h
  obtain ⟨target, ht, h⟩ := List.exists_of_findSome?_eq_some h
  obtain ⟨hn, h⟩ := Option.ite_none_left_eq_some.mp h
  obtain ⟨r, hr, rfl⟩ := Option.map_eq_some_iff.mp h
  exact ⟨he, ht, hn, hr⟩

theorem absorbAll_logged (k : Logged m candidates P) (h : P s log) (he : es ⊆ candidates)
    (hn : (es.map Prod.fst).Nodup) : P (absorbAll m s es) (log ++ absorptions m s es) := by
  induction es generalizing s log
  case nil => exact (List.append_nil log).symm ▸ h
  case cons e es hi =>
    obtain ⟨hne, hn⟩ := List.nodup_cons.mp hn
    obtain ⟨hm, he⟩ := List.cons_subset.mp he
    rw [absorbAll_cons, absorptions, ← List.append_assoc]
    refine hi ?_ he hn
    rw [absorbNext_eq]
    cases hr : s.taken? e es
    case none => exact (List.append_nil log).symm ▸ h
    case some r =>
      obtain ⟨hns, ht, hnt, ha⟩ := taken?_eq_some hr
      refine k.absorb h hm (he ht) (fun hc => hne ?_) hns hnt ha
      exact hc ▸ List.mem_map_of_mem ht

end Simplification

theorem simplify_logged (k : Logged m t.candidates P) (h : P { nest := t } []) :
    P (t.simplify m) (t.absorptions m) := by
  rw [simplify_eq]
  have hs : (t.candidates.filter (isTop m ·.1)).Sublist t.candidates := List.filter_sublist
  have htops := Simplification.absorbAll_logged k h hs.subset <|
    nodup_candidates.sublist <| hs.map Prod.fst
  exact Simplification.absorbAll_logged k htops perm_candidates.subset <|
    (perm_candidates.map Prod.fst).nodup_iff.mpr nodup_candidates

theorem map_fst_absorptions :
    (t.absorptions m).map Prod.fst = (t.simplify m).absorbed.reverse := by
  have k : Logged m t.candidates fun s log => log.map Prod.fst = s.absorbed.reverse := by
    refine ⟨fun h _ _ _ _ _ _ => ?_⟩
    rw [List.map_append, h]
    exact (List.reverse_cons ..).symm
  exact simplify_logged k rfl

theorem length_absorptionWarning (h : t.absorb? source target = some (u, how)) :
    (absorptionWarning m a (t.childNames source) b how).length =
      [(a, how)].countP (·.2 = .substituted) := by
  obtain ⟨rfl, _, _, _, _, hf, _⟩ | ⟨rfl, _⟩ := absorb?_cases h
  case inr => rfl
  case inl =>
    obtain ⟨x, hx⟩ := (shared?_eq_some hf).child
    have hne : t.childNames source ≠ [] := List.ne_nil_of_mem <| mem_childNames_iff.mpr hx
    cases ht : isTop m a <;> simp [absorptionWarning, hne, ht]

theorem countP_absorptions :
    (t.absorptions m).countP (·.2 = .substituted) = (t.simplify m).warnings.length := by
  have k : Logged m t.candidates fun s log =>
      log.countP (·.2 = .substituted) = s.warnings.length := by
    refine ⟨fun h _ _ _ _ _ ha => ?_⟩
    rw [List.countP_append, h, ← length_absorptionWarning ha]
    exact List.length_append.symm
  exact simplify_logged k rfl

section Ancestry

-- A union moves children about between nodes of one name, so that only by a substitution something
-- comes to stand below another name.
theorem transGen_holds_of_absorb? (s : t.Sound) (ac : t.Acyclic) (hs : source ≠ root)
    (hb : source < t.size) (hp : t.Apart source) (ht : target ≠ root)
    (h : t.absorb? source target = some (u, how)) (hab : TransGen u.Holds a b) :
    TransGen t.Holds a b ∨ how = .substituted ∧ b = t.name source := by
  have ha := absorb?_absorbs s ac hs hb hp ht h
  obtain ⟨hh, -⟩ | ⟨-, i, j, hi, hj, rfl⟩ := absorb?_cases h
  case inl => exact (ha.gains hab).imp_right fun hb => ⟨hh, hb.1⟩
  case inr =>
    have hu := absorbs_union s ac hs hi hj
    have r := dropNested_rearranges hu.sound hu.acyclic ht
    refine .inl <| TransGen.mono (fun _ _ h => ?_) _ _ hab
    exact holds_of_union s hs (s.named hj).symm <| r.holds h

theorem Explained.logged : Logged m candidates (Explained m candidates) where
  absorb {s log source target u how} h hs ht hne hns hnt ha := by
    refine { merging := Merging.kept.absorb h.merging hs ht hne hns hnt ha, gains := fun hab => ?_ }
    obtain ⟨hm, hg⟩ := h
    have hsource := hm.rootward.mpr ⟨hs, hns⟩
    have htarget := hm.rootward.mpr ⟨ht, hnt⟩
    replace hab := TransGen.mono (fun _ _ => holds_eraseChild_root.mp) _ _ hab
    obtain hab | ⟨rfl, rfl⟩ := transGen_holds_of_absorb? hm.sound hm.acyclic
      (hm.sound.rootless hsource) (hm.sound.bounded hsource) (hm.apart hsource)
      (hm.sound.rootless htarget) ha hab
    case inl => exact (hg hab).imp_right <| List.mem_append_left _
    case inr =>
      rw [hm.sound.named hsource]
      exact .inr <| List.mem_append_right _ <| List.mem_singleton_self _

end Ancestry

end Statechart.Nest

namespace Statechart.Machine

open Nest

-- Merging loses nothing of what inherits from what, and adds to it only for the states that are put
-- in the place of their substates. The log has just the states that have been absorbed, and its
-- substitutions are as many as the warnings.
theorem merged_keeps_ancestry (m : Machine)
    (ac : ∀ n, ¬TransGen (fun a b => a ∈ m.supers b) n n) :
    (∀ a b, TransGen (fun a b => a ∈ m.supers b) a b → TransGen (Nest.merged m).Above a b) ∧
    (∀ a b, TransGen (Nest.merged m).Above a b →
      TransGen (fun a b => a ∈ m.supers b) a b ∨
        (b, .substituted) ∈ (Nest.ofMachine m).absorptions m) ∧
    ((Nest.ofMachine m).absorptions m).map Prod.fst =
      ((Nest.ofMachine m).simplify m).absorbed.reverse ∧
    ((Nest.ofMachine m).absorptions m).countP (·.2 = .substituted) =
      ((Nest.ofMachine m).simplify m).warnings.length := by
  have hm := merged_merged ac
  have hstart : Explained m (Nest.ofMachine m).candidates { nest := Nest.ofMachine m } [] := {
    merging   := ofMachine_flat.merging ac
    gains hab := .inl <| TransGen.mono (fun _ _ => ofMachine_flat.holds) _ _ hab
  }
  refine ⟨fun a b hab => ?kept, fun a b hab => ?gained, map_fst_absorptions, countP_absorptions⟩
  case kept => exact TransGen.closed (fun _ _ => hm.keeps) _ _ hab
  case gained =>
    refine (simplify_logged Explained.logged hstart).gains ?_
    exact TransGen.mono (fun _ _ => hm.sound.holds_of_above) _ _ hab

-- All that inherits from `q` inherits from `p` as well, and all that inherits from `x` inherits
-- from `r`: they are put in between.
def stackedUp : Machine where
  states := .ofList [
    ("x", { supers := .ofList ["p", "q"] }),
    ("y", { supers := .ofList ["p", "r"] }),
    ("w", { supers := .ofList ["x", "r"] }),
    ("p", {}),
    ("q", {}),
    ("r", {})
  ]

theorem merged_keeps_ancestry_stackedUp : stackedUp.isAcyclic ∧
    TransGen (Nest.merged stackedUp).Above "p" "w" ∧
    TransGen (Nest.merged stackedUp).Above "r" "x" ∧ "r" ∉ stackedUp.hierarchy "x" ∧
    ("x", .substituted) ∈ (Nest.ofMachine stackedUp).absorptions stackedUp := by
  have ac : stackedUp.isAcyclic := by decide +kernel
  obtain ⟨hk, hg, _⟩ := merged_keeps_ancestry stackedUp (isAcyclic_iff.mp ac)
  have hpw : TransGen (fun a b => a ∈ stackedUp.supers b) "p" "w" :=
    .tail (b := "x") (.single (by decide +kernel)) (by decide +kernel)
  have hr : ((Nest.merged stackedUp).children root).get? "r" = some 11 := by decide +kernel
  have hx : ((Nest.merged stackedUp).children 11).get? "x" = some 14 := by decide +kernel
  have hrx : TransGen (Nest.merged stackedUp).Above "r" "x" :=
    .single ⟨11, 11, 14, ⟨"r", hr⟩, .refl, by decide +kernel, hx⟩
  have hn : "r" ∉ stackedUp.hierarchy "x" := by decide +kernel
  refine ⟨ac, hk _ _ hpw, hrx, hn, (hg _ _ hrx).resolve_left fun h => hn ?_⟩
  exact mem_hierarchy_iff.mpr <| reflTransGen_swap.mp h.to_reflTransGen

end Statechart.Machine
