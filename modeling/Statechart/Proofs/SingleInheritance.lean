import Mathlib.Data.List.Pairwise
import Statechart.Proofs.Boundary
import Statechart.Proofs.Nest.Forest

open Relation

namespace Statechart

namespace Chart

-- A state, its superstate and so on, up to a state that inherits from nothing.
inductive Path (c : Chart) : Name → List Name → Prop
  | top  : (∀ p, ¬c.Inherits z p) → Path c z [z]
  | step : c.Inherits z p → Path c p path → Path c z (z :: path)

def Single (c : Chart) : Prop :=
  ∀ x p q, c.Inherits x p → c.Inherits x q → p = q

variable {c : Chart} {x z event : Name} {a a' : Arrow} {path path' : List Name}

theorem Path.unique (hs : c.Single) (h : c.Path z path) (h' : c.Path z path') : path = path' := by
  induction h generalizing path'
  case top hn =>
    cases h'
    case top       => rfl
    case step _ hp => exact absurd hp (hn _)
  case step hp _ hi =>
    cases h'
    case top hn      => exact absurd hp (hn _)
    case step hq hp' => rw [hi (hs _ _ _ hp hp' ▸ hq)]

theorem Reacts.unique (h : c.faults = []) (ha : c.Reacts x event a) (ha' : c.Reacts x event a') :
    a = a' := by
  simp only [faults, List.append_eq_nil_iff, duplicateFaults, List.map_eq_nil_iff] at h
  obtain ⟨hn, hd⟩ := List.nodup_flatMap.mp (repeats_eq_nil_iff.mp h.1.2)
  obtain ⟨b, hb, hx, hm, he⟩ := ha
  obtain ⟨b', hb', hx', hm', he'⟩ := ha'
  have hin : ∀ {b : Block} {a : Arrow}, b.head.name = x → a ∈ b.arrows → a.event = some event →
      (x, event) ∈ (b.arrows.filterMap (·.event)).map (b.head.name, ·) := by
    intro b a hx hm he
    exact List.mem_map.mpr ⟨event, List.mem_filterMap.mpr ⟨a, hm, he⟩, hx ▸ rfl⟩
  have hbb : b = b' := by
    by_contra hne
    have : Std.Symm (Function.onFun List.Disjoint fun b : Block =>
      (b.arrows.filterMap (·.event)).map (b.head.name, ·)) := ⟨fun _ _ h _ hx hx' => h hx' hx⟩
    exact hd.forall hb hb' hne (hin hx hm he) (hin hx' hm' he')
  subst hbb
  by_contra hne
  have hn := List.pairwise_filterMap.mp <| List.Nodup.of_map _ (hn b hb)
  have : Std.Symm fun a a' : Arrow => ∀ e, a.event = some e → ∀ e', a'.event = some e' → e ≠ e' :=
    ⟨fun _ _ h _ he _ he' hc => h _ he' _ he hc.symm⟩
  exact hn.forall hm hm' hne _ he _ he' rfl

end Chart

namespace Machine

open Nest

variable {m : Machine} {z a b : Name} {as : List Name}

section Single

variable (hs : m.Single)
include hs

theorem reach_resolve (l : m.Lineage z as) : m.resolve.reach z = as.flatMap m.transitionsOf := by
  rw [reach_eq, l.chain_eq, List.reverse_reverse]
  refine List.flatMap_congr fun a _ => ?_
  have hi : ∀ {a}, a ∉ (merged m).intersections := (merged_growing hs).not_mem_intersections hs
  rw [transitionsOf_resolve, transitionsOf_inheritAll_of_not_mem hi]
  simp only [border_of_not_mem hi hi]
  exact List.map_id' _

variable (h : m.Ordered)
include h

theorem exists_lineage_of_single (hz : z ∈ m.states) : ∃ as, m.Lineage z as :=
  exists_lineage h hz ((merged_growing hs).clear hs) ((merged_growing hs).not_mem_intersections hs)

theorem mem_supers_resolve (hz : z ∈ m.states) : a ∈ m.resolve.supers z ↔ a ∈ m.supers z := by
  have hab : ∀ {a}, (merged m).Above a z ↔ a ∈ m.supers z := (merged_growing hs).above_iff_supers
  by_cases hex : ∃ b, (merged m).Above b z
  case neg =>
    rw [supers_resolve_of_top h.merged hz (Ordered.mem_parents hz) fun b hb => hex ⟨b, hb⟩]
    exact iff_of_false List.not_mem_nil fun ha => hex ⟨a, hab.mpr ha⟩
  case pos =>
    have ⟨b, hb⟩ := hex
    rw [supers_resolve_of_above h.merged hz ((merged_growing hs).clear hs).not_divided
      ((merged_growing hs).not_mem_intersections hs) hb, List.mem_singleton]
    exact ⟨fun he => he ▸ hab.mp hb, fun ha => hs z a b ha (hab.mp hb)⟩

end Single

end Machine

section Chart

variable {c : Chart} {x z event : Name} {a : Chart.Arrow} {path near far : List Name}

theorem Machine.single_ofChart (h : c.faults = []) (hs : c.Single) : (ofChart c).Single := by
  intro x a b ha hb
  exact hs x a b (mem_supers_ofChart h |>.mp ha) (mem_supers_ofChart h |>.mp hb)

variable (hf : c.faults = []) (ac : c.Acyclic) (hs : c.Single)
include hf hs

theorem isSome_find?_iff (l : (Machine.ofChart c).Lineage z path) :
    (((Machine.ofChart c).resolve.table z).find? event).isSome ↔
      ∃ x ∈ path, ∃ a, c.Reacts x event a := by
  rw [Machine.find?_table, Option.isSome_map, List.find?_isSome,
    Machine.reach_resolve (Machine.single_ofChart hf hs) l]
  simp only [List.mem_flatMap, decide_eq_true_eq]
  constructor
  case mp =>
    intro ⟨t, ⟨x, hx, ht⟩, he⟩
    have ⟨a, ha, _⟩ := Machine.mem_transitionsOf_ofChart hf |>.mp ⟨ht, he⟩
    exact ⟨x, hx, a, ha⟩
  case mpr =>
    intro ⟨x, hx, a, ha⟩
    have ⟨ht, he⟩ := Machine.mem_transitionsOf_ofChart hf |>.mpr ⟨a, ha, rfl⟩
    exact ⟨_, ⟨x, hx, ht⟩, he⟩

theorem find?_reach (l : (Machine.ofChart c).Lineage z path) (hp : path = near ++ x :: far)
    (hn : ∀ y ∈ near, ∀ b, ¬c.Reacts y event b) (ha : c.Reacts x event a) :
    ((Machine.ofChart c).resolve.reach z).find? (·.event = some event) =
      some ⟨some event, a.target x, a.actions⟩ := by
  have hnear : (near.flatMap (Machine.ofChart c).transitionsOf).find? (·.event = some event) =
      none := by
    refine List.find?_eq_none.mpr fun t ht he => ?_
    have ⟨y, hy, ht⟩ := List.mem_flatMap.mp ht
    have ⟨b, hb, _⟩ := Machine.mem_transitionsOf_ofChart hf |>.mp ⟨ht, of_decide_eq_true he⟩
    exact hn y hy b hb
  have hx : ((Machine.ofChart c).transitionsOf x).find? (·.event = some event) =
      some ⟨some event, a.target x, a.actions⟩ := by
    have ⟨ht, he⟩ := Machine.mem_transitionsOf_ofChart hf |>.mpr ⟨a, ha, rfl⟩
    have ⟨t, ht⟩ := Option.isSome_iff_exists.mp <| List.find?_isSome
      (p := fun t : Transition => decide (t.event = some event)) |>.mpr ⟨_, ht, decide_eq_true he⟩
    have he := List.find?_some ht
    simp only [decide_eq_true_eq] at he
    have ⟨b, hb, htb⟩ :=
      Machine.mem_transitionsOf_ofChart hf |>.mp ⟨List.mem_of_find?_eq_some ht, he⟩
    rw [ht, htb, ha.unique hf hb]
  rw [Machine.reach_resolve (Machine.single_ofChart hf hs) l, hp,
    List.flatMap_append, List.flatMap_cons, List.find?_append, List.find?_append, hnear, hx]
  rfl

include ac

theorem Chart.path_of_line (hz : z ∈ c.subjects)
    (l : (Machine.ofChart c).resolve.inheritance.Line z path) : c.Path z path := by
  have hsup : ∀ {z p}, z ∈ c.subjects →
      (p ∈ (Machine.ofChart c).resolve.inheritance.next z ↔ c.Inherits z p) := fun hz =>
    (Machine.mem_supers_resolve (Machine.single_ofChart hf hs) (Machine.ordered_ofChart hf ac) <|
      Machine.mem_states_ofChart.mpr hz).trans <| Machine.mem_supers_ofChart hf
  induction l
  case last hn =>
    refine .top fun p hp => ?_
    have := hsup hz |>.mpr hp
    rw [hn] at this
    exact nomatch this
  case cons hn _ _ hi =>
    have hp := hsup hz |>.mp (hn ▸ List.mem_singleton_self _)
    exact .step hp <| hi (hp.defined hf)

theorem exists_path (hz : z ∈ c.subjects) :
    ∃ path, (Machine.ofChart c).Lineage z path ∧ c.Path z path := by
  have ⟨path, l⟩ := Machine.exists_lineage_of_single (Machine.single_ofChart hf hs)
    (Machine.ordered_ofChart hf ac) (Machine.mem_states_ofChart.mpr hz)
  exact ⟨path, l, Chart.path_of_line hf ac hs hz l.line⟩

end Chart

variable {s : Settings} {source : String} {c : Chart} {d : Dispatch}

-- Where no state has two superstates, there is one table for each concrete state. It tells for each
-- event what the nearest state on the way up says, and what is left and entered on the way to the
-- next state.
theorem Settings.Produces.follows_path (h : s.Produces source c d) (hs : c.Single)
    (ac : c.Acyclic) :
    (d.tables.map (·.state)).Nodup ∧
    (∀ z, (∃ tb ∈ d.tables, tb.state = z) ↔ z ∈ c.subjects ∧ ¬c.isAbstract z) ∧
    ∀ tb ∈ d.tables, ∃ path, c.Path tb.state path ∧ (tb.entries.map (·.event)).Nodup ∧
      (∀ event, (∃ e ∈ tb.entries, e.event = event) ↔ ∃ x ∈ path, ∃ a, c.Reacts x event a) ∧
      ∀ near x far event a, path = near ++ x :: far → (∀ y ∈ near, ∀ b, ¬c.Reacts y event b) →
        c.Reacts x event a → ∃ target, c.Path (a.target x) target ∧
          ⟨event, a.target x,
            (path.filter (· ∉ target)).flatMap
              (fun y => distinct ((c.blocksOf y).flatMap (·.head.exit))) ++
            (target.reverse.filter (· ∉ path)).flatMap
              (fun y => distinct ((c.blocksOf y).flatMap (·.head.entry))) ++
            a.actions⟩ ∈ tb.entries := by
  have ⟨hf, hd⟩ := h.resolved
  subst hd
  refine ⟨?nodup, ?tables, ?entries⟩
  case nodup => exact Machine.states_tables_dispatch ▸ Machine.nodup_concrete
  case tables =>
    intro z
    rw [← Machine.mem_concrete_resolve, ← Machine.states_tables_dispatch]
    exact List.mem_map.symm
  case entries =>
    intro tb ht
    have ⟨z, hz, he⟩ := List.mem_map.mp ht
    subst he
    have hz := (Machine.mem_concrete_resolve.mp hz).1
    have ⟨path, l, hp⟩ := exists_path hf ac hs hz
    refine ⟨path, hp, Machine.nodup_events_table, ?events, ?nearest⟩
    case events =>
      intro event
      rw [← isSome_find?_iff hf hs l]
      exact .symm <| List.find?_isSome.trans <| by simp only [decide_eq_true_eq]
    case nearest =>
      intro near x far event a hpath hnear ha
      have hdef := ha.target_defined hf
      have ⟨target, l', hp'⟩ := exists_path hf ac hs hdef
      have hexits : ∀ y ∈ path.filter (· ∉ target), y ∈ c.subjects := fun y hy =>
        Chart.mem_subjects_of_above hf ac hz <| l.mem.mp <| List.mem_of_mem_filter hy
      have hentries : ∀ y ∈ target.reverse.filter (· ∉ path), y ∈ c.subjects := fun y hy =>
        Chart.mem_subjects_of_above hf ac hdef <| l'.mem.mp <| List.mem_reverse.mp <|
          List.mem_of_mem_filter hy
      have hfull := Machine.fullActions_resolve l.chain_eq (t := ⟨some event, a.target x, a.actions⟩)
        l'.chain_eq
      rw [Machine.exitActions, Machine.entryActions, Machine.flatMap_ofChart hexits,
        Machine.flatMap_ofChart hentries] at hfull
      refine ⟨target, hp', List.mem_of_find?_eq_some (p := (·.event = event)) ?_⟩
      refine Machine.find?_table.trans ?_
      rw [find?_reach hf hs l hpath hnear ha, Option.map_some, hfull]
      rfl

section Charts

def Source.turnstile : String :=
  "fsm:turnstile initial:locked \x7b (base) <on >off reset locked clear locked:base <lock " ++
    "coin unlocked - locked pass - alarm unlocked:base <unlock >arm pass locked - \x7d"

def Chart.turnstile : Chart where
  headers := [⟨"fsm", "turnstile"⟩, ⟨"initial", "locked"⟩]
  blocks  := [
    ⟨{ name := "base", isAbstract := true, entry := ["on"], exit := ["off"] },
      [{ event := "reset", next := "locked", actions := ["clear"] }]⟩,
    ⟨{ name := "locked", supers := ["base"], entry := ["lock"] },
      [{ event := "coin", next := "unlocked" }]⟩,
    ⟨{ name := "locked" }, [{ event := "pass", actions := ["alarm"] }]⟩,
    ⟨{ name := "unlocked", supers := ["base"], entry := ["unlock"], exit := ["arm"] },
      [{ event := "pass", next := "locked" }]⟩
  ]
  closed := true

end Charts

theorem follows_path_turnstile : ∃ d,
    ({} : Settings).Produces Source.turnstile .turnstile d ∧ Chart.turnstile.Single ∧
    Chart.turnstile.Acyclic ∧ ∃ tb ∈ d.tables, tb.state = "unlocked" ∧
      ⟨"reset", "locked", ["arm", "lock", "clear"]⟩ ∈ tb.entries := by
  have hf : Chart.turnstile.faults = [] := by decide +kernel
  have hp : ({} : Settings).Produces Source.turnstile .turnstile _ :=
    Settings.produces_of_faultless rfl Bool.false_ne_true (by decide +kernel) rfl hf
  have ac := Chart.isAcyclic_iff hf |>.mp (by decide +kernel)
  have hs : Chart.turnstile.Single := by
    have : ∀ b ∈ Chart.turnstile.blocks, ∀ p ∈ b.head.supers, p = "base" := by decide
    rintro x p q ⟨b, hb, _, hp⟩ ⟨b', hb', _, hq⟩
    rw [this b hb p hp, this b' hb' q hq]
  have hbase : Chart.turnstile.Path "base" ["base"] := by
    refine .top ?_
    rintro p ⟨b, hb, hn, hp⟩
    have : ∀ b ∈ Chart.turnstile.blocks, b.head.name = "base" → b.head.supers = [] := by decide
    simp [this b hb hn] at hp
  have hlocked : Chart.turnstile.Path "locked" ["locked", "base"] :=
    .step ⟨_, .tail _ <| .head _, rfl, .head _⟩ hbase
  have hunlocked : Chart.turnstile.Path "unlocked" ["unlocked", "base"] :=
    .step ⟨_, .tail _ <| .tail _ <| .tail _ <| .head _, rfl, .head _⟩ hbase
  have hreset : Chart.turnstile.Reacts "base" "reset" ⟨"reset", "locked", ["clear"]⟩ :=
    ⟨_, List.mem_cons_self, rfl, List.mem_cons_self, rfl⟩
  have hnot : ∀ a, ¬Chart.turnstile.Reacts "unlocked" "reset" a := fun a ha =>
    absurd (Chart.mem_reactions_iff.mpr ⟨a, ha⟩) (by decide)
  obtain ⟨_, htables, hentries⟩ := hp.follows_path hs ac
  obtain ⟨tb, ht, hz⟩ := htables "unlocked" |>.mpr ⟨by decide, by decide⟩
  obtain ⟨path, hpath, _, _, hnear⟩ := hentries tb ht
  rw [hz] at hpath
  cases hpath.unique hs hunlocked
  obtain ⟨target, htarget, he⟩ :=
    hnear ["unlocked"] "base" [] "reset" _ rfl (by simpa using hnot) hreset
  cases htarget.unique hs hlocked
  exact ⟨_, hp, hs, ac, tb, ht, hz, he⟩

end Statechart
