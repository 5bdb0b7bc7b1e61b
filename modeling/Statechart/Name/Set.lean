import Statechart.Name.Basic

namespace Statechart

@[ext]
structure NameSet where
  toList : List Name
  sorted : toList.Pairwise (· < ·)
  deriving DecidableEq

namespace NameSet

def empty : NameSet := ⟨[], .nil⟩

instance : EmptyCollection NameSet := ⟨empty⟩

instance : Inhabited NameSet := ⟨∅⟩

instance : Membership Name NameSet := ⟨fun s n => n ∈ s.toList⟩

instance {n : Name} {s : NameSet} : Decidable (n ∈ s) :=
  inferInstanceAs (Decidable (n ∈ s.toList))

theorem mem_def {n : Name} {s : NameSet} : n ∈ s ↔ n ∈ s.toList := .rfl

@[simp]
theorem not_mem_empty (n : Name) : n ∉ (∅ : NameSet) := List.not_mem_nil

def place (n : Name) : List Name → List Name
  | [] => [n]
  | m :: ms => if n < m then n :: m :: ms else if n = m then m :: ms else m :: place n ms

theorem mem_place {n m : Name} {ms : List Name} : m ∈ place n ms ↔ m = n ∨ m ∈ ms := by
  induction ms with
  | nil => simp [place]
  | cons k ks ih => unfold place; grind

theorem sorted_place {n : Name} {ms : List Name} (h : ms.Pairwise (· < ·)) :
    (place n ms).Pairwise (· < ·) := by
  induction ms with
  | nil => simp [place]
  | cons k ks ih =>
    have ⟨hk, hs⟩ := List.pairwise_cons.mp h
    unfold place
    split
    case isTrue hn =>
      refine List.pairwise_cons.mpr ⟨fun m hm => ?_, h⟩
      cases List.mem_cons.mp hm with
      | inl he => exact he ▸ hn
      | inr hm => exact String.lt_trans hn (hk m hm)
    case isFalse hn =>
      split
      case isTrue => exact h
      case isFalse he =>
        refine List.pairwise_cons.mpr ⟨fun m hm => ?_, ih hs⟩
        cases mem_place.mp hm with
        | inl hm =>
          subst hm
          refine String.not_le.mp fun hle => he ?_
          exact String.le_antisymm hle (String.not_lt.mp hn)
        | inr hm => exact hk m hm

def insert (s : NameSet) (n : Name) : NameSet := ⟨place n s.toList, sorted_place s.sorted⟩

@[simp]
theorem mem_insert {s : NameSet} {n m : Name} : m ∈ s.insert n ↔ m = n ∨ m ∈ s := mem_place

def ofList (ns : List Name) : NameSet := ns.foldl insert ∅

theorem mem_foldl_insert {s : NameSet} {ns : List Name} {n : Name} :
    n ∈ ns.foldl insert s ↔ n ∈ s ∨ n ∈ ns := by
  induction ns generalizing s with
  | nil => simp
  | cons m ms ih => simp [ih]; grind

@[simp]
theorem mem_ofList {ns : List Name} {n : Name} : n ∈ ofList ns ↔ n ∈ ns := by
  simp [ofList, mem_foldl_insert]

def ofOption : Option Name → NameSet
  | none   => ∅
  | some n => ⟨[n], by simp⟩

def isEmpty (s : NameSet) : Bool := s.toList.isEmpty

theorem nodup (s : NameSet) : s.toList.Nodup := by
  refine List.Pairwise.imp ?_ s.sorted
  intro n m h he
  exact String.lt_irrefl n (he ▸ h)

end NameSet

end Statechart
