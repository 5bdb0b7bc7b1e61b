namespace Statechart

abbrev Name := String

section Distinct

variable {α : Type _} [DecidableEq α]

def addNew (as : List α) (a : α) : List α :=
  if a ∈ as then as else as ++ [a]

def distinct (as : List α) : List α :=
  as.foldl addNew []

-- Every element that has occurred before, once for each such occurrence.
def repeats (as : List α) : List α :=
  go [] as
where
  go (seen : List α) : List α → List α
    | [] => []
    | a :: as => if a ∈ seen then a :: go seen as else go (a :: seen) as

theorem mem_addNew {as : List α} {a b : α} : b ∈ addNew as a ↔ b ∈ as ∨ b = a := by
  unfold addNew
  split <;> grind

theorem nodup_addNew {as : List α} {a : α} (h : as.Nodup) : (addNew as a).Nodup := by
  unfold addNew
  split
  · exact h
  · grind [List.nodup_append]

theorem mem_foldl_addNew {as bs : List α} {b : α} : b ∈ bs.foldl addNew as ↔ b ∈ as ∨ b ∈ bs := by
  induction bs generalizing as with
  | nil => simp
  | cons _ _ ih => simp [ih, mem_addNew, or_assoc]

theorem nodup_foldl_addNew {as bs : List α} (h : as.Nodup) : (bs.foldl addNew as).Nodup := by
  induction bs generalizing as with
  | nil => exact h
  | cons _ _ ih => exact ih (nodup_addNew h)

@[simp]
theorem mem_distinct {as : List α} {a : α} : a ∈ distinct as ↔ a ∈ as := by
  simp [distinct, mem_foldl_addNew]

theorem nodup_distinct (as : List α) : (distinct as).Nodup :=
  nodup_foldl_addNew .nil

theorem foldl_addNew_of_nodup {as bs : List α} (h : (as ++ bs).Nodup) :
    bs.foldl addNew as = as ++ bs := by
  induction bs generalizing as with
  | nil => simp
  | cons b bs ih =>
    rw [List.append_cons] at h ⊢
    have hb : b ∉ as := by grind [List.nodup_append]
    rw [List.foldl_cons, addNew, if_neg hb, ih h]

theorem distinct_eq_self {as : List α} (h : as.Nodup) : distinct as = as :=
  foldl_addNew_of_nodup h

theorem repeats.go_eq_nil_iff {seen as : List α} :
    repeats.go seen as = [] ↔ as.Nodup ∧ ∀ a ∈ as, a ∉ seen := by
  induction as generalizing seen with
  | nil => simp [repeats.go]
  | cons a as ih =>
    rw [repeats.go]
    split
    case isTrue ha  => simp [ha]
    case isFalse ha =>
      rw [ih, List.nodup_cons]
      grind

theorem repeats_eq_nil_iff {as : List α} : repeats as = [] ↔ as.Nodup := by
  simp [repeats, repeats.go_eq_nil_iff]

end Distinct

end Statechart
