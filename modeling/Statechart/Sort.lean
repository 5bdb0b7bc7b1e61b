namespace Statechart

variable {α : Type u} (key : α → Nat)

def insertBy (a : α) : List α → List α
  | [] => [a]
  | b :: bs => if key a ≤ key b then a :: b :: bs else b :: insertBy a bs

-- Sorts by a number, smallest first. Elements with equal numbers keep their order.
def sortBy : List α → List α
  | [] => []
  | a :: as => insertBy key a (sortBy as)

variable {key}

theorem perm_insertBy (a : α) (as : List α) : (insertBy key a as).Perm (a :: as) := by
  induction as with
  | nil => exact .refl _
  | cons b bs ih =>
    unfold insertBy
    split
    · exact .refl _
    · exact (ih.cons b).trans (.swap a b bs)

theorem perm_sortBy (as : List α) : (sortBy key as).Perm as := by
  induction as with
  | nil => exact .refl _
  | cons a as ih => exact (perm_insertBy a _).trans (ih.cons a)

end Statechart
