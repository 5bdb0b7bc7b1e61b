namespace Statechart

variable {α : Type u} (f : α → Bool) (xs : Array α)

-- How many entries at the front satisfy `f`, found by halving. None may satisfy it behind one that
-- does not.
def partitionPoint : Nat := go 0 xs.size (Nat.le_refl _)
where
  go (lo hi : Nat) (h : hi ≤ xs.size) : Nat :=
    if hlt : lo < hi then
      let mid := lo + (hi - lo) / 2
      if f xs[mid] then go (mid + 1) hi h else go lo mid (by omega)
    else lo
  termination_by hi - lo

variable {f xs} {n : Nat}

-- The point that is looked for stays between the two bounds.
theorem partitionPoint.go_eq (hf : ∀ i (h : i < xs.size), f xs[i] ↔ i < n) {lo hi : Nat}
    (h : hi ≤ xs.size) (hlo : lo ≤ n) (hhi : n ≤ hi) : go f xs lo hi h = n := by
  fun_induction go f xs lo hi h with
  | case1 lo hi h hlt mid hm ih => exact ih ((hf mid (by omega)).mp hm) hhi
  | case2 lo hi h hlt mid hm ih =>
    exact ih hlo (Nat.le_of_not_lt fun hn => hm ((hf mid (by omega)).mpr hn))
  | case3 lo hi h hlt => omega

theorem partitionPoint_eq (hn : n ≤ xs.size) (hf : ∀ i (h : i < xs.size), f xs[i] ↔ i < n) :
    partitionPoint f xs = n :=
  partitionPoint.go_eq hf _ (Nat.zero_le n) hn

end Statechart
