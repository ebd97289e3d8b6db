import Mathlib.Algebra.Order.BigOperators.Group.Finset
import Mathlib.Logic.Function.Basic

/-!
# A measure of processes by where they are

`total weight n m` is the weight of the places of the processes below `n`. A process that goes to a
lighter place makes it smaller (`total_update_lt`); a system whose every step does so, together with
`Sys.exec_length_le`, has runs of bounded length only.
-/

namespace Conc

open Function

variable {α : Type} (weight : α → Nat)

/-- The weight of the processes below `n`, at the places `m`. -/
def total (n : Nat) (m : Nat → α) : Nat := ∑ i ∈ Finset.range n, weight (m i)

theorem total_update_lt (m : Nat → α) {a : α} {n i : Nat} (hi : i < n)
    (ha : weight a < weight (m i)) : total weight n (update m i a) < total weight n m := by
  refine Finset.sum_lt_sum (fun j _ => ?_) ⟨i, Finset.mem_range.mpr hi, ?_⟩
  · by_cases hj : j = i
    · rw [hj, update_self]
      exact ha.le
    · rw [update_of_ne hj]
  · rwa [update_self]

end Conc
