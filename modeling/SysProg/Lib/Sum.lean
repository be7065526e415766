/-
Sums over all parties of what each one has, and what becomes of them when one
party changes.
-/
import Mathlib.Algebra.BigOperators.Fin
import Mathlib.Algebra.Order.BigOperators.Group.Finset
import Mathlib.Tactic.Ring

namespace SysProg

variable {ι α : Type*} [DecidableEq ι] [Fintype ι]

theorem sum_update (w : ι → α → ℤ) (f : ι → α) (i : ι) (a : α) :
    ∑ j, w j (Function.update f i a j) = ∑ j, w j (f j) - w i (f i) + w i a := by
  have hsplit (g : ι → ℤ) : ∑ j, g j = g i + ∑ j ∈ Finset.univ.erase i, g j :=
    (Finset.add_sum_erase _ g (Finset.mem_univ i)).symm
  have hrest : ∑ j ∈ Finset.univ.erase i, w j (Function.update f i a j) = ∑ j ∈ Finset.univ.erase i, w j (f j) := by
    refine Finset.sum_congr rfl fun j hj => ?_
    rw [Function.update_of_ne (Finset.ne_of_mem_erase hj)]
  rw [hsplit, hrest, hsplit fun j => w j (f j), Function.update_self]
  ring

theorem sum_update_nat {ι α : Type*} [DecidableEq ι] (w : α → ℕ) (f : ι → α) {S : Finset ι} {i : ι} (hi : i ∈ S)
    (a : α) : ∑ j ∈ S, w (Function.update f i a j) + w (f i) = ∑ j ∈ S, w (f j) + w a := by
  have hrest : ∑ j ∈ S.erase i, w (Function.update f i a j) = ∑ j ∈ S.erase i, w (f j) := by
    refine Finset.sum_congr rfl fun j hj => ?_
    rw [Function.update_of_ne (Finset.ne_of_mem_erase hj)]
  rw [← Finset.add_sum_erase _ _ hi, hrest, Function.update_self, ← Finset.add_sum_erase _ (fun j => w (f j)) hi]
  omega

end SysProg
