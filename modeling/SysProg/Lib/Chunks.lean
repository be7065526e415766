/-
Work on a list that is divided into chunks of one size: the indexes they
take up together, and a record for each chunk of which one grows at a time.
-/
import Mathlib.Algebra.BigOperators.Group.List.Basic
import Mathlib.Algebra.Ring.Nat
import Mathlib.Data.List.Basic

namespace SysProg

variable {α β : Type*}

theorem flatMap_range' (c m : Nat) : (List.range c).flatMap (fun i => List.range' (i * m) m) = List.range (c * m) := by
  induction c with
  | zero => rw [Nat.zero_mul]; rfl
  | succ c ih =>
    rw [List.range_succ, List.flatMap_append, ih, List.flatMap_singleton, List.range_eq_range', List.range_eq_range',
      Nat.succ_mul, ← List.range'_append_1, Nat.zero_add]

theorem flatMap_set_perm (f : α → List β) {l : List α} {j : Nat} {x y : α} {zs : List β} (hx : l[j]? = some x)
    (hy : f y = f x ++ zs) : ((l.set j y).flatMap f).Perm (l.flatMap f ++ zs) := by
  induction l generalizing j with
  | nil => cases hx
  | cons a l ih =>
    cases j with
    | zero =>
      cases hx
      rw [List.set_cons_zero, List.flatMap_cons, List.flatMap_cons, hy, List.append_assoc, List.append_assoc]
      exact List.perm_append_comm.append_left _
    | succ j =>
      rw [List.set_cons_succ, List.flatMap_cons, List.flatMap_cons, List.append_assoc]
      exact (ih hx).append_left _

theorem sum_set {f : α → Nat} {l : List α} {j : Nat} {x y : α} (hx : l[j]? = some x) (hy : f y = f x + 1) :
    ((l.set j y).map f).sum = (l.map f).sum + 1 := by
  induction l generalizing j with
  | nil => cases hx
  | cons a l ih =>
    cases j with
    | zero =>
      cases hx
      rw [List.set_cons_zero, List.map_cons, List.map_cons, List.sum_cons, List.sum_cons, hy]
      omega
    | succ j =>
      rw [List.set_cons_succ, List.map_cons, List.map_cons, List.sum_cons, List.sum_cons, ih hx]
      omega

theorem sum_set_add {f : α → Nat} {l : List α} {j : Nat} {x : α} (hx : l[j]? = some x) (y : α) :
    ((l.set j y).map f).sum + f x = (l.map f).sum + f y := by
  induction l generalizing j with
  | nil => cases hx
  | cons a l ih =>
    cases j with
    | zero =>
      cases hx
      rw [List.set_cons_zero, List.map_cons, List.map_cons, List.sum_cons, List.sum_cons]
      omega
    | succ j =>
      have := ih hx
      rw [List.set_cons_succ, List.map_cons, List.map_cons, List.sum_cons, List.sum_cons]
      omega

end SysProg
