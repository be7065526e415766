/-
`qsort` and `bsearch` as the C standard gives them: what they promise of any
array and comparison function, and nothing of how they do it. `qsort` leaves
the order of equal elements open, and `bsearch` which of the equal ones it finds.
-/
import Mathlib.Data.List.Basic
import Mathlib.Tactic.Common

namespace SysProg

section
variable {κ α : Type}

/-- The elements that come before the key, then those equal to it, then those
after: what `bsearch` asks of its array. -/
def Partitioned (cmp : κ → α → Ordering) (key : κ) (l : List α) : Prop :=
  l.Pairwise fun a b => (cmp key a ≠ .gt → cmp key b ≠ .gt) ∧ (cmp key a = .lt → cmp key b = .lt)

/-- An array sorted by the comparison is partitioned for every key. -/
theorem partitioned_of_sorted (cmp : κ → κ → Ordering) [Std.TransCmp cmp] (f : α → κ) {l : List α}
    (key : κ) (h : l.Pairwise fun a b => cmp (f a) (f b) ≠ .gt) :
    Partitioned (fun k a => cmp k (f a)) key l := by
  refine h.imp fun {a b} hab => ?_
  have hab := Ordering.ne_gt_iff_isLE.1 hab
  constructor
  · exact fun ha => Ordering.ne_gt_iff_isLE.2 (Std.TransCmp.isLE_trans (Ordering.ne_gt_iff_isLE.1 ha) hab)
  · exact fun ha => Std.TransCmp.lt_of_lt_of_isLE ha hab

/-- A `bsearch`: the index of an element equal to the key, if there is one. -/
structure Bsearch (κ α : Type) where
  search : (κ → α → Ordering) → κ → List α → Option Nat
  found : ∀ {cmp key l i}, Partitioned cmp key l → search cmp key l = some i →
    ∃ h : i < l.length, cmp key l[i] = .eq
  absent : ∀ {cmp key l}, Partitioned cmp key l → search cmp key l = none → ∀ a ∈ l, cmp key a ≠ .eq

/-- A `qsort`: a permutation of the array, in an order its comparison
function (when it is an order) agrees with. -/
structure Qsort (α : Type) where
  sort : (α → α → Ordering) → List α → List α
  perm : ∀ cmp l, (sort cmp l).Perm l
  sorted : ∀ cmp l, Std.TransCmp cmp → (sort cmp l).Pairwise fun a b => cmp a b ≠ .gt

/-- A search from the front keeps the promise. -/
instance : Inhabited (Bsearch κ α) where
  default :=
    { search := fun cmp key l => l.findIdx? (cmp key · = .eq)
      found := fun {cmp key l i} _ h => by
        obtain ⟨hi, he, -⟩ := List.findIdx?_eq_some_iff_getElem.1 h
        exact ⟨hi, by simpa using he⟩
      absent := fun {cmp key l} _ h a ha => by simpa using List.findIdx?_eq_none_iff.1 h a ha }

/-- So does a merge sort. -/
instance : Inhabited (Qsort α) where
  default :=
    { sort := fun cmp l => l.mergeSort fun a b => (cmp a b).isLE
      perm := fun cmp l => List.mergeSort_perm l _
      sorted := fun cmp l _ => by
        refine (List.pairwise_mergeSort (fun a b c => Std.TransCmp.isLE_trans) (fun a b => ?_) l).imp
          fun {a b} h => Ordering.ne_gt_iff_isLE.2 h
        rw [show cmp b a = (cmp a b).swap from Std.OrientedCmp.eq_swap]
        cases cmp a b <;> rfl }

end

end SysProg
