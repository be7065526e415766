/-
Memory blocks as `malloc` and `free` handle them. A block is known by a
number that is not given out again, and is live until it is freed.
-/
import Mathlib.Tactic.Common

namespace SysProg

/-- The blocks given out so far, those that were freed left blank. -/
abbrev Heap (β : Type*) := List (Option β)

namespace Heap

variable {β : Type*}

/-- What is in a block, if it is live. -/
def get (h : Heap β) (p : Nat) : Option β := h[p]?.join

/-- The heap with a new block, and the block. -/
def malloc (h : Heap β) (b : β) : Heap β × Nat := (h ++ [some b], h.length)

/-- The heap with a live block's contents changed. -/
def put (h : Heap β) (p : Nat) (b : β) : Heap β := h.set p (some b)

/-- The heap without a block; freeing one that is not live is undefined. -/
def free (h : Heap β) (p : Nat) : Option (Heap β) := if (h.get p).isSome then some (h.set p none) else none

/-- What was allocated since is no longer live, and nothing else has changed. -/
def Released (h₀ h : Heap β) : Prop := ∀ p, h.get p = h₀.get p

variable {h : Heap β} {p q : Nat} {b : β}

theorem lt_of_get (hp : h.get p = some b) : p < h.length := by
  by_contra hle
  rw [get, List.getElem?_eq_none (Nat.not_lt.1 hle)] at hp
  cases hp

theorem get_of_le (hp : h.length ≤ p) : h.get p = none := by
  rw [get, List.getElem?_eq_none hp]
  rfl

theorem get_malloc (h : Heap β) (b : β) (q : Nat) :
    (h.malloc b).1.get q = if q = h.length then some b else h.get q := by
  rw [malloc, get, get]
  rcases Nat.lt_trichotomy q h.length with hlt | rfl | hgt
  · rw [if_neg (Nat.ne_of_lt hlt), List.getElem?_append_left hlt]
  · rw [if_pos rfl, List.getElem?_concat_length]
    rfl
  · rw [if_neg (Nat.ne_of_gt hgt), List.getElem?_eq_none (by simp; omega), List.getElem?_eq_none (Nat.le_of_lt hgt)]

theorem get_set (hp : p < h.length) (o : Option β) (q : Nat) :
    get (h.set p o) q = if q = p then o else h.get q := by
  rw [get, get]
  by_cases hq : q = p
  · subst hq
    rw [if_pos rfl, List.getElem?_set_self hp]
    rfl
  · rw [if_neg hq, List.getElem?_set_ne (Ne.symm hq)]

theorem get_put (hp : h.get p = some b) (b' : β) (q : Nat) :
    (h.put p b').get q = if q = p then some b' else h.get q := get_set (lt_of_get hp) _ q

theorem free_eq (hp : h.get p = some b) :
    ∃ h', h.free p = some h' ∧ ∀ q, h'.get q = if q = p then none else h.get q := by
  refine ⟨h.set p none, ?_, get_set (lt_of_get hp) none⟩
  rw [free, hp]
  rfl

@[simp] theorem length_put (h : Heap β) (p : Nat) (b : β) : (h.put p b).length = h.length := by simp [put]

end Heap

end SysProg
