/-
A process's table of descriptors: what each number stands for, and the calls
that change it. A new descriptor gets the lowest free number.
-/
import Mathlib.Tactic.Common

namespace SysProg

/-- A descriptor table. -/
abbrev Fds (δ : Type*) := List (Option δ)

namespace Fds

variable {δ : Type*}

/-- What a number stands for, if it is open. -/
def get (t : Fds δ) (n : Nat) : Option δ := t[n]?.join

/-- The table with a number changed. -/
def put (t : Fds δ) (n : Nat) (d : Option δ) : Fds δ :=
  if n < t.length then t.set n d else t ++ (List.replicate (n - t.length) none ++ [d])

/-- The lowest number that is free. -/
def lowest (t : Fds δ) : Nat := t.findIdx (·.isNone)

/-- `dup2(old, new)`. -/
def dup2 (t : Fds δ) (old new : Nat) : Fds δ := if (t.get old).isSome then t.put new (t.get old) else t

/-- `close(n)`. -/
def close (t : Fds δ) (n : Nat) : Fds δ := t.put n none

/-- `pipe`: the table, and the numbers of the read end `r` and the write end `w`. -/
def pipe (t : Fds δ) (r w : δ) : Fds δ × Nat × Nat :=
  let t₁ := t.put t.lowest (some r)
  (t₁.put t₁.lowest (some w), t.lowest, t₁.lowest)

theorem get_put (t : Fds δ) (n : Nat) (d : Option δ) (m : Nat) :
    (t.put n d).get m = if m = n then d else t.get m := by
  unfold get put
  split
  · next hn =>
    rw [List.getElem?_set]
    by_cases hm : n = m
    · subst hm; simp [hn]
    · simp [hm, Ne.symm hm]
  · next hn =>
    rcases Nat.lt_trichotomy m n with hm | rfl | hm
    · rw [if_neg (Nat.ne_of_lt hm)]
      by_cases hl : m < t.length
      · rw [List.getElem?_append_left hl]
      · rw [List.getElem?_append_right (by omega), List.getElem?_append_left (by simp; omega)]
        simp [show m - t.length < n - t.length by omega, List.getElem?_eq_none (Nat.not_lt.1 hl)]
    · rw [if_pos rfl, List.getElem?_append_right (by omega), List.getElem?_append_right (by simp)]
      simp
    · rw [if_neg (by omega), List.getElem?_eq_none (by simp; omega), List.getElem?_eq_none (by omega)]

theorem mem_iff_get {t : Fds δ} {d : δ} : some d ∈ t ↔ ∃ n, t.get n = some d := by
  rw [List.mem_iff_getElem?]
  simp only [get, Option.join_eq_some_iff]

theorem get_lowest (t : Fds δ) : t.get t.lowest = none := by
  unfold get lowest
  by_cases h : t.findIdx (·.isNone) < t.length
  · have := List.findIdx_getElem (p := fun d : Option δ => d.isNone) (w := h)
    rw [List.getElem?_eq_getElem h]
    simpa using this
  · rw [List.getElem?_eq_none (Nat.not_lt.1 h)]
    rfl

theorem ne_lowest {t : Fds δ} {n : Nat} (h : (t.get n).isSome) : n ≠ t.lowest := by
  intro he
  rw [he, get_lowest] at h
  cases h

theorem get_dup2 {t : Fds δ} {old : Nat} {d : δ} (h : t.get old = some d) (n m : Nat) :
    (t.dup2 old n).get m = if m = n then some d else t.get m := by
  rw [dup2, h, Option.isSome_some, if_pos rfl, get_put]

theorem get_ne_none_of_lt_lowest {t : Fds δ} {n : Nat} (h : n < t.lowest) : t.get n ≠ none := by
  have hn : n < t.length := Nat.lt_of_lt_of_le h List.findIdx_le_length
  have hopen := List.not_of_lt_findIdx h
  intro hget
  rw [get, List.getElem?_eq_getElem hn, Option.join_some] at hget
  rw [hget] at hopen
  cases hopen

theorem lowest_eq {t : Fds δ} {n : Nat} (h : t.get n = none) (hlt : ∀ m < n, t.get m ≠ none) :
    t.lowest = n := by
  rcases Nat.lt_trichotomy t.lowest n with hl | hl | hl
  · exact absurd (get_lowest t) (hlt _ hl)
  · exact hl
  · exact absurd h (get_ne_none_of_lt_lowest hl)

theorem get_opened (t : Fds δ) (n : Nat) (d : δ) (m : Nat) :
    ((((t.put t.lowest (some d)).dup2 t.lowest n).close t.lowest).get m) =
      if m = t.lowest then none else if m = n then some d else t.get m := by
  have hl : (t.put t.lowest (some d)).get t.lowest = some d := by rw [get_put, if_pos rfl]
  rw [close, get_put, get_dup2 hl, get_put]
  by_cases hm : m = t.lowest
  · rw [if_pos hm, if_pos hm]
  · rw [if_neg hm, if_neg hm, if_neg hm]

theorem lowest_opened (t : Fds δ) (n : Nat) (d : δ) :
    (((t.put t.lowest (some d)).dup2 t.lowest n).close t.lowest).lowest = t.lowest := by
  refine lowest_eq (by rw [get_opened, if_pos rfl]) fun m hm => ?_
  rw [get_opened, if_neg (Nat.ne_of_lt hm)]
  split
  · exact Option.some_ne_none d
  · exact get_ne_none_of_lt_lowest hm

/-- A descriptor opened on `d` and moved to the open number `n`, as for a
redirection. -/
theorem get_redirected {t : Fds δ} {n : Nat} (h : (t.get n).isSome) (d : δ) (m : Nat) :
    ((((t.put t.lowest (some d)).dup2 t.lowest n).close t.lowest).get m) = if m = n then some d else t.get m := by
  have hn := ne_lowest h
  rw [get_opened]
  by_cases hm : m = t.lowest
  · rw [if_pos hm, if_neg (hm ▸ hn.symm), hm, get_lowest]
  · rw [if_neg hm]

/-- One of two fresh descriptors moved to the open number `n`, and both closed
where they were. -/
theorem get_moved {t u : Fds δ} {n a b : Nat} {x y : δ} (h : (t.get n).isSome) (ha : t.get a = none)
    (hb : t.get b = none) (hu : ∀ m, u.get m = if m = a then some x else if m = b then some y else t.get m) (m : Nat) :
    (((u.dup2 a n).close a).close b).get m = if m = n then some x else t.get m := by
  have hna : n ≠ a := by intro he; rw [he, ha] at h; cases h
  have hnb : n ≠ b := by intro he; rw [he, hb] at h; cases h
  have hend : u.get a = some x := by rw [hu, if_pos rfl]
  rw [close, get_put, close, get_put, get_dup2 hend, hu]
  by_cases hmb : m = b
  · rw [if_pos hmb, if_neg (hmb ▸ hnb.symm), hmb, hb]
  · by_cases hma : m = a
    · rw [if_neg hmb, if_pos hma, if_neg (hma ▸ hna.symm), hma, ha]
    · rw [if_neg hmb, if_neg hma, if_neg hma, if_neg hmb]

theorem pipe_fresh (t : Fds δ) (r w : δ) :
    t.get (t.pipe r w).2.1 = none ∧ t.get (t.pipe r w).2.2 = none ∧
    (t.pipe r w).2.1 ≠ (t.pipe r w).2.2 := by
  have hw := get_lowest (t.put t.lowest (some r))
  have hne : t.lowest ≠ (t.put t.lowest (some r)).lowest := by
    intro he
    rw [← he, get_put, if_pos rfl] at hw
    cases hw
  rw [get_put, if_neg hne.symm] at hw
  exact ⟨get_lowest t, hw, hne⟩

theorem get_talking {t : Fds δ} {n : Nat} (h : (t.get n).isSome) (r w : δ) (m : Nat) :
    (((((t.pipe r w).1.dup2 (t.pipe r w).2.2 n).close (t.pipe r w).2.2).close (t.pipe r w).2.1).get m) =
      if m = n then some w else t.get m := by
  obtain ⟨hr, hw, -⟩ := pipe_fresh t r w
  refine get_moved h hw hr (y := r) ?_ m
  intro k
  rw [pipe, get_put, get_put]

theorem get_listening {t : Fds δ} {n : Nat} (h : (t.get n).isSome) (r w : δ) (m : Nat) :
    (((((t.pipe r w).1.dup2 (t.pipe r w).2.1 n).close (t.pipe r w).2.1).close (t.pipe r w).2.2).get m) =
      if m = n then some r else t.get m := by
  obtain ⟨hr, hw, hne⟩ := pipe_fresh t r w
  refine get_moved h hr hw (y := w) ?_ m
  intro k
  by_cases hk : k = (t.pipe r w).2.1
  · subst hk
    rw [if_pos rfl, pipe, get_put, get_put]
    simp only [pipe] at hne
    rw [if_neg hne, if_pos rfl]
  · rw [if_neg hk, pipe, get_put, get_put]
    simp only [pipe] at hk
    rw [if_neg hk]

end Fds

end SysProg
