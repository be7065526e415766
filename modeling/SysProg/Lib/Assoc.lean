/-
Lists of entries that may have a key, of which the first with a key counts:
looking up, putting in the place of the first, erasing the first.
-/
import Mathlib.Data.List.Basic

namespace SysProg.Assoc

variable {α κ : Type*} [DecidableEq κ] (key : α → Option κ)

/-- The first element with the key. -/
def lookup (l : List α) (k : κ) : Option α := l.find? fun e => key e = some k

/-- The list without the first element with the key. -/
def erase (l : List α) (k : κ) : List α := l.eraseP fun e => key e = some k

/-- An entry in the place of the first with its key, or at the end. -/
def put (e : α) : List α → List α
  | [] => [e]
  | x :: l => if key x = key e then e :: l else x :: put e l

/-- How many entries have a key. -/
def entries (l : List α) (k : κ) : Nat := l.countP fun e => key e = some k

variable {key} {l : List α} {e : α} {k k' : κ}

theorem lookup_cons_self (h : key e = some k) : lookup key (e :: l) k = some e :=
  List.find?_cons_of_pos (by simpa using h)

theorem lookup_cons_of_ne (h : key e ≠ some k) : lookup key (e :: l) k = lookup key l k :=
  List.find?_cons_of_neg (by simpa using h)

theorem lookup_put_self (h : key e = some k) : lookup key (put key e l) k = some e := by
  induction l with
  | nil => exact lookup_cons_self h
  | cons x l ih =>
    unfold put
    split
    · exact lookup_cons_self h
    · next hx =>
      rw [h] at hx
      rw [lookup_cons_of_ne hx, ih]

theorem lookup_put_of_ne (h : key e = some k) (hk : k' ≠ k) : lookup key (put key e l) k' = lookup key l k' := by
  have he : key e ≠ some k' := by
    rw [h]
    exact fun heq => hk (Option.some_inj.1 heq).symm
  induction l with
  | nil => exact lookup_cons_of_ne he
  | cons x l ih =>
    unfold put
    split
    · next hx => rw [lookup_cons_of_ne he, lookup_cons_of_ne (hx ▸ he)]
    · by_cases hx : key x = some k'
      · rw [lookup_cons_self hx, lookup_cons_self hx]
      · rw [lookup_cons_of_ne hx, lookup_cons_of_ne hx, ih]

theorem lookup_erase_of_ne (hk : k' ≠ k) : lookup key (erase key l k) k' = lookup key l k' := by
  induction l with
  | nil => rfl
  | cons x l ih =>
    by_cases hx : key x = some k
    · have hx' : key x ≠ some k' := by
        rw [hx]
        exact fun heq => hk (Option.some_inj.1 heq).symm
      rw [erase, List.eraseP_cons_of_pos (by simpa using hx), lookup_cons_of_ne hx']
    · rw [erase, List.eraseP_cons_of_neg (by simpa using hx)]
      by_cases hx' : key x = some k'
      · rw [lookup_cons_self hx', lookup_cons_self hx']
      · rw [lookup_cons_of_ne hx', lookup_cons_of_ne hx']
        exact ih

theorem lookup_eq_none : lookup key l k = none ↔ entries key l k = 0 := by
  simp [lookup, entries, List.find?_eq_none, List.countP_eq_zero]

theorem entries_cons_self (h : key e = some k) : entries key (e :: l) k = entries key l k + 1 :=
  List.countP_cons_of_pos (by simpa using h)

theorem entries_cons_of_ne (h : key e ≠ some k) : entries key (e :: l) k = entries key l k :=
  List.countP_cons_of_neg (by simpa using h)

theorem entries_erase_self : entries key (erase key l k) k = entries key l k - 1 := by
  induction l with
  | nil => rfl
  | cons x l ih =>
    by_cases hx : key x = some k
    · rw [erase, List.eraseP_cons_of_pos (by simpa using hx), entries_cons_self hx]
      rfl
    · rw [erase, List.eraseP_cons_of_neg (by simpa using hx), entries_cons_of_ne hx, entries_cons_of_ne hx]
      exact ih

theorem lookup_erase_self : lookup key (erase key l k) k = none ↔ entries key l k ≤ 1 := by
  rw [lookup_eq_none, entries_erase_self]
  omega

theorem entries_erase_of_ne (hk : k' ≠ k) : entries key (erase key l k) k' = entries key l k' := by
  induction l with
  | nil => rfl
  | cons x l ih =>
    by_cases hx : key x = some k
    · have hx' : key x ≠ some k' := by
        rw [hx]
        exact fun heq => hk (Option.some_inj.1 heq).symm
      rw [erase, List.eraseP_cons_of_pos (by simpa using hx), entries_cons_of_ne hx']
    · rw [erase, List.eraseP_cons_of_neg (by simpa using hx)]
      by_cases hx' : key x = some k'
      · rw [entries_cons_self hx', entries_cons_self hx']
        exact congrArg (· + 1) ih
      · rw [entries_cons_of_ne hx', entries_cons_of_ne hx']
        exact ih

theorem entries_put_self (h : key e = some k) : entries key (put key e l) k = max 1 (entries key l k) := by
  induction l with
  | nil => rw [put, entries_cons_self h]; rfl
  | cons x l ih =>
    unfold put
    split
    · next hx =>
      rw [entries_cons_self h, entries_cons_self (hx.trans h)]
      omega
    · next hx =>
      rw [h] at hx
      rw [entries_cons_of_ne hx, entries_cons_of_ne hx, ih]

theorem entries_put_of_ne (h : key e = some k) (hk : k' ≠ k) : entries key (put key e l) k' = entries key l k' := by
  have he : key e ≠ some k' := by
    rw [h]
    exact fun heq => hk (Option.some_inj.1 heq).symm
  induction l with
  | nil => exact entries_cons_of_ne he
  | cons x l ih =>
    unfold put
    split
    · next hx => rw [entries_cons_of_ne he, entries_cons_of_ne (hx ▸ he)]
    · by_cases hx : key x = some k'
      · rw [entries_cons_self hx, entries_cons_self hx, ih]
      · rw [entries_cons_of_ne hx, entries_cons_of_ne hx, ih]

end SysProg.Assoc
