/-
Numbers in decimal, as C strings: what `sprintf` writes for `%d` of a number
that is not negative, and what `atol` reads of a number a `long` can hold.
-/
import Mathlib.Algebra.Group.Nat.Defs
import SysProg.Lib.Buffer

namespace SysProg

/-- The bytes of a string literal. -/
def ascii (s : String) : List Byte := s.toList.map fun c => UInt8.ofNat c.toNat

/-- The digits of `n`. -/
def decimal (n : Nat) : List Byte := (Nat.toDigits 10 n).map fun c => UInt8.ofNat c.toNat

/-- The white space of the C locale. -/
def isspace (b : Byte) : Bool := b = 32 ∨ (9 ≤ b ∧ b ≤ 13)

/-- A decimal digit. -/
def isdigit (b : Byte) : Bool := 48 ≤ b ∧ b ≤ 57

/-- The number a string begins with. -/
def digits (s : List Byte) : Nat := (s.takeWhile isdigit).foldl (fun n b => 10 * n + (b.toNat - 48)) 0

/-- The number the string begins with. -/
def atol (s : List Byte) : Int :=
  match s.dropWhile isspace with
  | 45 :: s => -digits s
  | 43 :: s => digits s
  | s => digits s

theorem byte_of_isDigit {c : Char} (h : c.isDigit = true) :
    (UInt8.ofNat c.toNat).toNat = c.toNat ∧ 48 ≤ c.toNat ∧ c.toNat ≤ 57 := by
  have hd : 48 ≤ c.toNat ∧ c.toNat ≤ 57 := Char.isDigit_iff_toNat.1 h
  rw [UInt8.toNat_ofNat']
  omega

theorem isdigit_iff {b : Byte} : isdigit b = true ↔ 48 ≤ b.toNat ∧ b.toNat ≤ 57 := by
  simp only [isdigit, decide_eq_true_eq, UInt8.le_iff_toNat_le]
  rfl

theorem isdigit_of_mem_decimal {n : Nat} {b : Byte} (h : b ∈ decimal n) : isdigit b = true := by
  obtain ⟨c, hc, rfl⟩ := List.mem_map.1 h
  obtain ⟨he, hd⟩ := byte_of_isDigit (Nat.isDigit_of_mem_toDigits (by decide) (by decide) hc)
  rw [isdigit_iff, he]
  exact hd

theorem digits_decimal (n : Nat) : digits (decimal n) = n := by
  have hall : (decimal n).takeWhile isdigit = decimal n :=
    List.takeWhile_eq_self_iff.2 fun _ => isdigit_of_mem_decimal
  have hfold : ∀ (l : List Char) (k : Nat), (∀ c ∈ l, c.isDigit = true) →
      l.foldl (fun n c => 10 * n + ((UInt8.ofNat c.toNat).toNat - 48)) k = Nat.ofDigitChars 10 l k := by
    intro l
    induction l with
    | nil => exact fun k _ => (Nat.ofDigitChars_nil ..).symm
    | cons c l ih =>
      intro k h
      rw [List.foldl_cons, Nat.ofDigitChars_cons, (byte_of_isDigit (h c List.mem_cons_self)).1]
      exact ih _ fun c hc => h c (List.mem_cons_of_mem _ hc)
  rw [digits, hall, decimal, List.foldl_map,
    hfold _ _ fun c => Nat.isDigit_of_mem_toDigits (by decide) (by decide), Nat.ofDigitChars_ten_toDigits]

theorem atol_of_digit {b : Byte} {s : List Byte} (hb : isdigit b = true) : atol (b :: s) = digits (b :: s) := by
  rw [isdigit_iff] at hb
  have hspace : isspace b = false := by
    simp only [isspace, decide_eq_false_iff_not, UInt8.le_iff_toNat_le, UInt8.ext_iff]
    show ¬ (b.toNat = 32 ∨ 9 ≤ b.toNat ∧ b.toNat ≤ 13)
    omega
  have hminus : b ≠ 45 := fun h => by rw [h] at hb; exact absurd hb (by decide)
  have hplus : b ≠ 43 := fun h => by rw [h] at hb; exact absurd hb (by decide)
  rw [atol, List.dropWhile_cons_of_neg (by simp [hspace])]
  split
  · next h => exact absurd (List.cons.inj h).1 hminus
  · next h => exact absurd (List.cons.inj h).1 hplus
  · rfl

theorem atol_decimal (n : Nat) : atol (decimal n) = n := by
  obtain ⟨b, s, hs⟩ : ∃ b s, decimal n = b :: s := List.exists_cons_of_ne_nil (by simp [decimal])
  have hb : isdigit b = true := isdigit_of_mem_decimal (n := n) (hs ▸ List.mem_cons_self)
  rw [hs, atol_of_digit hb, ← hs, digits_decimal]

theorem nul_not_mem_decimal (n : Nat) : NUL ∉ decimal n := by
  intro h
  have := isdigit_of_mem_decimal h
  cases this

theorem decimal_length {n k : Nat} (hk : 0 < k) (h : n < 10 ^ k) : (decimal n).length ≤ k := by
  rw [decimal, List.length_map]
  exact (Nat.length_toDigits_le_iff (by decide) hk).2 h

end SysProg
