/-
Bytes in memory: buffers of a fixed size, the C strings they hold, and the
string functions of the C library that read and write them.

A C string is the bytes of a memory block up to its first NUL. Where there
is none, C leaves the read undefined and `cstr` answers the whole block, so
what is said of such a string says nothing of a C program: the callers prove
`Terminated` first.
-/
import Mathlib.Data.List.TakeWhile
import Mathlib.Tactic.Common

namespace SysProg

/-- A `char`, compared as `unsigned char` (as `strcmp` does). -/
abbrev Byte := UInt8

/-- The byte that ends a C string. -/
def NUL : Byte := 0

/-- The newline. -/
def NL : Byte := 10

/-- The C string at the start of a block of memory. -/
def cstr (mem : List Byte) : List Byte := mem.takeWhile (· != NUL)

/-- The sign of `strcmp`: bytewise, a prefix before its extensions. -/
def strcmp (a b : List Byte) : Ordering := compare a b

theorem bne_of_not_mem {c : Byte} {s : List Byte} (h : c ∉ s) : ∀ b ∈ s, (b != c) = true := by
  intro b hb
  rw [bne_iff_ne]
  intro he
  exact h (he ▸ hb)

theorem takeWhile_until {c : Byte} {s : List Byte} (h : c ∉ s) (rest : List Byte) :
    (s ++ c :: rest).takeWhile (· != c) = s := by
  rw [List.takeWhile_append_of_pos (bne_of_not_mem h)]
  simp

theorem nul_not_mem_cstr (mem : List Byte) : NUL ∉ cstr mem := by
  intro h
  have := List.mem_takeWhile_imp h
  simp at this

theorem cstr_of_not_mem {s : List Byte} (h : NUL ∉ s) : cstr s = s := by
  unfold cstr
  exact List.takeWhile_eq_self_iff.2 (bne_of_not_mem h)

theorem cstr_append_nul {s : List Byte} (h : NUL ∉ s) (rest : List Byte) :
    cstr (s ++ NUL :: rest) = s :=
  takeWhile_until h rest

theorem nul_not_mem_line {s : List Byte} (h : NUL ∉ s) : NUL ∉ s ++ [NL] := by
  intro hm
  rcases List.mem_append.1 hm with hm | hm
  · exact h hm
  · exact absurd (List.mem_singleton.1 hm) (by decide)

theorem cstr_take (mem : List Byte) (k : Nat) : cstr (mem.take k) = (cstr mem).take k :=
  List.take_takeWhile.symm

theorem cstr_append_end (mem : List Byte) : cstr (mem ++ [NUL]) = cstr mem := by
  induction mem with
  | nil => simp [cstr]
  | cons b mem ih =>
    by_cases hb : b = NUL
    · simp [cstr, hb]
    · simpa [cstr, hb] using ih

/-- A NUL in the block ends its string there: the block is the string, the
NUL and the rest. -/
theorem cstr_split {mem : List Byte} (h : NUL ∈ mem) : ∃ rest, mem = cstr mem ++ NUL :: rest := by
  induction mem with
  | nil => simp at h
  | cons b mem ih =>
    by_cases hb : b = NUL
    · subst hb
      exact ⟨mem, by simp [cstr]⟩
    · have hm : NUL ∈ mem := by
        rcases List.mem_cons.1 h with h | h
        · exact absurd h.symm hb
        · exact h
      obtain ⟨rest, hr⟩ := ih hm
      refine ⟨rest, ?_⟩
      have hc : cstr (b :: mem) = b :: cstr mem := by simp [cstr, hb]
      rw [hc, List.cons_append, ← hr]

theorem cstr_append_of_mem {mem : List Byte} (h : NUL ∈ mem) (rest : List Byte) :
    cstr (mem ++ rest) = cstr mem := by
  obtain ⟨tail, ht⟩ := cstr_split h
  conv_lhs => rw [ht, List.append_assoc, List.cons_append, cstr_append_nul (nul_not_mem_cstr mem)]

theorem cstr_append {p : List Byte} (h : NUL ∉ p) (s : List Byte) : cstr (p ++ s) = p ++ cstr s :=
  List.takeWhile_append_of_pos (bne_of_not_mem h)

theorem cstr_nul (xs rest : List Byte) : cstr (xs ++ NUL :: rest) = cstr xs := by
  by_cases h : NUL ∈ xs
  · exact cstr_append_of_mem h _
  · rw [cstr_append_nul h, cstr_of_not_mem h]

instance : Std.TransCmp strcmp := inferInstanceAs (Std.TransCmp (compare (α := List Byte)))

theorem strcmp_eq {a b : List Byte} : strcmp a b = .eq ↔ a = b :=
  Std.LawfulEqOrd.compare_eq_iff_eq (α := List Byte)

/-- A C string a buffer of `n` bytes has room for, its NUL included. -/
structure CStr (n : Nat) where
  chars : List Byte
  noNul : NUL ∉ chars
  fits : chars.length < n
  deriving DecidableEq

theorem CStr.chars_inj {n : Nat} {s t : CStr n} : s.chars = t.chars ↔ s = t := by
  constructor
  · intro h
    cases s
    cases t
    cases h
    rfl
  · intro h
    rw [h]

/-! ## Buffers -/

/-- A buffer of `n` bytes. -/
structure Buf (n : Nat) where
  bytes : List Byte
  size : bytes.length = n
  deriving DecidableEq

namespace Buf

variable {n : Nat}

/-- The C string at the buffer's start. -/
def str (b : Buf n) : List Byte := cstr b.bytes

/-- The buffer holds a NUL, so its string ends inside it. -/
def Terminated (b : Buf n) : Prop := NUL ∈ b.bytes

instance (b : Buf n) : Decidable b.Terminated := inferInstanceAs (Decidable (NUL ∈ b.bytes))

/-- A zero-filled buffer. -/
def zero (n : Nat) : Buf n := ⟨List.replicate n NUL, List.length_replicate⟩

/-- The buffer after `xs` is written at `off`. What would land beyond the
end is dropped. -/
def store (b : Buf n) (off : Nat) (xs : List Byte) : Buf n :=
  ⟨(b.bytes.take off ++ xs ++ b.bytes.drop (off + xs.length)).take n, by
    have := b.size
    simp only [List.length_take, List.length_append, List.length_drop]
    omega⟩

/-- `strcpy` of the string `s` to the buffer's start. -/
def strcpy (b : Buf n) (s : List Byte) : Buf n := b.store 0 (s ++ [NUL])

/-- One byte of the buffer (NUL outside it). -/
def get (b : Buf n) (i : Nat) : Byte := b.bytes.getD i NUL

/-- The buffer with one byte written. -/
def put (b : Buf n) (i : Nat) (x : Byte) : Buf n := ⟨b.bytes.set i x, by simp [b.size]⟩

theorem store_bytes {b : Buf n} {off : Nat} {xs : List Byte} (h : off + xs.length ≤ n) :
    (b.store off xs).bytes = b.bytes.take off ++ xs ++ b.bytes.drop (off + xs.length) := by
  have := b.size
  unfold store
  apply List.take_of_length_le
  simp only [List.length_append, List.length_take, List.length_drop]
  omega

/-- Bytes with a NUL after them written at `off` extend the string that
stood before it, up to their own first NUL. -/
theorem store_cstr (b : Buf n) (off : Nat) {xs : List Byte} (hp : NUL ∉ b.bytes.take off)
    (h : off + xs.length < n) : (b.store off (xs ++ [NUL])).str = b.bytes.take off ++ cstr xs := by
  rw [str, store_bytes (by simp; omega), List.append_assoc, cstr_append hp, List.append_assoc, List.singleton_append,
    cstr_nul]

theorem store_str (b : Buf n) (off : Nat) {xs : List Byte} (hp : NUL ∉ b.bytes.take off)
    (hx : NUL ∉ xs) (h : off + xs.length < n) :
    (b.store off (xs ++ [NUL])).str = b.bytes.take off ++ xs := by
  rw [store_cstr b off hp h, cstr_of_not_mem hx]

theorem take_store {b : Buf n} {off : Nat} {xs : List Byte} (h : off + xs.length ≤ n) :
    (b.store off xs).bytes.take off = b.bytes.take off := by
  have hsize := b.size
  rw [store_bytes h, List.append_assoc, List.take_left' (by simp; omega)]

theorem store_terminated {b : Buf n} {off : Nat} {xs : List Byte} (h : off + xs.length < n) :
    (b.store off (xs ++ [NUL])).Terminated := by
  rw [Terminated, store_bytes (by simp; omega)]
  simp

theorem store_nul_terminated {b : Buf n} {off : Nat} (h : off < n) : (b.store off [NUL]).Terminated := by
  rw [Terminated, store_bytes h]
  simp

theorem le_length_str {b : Buf n} {off : Nat} (hp : NUL ∉ b.bytes.take off) (h : off ≤ n) : off ≤ b.str.length := by
  have hsplit : b.str = b.bytes.take off ++ cstr (b.bytes.drop off) := by
    rw [← cstr_append hp, List.take_append_drop, str]
  have hlength : (b.bytes.take off).length = off := by
    rw [List.length_take, b.size]
    omega
  rw [hsplit, List.length_append, hlength]
  exact Nat.le_add_right _ _

theorem length_str_le (b : Buf n) : b.str.length ≤ n := by
  have hprefix : b.str <+: b.bytes := List.takeWhile_prefix _
  exact hprefix.length_le.trans_eq b.size

theorem length_str_lt {b : Buf n} (h : b.Terminated) : b.str.length < n := by
  obtain ⟨rest, hr⟩ := cstr_split h
  have hl := congrArg List.length hr
  simp only [List.length_append, List.length_cons, b.size] at hl
  rw [str]
  omega

theorem take_str {b : Buf n} {k : Nat} (h : k ≤ b.str.length) : b.bytes.take k = b.str.take k := by
  have hp : b.str <+: b.bytes := List.takeWhile_prefix _
  obtain ⟨rest, hr⟩ := hp
  rw [← hr, List.take_append_of_le_length h]

theorem take_str_nul {b : Buf n} (h : b.Terminated) : b.bytes.take (b.str.length + 1) = b.str ++ [NUL] := by
  obtain ⟨rest, hr⟩ := cstr_split h
  conv_lhs => rw [hr]
  rw [str, List.take_append, List.take_of_length_le (Nat.le_succ _), Nat.add_sub_cancel_left]
  rfl

theorem get_str {b : Buf n} {i : Nat} (h : i < b.str.length) : b.get i = b.str[i] := by
  have hp : b.str <+: b.bytes := List.takeWhile_prefix _
  have hi : i < b.bytes.length := by have := hp.length_le; omega
  simp [get, List.getD_eq_getElem?_getD, List.getElem?_eq_getElem hi, hp.getElem h]

theorem store_nul_str {b : Buf n} {k : Nat} (h : k ≤ b.str.length) (hk : k < n) :
    (b.store k [NUL]).str = b.str.take k := by
  have hn : NUL ∉ b.bytes.take k := by
    rw [take_str h]
    exact fun hm => nul_not_mem_cstr _ (List.mem_of_mem_take hm)
  simpa [take_str h] using store_str b k hn List.not_mem_nil (by simpa using hk)

theorem strcpy_str {b : Buf n} (s : CStr n) : (b.strcpy s.chars).str = s.chars := by
  simpa [strcpy] using store_str b 0 (by simp) s.noNul (by simpa using s.fits)

theorem strcpy_terminated {b : Buf n} (s : CStr n) : (b.strcpy s.chars).Terminated :=
  store_terminated (by simpa using s.fits)

theorem terminated_of_length {b : Buf n} (h : b.str.length < n) : b.Terminated := by
  by_contra hn
  have : b.str = b.bytes := cstr_of_not_mem hn
  rw [this, b.size] at h
  omega

/-- The string of a terminated buffer, as one that fits it. -/
def toCStr (b : Buf n) (h : b.Terminated) : CStr n :=
  ⟨b.str, nul_not_mem_cstr _, length_str_lt h⟩

@[simp] theorem toCStr_chars (b : Buf n) (h : b.Terminated) : (b.toCStr h).chars = b.str := rfl

theorem strcpy_of_terminated {b c : Buf n} (h : c.Terminated) : (b.strcpy c.str).str = c.str :=
  strcpy_str (c.toCStr h)

/-! ## Single bytes -/

@[simp] theorem get_put_self {b : Buf n} {i : Nat} {x : Byte} (h : i < n) :
    (b.put i x).get i = x := by
  have : i < b.bytes.length := by rw [b.size]; exact h
  simp [get, put, List.getD_eq_getElem?_getD, List.getElem?_set_self this]

theorem get_put_ne {b : Buf n} {i j : Nat} {x : Byte} (h : j ≠ i) :
    (b.put i x).get j = b.get j := by
  simp [get, put, List.getD_eq_getElem?_getD, List.getElem?_set_ne (Ne.symm h)]

/-- A buffer that holds `s` and a NUL, byte by byte, holds the string `s`. -/
theorem str_of_get {b : Buf n} {s : CStr n} (h : ∀ i < s.chars.length, b.get i = s.chars.getD i NUL)
    (h0 : b.get s.chars.length = NUL) : b.str = s.chars := by
  have hf := s.fits
  have hlen : s.chars.length < b.bytes.length := by rw [b.size]; exact hf
  have htake : b.bytes.take s.chars.length = s.chars := by
    apply List.ext_getElem
    · simp only [List.length_take]; omega
    · intro i h1 h2
      have := h i h2
      simp only [get, List.getD_eq_getElem?_getD] at this
      rw [List.getElem?_eq_getElem (by omega), List.getElem?_eq_getElem h2] at this
      simpa using this
  have hz : b.bytes[s.chars.length] = NUL := by
    simpa [get, List.getD_eq_getElem?_getD, List.getElem?_eq_getElem hlen] using h0
  have hsplit : b.bytes = s.chars ++ NUL :: b.bytes.drop (s.chars.length + 1) := by
    conv_lhs => rw [← List.take_append_drop s.chars.length b.bytes, htake,
      List.drop_eq_getElem_cons hlen, hz]
  rw [str, hsplit, cstr_append_nul s.noNul]

end Buf

/-- Byte `k` of a string and the NULs after it. -/
def CStr.byte {n : Nat} (s : CStr n) (k : Nat) : Byte := s.chars.getD k NUL

theorem CStr.byte_eq_nul {n : Nat} {s : CStr n} {k : Nat} :
    s.byte k = NUL ↔ s.chars.length ≤ k := by
  constructor
  · intro h
    by_contra hk
    have hk : k < s.chars.length := by omega
    rw [CStr.byte, List.getD_eq_getElem?_getD, List.getElem?_eq_getElem hk, Option.getD_some] at h
    exact s.noNul (h ▸ List.getElem_mem hk)
  · intro h
    rw [CStr.byte, List.getD_eq_getElem?_getD, List.getElem?_eq_none h, Option.getD_none]

theorem CStr.eq_of_byte {n : Nat} {s t : CStr n} {k : Nat} (h : ∀ i < k + 1, s.byte i = t.byte i)
    (hk : t.byte k = NUL) : s = t := by
  have ht := CStr.byte_eq_nul.1 hk
  have hs := CStr.byte_eq_nul.1 ((h k (Nat.lt_succ_self k)).trans hk)
  have hst : s.chars.length ≤ t.chars.length :=
    CStr.byte_eq_nul.1 ((h _ (Nat.lt_succ_of_le ht)).trans (CStr.byte_eq_nul.2 le_rfl))
  have hts : t.chars.length ≤ s.chars.length :=
    CStr.byte_eq_nul.1 ((h _ (Nat.lt_succ_of_le hs)).symm.trans (CStr.byte_eq_nul.2 le_rfl))
  have hchars : s.chars = t.chars := by
    apply List.ext_getElem (le_antisymm hst hts)
    intro i h1 h2
    have := h i (by omega)
    simpa [CStr.byte, List.getD_eq_getElem?_getD, h1, h2] using this
  exact CStr.chars_inj.1 hchars

namespace Buf

variable {n : Nat}

/-- The first `k` bytes of a string have been copied to the buffer. -/
def Copied (b : Buf n) (s : CStr n) (k : Nat) : Prop := ∀ i < k, b.get i = s.byte i

theorem Copied.zero (b : Buf n) (s : CStr n) :
    b.Copied s 0 := fun _ h => absurd h (Nat.not_lt_zero _)

theorem Copied.put {b : Buf n} {s : CStr n} {k : Nat} (h : b.Copied s k) (hk : k < n) :
    (b.put k (s.byte k)).Copied s (k + 1) := by
  intro i hi
  rcases Nat.lt_succ_iff_lt_or_eq.1 hi with hi | rfl
  · rw [get_put_ne (Nat.ne_of_lt hi), h i hi]
  · rw [get_put_self hk]

/-- The string is copied with its NUL. -/
def Holds (b : Buf n) (s : CStr n) : Prop := b.Copied s (s.chars.length + 1)

theorem Holds.str {b : Buf n} {s : CStr n} (h : b.Holds s) : b.str = s.chars :=
  str_of_get (fun i hi => h i (by omega)) ((h _ (Nat.lt_succ_self _)).trans (CStr.byte_eq_nul.2 le_rfl))

end Buf

end SysProg
