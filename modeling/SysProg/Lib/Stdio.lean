/-
Streams of the C library: `fgets` on the bytes still to be read of a text,
`fread` of fixed-size blocks from a seekable file.
-/
import SysProg.Lib.Buffer

namespace SysProg

/-! ## Lines -/

/-- The bytes one `fgets` takes from its stream, at most `k` of them and none
after a newline, and the bytes it leaves. -/
def lineChunk : Nat → List Byte → List Byte × List Byte
  | 0, inp => ([], inp)
  | _ + 1, [] => ([], [])
  | k + 1, c :: inp =>
    if c = NL then ([c], inp) else (c :: (lineChunk k inp).1, (lineChunk k inp).2)

/-- `fgets(b + off, size, inp)`: the buffer and the bytes left, or `none` for
NULL (end of file with nothing read, the buffer untouched). -/
def fgets {n : Nat} (b : Buf n) (off size : Nat) (inp : List Byte) : Option (Buf n × List Byte) :=
  if size ≤ 1 then some (b.store off [NUL], inp)
  else match inp with
    | [] => none
    | c :: inp =>
      let (xs, rest) := lineChunk (size - 1) (c :: inp)
      some (b.store off (xs ++ [NUL]), rest)

/-- A line that fits is taken whole, with its newline. -/
theorem lineChunk_line {k : Nat} {l : List Byte} (hl : NL ∉ l) (hk : l.length < k)
    (rest : List Byte) :
    lineChunk k (l ++ NL :: rest) = (l ++ [NL], rest) := by
  induction l generalizing k with
  | nil =>
    obtain ⟨k, rfl⟩ : ∃ k', k = k' + 1 := ⟨k - 1, by simp at hk; omega⟩
    simp [lineChunk]
  | cons c l ih =>
    simp only [List.mem_cons, not_or] at hl
    obtain ⟨k, rfl⟩ : ∃ k', k = k' + 1 := ⟨k - 1, by simp at hk; omega⟩
    simp only [List.length_cons, Nat.add_lt_add_iff_right] at hk
    simp [lineChunk, Ne.symm hl.1, ih hl.2 hk]

/-- A line too long is cut, and its rest stays in the stream. -/
theorem lineChunk_cut {k : Nat} {l : List Byte} (hl : NL ∉ l) (hk : k ≤ l.length)
    (rest : List Byte) :
    lineChunk k (l ++ rest) = (l.take k, l.drop k ++ rest) := by
  induction l generalizing k with
  | nil => simp at hk; subst hk; simp [lineChunk]
  | cons c l ih =>
    simp only [List.mem_cons, not_or] at hl
    cases k with
    | zero => simp [lineChunk]
    | succ k =>
      simp only [List.length_cons, Nat.add_le_add_iff_right] at hk
      simp [lineChunk, Ne.symm hl.1, ih hl.2 hk]

theorem lineChunk_length (k : Nat) (inp : List Byte) : (lineChunk k inp).1.length ≤ k := by
  induction k generalizing inp with
  | zero => simp [lineChunk]
  | succ k ih =>
    cases inp with
    | nil => simp [lineChunk]
    | cons c inp =>
      have := ih inp
      simp only [lineChunk]
      split
      · simp
      · simp only [List.length_cons]; omega

theorem lineChunk_append (k : Nat) (inp : List Byte) : (lineChunk k inp).1 ++ (lineChunk k inp).2 = inp := by
  induction k generalizing inp with
  | zero => rfl
  | succ k ih =>
    cases inp with
    | nil => rfl
    | cons c inp =>
      simp only [lineChunk]
      split
      · rfl
      · rw [List.cons_append, ih]

theorem lineChunk_lt {k : Nat} (hk : 0 < k) {inp : List Byte} (h : inp ≠ []) :
    (lineChunk k inp).2.length < inp.length := by
  have hsplit := congrArg List.length (lineChunk_append k inp)
  rw [List.length_append] at hsplit
  have hpos : (lineChunk k inp).1 ≠ [] := by
    cases inp with
    | nil => exact absurd rfl h
    | cons c inp =>
      obtain ⟨k, rfl⟩ : ∃ k', k = k' + 1 := ⟨k - 1, by omega⟩
      simp only [lineChunk]
      split <;> simp
  have := List.length_pos_iff.2 hpos
  omega

theorem fgets_nil {n : Nat} {b : Buf n} {off size : Nat} (hs : 2 ≤ size) :
    fgets b off size [] = none := by
  have : ¬ size ≤ 1 := by omega
  simp [fgets, this]

theorem fgets_eq {n : Nat} (b : Buf n) (off : Nat) {size : Nat} {inp xs rest : List Byte}
    (hs : 2 ≤ size) (hne : inp ≠ []) (hc : lineChunk (size - 1) inp = (xs, rest)) :
    fgets b off size inp = some (b.store off (xs ++ [NUL]), rest) := by
  have : ¬ size ≤ 1 := by omega
  cases inp with
  | nil => exact absurd rfl hne
  | cons c inp => simp [fgets, this, hc]

theorem fgets_some {n : Nat} {b b' : Buf n} {off size : Nat} {inp rest : List Byte} (hs : 2 ≤ size)
    (h : fgets b off size inp = some (b', rest)) :
    inp ≠ [] ∧ ∃ xs, lineChunk (size - 1) inp = (xs, rest) ∧ b' = b.store off (xs ++ [NUL]) := by
  cases inp with
  | nil => rw [fgets_nil hs] at h; cases h
  | cons c inp =>
    rw [fgets_eq b off hs (by simp) rfl] at h
    cases h
    exact ⟨by simp, _, rfl, rfl⟩

theorem fgets_line {n : Nat} (b : Buf n) (off : Nat) {size : Nat} {l : List Byte} (hl : NL ∉ l)
    (hk : l.length + 2 ≤ size) (rest : List Byte) :
    fgets b off size (l ++ NL :: rest) = some (b.store off ((l ++ [NL]) ++ [NUL]), rest) :=
  fgets_eq b off (by omega) (by simp) (lineChunk_line hl (by omega) rest)

theorem fgets_cut {n : Nat} (b : Buf n) (off : Nat) {size : Nat} {l : List Byte} (hl : NL ∉ l)
    (hs : 2 ≤ size) (hk : size - 1 ≤ l.length) (rest : List Byte) :
    fgets b off size (l ++ rest) =
      some (b.store off (l.take (size - 1) ++ [NUL]), l.drop (size - 1) ++ rest) := by
  refine fgets_eq b off hs ?_ (lineChunk_cut hl hk rest)
  cases l with
  | nil => simp at hk; omega
  | cons c l => simp

/-! ## Blocks -/

/-- An open file: its bytes and the position of the next read. -/
structure Stream where
  data : List Byte
  pos : Nat
  deriving DecidableEq

/-- `fseek(f, p, SEEK_SET)`. -/
def Stream.seek (f : Stream) (p : Nat) : Stream := { f with pos := p }

/-- `rewind(f)`. -/
def Stream.rewind (f : Stream) : Stream := f.seek 0

/-- `fread` of one block of `n` bytes: the block when it is there whole. A
partial one is consumed and not delivered. -/
def Stream.fread (n : Nat) (f : Stream) : Option (Buf n) × Stream :=
  if h : f.pos + n ≤ f.data.length then
    (some ⟨(f.data.drop f.pos).take n, by simp; omega⟩, f.seek (f.pos + n))
  else (none, f.seek f.data.length)

@[simp] theorem Stream.seek_data (f : Stream) (p : Nat) : (f.seek p).data = f.data := rfl
@[simp] theorem Stream.seek_pos (f : Stream) (p : Nat) : (f.seek p).pos = p := rfl

end SysProg
