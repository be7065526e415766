/-
`convert.c`: a text of entries (a headword line, the lines of its
definition, a blank line) into a file of fixed-length records.

The three loops of `main` are `readDef`, `flush` and `passes`. They are run
with fuel: `flush` need not stop, for at end of file `fgets` leaves `line` as
it was. A `Pass` keeps, with the record it writes, what was unread when its
headword and its definition were begun: where the program took its records
to start is as much a part of what it does as what it wrote.
-/
import SysProg.Dict

namespace SysProg.Convert

/-- The size of `line` in `main`. -/
abbrev BIGLINE : Nat := 512

/-- The word just read, cut at the end of its field and at its newline. -/
def cutWord (word : Buf WORD) : Buf WORD :=
  let word := word.store (WORD - 1) [NUL]
  -- `strchr(dr.word, '\n')`, in the field just ended.
  if NL ∈ word.str then word.store (word.str.idxOf NL) [NUL] else word

/-- The word of the next record: `fgets(dr.word, BIGLINE, in)`, which runs
over into `dr.text`, and its cutting. `none` at end of file. -/
def readWord (dr : Dictrec) (inp : List Byte) : Option (Dictrec × List Byte) :=
  match fgets dr.flat 0 BIGLINE inp with
  | none => none
  | some (b, rest) =>
    let dr := Dictrec.ofFlat b
    some ({ dr with word := cutWord dr.word }, rest)

/-- The variables after the definition loop. -/
structure DefEnd where
  dr : Dictrec
  eof : Bool
  off : Nat
  newoff : Nat
  inp : List Byte

/-- No more than the blank line (or what is taken for it) was read last. -/
def DefEnd.blank (d : DefEnd) : Bool := d.newoff < d.off + 2

/-- The definition loop: lines are read straight into `dr.text`, each over
the newline of the one before. -/
def readDef : Nat → Dictrec → Bool → Nat → Nat → List Byte → Option DefEnd
  | 0, _, _, _, _, _ => none
  | fuel + 1, dr, eof, off, newoff, inp =>
    if 0 < TEXT - off then
      match fgets dr.text off (TEXT - off) inp with
      | none => some ⟨dr, true, off, dr.text.str.length, inp⟩
      | some (text, inp) =>
        let newoff := text.str.length
        if newoff < off + 2 ∨ text.get (newoff - 1) ≠ NL then some ⟨{ dr with text }, false, off, newoff, inp⟩
        else readDef fuel { dr with text } false (newoff - 1) newoff inp
    else some ⟨dr, eof, off, newoff, inp⟩

/-- The flush of the rest of a definition, up to a blank line: the buffer
`line`, `eof` and what is left. -/
def flush : Nat → Buf BIGLINE → List Byte → Option (Buf BIGLINE × Bool × List Byte)
  | 0, _, _ => none
  | fuel + 1, line, inp =>
    match fgets line 0 BIGLINE inp with
    | none => if 2 ≤ line.str.length then flush fuel line inp else some (line, true, inp)
    | some (line, inp) => if 2 ≤ line.str.length then flush fuel line inp else some (line, false, inp)

/-- After the definition loop: not a blank line nor end of file, so the rest
of this definition is flushed. -/
def flushRest (fuel : Nat) (line : Buf BIGLINE) (d : DefEnd) :
    Option (Buf BIGLINE × Bool × List Byte) :=
  if d.eof || d.blank then some (line, d.eof, d.inp) else flush fuel line d.inp

/-- One pass of the record loop: what was unread at its headword and at its
definition, and the record it wrote. -/
structure Pass where
  start : List Byte
  defStart : List Byte
  dr : Dictrec

/-- The record loop. `line` is whatever the local buffer holds. -/
def passes : Nat → Buf BIGLINE → List Byte → Option (List Pass)
  | 0, _, _ => none
  | fuel + 1, line, inp =>
    match readWord Dictrec.blank inp with
    | none => some []
    | some (dr, defStart) =>
      (readDef fuel dr false 0 0 defStart).bind fun d =>
      (flushRest fuel line d).bind fun (line, eof, rest) =>
      (if eof then some [] else passes fuel line rest).map fun more => ⟨inp, defStart, d.dr⟩ :: more

/-- `main` ends on `inp` after these passes. -/
def Converts (line : Buf BIGLINE) (inp : List Byte) (ps : List Pass) : Prop :=
  ∃ fuel, passes fuel line inp = some ps

/-- The file `main` writes in these passes. -/
def output (ps : List Pass) : List Byte := fileOf (ps.map (·.dr))

/-! ## More fuel changes nothing -/

theorem readDef_mono {n m dr eof off newoff inp d} (hm : n ≤ m)
    (h : readDef n dr eof off newoff inp = some d) : readDef m dr eof off newoff inp = some d := by
  induction n generalizing m dr eof off newoff inp with
  | zero => simp [readDef] at h
  | succ n ih =>
    obtain ⟨m, rfl⟩ : ∃ m', m = m' + 1 := ⟨m - 1, by omega⟩
    have hm : n ≤ m := by omega
    unfold readDef at h ⊢
    split at h
    · next hoff =>
      rw [if_pos hoff]
      split at h
      · exact h
      · dsimp only at h ⊢
        split at h
        · next hb => rw [if_pos hb]; exact h
        · next hb => rw [if_neg hb]; exact ih hm h
    · next hoff => rw [if_neg hoff]; exact h

theorem flush_mono {n m line inp r} (hm : n ≤ m) (h : flush n line inp = some r) :
    flush m line inp = some r := by
  induction n generalizing m line inp with
  | zero => simp [flush] at h
  | succ n ih =>
    obtain ⟨m, rfl⟩ : ∃ m', m = m' + 1 := ⟨m - 1, by omega⟩
    unfold flush at h ⊢
    split at h
    all_goals
      split at h
      · next hl => rw [if_pos hl]; exact ih (by omega) h
      · next hl => rw [if_neg hl]; exact h

theorem flushRest_mono {n m line d r} (hm : n ≤ m) (h : flushRest n line d = some r) :
    flushRest m line d = some r := by
  unfold flushRest at h ⊢
  split at h
  · next hb => rw [if_pos hb]; exact h
  · next hb => rw [if_neg hb]; exact flush_mono hm h

theorem passes_mono {n m line inp ps} (hm : n ≤ m) (h : passes n line inp = some ps) :
    passes m line inp = some ps := by
  induction n generalizing m line inp ps with
  | zero => simp [passes] at h
  | succ n ih =>
    obtain ⟨m, rfl⟩ : ∃ m', m = m' + 1 := ⟨m - 1, by omega⟩
    have hm : n ≤ m := by omega
    unfold passes at h ⊢
    split at h
    · exact h
    · simp only [Option.bind_eq_some_iff, Option.map_eq_some_iff] at h ⊢
      obtain ⟨d, hd, ⟨line', eof, rest⟩, hf, more, hp, rfl⟩ := h
      refine ⟨d, readDef_mono hm hd, (line', eof, rest), flushRest_mono hm hf, more, ?_, rfl⟩
      split at hp
      · next he => rw [if_pos he]; exact hp
      · next he => rw [if_neg he]; exact ih hm hp

end SysProg.Convert
