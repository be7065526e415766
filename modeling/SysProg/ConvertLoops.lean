/-
`main` of convert.c one statement at a time: where it stands, its variables,
and the records it has written. Every record it writes ends its strings
inside its fields, whatever bytes it reads.

The loops run on when they do not end (`passes` does not say what they wrote
then), so what holds of them is an invariant of the machine.
-/
import SysProg.Framing
import SysProg.Lib.Lts

namespace SysProg.Convert

/-- The statement that comes next. -/
inductive Pc where
  /-- The test of the record loop. -/
  | records
  /-- The test of the definition loop, and its `fgets`. -/
  | definition
  /-- `newoff` is set; whether to go on with this definition. -/
  | appended
  /-- After the definition loop. -/
  | rest
  | flush
  | write
  /-- The files are closed. -/
  | closed
  deriving DecidableEq

/-- The variables of `main`, with the statement it is at. -/
structure Vars where
  pc : Pc
  line : Buf BIGLINE
  dr : Dictrec
  eof : Bool
  off : Int
  newoff : Int
  inp : List Byte
  written : List Dictrec

/-- `sizeof(dr.text) - off`, which is unsigned, of 64 bits. -/
def room (off : Int) : Nat := ((TEXT - off) % 0x10000000000000000).toNat

/-- The last character read of the definition is not a newline. -/
def Vars.cut (v : Vars) : Prop := v.dr.text.get (v.newoff - 1).toNat ≠ NL

instance (v : Vars) : Decidable v.cut := inferInstanceAs (Decidable (_ ≠ _))

/-- End of file, or no more than a blank line was read. -/
def Vars.ended (v : Vars) : Prop := v.eof = true ∨ v.newoff - v.off < 2

instance (v : Vars) : Decidable v.ended := inferInstanceAs (Decidable (_ ∨ _))

/-- The next step of `main`. -/
def step (v : Vars) (_ : Unit) : Option Vars :=
  match v.pc with
  | .records =>
    if v.eof then some { v with pc := .closed }
    else
      match readWord Dictrec.blank v.inp with
      | none => some { v with pc := .closed, dr := Dictrec.blank }
      | some (dr, inp) => some { v with pc := .definition, dr := dr, off := 0, newoff := 0, inp := inp }
  | .definition =>
    if 0 < room v.off then
      match fgets v.dr.text v.off.toNat (room v.off) v.inp with
      | none => some { v with pc := .appended, eof := true, newoff := v.dr.text.str.length }
      | some (text, inp) =>
        some { v with
          pc := .appended, dr := { v.dr with text := text }, eof := false, newoff := text.str.length, inp := inp }
    else some { v with pc := .rest }
  | .appended =>
    if v.ended ∨ v.cut then some { v with pc := .rest } else some { v with pc := .definition, off := v.newoff - 1 }
  | .rest => if v.ended then some { v with pc := .write } else some { v with pc := .flush }
  | .flush =>
    match fgets v.line 0 BIGLINE v.inp with
    | none => if 2 ≤ v.line.str.length then some { v with eof := true } else some { v with pc := .write, eof := true }
    | some (line, inp) =>
      if 2 ≤ line.str.length then some { v with line := line, eof := false, inp := inp }
      else some { v with pc := .write, line := line, eof := false, inp := inp }
  | .write => some { v with pc := .records, written := v.written ++ [v.dr] }
  | .closed => none

/-- `main` before its first loop, with anything in `line`, `off` and `newoff`. -/
def start (line : Buf BIGLINE) (off newoff : Int) (inp : List Byte) : Vars :=
  ⟨.records, line, Dictrec.blank, false, off, newoff, inp, []⟩

/-! ## The record read into -/

theorem cutWord_terminated (w : Buf WORD) : (cutWord w).Terminated := by
  have hstore : (w.store (WORD - 1) [NUL]).Terminated := Buf.store_nul_terminated (by decide)
  unfold cutWord
  dsimp only
  split
  · next hmem =>
    have hlen := Buf.length_str_lt hstore
    have hidx := List.idxOf_lt_length_iff.2 hmem
    exact Buf.store_nul_terminated (by omega)
  · exact hstore

theorem blank_flat : Dictrec.blank.flat.bytes = List.replicate RECSIZE NUL := by
  simp [Dictrec.blank, Dictrec.flat, Buf.zero, List.replicate_append_replicate]

/-- A headword leaves both fields ended: one that runs over into the text
ends there, and a blank record is all NULs. -/
theorem readWord_terminated {inp rest : List Byte} {dr : Dictrec} (h : readWord Dictrec.blank inp = some (dr, rest)) :
    dr.Terminated := by
  unfold readWord at h
  split at h
  · cases h
  · next b rest' hf =>
    cases h
    refine ⟨cutWord_terminated _, ?_⟩
    obtain ⟨-, xs, hchunk, rfl⟩ := fgets_some (by decide) hf
    have hlen : xs.length ≤ BIGLINE - 1 := by
      have := lineChunk_length (BIGLINE - 1) inp
      rwa [hchunk] at this
    have hfit : 0 + (xs ++ [NUL]).length ≤ RECSIZE := by
      simp only [List.length_append, List.length_singleton, RECSIZE, WORD, TEXT, BIGLINE] at hlen ⊢
      omega
    have hpos : RECSIZE - (0 + (xs.length + 1)) - (WORD - (xs.length + 1)) ≠ 0 ∨ WORD ≤ xs.length := by
      simp only [RECSIZE, WORD, TEXT, BIGLINE] at hlen ⊢
      omega
    show NUL ∈ (Dictrec.blank.flat.store 0 (xs ++ [NUL])).bytes.drop WORD
    rw [Buf.store_bytes hfit, blank_flat, List.take_zero, List.nil_append, List.drop_append, List.mem_append]
    rcases hpos with hpos | hlong
    · right
      simp only [List.drop_replicate, List.length_append, List.length_singleton, List.mem_replicate]
      exact ⟨hpos, trivial⟩
    · left
      rw [List.drop_append_of_le_length hlong]
      simp

/-! ## The definition loop -/

/-- The record while its definition is read: both fields are ended, and the
first `off` bytes of the text are no NULs. -/
structure Open (dr : Dictrec) (off : Nat) : Prop where
  terminated : dr.Terminated
  noNul : NUL ∉ dr.text.bytes.take off
  off_le : off ≤ TEXT - 2

theorem Open.zero {dr : Dictrec} (h : dr.Terminated) : Open dr 0 := ⟨h, List.not_mem_nil, Nat.zero_le _⟩

theorem Open.off_le_length {dr : Dictrec} {off : Nat} (h : Open dr off) : off ≤ dr.text.str.length := by
  have hoff := h.off_le
  exact Buf.le_length_str h.noNul (by simp only [TEXT] at *; omega)

theorem Open.room_eq {dr : Dictrec} {off : Int} (h : Open dr off.toNat) (hoff : 0 ≤ off) :
    off ≤ 478 ∧ room off = TEXT - off.toNat ∧ 2 ≤ room off := by
  have hle := h.off_le
  unfold room
  simp only [TEXT] at *
  omega

theorem Open.append {dr : Dictrec} {off : Nat} (h : Open dr off) {inp rest : List Byte} {text : Buf TEXT}
    (hf : fgets dr.text off (TEXT - off) inp = some (text, rest)) :
    ∃ xs, inp ≠ [] ∧ lineChunk (TEXT - off - 1) inp = (xs, rest) ∧ text.str = dr.text.bytes.take off ++ cstr xs ∧
      Open { dr with text := text } off := by
  have hoff := h.off_le
  obtain ⟨hne, xs, hchunk, rfl⟩ := fgets_some (by simp only [TEXT] at *; omega) hf
  have hlen := lineChunk_length (TEXT - off - 1) inp
  rw [hchunk] at hlen
  have hfit : off + xs.length < TEXT := by
    simp only [TEXT] at *
    omega
  refine ⟨xs, hne, hchunk, Buf.store_cstr _ _ h.noNul hfit, ⟨h.terminated.1, Buf.store_terminated hfit⟩, ?_, hoff⟩
  rw [Buf.take_store (by simp only [List.length_append, List.length_singleton]; omega)]
  exact h.noNul

theorem Open.next {dr : Dictrec} {off : Nat} (h : Open dr off) (hlong : off + 2 ≤ dr.text.str.length) :
    Open dr (dr.text.str.length - 1) := by
  have hlt := Buf.length_str_lt h.terminated.2
  refine ⟨h.terminated, ?_, by simp only [TEXT] at *; omega⟩
  rw [Buf.take_str (Nat.sub_le _ _)]
  exact fun hm => nul_not_mem_cstr _ (List.mem_of_mem_take hm)

/-! ## What holds all along -/

/-- What holds before each statement. -/
def Good (v : Vars) : Prop :=
  match v.pc with
  | .definition => 0 ≤ v.off ∧ Open v.dr v.off.toNat
  | .appended => 0 ≤ v.off ∧ Open v.dr v.off.toNat ∧ v.newoff = v.dr.text.str.length
  | .rest | .flush | .write => v.dr.Terminated
  | .records | .closed => True

/-- What all records written have in common. -/
def Written (v : Vars) : Prop := ∀ dr ∈ v.written, dr.Terminated

theorem good_step {v v' : Vars} (h : Good v ∧ Written v) (hstep : step v () = some v') : Good v' ∧ Written v' := by
  obtain ⟨hgood, hwritten⟩ := h
  unfold Good at hgood
  unfold step at hstep
  split at hstep
  · split at hstep
    · cases hstep
      exact ⟨trivial, hwritten⟩
    · split at hstep
      · cases hstep
        exact ⟨trivial, hwritten⟩
      · next dr inp hword =>
        cases hstep
        exact ⟨⟨Int.le_refl 0, .zero (readWord_terminated hword)⟩, hwritten⟩
  · next pc =>
    rw [pc] at hgood
    obtain ⟨hoff, hopen⟩ := hgood
    obtain ⟨-, hroom, htwo⟩ := hopen.room_eq hoff
    rw [if_pos (by omega)] at hstep
    split at hstep
    · cases hstep
      exact ⟨⟨hoff, hopen, rfl⟩, hwritten⟩
    · next text inp hf =>
      cases hstep
      rw [hroom] at hf
      obtain ⟨xs, -, -, -, hopen'⟩ := hopen.append hf
      exact ⟨⟨hoff, hopen', rfl⟩, hwritten⟩
  · next pc =>
    rw [pc] at hgood
    obtain ⟨hoff, hopen, hnewoff⟩ := hgood
    split at hstep
    · cases hstep
      exact ⟨hopen.terminated, hwritten⟩
    · next hgo =>
      cases hstep
      simp only [Vars.ended, not_or] at hgo
      obtain ⟨⟨-, hlong⟩, -⟩ := hgo
      have hnext := hopen.next (by omega)
      have hnat : (v.newoff - 1).toNat = v.dr.text.str.length - 1 := by omega
      refine ⟨⟨?_, ?_⟩, hwritten⟩
      · show 0 ≤ v.newoff - 1
        omega
      · show Open v.dr (v.newoff - 1).toNat
        rw [hnat]
        exact hnext
  · next pc =>
    rw [pc] at hgood
    split at hstep
    · cases hstep
      exact ⟨hgood, hwritten⟩
    · cases hstep
      exact ⟨hgood, hwritten⟩
  · next pc =>
    rw [pc] at hgood
    split at hstep
    · split at hstep
      · cases hstep
        exact ⟨by simpa [Good, pc] using hgood, hwritten⟩
      · cases hstep
        exact ⟨hgood, hwritten⟩
    · split at hstep
      · cases hstep
        exact ⟨by simpa [Good, pc] using hgood, hwritten⟩
      · cases hstep
        exact ⟨hgood, hwritten⟩
  · next pc =>
    rw [pc] at hgood
    cases hstep
    refine ⟨trivial, ?_⟩
    intro dr hdr
    rcases List.mem_append.1 hdr with hdr | hdr
    · exact hwritten dr hdr
    · rw [List.mem_singleton.1 hdr]
      exact hgood
  · cases hstep

theorem good_reach {line : Buf BIGLINE} {off newoff : Int} {inp : List Byte} {v : Vars}
    (h : Reach step anyStep (start line off newoff inp) v) : Good v ∧ Written v :=
  Reach.invariant (I := fun v => Good v ∧ Written v) (fun _ _ _ hI _ hstep => good_step hI hstep)
    ⟨show Good (start line off newoff inp) from trivial, fun _ hdr => by cases hdr⟩ h

/-- Whatever is read: the offsets of every pass of the definition loop stay in
the text, the size that goes to `fgets` leaves it room for a character, the
last character of a definition is looked at only where there is one, and all
records are written with a NUL in each field. -/
theorem convert_safe {line : Buf BIGLINE} {off newoff : Int} {inp : List Byte} {v : Vars}
    (h : Reach step anyStep (start line off newoff inp) v) :
    (v.pc = .definition → 0 ≤ v.off ∧ v.off ≤ 478 ∧ 2 ≤ room v.off ∧ v.off + room v.off = TEXT) ∧
    (v.pc = .appended → v.off ≤ v.newoff ∧ v.newoff ≤ 479 ∧ (¬v.ended → 2 ≤ v.newoff)) ∧
    (v.pc = .write → v.dr.word.Terminated ∧ v.dr.text.Terminated) ∧
    ∀ dr ∈ v.written, dr.word.Terminated ∧ dr.text.Terminated := by
  obtain ⟨hgood, hwritten⟩ := good_reach h
  unfold Good at hgood
  refine ⟨?_, ?_, ?_, hwritten⟩
  · intro pc
    rw [pc] at hgood
    obtain ⟨hoff, hopen⟩ := hgood
    obtain ⟨hle, hroom, htwo⟩ := hopen.room_eq hoff
    simp only [TEXT] at *
    omega
  · intro pc
    rw [pc] at hgood
    obtain ⟨hoff, hopen, hnewoff⟩ := hgood
    have hle := hopen.off_le_length
    have hlt := Buf.length_str_lt hopen.terminated.2
    simp only [Vars.ended, not_or, TEXT] at *
    omega
  · intro pc
    rw [pc] at hgood
    exact hgood

/-- The word a with the definition b, and no blank line. -/
theorem convert_safe_one : ∃ v : Vars,
    Reach step anyStep (start (Buf.zero BIGLINE) 0 0 [97, NL, 98, NL]) v ∧ v.written.length = 1 ∧
      ∀ dr ∈ v.written, dr.word.Terminated ∧ dr.text.Terminated := by
  have hrun : (exec step anyStep (start (Buf.zero BIGLINE) 0 0 [97, NL, 98, NL]) (List.replicate 7 ())).map
      (·.written.length) = some 1 := by
    decide +kernel
  obtain ⟨v, hv, hwritten⟩ := Option.map_eq_some_iff.1 hrun
  have hreach := reach_of_exec hv
  exact ⟨v, hreach, hwritten, (convert_safe hreach).2.2.2⟩

/-! ## The loops as a whole -/

theorem room_of_le {off : Nat} (h : off ≤ TEXT) : room off = TEXT - off := by
  unfold room
  simp only [TEXT] at *
  omega

theorem next {v v' : Vars} (h : step v () = some v') : Steps step anyStep v v' := ⟨(), trivial, h⟩

theorem stops_iff {line : Buf BIGLINE} {dr : Dictrec} {off newoff : Nat} {inp : List Byte} {written : List Dictrec} :
    (Vars.ended ⟨.appended, line, dr, false, off, newoff, inp, written⟩ ∨
        Vars.cut ⟨.appended, line, dr, false, off, newoff, inp, written⟩) ↔
      newoff < off + 2 ∨ dr.text.get (newoff - 1) ≠ NL := by
  have hlast : ((newoff : Int) - 1).toNat = newoff - 1 := by omega
  have hshort : (newoff : Int) - off < 2 ↔ newoff < off + 2 := by omega
  simp only [Vars.ended, Vars.cut, Bool.false_eq_true, false_or, hlast, hshort]

/-- The definition loop, from its first test to after it. -/
theorem readDef_reach {fuel : Nat} {dr : Dictrec} {eof : Bool} {off newoff : Nat} {inp : List Byte} {d : DefEnd}
    (h : readDef fuel dr eof off newoff inp = some d) (hoff : off ≤ TEXT) (line : Buf BIGLINE)
    (written : List Dictrec) :
    Reach step anyStep ⟨.definition, line, dr, eof, off, newoff, inp, written⟩
      ⟨.rest, line, d.dr, d.eof, d.off, d.newoff, d.inp, written⟩ := by
  induction fuel generalizing dr eof off newoff inp with
  | zero => cases h
  | succ fuel ih =>
    unfold readDef at h
    rw [← room_of_le hoff] at h
    split at h
    · next hpos =>
      split at h
      · next hf =>
        cases h
        have hread : step ⟨.definition, line, dr, eof, off, newoff, inp, written⟩ () =
            some ⟨.appended, line, dr, true, off, dr.text.str.length, inp, written⟩ := by
          simp only [step, Int.toNat_natCast, if_pos hpos, hf]
        refine .head (next hread) (.single (next ?_))
        simp only [step, Vars.ended, true_or, if_true]
      · next text inp' hf =>
        dsimp only at h
        have hread : step ⟨.definition, line, dr, eof, off, newoff, inp, written⟩ () =
            some ⟨.appended, line, { dr with text }, false, off, text.str.length, inp', written⟩ := by
          simp only [step, Int.toNat_natCast, if_pos hpos, hf]
        refine .head (next hread) ?_
        split at h
        · next hstop =>
          cases h
          refine .single (next ?_)
          simp only [step]
          rw [if_pos (stops_iff.2 hstop)]
        · next hgo =>
          have hlong := (not_or.1 hgo).1
          have hle := text.length_str_le
          have hoff' : ((text.str.length - 1 : Nat) : Int) = text.str.length - 1 := by omega
          have hmore := ih h (by omega)
          rw [hoff'] at hmore
          refine .head (next ?_) hmore
          simp only [step]
          rw [if_neg (mt stops_iff.1 hgo)]
    · next hpos =>
      cases h
      refine .single (next ?_)
      simp only [step, if_neg hpos]

/-- The flush, from its first `fgets` to after it. -/
theorem flush_reach {fuel : Nat} {line line' : Buf BIGLINE} {inp rest : List Byte} {eof : Bool}
    (h : flush fuel line inp = some (line', eof, rest)) (v : Vars) :
    Reach step anyStep { v with pc := .flush, line := line, inp := inp }
      { v with pc := .write, line := line', eof := eof, inp := rest } := by
  induction fuel generalizing line inp v with
  | zero => cases h
  | succ fuel ih =>
    unfold flush at h
    split at h
    · next hf =>
      split at h
      · next hlong =>
        refine .head (next ?_) (ih h { v with eof := true })
        simp only [step, hf, if_pos hlong]
      · next hshort =>
        cases h
        refine .single (next ?_)
        simp only [step, hf, if_neg hshort]
    · next line₁ inp₁ hf =>
      split at h
      · next hlong =>
        refine .head (next ?_) (ih h { v with eof := false })
        simp only [step, hf, if_pos hlong]
      · next hshort =>
        cases h
        refine .single (next ?_)
        simp only [step, hf, if_neg hshort]

theorem ended_iff (line : Buf BIGLINE) (d : DefEnd) (written : List Dictrec) :
    Vars.ended ⟨.rest, line, d.dr, d.eof, d.off, d.newoff, d.inp, written⟩ ↔ (d.eof || d.blank) = true := by
  have hblank : (d.newoff : Int) - d.off < 2 ↔ d.newoff < d.off + 2 := by omega
  rw [Bool.or_eq_true, DefEnd.blank, decide_eq_true_iff]
  exact or_congr_right hblank

/-- What comes between the definition loop and the `fwrite`. -/
theorem flushRest_reach {fuel : Nat} {line line' : Buf BIGLINE} {d : DefEnd} {eof : Bool} {rest : List Byte}
    (h : flushRest fuel line d = some (line', eof, rest)) (written : List Dictrec) :
    Reach step anyStep ⟨.rest, line, d.dr, d.eof, d.off, d.newoff, d.inp, written⟩
      ⟨.write, line', d.dr, eof, d.off, d.newoff, rest, written⟩ := by
  unfold flushRest at h
  split at h
  · next hend =>
    cases h
    refine .single (next ?_)
    simp only [step]
    rw [if_pos ((ended_iff ..).2 hend)]
  · next hend =>
    refine .head (next ?_) (flush_reach h ⟨.rest, line, d.dr, d.eof, d.off, d.newoff, d.inp, written⟩)
    simp only [step]
    rw [if_neg (mt (ended_iff ..).1 hend)]

section

variable {line : Buf BIGLINE} {inp defStart : List Byte} {dr dr' : Dictrec} {fuel : Nat} {d : DefEnd}

theorem pass_reach_rest (hword : readWord Dictrec.blank inp = some (dr', defStart))
    (hread : readDef fuel dr' false 0 0 defStart = some d) (dr : Dictrec) (off newoff : Int) (written : List Dictrec) :
    Reach step anyStep ⟨.records, line, dr, false, off, newoff, inp, written⟩
      ⟨.rest, line, d.dr, d.eof, d.off, d.newoff, d.inp, written⟩ := by
  have hfirst : step ⟨.records, line, dr, false, off, newoff, inp, written⟩ () =
      some ⟨.definition, line, dr', false, 0, 0, defStart, written⟩ := by
    simp only [step, hword]
    rfl
  exact (readDef_reach hread (Nat.zero_le _) line written).head (next hfirst)

theorem pass_reach {fuel' : Nat} {line' : Buf BIGLINE} {eof : Bool} {rest : List Byte}
    (hword : readWord Dictrec.blank inp = some (dr', defStart)) (hread : readDef fuel dr' false 0 0 defStart = some d)
    (hflush : flushRest fuel' line d = some (line', eof, rest)) (dr : Dictrec) (off newoff : Int)
    (written : List Dictrec) :
    Reach step anyStep ⟨.records, line, dr, false, off, newoff, inp, written⟩
      ⟨.records, line', d.dr, eof, d.off, d.newoff, rest, written ++ [d.dr]⟩ := by
  have hlast : step ⟨.write, line', d.dr, eof, d.off, d.newoff, rest, written⟩ () =
      some ⟨.records, line', d.dr, eof, d.off, d.newoff, rest, written ++ [d.dr]⟩ := rfl
  exact ((pass_reach_rest hword hread dr off newoff written).trans (flushRest_reach hflush written)).tail (next hlast)

end

/-- A run that ends takes the machine to its end, with the records of its passes written. -/
theorem passes_reach {fuel : Nat} {line : Buf BIGLINE} {inp : List Byte} {ps : List Pass}
    (h : passes fuel line inp = some ps) (dr : Dictrec) (off newoff : Int) (written : List Dictrec) :
    ∃ v, Reach step anyStep ⟨.records, line, dr, false, off, newoff, inp, written⟩ v ∧ v.pc = .closed ∧
      v.written = written ++ ps.map (·.dr) := by
  induction fuel generalizing line inp ps dr off newoff written with
  | zero => cases h
  | succ fuel ih =>
    unfold passes at h
    split at h
    · next hword =>
      cases h
      refine ⟨⟨.closed, line, Dictrec.blank, false, off, newoff, inp, written⟩, .single (next ?_), rfl,
        (List.append_nil _).symm⟩
      simp only [step, hword]
      rfl
    · next dr' defStart hword =>
      simp only [Option.bind_eq_some_iff, Option.map_eq_some_iff] at h
      obtain ⟨d, hread, ⟨line', eof, rest⟩, hflush, more, hmore, rfl⟩ := h
      have hpass := pass_reach hword hread hflush dr off newoff written
      cases eof with
      | true =>
        cases hmore
        exact ⟨_, hpass.tail (next rfl), rfl, rfl⟩
      | false =>
        obtain ⟨v, hv, hclosed, hwritten⟩ := ih hmore d.dr d.off d.newoff (written ++ [d.dr])
        refine ⟨v, hpass.trans hv, hclosed, ?_⟩
        rw [hwritten, List.append_assoc]
        rfl

theorem converts_reach {line : Buf BIGLINE} {inp : List Byte} {ps : List Pass} (h : Converts line inp ps)
    (off newoff : Int) :
    ∃ v, Reach step anyStep (start line off newoff inp) v ∧ v.pc = .closed ∧ v.written = ps.map (·.dr) := by
  obtain ⟨fuel, hps⟩ := h
  exact passes_reach hps Dictrec.blank off newoff []

end SysProg.Convert
