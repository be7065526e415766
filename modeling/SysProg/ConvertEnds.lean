/-
Where `convert` ends. A definition that does not go into its record (it is
too long, or a line of it has no newline) is flushed up to a line of fewer
than two characters. At end of file `fgets` leaves the buffer of the flush as
it was, so the flush waits for such a line for ever.

What is read where depends on the text alone, not on the records and the
buffers, and is said here of the text.
-/
import SysProg.ConvertLoops

namespace SysProg.Convert

/-- What follows the next line (or piece of a line, as the flush reads it) of
fewer than two characters, if there is one. -/
def afterShort (inp : List Byte) : Option (List Byte) :=
  if h : inp = [] then none
  else
    let piece := lineChunk (BIGLINE - 1) inp
    if (cstr piece.1).length < 2 then some piece.2 else afterShort piece.2
termination_by inp.length
decreasing_by exact lineChunk_lt (by decide) h

/-- How the reading of a definition ends. -/
inductive DefStop where
  | eof
  /-- At a blank line, or what is taken for it. -/
  | blank (rest : List Byte)
  /-- At a line that did not go in whole, or has no newline. -/
  | cut (rest : List Byte)

/-- How it ends on a text, with room for `k` characters and a newline. -/
def defStop (k : Nat) (inp : List Byte) : DefStop :=
  if h : inp = [] then .eof
  else
    let piece := lineChunk (k + 1) inp
    let s := cstr piece.1
    if s.length < 2 then .blank piece.2
    else if s.getLast? ≠ some NL then .cut piece.2
    else defStop (k + 1 - s.length) piece.2
termination_by inp.length
decreasing_by exact lineChunk_lt (Nat.succ_pos k) h

/-- What is unread then. -/
def DefStop.rest : DefStop → List Byte
  | .eof => []
  | .blank rest | .cut rest => rest

theorem defStop_nil (k : Nat) : defStop k [] = .eof := by
  unfold defStop
  exact dif_pos rfl

theorem defStop_cons {k : Nat} {inp xs rest : List Byte} (hne : inp ≠ []) (h : lineChunk (k + 1) inp = (xs, rest)) :
    defStop k inp =
      if (cstr xs).length < 2 then .blank rest
      else if (cstr xs).getLast? ≠ some NL then .cut rest
      else defStop (k + 1 - (cstr xs).length) rest := by
  conv_lhs => unfold defStop
  rw [dif_neg hne, h]

theorem defStop_rest_le (k : Nat) (inp : List Byte) : (defStop k inp).rest.length ≤ inp.length := by
  induction hn : inp.length using Nat.strong_induction_on generalizing k inp with
  | _ n ih =>
    by_cases hne : inp = []
    · subst hne
      rw [defStop_nil]
      exact Nat.zero_le _
    · have hlt := lineChunk_lt (Nat.succ_pos k) hne
      rw [defStop_cons hne rfl]
      split
      · exact (Nat.le_of_lt hlt).trans_eq hn
      · split
        · exact (Nat.le_of_lt hlt).trans_eq hn
        · exact (ih _ (hn ▸ hlt) _ _ rfl).trans ((Nat.le_of_lt hlt).trans_eq hn)

theorem defStop_word_lt {inp : List Byte} (hne : inp ≠ []) :
    (defStop (TEXT - 2) (lineChunk (BIGLINE - 1) inp).2).rest.length < inp.length :=
  (defStop_rest_le _ _).trans_lt (lineChunk_lt (by decide) hne)

theorem afterShort_nil : afterShort [] = none := by
  unfold afterShort
  exact dif_pos rfl

theorem afterShort_cons {inp xs rest : List Byte} (hne : inp ≠ []) (h : lineChunk (BIGLINE - 1) inp = (xs, rest)) :
    afterShort inp = if (cstr xs).length < 2 then some rest else afterShort rest := by
  conv_lhs => unfold afterShort
  rw [dif_neg hne, h]

theorem afterShort_lt {inp rest : List Byte} (h : afterShort inp = some rest) : rest.length < inp.length := by
  induction hn : inp.length using Nat.strong_induction_on generalizing inp with
  | _ n ih =>
    by_cases hne : inp = []
    · subst hne
      rw [afterShort_nil] at h
      cases h
    · have hlt := lineChunk_lt (k := BIGLINE - 1) (by decide) hne
      rw [afterShort_cons hne rfl] at h
      split at h
      · cases h
        exact hlt.trans_eq hn
      · exact (ih _ (hn ▸ hlt) h rfl).trans (hlt.trans_eq hn)

/-- What is unread at each definition that is cut, up to the one of these
that no short line follows. -/
def cuts (inp : List Byte) : List (List Byte) :=
  if _ : inp = [] then []
  else
    match _ : defStop (TEXT - 2) (lineChunk (BIGLINE - 1) inp).2 with
    | .eof => []
    | .blank rest => cuts rest
    | .cut rest =>
      rest :: match _ : afterShort rest with
        | none => []
        | some rest => cuts rest
termination_by inp.length
decreasing_by
  · next hne h =>
    have hlt := defStop_word_lt hne
    rwa [h] at hlt
  · next hne _ h hs =>
    have hlt := defStop_word_lt hne
    rw [h] at hlt
    exact (afterShort_lt hs).trans hlt

theorem cuts_nil : cuts [] = [] := by
  unfold cuts
  exact dif_pos rfl

theorem cuts_cons {inp : List Byte} (hne : inp ≠ []) :
    cuts inp =
      match defStop (TEXT - 2) (lineChunk (BIGLINE - 1) inp).2 with
      | .eof => []
      | .blank rest => cuts rest
      | .cut rest => rest :: (afterShort rest).elim [] cuts := by
  conv_lhs => unfold cuts
  rw [dif_neg hne]
  split
  · next h => rw [h]
  · next rest h => rw [h]
  · next rest h =>
    rw [h]
    dsimp only
    split
    · next hs => rw [hs, Option.elim_none]
    · next hs => rw [hs, Option.elim_some]

/-! ## The flush -/

theorem fgets_flush (line : Buf BIGLINE) {inp xs rest : List Byte} (hne : inp ≠ [])
    (h : lineChunk (BIGLINE - 1) inp = (xs, rest)) :
    ∃ line' : Buf BIGLINE, fgets line 0 BIGLINE inp = some (line', rest) ∧ line'.str = cstr xs := by
  have hlen := lineChunk_length (BIGLINE - 1) inp
  rw [h] at hlen
  refine ⟨_, fgets_eq line 0 (by decide) hne h, ?_⟩
  rw [Buf.store_cstr line 0 List.not_mem_nil (by simp only [BIGLINE] at hlen ⊢; omega)]
  rfl

/-- The flush ends after a short line, which it leaves in its buffer. -/
theorem flush_short {inp rest : List Byte} (h : afterShort inp = some rest) (line : Buf BIGLINE) :
    ∃ fuel, ∃ line' : Buf BIGLINE, flush fuel line inp = some (line', false, rest) ∧ line'.str.length < 2 := by
  induction hn : inp.length using Nat.strong_induction_on generalizing inp line with
  | _ n ih =>
    have hne : inp ≠ [] := by
      rintro rfl
      rw [afterShort_nil] at h
      cases h
    obtain ⟨xs, more, hchunk⟩ : ∃ xs more, lineChunk (BIGLINE - 1) inp = (xs, more) := ⟨_, _, rfl⟩
    obtain ⟨line', hf, hstr⟩ := fgets_flush line hne hchunk
    rw [afterShort_cons hne hchunk, ← hstr] at h
    split at h
    · next hshort =>
      cases h
      refine ⟨1, line', ?_, hshort⟩
      simp only [flush, hf]
      rw [if_neg (by omega)]
    · next hlong =>
      have hlt : more.length < n := by
        rw [← hn]
        simpa only [hchunk] using lineChunk_lt (k := BIGLINE - 1) (by decide) hne
      obtain ⟨fuel, line'', hflush, hshort⟩ := ih _ hlt h line' rfl
      refine ⟨fuel + 1, line'', ?_, hshort⟩
      rw [flush]
      simp only [hf]
      rw [if_pos (by omega)]
      exact hflush

theorem flush_nil {line : Buf BIGLINE} (h : line.str.length < 2) : flush 1 line [] = some (line, true, []) := by
  rw [flush, fgets_nil (by decide)]
  exact if_neg (by omega)

/-- Without a short line it goes on for ever, but for a buffer that is short at end of file. -/
theorem flush_forever {v w : Vars} (pc : v.pc = .flush) (h : afterShort v.inp = none)
    (hline : v.inp = [] → 2 ≤ v.line.str.length) (hreach : Reach step anyStep v w) : w.pc = .flush := by
  refine (Reach.invariant
    (I := fun v => v.pc = .flush ∧ afterShort v.inp = none ∧ (v.inp = [] → 2 ≤ v.line.str.length)) ?_ ⟨pc, h, hline⟩
    hreach).1
  rintro v a v' ⟨pc, h, hline⟩ - hstep
  simp only [step, pc] at hstep
  by_cases hne : v.inp = []
  · rw [hne, fgets_nil (by decide)] at hstep
    dsimp only at hstep
    rw [if_pos (hline hne)] at hstep
    cases hstep
    exact ⟨rfl, afterShort_nil, fun _ => hline hne⟩
  · obtain ⟨xs, more, hchunk⟩ : ∃ xs more, lineChunk (BIGLINE - 1) v.inp = (xs, more) := ⟨_, _, rfl⟩
    obtain ⟨line', hf, hstr⟩ := fgets_flush v.line hne hchunk
    rw [afterShort_cons hne hchunk, ← hstr] at h
    split at h
    · cases h
    · next hlong =>
      rw [hf] at hstep
      dsimp only at hstep
      rw [if_pos (by omega)] at hstep
      cases hstep
      exact ⟨rfl, h, fun _ => by dsimp only; omega⟩

theorem flush_none {inp : List Byte} {line : Buf BIGLINE} (h : afterShort inp = none)
    (hline : inp = [] → 2 ≤ line.str.length) (fuel : Nat) : flush fuel line inp = none := by
  rw [Option.eq_none_iff_forall_ne_some]
  rintro ⟨line', eof, rest⟩ hflush
  have hreach := flush_reach hflush (start line 0 0 inp)
  cases flush_forever rfl h hline hreach

theorem flush_then {r rest : List Byte} (h : afterShort r = some rest) (line : Buf BIGLINE)
    (Next : Buf BIGLINE → List Byte → Prop) :
    ∃ line' : Buf BIGLINE, line'.str.length < 2 ∧
      ((∃ fuel line'' eof rest', flush fuel line r = some (line'', eof, rest') ∧ (eof = false → Next line'' rest')) ↔
        Next line' rest) := by
  obtain ⟨fuel, line', hflush, hshort⟩ := flush_short h line
  refine ⟨line', hshort, ?_, fun hnext => ⟨fuel, line', false, rest, hflush, fun _ => hnext⟩⟩
  rintro ⟨fuel', line'', eof, rest', hflush', hnext⟩
  have heq := (flush_mono (Nat.le_max_left fuel fuel') hflush).symm.trans
    (flush_mono (Nat.le_max_right fuel fuel') hflush')
  cases heq
  exact hnext rfl

theorem flush_then_none {r : List Byte} (h : afterShort r = none) (line : Buf BIGLINE)
    (Next : Buf BIGLINE → List Byte → Prop) :
    (∃ fuel line' eof rest, flush fuel line r = some (line', eof, rest) ∧ (eof = false → Next line' rest)) ↔
      r = [] ∧ line.str.length < 2 := by
  constructor
  · rintro ⟨fuel, line', eof, rest, hflush, -⟩
    by_contra hnot
    refine absurd (flush_none h ?_ fuel) (by rw [hflush]; exact Option.some_ne_none _)
    rintro rfl
    by_contra hline
    exact hnot ⟨rfl, by omega⟩
  · rintro ⟨rfl, hline⟩
    exact ⟨1, line, true, [], flush_nil hline, fun h => absurd h (by decide)⟩

/-! ## The definition loop -/

/-- The definition loop has ended so. -/
def DefStop.Of : DefStop → DefEnd → Prop
  | .eof, d => d.eof = true
  | .blank rest, d => d.eof = false ∧ d.blank = true ∧ d.inp = rest
  | .cut rest, d => d.eof = false ∧ d.blank = false ∧ d.inp = rest

theorem get_last {text : Buf TEXT} {p s : List Byte} (h : text.str = p ++ s) (hs : 2 ≤ s.length) :
    text.get (text.str.length - 1) = NL ↔ s.getLast? = some NL := by
  have hne : s ≠ [] := List.length_pos_iff.1 (by omega)
  have hlen : text.str.length = p.length + s.length := by rw [h, List.length_append]
  have hlast : text.str.getLast? = s.getLast? := by
    rw [h, List.getLast?_append, List.getLast?_eq_some_getLast hne, Option.some_or]
  rw [← hlast, List.getLast?_eq_getElem?, List.getElem?_eq_getElem (by omega), Buf.get_str (by omega),
    Option.some_inj]

theorem readDef_stop {dr : Dictrec} {off : Nat} (h : Open dr off) (eof : Bool) (newoff : Nat) (inp : List Byte) :
    ∃ fuel d, readDef fuel dr eof off newoff inp = some d ∧ (defStop (TEXT - 2 - off) inp).Of d := by
  induction hn : inp.length using Nat.strong_induction_on generalizing dr off eof newoff inp with
  | _ n ih =>
    have hoff := h.off_le
    have htwo : 2 ≤ TEXT - off := by
      simp only [TEXT] at *
      omega
    by_cases hne : inp = []
    · subst hne
      refine ⟨1, ⟨dr, true, off, dr.text.str.length, []⟩, ?_, ?_⟩
      · rw [readDef, if_pos (by omega), fgets_nil htwo]
      · rw [defStop_nil]
        rfl
    · have hk : TEXT - 2 - off + 1 = TEXT - off - 1 := by omega
      obtain ⟨xs, rest, hchunk⟩ : ∃ xs rest, lineChunk (TEXT - off - 1) inp = (xs, rest) := ⟨_, _, rfl⟩
      obtain ⟨text, hf⟩ : ∃ text, fgets dr.text off (TEXT - off) inp = some (text, rest) :=
        ⟨_, fgets_eq dr.text off htwo hne hchunk⟩
      have hlt : rest.length < n := by
        rw [← hn]
        simpa only [hchunk] using lineChunk_lt (k := TEXT - off - 1) (by omega) hne
      obtain ⟨xs', -, hchunk', hstr, hopen⟩ := h.append hf
      cases hchunk.symm.trans hchunk'
      have hlen := congrArg List.length hstr
      rw [List.length_append, List.length_take, dr.text.size, Nat.min_eq_left (by omega)] at hlen
      have hblank : text.str.length < off + 2 ↔ (cstr xs).length < 2 := by omega
      rw [defStop_cons hne (hk ▸ hchunk)]
      by_cases hshort : (cstr xs).length < 2
      · rw [if_pos hshort]
        refine ⟨1, ⟨{ dr with text }, false, off, text.str.length, rest⟩, ?_, rfl,
          decide_eq_true (hblank.2 hshort), rfl⟩
        rw [readDef, if_pos (by omega), hf]
        exact if_pos (.inl (hblank.2 hshort))
      · rw [if_neg hshort]
        have hlast := get_last hstr (by omega)
        by_cases hcut : (cstr xs).getLast? = some NL
        · rw [if_neg (not_not.2 hcut)]
          have hnext := hopen.next (by dsimp only; omega)
          obtain ⟨fuel, d, hread, hd⟩ := ih _ hlt hnext false text.str.length rest rfl
          have hroom : TEXT - 2 - (text.str.length - 1) = TEXT - 2 - off + 1 - (cstr xs).length := by omega
          refine ⟨fuel + 1, d, ?_, hroom ▸ hd⟩
          rw [readDef, if_pos (by omega), hf]
          dsimp only
          rw [if_neg (not_or.2 ⟨mt hblank.1 hshort, not_not.2 (hlast.2 hcut)⟩)]
          exact hread
        · rw [if_pos hcut]
          refine ⟨1, ⟨{ dr with text }, false, off, text.str.length, rest⟩, ?_, rfl,
            decide_eq_false (mt hblank.1 hshort), rfl⟩
          rw [readDef, if_pos (by omega), hf]
          exact if_pos (.inr (mt hlast.1 hcut))

/-! ## The record loop -/

theorem pass_reads {inp : List Byte} (hne : inp ≠ []) :
    ∃ dr fuel d, readWord Dictrec.blank inp = some (dr, (lineChunk (BIGLINE - 1) inp).2) ∧
      readDef fuel dr false 0 0 (lineChunk (BIGLINE - 1) inp).2 = some d ∧
      (defStop (TEXT - 2) (lineChunk (BIGLINE - 1) inp).2).Of d := by
  obtain ⟨dr, hword⟩ : ∃ dr, readWord Dictrec.blank inp = some (dr, (lineChunk (BIGLINE - 1) inp).2) :=
    ⟨_, by rw [readWord, fgets_eq _ _ (by decide) hne rfl]⟩
  obtain ⟨fuel, d, hread, hd⟩ :=
    readDef_stop (.zero (readWord_terminated hword)) false 0 (lineChunk (BIGLINE - 1) inp).2
  exact ⟨dr, fuel, d, hword, hread, hd⟩

/-- All ends then if the flush that may come ends, and the passes after it. -/
theorem converts_pass {inp defStart : List Byte} {dr : Dictrec} {n : Nat} {d : DefEnd}
    (hword : readWord Dictrec.blank inp = some (dr, defStart)) (hread : readDef n dr false 0 0 defStart = some d)
    (line : Buf BIGLINE) :
    (∃ ps, Converts line inp ps) ↔
      ∃ fuel line' eof rest, flushRest fuel line d = some (line', eof, rest) ∧
        (eof = false → ∃ ps, Converts line' rest ps) := by
  constructor
  · rintro ⟨ps, fuel, hps⟩
    have hps := passes_mono (show fuel ≤ max fuel n + 1 by omega) hps
    simp only [passes, hword, readDef_mono (Nat.le_max_right fuel n) hread, Option.bind_some, Option.bind_eq_some_iff,
      Option.map_eq_some_iff] at hps
    obtain ⟨⟨line', eof, rest⟩, hflush, more, hmore, -⟩ := hps
    refine ⟨_, line', eof, rest, hflush, ?_⟩
    rintro rfl
    exact ⟨more, _, hmore⟩
  · rintro ⟨fuel, line', eof, rest, hflush, hrest⟩
    obtain ⟨m, more, hmore⟩ : ∃ m more, (if eof then some [] else passes m line' rest) = some more := by
      cases eof with
      | true => exact ⟨0, [], rfl⟩
      | false =>
        obtain ⟨ps, m, hm⟩ := hrest rfl
        exact ⟨m, ps, hm⟩
    let top := max fuel (max n m)
    have hmore : (if eof then some [] else passes top line' rest) = some more := by
      cases eof with
      | true => exact hmore
      | false => exact passes_mono (show m ≤ top by omega) hmore
    refine ⟨⟨inp, defStart, d.dr⟩ :: more, top + 1, ?_⟩
    simp only [passes, hword, readDef_mono (show n ≤ top by omega) hread, Option.bind_some,
      flushRest_mono (show fuel ≤ top by omega) hflush, hmore, Option.map_some]

theorem flushRest_whole {d : DefEnd} (h : (d.eof || d.blank) = true) (fuel : Nat) (line : Buf BIGLINE) :
    flushRest fuel line d = some (line, d.eof, d.inp) := if_pos h

theorem flushRest_cut {d : DefEnd} {r : List Byte} (h : (DefStop.cut r).Of d) (fuel : Nat) (line : Buf BIGLINE) :
    flushRest fuel line d = flush fuel line r := by
  obtain ⟨heof, hblank, rfl⟩ := h
  rw [flushRest, heof, hblank]
  rfl

/-! ## The machine -/

theorem step_closed {v : Vars} (h : v.pc = .closed) : step v () = none := by
  simp only [step, h]

/-- Where the machine comes to its end, so has the flush. -/
theorem flushRest_of_closed {stop : DefStop} {d : DefEnd} (hd : stop.Of d) {line : Buf BIGLINE}
    {written : List Dictrec} {w : Vars} (hw : w.pc = .closed)
    (h : Reach step anyStep ⟨.rest, line, d.dr, d.eof, d.off, d.newoff, d.inp, written⟩ w) :
    ∃ fuel line' eof rest, flushRest fuel line d = some (line', eof, rest) ∧
      (eof = false → rest.length ≤ stop.rest.length) := by
  cases stop with
  | eof =>
    have heof : d.eof = true := hd
    refine ⟨0, line, d.eof, d.inp, flushRest_whole (by rw [heof]; rfl) _ _, ?_⟩
    rw [heof]
    exact fun h => absurd h (by decide)
  | blank rest =>
    obtain ⟨-, hblank, rfl⟩ := hd
    exact ⟨0, line, d.eof, d.inp, flushRest_whole (by rw [hblank, Bool.or_true]) _ _, fun _ => le_rfl⟩
  | cut r =>
    simp only [flushRest_cut hd]
    have hgo : (d.eof || d.blank) ≠ true := by
      rw [hd.1, hd.2.1]
      decide
    have hstep : step ⟨.rest, line, d.dr, d.eof, d.off, d.newoff, d.inp, written⟩ () =
        some ⟨.flush, line, d.dr, d.eof, d.off, d.newoff, d.inp, written⟩ := by
      simp only [step]
      rw [if_neg (mt (ended_iff ..).1 hgo)]
    have hflush := Reach.ahead (.single (next hstep)) h (step_closed hw)
    have hinp : d.inp = r := hd.2.2
    cases hs : afterShort r with
    | some rest =>
      obtain ⟨fuel, line', hflush, -⟩ := flush_short hs line
      exact ⟨fuel, line', false, rest, hflush, fun _ => (afterShort_lt hs).le⟩
    | none =>
      by_cases hend : r = [] ∧ line.str.length < 2
      · obtain ⟨rfl, hline⟩ := hend
        exact ⟨1, line, true, [], flush_nil hline, fun h => absurd h (by decide)⟩
      · have hpc := flush_forever rfl (by rw [← hs, ← hinp]) (fun hnil => ?_) hflush
        · rw [hw] at hpc
          cases hpc
        · by_contra hline
          exact hend ⟨hinp ▸ hnil, by dsimp only at hline; omega⟩

/-- The machine comes to its end only where the passes do. -/
theorem converts_of_closed {line : Buf BIGLINE} {dr : Dictrec} {off newoff : Int} {inp : List Byte}
    {written : List Dictrec} {w : Vars} (hw : w.pc = .closed)
    (h : Reach step anyStep ⟨.records, line, dr, false, off, newoff, inp, written⟩ w) :
    ∃ ps, Converts line inp ps := by
  induction hn : inp.length using Nat.strong_induction_on generalizing line dr off newoff inp written with
  | _ n ih =>
    by_cases hne : inp = []
    · subst hne
      exact ⟨[], 1, by rw [passes, readWord_none.2 rfl]⟩
    · obtain ⟨dr', m, d, hword, hread, hd⟩ := pass_reads hne
      have hrest := Reach.ahead (pass_reach_rest hword hread dr off newoff written) h (step_closed hw)
      obtain ⟨fuel, line', eof, rest, hflush, hle⟩ := flushRest_of_closed hd hw hrest
      refine (converts_pass hword hread line).2 ⟨fuel, line', eof, rest, hflush, ?_⟩
      rintro rfl
      have hmore := Reach.ahead (pass_reach hword hread hflush dr off newoff written) h (step_closed hw)
      exact ih _ (hn ▸ (hle rfl).trans_lt (defStop_word_lt hne)) hmore rfl

/-- The passes end exactly where the machine closes its files. -/
theorem converts_iff_closed (line : Buf BIGLINE) (off newoff : Int) (inp : List Byte) :
    (∃ ps, Converts line inp ps) ↔ ∃ v, Reach step anyStep (start line off newoff inp) v ∧ v.pc = .closed := by
  constructor
  · rintro ⟨ps, hps⟩
    obtain ⟨v, hv, hclosed, -⟩ := converts_reach hps off newoff
    exact ⟨v, hv, hclosed⟩
  · rintro ⟨v, hv, hclosed⟩
    exact converts_of_closed hclosed hv

/-- `main` comes to its end exactly if after every definition that is cut
there is a line of fewer than two characters, or nothing at all and the
buffer of the flush held no more than that either. -/
theorem convert_ends_iff (line : Buf BIGLINE) (inp : List Byte) :
    (∃ ps, Converts line inp ps) ↔
      ∀ r ∈ cuts inp, (afterShort r).isSome ∨ r = [] ∧ (2 ≤ (cuts inp).length ∨ line.str.length < 2) := by
  induction hn : inp.length using Nat.strong_induction_on generalizing line inp with
  | _ n ih =>
    by_cases hne : inp = []
    · subst hne
      rw [cuts_nil]
      refine iff_of_true ⟨[], 1, ?_⟩ (by simp)
      rw [passes, readWord_none.2 rfl]
    · obtain ⟨dr, m, d, hword, hread, hd⟩ := pass_reads hne
      have hlt := defStop_word_lt hne
      rw [converts_pass hword hread line, cuts_cons hne]
      cases hstop : defStop (TEXT - 2) (lineChunk (BIGLINE - 1) inp).2 with
      | eof =>
        rw [hstop] at hd
        have heof : d.eof = true := hd
        refine iff_of_true ⟨0, line, d.eof, d.inp, flushRest_whole (by rw [heof]; rfl) _ _, ?_⟩ (by simp)
        rw [heof]
        exact fun h => absurd h (by decide)
      | blank rest =>
        rw [hstop] at hd hlt
        obtain ⟨heof, hblank, rfl⟩ := hd
        rw [← ih _ (hn ▸ hlt) line _ rfl]
        have hflush := fun fuel => flushRest_whole (d := d) (by rw [hblank, Bool.or_true]) fuel line
        constructor
        · rintro ⟨fuel, line', eof, rest, hf, hrest⟩
          cases (hflush fuel).symm.trans hf
          exact hrest heof
        · intro hends
          exact ⟨0, line, d.eof, d.inp, hflush 0, fun _ => hends⟩
      | cut r =>
        rw [hstop] at hd hlt
        simp only [flushRest_cut hd, List.forall_mem_cons]
        cases hs : afterShort r with
        | none =>
          rw [flush_then_none hs line fun line' rest => ∃ ps, Converts line' rest ps]
          simp
        | some rest =>
          obtain ⟨line', hshort, hends⟩ := flush_then hs line fun line' rest => ∃ ps, Converts line' rest ps
          rw [hends, ih _ (hn ▸ (afterShort_lt hs).trans hlt) line' rest rfl, Option.elim_some]
          constructor
          · intro h
            refine ⟨.inl rfl, fun x hx => (h x hx).imp_right fun hx' => ⟨hx'.1, .inl ?_⟩⟩
            have := List.length_pos_of_mem hx
            rw [List.length_cons]
            omega
          · rintro ⟨-, h⟩ x hx
            exact (h x hx).imp_right fun hx' => ⟨hx'.1, .inr hshort⟩

/-- The word a with one line of 490 characters. -/
def longLast : List Byte := [97, NL] ++ (List.replicate 490 120 ++ [NL])

/-- The flush finds the rest of that line and no other: it reads at end of
file for ever, and not even the record of the word is written. -/
theorem longLast_runs_on : ¬∃ ps, Converts (Buf.zero BIGLINE) longLast ps := by
  rintro ⟨ps, hps⟩
  let tail : List Byte := List.replicate 11 120 ++ [NL]
  have hline : List.replicate 490 120 ++ [NL] ≠ [] := List.append_ne_nil_of_right_ne_nil _ (List.cons_ne_nil _ _)
  have htail : tail ≠ [] := List.append_ne_nil_of_right_ne_nil _ (List.cons_ne_nil _ _)
  have hword : (lineChunk (BIGLINE - 1) longLast).2 = List.replicate 490 120 ++ [NL] := by decide +kernel
  have hpiece : lineChunk (TEXT - 2 + 1) (List.replicate 490 120 ++ [NL]) = (List.replicate 479 120, tail) := by
    decide +kernel
  have hrest : lineChunk (BIGLINE - 1) tail = (tail, []) := by decide
  obtain ⟨dr, n, d, hread, hdef, hd⟩ := pass_reads (show longLast ≠ [] from List.cons_ne_nil _ _)
  rw [hword, defStop_cons hline hpiece, if_neg (by decide +kernel), if_pos (by decide +kernel)] at hd
  have hshort : afterShort tail = none := by
    rw [afterShort_cons htail hrest, if_neg (by decide), afterShort_nil]
  obtain ⟨fuel, line', eof, rest, hflush, -⟩ := (converts_pass hread hdef _).1 ⟨ps, hps⟩
  rw [flushRest_cut hd, flush_none hshort fun h => absurd h htail] at hflush
  cases hflush

end SysProg.Convert
