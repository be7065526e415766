/-
From a dictionary text through `convert` to `lookup1`: every query is
answered from the first entry of its headword.
-/
import SysProg.Framing
import SysProg.LookupFacts
import Mathlib.Data.List.Forall2

namespace SysProg.Convert

/-- An entry that fits a record: the headword its field, the definition and a
newline the other. -/
structure ShortEntry extends Entry where
  wordFits : headword.chars.length ≤ WORD - 1
  textFits : (joined definition).length ≤ TEXT - 2

/-- Entries separated by one blank line, with or without one at the end. -/
def separated (blank : Bool) : List ShortEntry → List Byte
  | [] => []
  | [e] => e.headword.chars ++ NL :: (linesText e.definition ++ if blank then [NL] else [])
  | e :: e' :: es => e.headword.chars ++ NL :: (linesText e.definition ++ NL :: separated blank (e' :: es))

/-- The text of a short entry, not cut. -/
def ShortEntry.text (e : ShortEntry) : List Byte := joined e.definition ++ [NL]

/-- Definition lines that end with the file, all of which fit. -/
theorem readDef_eof {dr : Dictrec} {p : List Byte} {ls : List Line} (fuel : Nat) (h : Holds dr p)
    (hlast : ls = [] → dr.text.str = p ++ [NL]) (hfit : p.length + (joined ls).length ≤ TEXT - 2)
    (hf : ls.length < fuel) (eof newoff) :
    ∃ d, readDef fuel dr eof p.length newoff (linesText ls) = some d ∧ d.eof = true ∧ d.dr.word = dr.word ∧
      d.dr.text.str = p ++ joined ls ++ [NL] := by
  induction ls generalizing dr p fuel eof newoff with
  | nil =>
    obtain ⟨fuel, rfl⟩ : ∃ f, fuel = f + 1 := ⟨fuel - 1, by omega⟩
    have hr := h.room
    have h0 : 0 < TEXT - p.length := by simp only [TEXT] at *; omega
    refine ⟨⟨dr, true, p.length, dr.text.str.length, []⟩, ?_, rfl, rfl, by simp [hlast]⟩
    rw [linesText_nil, readDef, if_pos h0, fgets_nil (by simp only [TEXT] at *; omega)]
  | cons l ls ih =>
    obtain ⟨fuel, rfl⟩ : ∃ f, fuel = f + 1 := ⟨fuel - 1, by omega⟩
    rw [joined_cons, List.length_append] at hfit
    obtain ⟨dr₁, h₁, hw₁, ht₁, hr₁⟩ := readDef_line (l := l) h (by omega) (linesText ls)
    obtain ⟨d, hd, he, hw, ht⟩ := ih fuel h₁ (fun _ => ht₁) (by rw [List.length_append]; omega)
      (by simpa using hf) false ((p ++ l.chars).length + 1)
    have hcons : linesText (l :: ls) = l.chars ++ NL :: linesText ls := by simp [linesText]
    refine ⟨d, ?_, he, hw.trans hw₁, ?_⟩
    · rw [hcons, hr₁, hd]
    · rw [ht, joined_cons, List.append_assoc p]

theorem defKept_of_fits {off : Nat} {ls : List Line} (h : off + (joined ls).length ≤ TEXT - 2) :
    DefKept off ls := by
  induction ls generalizing off with
  | nil => trivial
  | cons l ls ih =>
    rw [joined_cons, List.length_append] at h
    rw [DefKept, if_pos (by omega)]
    exact ih (by omega)

theorem ShortEntry.kept (e : ShortEntry) : e.Kept := by
  have := e.wordFits
  exact ⟨by simp only [WORD, BIGLINE] at *; omega, defKept_of_fits (by simpa using e.textFits)⟩

theorem ShortEntry.filed_eq (e : ShortEntry) : e.filed = (e.headword.chars, e.text) := by
  have := e.textFits
  rw [Entry.filed, Entry.word, Entry.text, List.take_of_length_le e.wordFits, List.take_of_length_le]
  · rfl
  · simp only [TEXT, List.length_append, List.length_singleton] at *; omega

theorem passes_last (e : ShortEntry) {fuel : Nat} (hf : e.definition.length < fuel)
    (line : Buf BIGLINE) :
    ∃ ps, passes (fuel + 1) line (e.headword.chars ++ NL :: linesText e.definition) = some ps ∧
      ps.map Pass.filed = [e.filed] := by
  have hk := e.kept.1
  obtain ⟨dr, hr, hw⟩ := readWord_entry e.headword hk (linesText e.definition)
  obtain ⟨d, hd, he, hdw, hdt⟩ := readDef_eof fuel (Holds.nil dr) (fun h => absurd h e.nonempty)
    (by simpa using e.textFits) hf false 0
  rw [List.length_nil] at hd
  refine ⟨[⟨e.headword.chars ++ NL :: linesText e.definition, linesText e.definition, d.dr⟩], ?_, ?_⟩
  · simp [passes, hr, hd, flushRest, he]
  · rw [List.map_singleton, Pass.filed, hdw, hw, hdt, e.filed_eq, List.take_of_length_le e.wordFits]
    rfl

theorem length_le_linesText (ls : List Line) : ls.length ≤ (linesText ls).length := by
  induction ls with
  | nil => simp
  | cons l ls ih =>
    rw [linesText_length, List.length_cons]
    omega

/-- The text of short entries is filed whole, the last blank line there or not. -/
theorem passes_separated (blank : Bool) :
    ∀ (es : List ShortEntry) (fuel : Nat) (line : Buf BIGLINE),
    (separated blank es).length < fuel →
      ∃ ps, passes fuel line (separated blank es) = some ps ∧ ps.map Pass.filed = es.map fun e => e.filed
  | _, 0, _, hf => absurd hf (Nat.not_lt_zero _)
  | [], fuel + 1, line, _ => ⟨[], by simp [passes, separated, readWord_none.2], rfl⟩
  | [e], fuel + 1, line, hf => by
    have hpos := e.headword.length_pos
    cases blank with
    | false =>
      have hlen := length_le_linesText e.definition
      simp only [separated, Bool.false_eq_true, if_false, List.append_nil, List.length_append,
        List.length_cons] at hf ⊢
      exact passes_last e (by omega) line
    | true =>
      simp only [separated, if_true, List.length_append, List.length_cons, List.length_nil] at hf ⊢
      obtain ⟨dr, line', hfiled, hp⟩ := passes_entry e.kept.1 fuel [] (by omega) line
      rw [(defTail_eq_iff (by decide)).2 e.kept.2] at hp
      obtain ⟨fuel, rfl⟩ : ∃ f, fuel = f + 1 := ⟨fuel - 1, by omega⟩
      have hend : passes (fuel + 1) line' [] = some [] := by simp [passes, readWord_none.2]
      refine ⟨_, by rw [hp, hend]; rfl, ?_⟩
      simp only [List.map_cons, List.map_nil, ← hfiled]
      rfl
  | e :: e' :: es, fuel + 1, line, hf => by
    have hpos := e.headword.length_pos
    simp only [separated, List.length_append, List.length_cons] at hf ⊢
    obtain ⟨dr, line', hfiled, hp⟩ :=
      passes_entry e.kept.1 fuel (separated blank (e' :: es)) (by omega) line
    rw [(defTail_eq_iff (by decide)).2 e.kept.2] at hp
    obtain ⟨ps, hps, hpf⟩ := passes_separated blank (e' :: es) fuel line' (by omega)
    refine ⟨_ :: ps, by rw [hp, hps]; rfl, ?_⟩
    rw [List.map_cons, List.map_cons, hpf, ← hfiled]
    rfl

/-- What a query is answered from a text of short entries: FOUND with the
text of the first entry of the word, or NOTFOUND with the record as it was. -/
def AnsweredFrom (es : List ShortEntry) (w : CStr WORD) (c : Call) : Prop :=
  c.asked.word.str = w.chars ∧
    match es.find? fun e => e.headword.chars = w.chars with
    | some e => c.status = .FOUND ∧ c.got.text.str = e.text
    | none => c.status = .NOTFOUND ∧ c.got = c.asked

/-- The records of a text's passes, found by their words as its entries are
by their headwords. -/
theorem find?_filed {es : List ShortEntry} {ps : List Pass}
    (h : ps.map Pass.filed = es.map fun e => e.filed) (w : List Byte) :
    ((ps.map (·.dr)).find? fun r => r.word.str = w).map (·.text.str) =
      (es.find? fun e => e.headword.chars = w).map (·.text) := by
  induction ps generalizing es with
  | nil =>
    cases es with
    | nil => rfl
    | cons e es => simp at h
  | cons p ps ih =>
    cases es with
    | nil => simp at h
    | cons e es =>
      rw [List.map_cons, List.map_cons, List.cons.injEq, e.filed_eq, Pass.filed, Prod.mk.injEq] at h
      obtain ⟨⟨hw, ht⟩, hrest⟩ := h
      rw [List.map_cons, List.find?_cons, List.find?_cons, hw]
      split
      · rw [Option.map_some, Option.map_some, ht]
      · exact ih hrest

theorem terminated_of_filed {es : List Entry} {ps : List Pass} (h : ps.map Pass.filed = es.map Entry.filed) :
    ∀ r ∈ ps.map (·.dr), r.Terminated := by
  intro r hr
  obtain ⟨p, hp, rfl⟩ := List.mem_map.1 hr
  have hm := List.mem_map_of_mem (f := Pass.filed) hp
  rw [h] at hm
  obtain ⟨e, -, he⟩ := List.mem_map.1 hm
  rw [Entry.filed, Pass.filed, Prod.mk.injEq] at he
  have hw : e.word.length ≤ WORD - 1 := List.length_take_le ..
  have ht : e.text.length ≤ TEXT - 1 := List.length_take_le ..
  exact ⟨Buf.terminated_of_length (by rw [← he.1]; simp only [WORD] at *; omega),
    Buf.terminated_of_length (by rw [← he.2]; simp only [TEXT] at *; omega)⟩

theorem AnsweredFrom.of_answered {es : List ShortEntry} {ps : List Pass}
    (h : ps.map Pass.filed = es.map fun e => e.filed) {w : CStr WORD} {c : Call} (hw : c.asked.word.str = w.chars)
    (ha : Answered (ps.map (·.dr)) c.asked c.status c.got) : AnsweredFrom es w c := by
  have hf := find?_filed h w.chars
  refine ⟨hw, ?_⟩
  simp only [Answered, hw] at ha
  split at ha
  · next r hr =>
    rw [hr, Option.map_some, eq_comm, Option.map_eq_some_iff] at hf
    obtain ⟨e, he, ht⟩ := hf
    rw [he]
    exact ⟨ha.1, ha.2.2.trans ht.symm⟩
  · next hr =>
    rw [hr, Option.map_none, eq_comm, Option.map_eq_none_iff] at hf
    rw [hf]
    exact ha

/-- Every query is answered from the first entry of its headword, whatever
was asked before it. -/
theorem round_trip (line : Buf BIGLINE) (es : List ShortEntry) (blank : Bool) (tryit : Dictrec)
    (ws : List (CStr WORD)) :
    ∃ ps cs, Converts line (separated blank es) ps ∧
      session (lookup1 (some (output ps))) Lookup1.init tryit ws = some cs ∧
      List.Forall₂ (AnsweredFrom es) ws cs := by
  obtain ⟨ps, hp, hfiled⟩ := passes_separated blank es _ line (Nat.lt_succ_self _)
  have hfile : RecordFile (output ps) (ps.map (·.dr)) := ⟨[], by rw [List.append_nil, output], by decide⟩
  have hentries : ps.map Pass.filed = (es.map (·.toEntry)).map Entry.filed := by
    rw [hfiled, List.map_map]
    rfl
  have hterm : ∀ r ∈ ps.map (·.dr), r.Terminated := terminated_of_filed hentries
  obtain ⟨cs, hs, hcs⟩ := session_spec (Lookup1.Reads (output ps)) (Answered (ps.map (·.dr)))
    (fun st sought hst _ => lookup1_answers hfile hterm hst sought)
    (show Lookup1.init.Reads (output ps) from .inl rfl) tryit ws
  exact ⟨ps, cs, ⟨_, hp⟩, hs, hcs.imp fun _ _ h => .of_answered hfiled h.1 h.2⟩

end SysProg.Convert
