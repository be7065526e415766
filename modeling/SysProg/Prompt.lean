/-
The loop of `main.c`, which reads a word at its prompt and looks it up, and
the word `convert` would have stored for the same line. `main` reads a line
into the word's field and always takes off the last character of what it has
read; `convert` cuts a headword at the end of the field, and at its newline if
that is there.
-/
import SysProg.Framing
import SysProg.Lookup

namespace SysProg.Prompt

open SysProg.Convert (Line linesText readWord readDef passes readWord_entry readWord_eq)

/-! ## main -/

/-- `tryit.word[strlen(tryit.word)-1] = 0`, where there is such a byte. -/
def chop (word : Buf WORD) : Option (Buf WORD) :=
  if word.str.length = 0 then none else some (word.store (word.str.length - 1) [NUL])

section

variable {σ : Type} (lookup : σ → Dictrec → Answer σ)

/-- The calls of `lookup` in at most `n` turns of the loop. `DIE` ends it. -/
def turns : Nat → σ → Dictrec → List Byte → Option (List Call)
  | 0, _, _, _ => some []
  | n + 1, st, tryit, inp =>
    match fgets tryit.word 0 WORD inp with
    | none => some []
    | some (word, inp) =>
      (chop word).bind fun word =>
        let tryit := { tryit with word }
        let (status, got, st) := lookup st tryit
        if status = .UNAVAIL then some [⟨tryit, status, got⟩]
        else (turns n st got inp).map (⟨tryit, status, got⟩ :: ·)

/-- The calls of `lookup` for what is typed. Every turn reads a byte at least. -/
def main (st : σ) (tryit : Dictrec) (stdin : List Byte) : Option (List Call) :=
  turns lookup (stdin.length + 1) st tryit stdin

/-! ## One turn -/

theorem chop_str {word : Buf WORD} {xs : List Byte} (h : word.str = xs) (hne : xs ≠ []) :
    ∃ word', chop word = some word' ∧ word'.str = xs.dropLast := by
  have hpos : 0 < word.str.length := h ▸ List.length_pos_iff.2 hne
  have hle := Buf.length_str_le word
  refine ⟨word.store (word.str.length - 1) [NUL], ?_, ?_⟩
  · rw [chop, if_neg (by omega)]
  · rw [Buf.store_nul_str (by omega) (by omega), h, List.dropLast_eq_take]

theorem turn_eq (n : Nat) (st : σ) (tryit : Dictrec) {inp xs rest : List Byte} (hne : xs ≠ []) (hx : NUL ∉ xs)
    (hl : xs.length < WORD) (hread : fgets tryit.word 0 WORD inp = some (tryit.word.store 0 (xs ++ [NUL]), rest)) :
    ∃ c st', c.asked.word.str = xs.dropLast ∧ turns lookup (n + 1) st tryit inp =
      if c.status = .UNAVAIL then some [c] else (turns lookup n st' c.got rest).map (c :: ·) := by
  have hstr : (tryit.word.store 0 (xs ++ [NUL])).str = xs := by
    have := Buf.store_str tryit.word 0 (by simp) hx (by omega)
    rwa [List.take_zero, List.nil_append] at this
  obtain ⟨word, hchop, hword⟩ := chop_str hstr hne
  let r := lookup st { tryit with word }
  refine ⟨⟨{ tryit with word }, r.1, r.2.1⟩, r.2.2, hword, ?_⟩
  rw [turns, hread]
  simp only [hchop, Option.bind_some]
  rfl

theorem turn_fits (n : Nat) (st : σ) (tryit : Dictrec) (l : Line) (hl : l.chars.length ≤ WORD - 2)
    (more : List Byte) : ∃ c st', c.asked.word.str = l.chars ∧ turns lookup (n + 1) st tryit (l.chars ++ NL :: more) =
      if c.status = .UNAVAIL then some [c] else (turns lookup n st' c.got more).map (c :: ·) := by
  have hsize : l.chars.length + 2 ≤ WORD := by simp only [WORD] at *; omega
  have hread := fgets_line tryit.word 0 l.noNL hsize more
  obtain ⟨c, st', hc, hturn⟩ := turn_eq lookup n st tryit (by simp) (nul_not_mem_line l.noNul)
    (by rw [List.length_append, List.length_singleton]; simp only [WORD] at *; omega) hread
  exact ⟨c, st', by rw [hc, List.dropLast_concat], hturn⟩

theorem turn_cut (n : Nat) (st : σ) (tryit : Dictrec) (l : Line) (hl : WORD - 1 ≤ l.chars.length)
    (more : List Byte) : ∃ c st', c.asked.word.str = l.chars.take (WORD - 2) ∧
      turns lookup (n + 1) st tryit (l.chars ++ more) =
        if c.status = .UNAVAIL then some [c]
        else (turns lookup n st' c.got (l.chars.drop (WORD - 1) ++ more)).map (c :: ·) := by
  have hread := fgets_cut tryit.word 0 l.noNL (show 2 ≤ WORD by decide) hl more
  have hlen : (l.chars.take (WORD - 1)).length = WORD - 1 := by rw [List.length_take]; omega
  obtain ⟨c, st', hc, hturn⟩ := turn_eq lookup n st tryit (List.length_pos_iff.1 (by rw [hlen]; decide))
    (fun hm => l.noNul (List.mem_of_mem_take hm)) (by rw [hlen]; decide) hread
  refine ⟨c, st', ?_, hturn⟩
  rw [hc, List.dropLast_eq_take, hlen, List.take_take]
  rfl

/-! ## Sessions of lines that fit -/

/-- The words asked are the lines typed, one after the other, up to a call
that returns UNAVAIL. -/
theorem words_asked (st : σ) (tryit : Dictrec) (ls : List Line) (hls : ∀ l ∈ ls, l.chars.length ≤ WORD - 2) :
    ∃ cs, main lookup st tryit (linesText ls) = some cs ∧
      cs.map (·.asked.word.str) <+: ls.map (·.chars) ∧
      (cs.length < ls.length → ∃ c ∈ cs.getLast?, c.status = .UNAVAIL) := by
  suffices h : ∀ n, (linesText ls).length < n → ∃ cs, turns lookup n st tryit (linesText ls) = some cs ∧
      cs.map (·.asked.word.str) <+: ls.map (·.chars) ∧
      (cs.length < ls.length → ∃ c ∈ cs.getLast?, c.status = .UNAVAIL) from
    h _ (Nat.lt_succ_self _)
  intro n
  induction ls generalizing n st tryit with
  | nil =>
    intro hn
    obtain ⟨n, rfl⟩ : ∃ m, n = m + 1 := ⟨n - 1, by omega⟩
    exact ⟨[], by rw [turns, Convert.linesText_nil, fgets_nil (by decide)], List.nil_prefix, by simp⟩
  | cons l ls ih =>
    intro hn
    obtain ⟨n, rfl⟩ : ∃ m, n = m + 1 := ⟨n - 1, by omega⟩
    obtain ⟨hl, hls⟩ := List.forall_mem_cons.1 hls
    have hcons : linesText (l :: ls) = l.chars ++ NL :: linesText ls := by
      have := Convert.linesText_cons l ls []
      rwa [List.append_nil, List.append_nil] at this
    rw [hcons] at hn ⊢
    rw [List.length_append, List.length_cons] at hn
    obtain ⟨c, st', hc, hturn⟩ := turn_fits lookup n st tryit l hl (linesText ls)
    rw [hturn]
    split
    · next hu =>
      exact ⟨[c], rfl, by simp [hc], fun _ => ⟨c, rfl, hu⟩⟩
    · obtain ⟨cs, hcs, hprefix, hlast⟩ := ih st' c.got hls n (by omega)
      refine ⟨c :: cs, by rw [hcs]; rfl, ?_, fun hlt => ?_⟩
      · rw [List.map_cons, List.map_cons, hc]
        exact (List.prefix_cons_inj _).2 hprefix
      · obtain ⟨d, hd, hu⟩ := hlast (by simpa using hlt)
        exact ⟨d, by rw [List.getLast?_cons, Option.mem_def.1 hd]; rfl, hu⟩

end

/-! ## The word in the dictionary -/

/-- The word `convert` stores in a record it takes to start at this text. -/
def storedWord (text : List Byte) : Option (List Byte) := (readWord Dictrec.blank text).map (·.1.word.str)

theorem readDef_word {n : Nat} {dr : Dictrec} {eof : Bool} {off newoff : Nat} {inp : List Byte} {d : Convert.DefEnd}
    (h : readDef n dr eof off newoff inp = some d) : d.dr.word = dr.word := by
  induction n generalizing dr eof off newoff inp with
  | zero => cases h
  | succ n ih =>
    unfold readDef at h
    split at h
    · split at h
      · cases h
        rfl
      · dsimp only at h
        split at h
        · cases h
          rfl
        · exact (ih h :)
    · cases h
      rfl

/-- It is stored in the record of every pass. -/
theorem storedWord_of_pass {n : Nat} {line : Buf Convert.BIGLINE} {inp : List Byte} {ps : List Convert.Pass}
    (h : passes n line inp = some ps) : ∀ p ∈ ps, storedWord p.start = some p.dr.word.str := by
  induction n generalizing line inp ps with
  | zero => cases h
  | succ n ih =>
    unfold passes at h
    split at h
    · cases h
      simp
    · next dr defStart hword =>
      simp only [Option.bind_eq_some_iff, Option.map_eq_some_iff] at h
      obtain ⟨d, hd, ⟨line', eof, rest⟩, -, more, hmore, rfl⟩ := h
      rw [List.forall_mem_cons]
      refine ⟨?_, ?_⟩
      · rw [storedWord, hword, readDef_word hd]
        rfl
      · split at hmore
        · cases hmore
          simp
        · exact ih hmore

theorem storedWord_line (l : Line) (text : List Byte) :
    storedWord (l.chars ++ NL :: text) = some (l.chars.take (WORD - 1)) := by
  by_cases hl : l.chars.length ≤ Convert.BIGLINE - 2
  · obtain ⟨dr, hdr, hword⟩ := readWord_entry l hl text
    rw [storedWord, hdr, Option.map_some, hword]
  · have hcut := lineChunk_cut (k := Convert.BIGLINE - 1) l.noNL (by omega) (NL :: text)
    obtain ⟨dr, hdr, hword⟩ := readWord_eq Dictrec.blank (by simp) hcut fun hm => l.noNul (List.mem_of_mem_take hm)
    rw [storedWord, hdr, Option.map_some, hword, List.take_take, List.takeWhile_eq_self_iff.2]
    · rfl
    · exact bne_of_not_mem fun hm => l.noNL (List.mem_of_mem_take hm)

/-! ## The two words -/

/-- A line typed at the prompt is asked in one call, with the word `convert`
has stored for it, exactly when it has 30 characters at most. -/
theorem prompt_agrees_iff {σ : Type} (lookup : σ → Dictrec → Answer σ) (st : σ) (tryit : Dictrec) (l : Line) :
    (∃ c, main lookup st tryit (l.chars ++ [NL]) = some [c] ∧
      ∀ text, storedWord (l.chars ++ NL :: text) = some c.asked.word.str) ↔ l.chars.length ≤ WORD - 2 := by
  simp only [storedWord_line, Option.some.injEq]
  constructor
  · intro hasked
    obtain ⟨c, hmain, hstored⟩ := hasked
    by_contra hlong
    have hl : WORD - 1 ≤ l.chars.length := by simp only [WORD] at *; omega
    obtain ⟨d, st', hd, hturn⟩ := turn_cut lookup (l.chars ++ [NL]).length st tryit l hl [NL]
    -- whatever comes after it, the first call is for 30 characters
    have hcd : c = d := by
      rw [main, hturn] at hmain
      split at hmain
      · cases hmain
        rfl
      · obtain ⟨cs, -, hcs⟩ := Option.map_eq_some_iff.1 hmain
        cases hcs
        rfl
    have hlen := congrArg List.length (hstored [])
    rw [hcd, hd, List.length_take, List.length_take] at hlen
    simp only [WORD] at *
    omega
  · intro hl
    obtain ⟨c, st', hc, hturn⟩ := turn_fits lookup (l.chars ++ [NL]).length st tryit l hl []
    refine ⟨c, ?_, fun _ => ?_⟩
    · rw [main, hturn]
      split
      · rfl
      · obtain ⟨n, hn⟩ : ∃ n, (l.chars ++ [NL]).length = n + 1 := ⟨l.chars.length, by simp⟩
        rw [hn, turns, fgets_nil (by decide)]
        rfl
    · rw [hc, List.take_of_length_le (by simp only [WORD] at *; omega)]

/-- A headword of 31 characters. -/
def longHeadword : Line where
  chars := List.replicate 31 97
  nonempty := by decide
  noNL := by decide
  noNul := by decide

/-- A `lookup` of nothing. -/
def findsNothing (_ : Unit) (sought : Dictrec) : Answer Unit := (.NOTFOUND, sought, ())

/-- The headword is asked without its last character, and then the empty word is. -/
theorem longHeadword_asked_twice :
    (main findsNothing () Dictrec.blank (longHeadword.chars ++ [NL])).map (·.map (·.asked.word.str)) =
      some [List.replicate 30 97, []] ∧
    storedWord (longHeadword.chars ++ NL :: [97, NL]) = some longHeadword.chars ∧
    ¬ ∃ c, main findsNothing () Dictrec.blank (longHeadword.chars ++ [NL]) = some [c] ∧
      ∀ text, storedWord (longHeadword.chars ++ NL :: text) = some c.asked.word.str := by
  have hcalls : (main findsNothing () Dictrec.blank (longHeadword.chars ++ [NL])).map (·.map (·.asked.word.str)) =
      some [List.replicate 30 97, []] := by
    decide +kernel
  refine ⟨hcalls, by decide +kernel, ?_⟩
  intro hasked
  obtain ⟨c, hmain, -⟩ := hasked
  rw [hmain] at hcalls
  have := congrArg List.length (Option.some.inj hcalls)
  cases this

end SysProg.Prompt
