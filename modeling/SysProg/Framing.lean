/-
Where `convert` takes its records to start: the entries of a dictionary
text, what one pass of the record loop does with one of them, and exactly
when every pass starts at an entry.
-/
import SysProg.Convert

namespace SysProg.Convert

/-- A line of a dictionary text, without its newline. -/
structure Line where
  chars : List Byte
  nonempty : chars ≠ []
  noNL : NL ∉ chars
  noNul : NUL ∉ chars

/-- An entry: a headword line and the lines of its definition. -/
structure Entry where
  headword : Line
  definition : List Line
  nonempty : definition ≠ []

/-- Lines as they stand in the text, each ended by a newline. -/
def linesText (ls : List Line) : List Byte := ls.flatMap fun l => l.chars ++ [NL]

/-- The lines' characters, one line after the other. -/
def joined (ls : List Line) : List Byte := ls.flatMap (·.chars)

/-- A dictionary text: the lines of each entry and a blank line after it. -/
def dictText : List Entry → List Byte
  | [] => []
  | e :: es => e.headword.chars ++ NL :: (linesText e.definition ++ NL :: dictText es)

/-- The word an entry is to be filed under. -/
def Entry.word (e : Entry) : List Byte := e.headword.chars.take (WORD - 1)

/-- The text an entry is to be filed with. -/
def Entry.text (e : Entry) : List Byte := (joined e.definition ++ [NL]).take (TEXT - 1)

@[simp] theorem linesText_nil : linesText [] = [] := rfl
@[simp] theorem joined_nil : joined [] = [] := rfl

@[simp] theorem linesText_cons (l : Line) (ls : List Line) (rest : List Byte) :
    linesText (l :: ls) ++ rest = l.chars ++ NL :: (linesText ls ++ rest) := by
  simp [linesText, List.append_assoc]

@[simp] theorem joined_cons (l : Line) (ls : List Line) :
    joined (l :: ls) = l.chars ++ joined ls := rfl

theorem linesText_length (l : Line) (ls : List Line) :
    (linesText (l :: ls)).length = l.chars.length + 1 + (linesText ls).length := by
  have := congrArg List.length (linesText_cons l ls [])
  simp only [List.append_nil, List.length_append, List.length_cons] at this
  omega

theorem dictText_length (e : Entry) (es : List Entry) : (dictText (e :: es)).length =
    e.headword.chars.length + (linesText e.definition).length + (dictText es).length + 2 := by
  simp only [dictText, List.length_append, List.length_cons]
  omega

theorem Line.length_pos (l : Line) : 0 < l.chars.length := List.length_pos_iff.2 l.nonempty

/-! ## The headword -/

theorem takeWhile_eq_take_idxOf (s : List Byte) : s.takeWhile (· != NL) = s.take (s.idxOf NL) := by
  rw [List.takeWhile_eq_take_findIdx_not]
  simp only [List.idxOf, bne, Bool.not_not]

theorem cutWord_str (w : Buf WORD) :
    (cutWord w).str = ((cstr w.bytes).take (WORD - 1)).takeWhile (· != NL) := by
  have hs : (w.store (WORD - 1) [NUL]).str = (cstr w.bytes).take (WORD - 1) := by
    rw [Buf.str, Buf.store_bytes (by simp), List.drop_eq_nil_of_le (by simp [w.size]), List.append_nil,
      cstr_append_end, cstr_take]
  simp only [cutWord, hs]
  rw [takeWhile_eq_take_idxOf]
  split
  · next hm =>
    have hi := List.idxOf_lt_length_iff.2 hm
    have hl : ((cstr w.bytes).take (WORD - 1)).length ≤ WORD - 1 := List.length_take_le _ _
    rw [Buf.store_nul_str (by rw [hs]; omega) (by omega), hs]
  · next hm =>
    rw [hs, List.idxOf_eq_length hm, List.take_length]

theorem readWord_none {dr : Dictrec} {inp : List Byte} : readWord dr inp = none ↔ inp = [] := by
  cases inp with
  | nil => simp [readWord, fgets_nil (by decide : 2 ≤ BIGLINE)]
  | cons c inp => rw [readWord, fgets_eq _ _ (by decide) (by simp) rfl]; simp

theorem readWord_eq (dr : Dictrec) {inp xs rest : List Byte} (hne : inp ≠ [])
    (hc : lineChunk (BIGLINE - 1) inp = (xs, rest)) (hn : NUL ∉ xs) :
    ∃ dr', readWord dr inp = some (dr', rest) ∧
      dr'.word.str = (xs.take (WORD - 1)).takeWhile (· != NL) := by
  have hl : xs.length ≤ BIGLINE - 1 := by
    have := lineChunk_length (BIGLINE - 1) inp
    rwa [hc] at this
  refine ⟨_, by rw [readWord, fgets_eq _ _ (by decide) hne hc], ?_⟩
  have hx : cstr (dr.flat.store 0 (xs ++ [NUL])).bytes = xs :=
    Buf.store_str dr.flat 0 (by simp) hn (by simp only [RECSIZE, WORD, TEXT, BIGLINE] at *; omega)
  simp only [cutWord_str, Dictrec.ofFlat, cstr_take, hx, List.take_take]
  rfl

/-! ## The definition loop -/

/-- `dr.text` begins with the characters `p`, with room for a newline. -/
structure Holds (dr : Dictrec) (p : List Byte) : Prop where
  take : dr.text.bytes.take p.length = p
  noNul : NUL ∉ p
  room : p.length ≤ TEXT - 2

theorem Holds.nil (dr : Dictrec) : Holds dr [] := ⟨rfl, List.not_mem_nil, by decide⟩

theorem Holds.store_str {dr : Dictrec} {p xs : List Byte} (h : Holds dr p) (hx : NUL ∉ xs)
    (hl : p.length + xs.length < TEXT) : (dr.text.store p.length (xs ++ [NUL])).str = p ++ xs := by
  have := Buf.store_str dr.text p.length (by rw [h.take]; exact h.noNul) hx hl
  rwa [h.take] at this

theorem readDef_step {fuel dr eof newoff} {p xs inp rest : List Byte} (h : Holds dr p)
    (hx : NUL ∉ xs) (hl : p.length + xs.length < TEXT)
    (hf : fgets dr.text p.length (TEXT - p.length) inp = some (dr.text.store p.length (xs ++ [NUL]), rest)) :
    readDef (fuel + 1) dr eof p.length newoff inp =
      let dr' := { dr with text := dr.text.store p.length (xs ++ [NUL]) }
      if xs.length < 2 ∨ dr'.text.get (p.length + xs.length - 1) ≠ NL then
        some ⟨dr', false, p.length, p.length + xs.length, rest⟩
      else readDef fuel dr' false (p.length + xs.length - 1) (p.length + xs.length) rest := by
  have hr := h.room
  have h0 : 0 < TEXT - p.length := by simp only [TEXT] at *; omega
  simp only [readDef, if_pos h0, hf, h.store_str hx hl, List.length_append]
  simp only [Nat.add_lt_add_iff_left]

/-- A line that fits is appended, and the next one will overwrite its newline. -/
theorem readDef_line {dr : Dictrec} {p : List Byte} {l : Line} (h : Holds dr p)
    (hfit : p.length + l.chars.length ≤ TEXT - 2) (inp : List Byte) :
    ∃ dr', Holds dr' (p ++ l.chars) ∧ dr'.word = dr.word ∧ dr'.text.str = p ++ l.chars ++ [NL] ∧
      ∀ fuel eof newoff, readDef (fuel + 1) dr eof p.length newoff (l.chars ++ NL :: inp) =
        readDef fuel dr' false (p ++ l.chars).length ((p ++ l.chars).length + 1) inp := by
  have hx := nul_not_mem_line l.noNul
  have hlen : (l.chars ++ [NL]).length = l.chars.length + 1 := by simp
  have hl : p.length + (l.chars ++ [NL]).length < TEXT := by
    rw [hlen]
    simp only [TEXT] at hfit ⊢
    omega
  have hs := h.store_str hx hl
  rw [← List.append_assoc] at hs
  refine ⟨{ dr with text := dr.text.store p.length ((l.chars ++ [NL]) ++ [NUL]) }, ⟨?_, ?_, ?_⟩, rfl, hs, ?_⟩
  · rw [Buf.take_str (by rw [hs]; simp), hs, List.take_left]
  · simp [h.noNul, l.noNul]
  · simpa using hfit
  · intro fuel eof newoff
    have hf : fgets dr.text p.length (TEXT - p.length) (l.chars ++ NL :: inp) = _ :=
      fgets_line dr.text p.length l.noNL (by simp only [TEXT] at *; omega) inp
    have hpos := l.length_pos
    have hg : (dr.text.store p.length ((l.chars ++ [NL]) ++ [NUL])).get (p.length + (l.chars.length + 1) - 1) = NL := by
      rw [Buf.get_str (by rw [hs]; simp)]
      simp only [hs]
      simp
    rw [readDef_step h hx hl hf]
    simp only [hlen]
    have hgo : ¬ (l.chars.length + 1 < 2 ∨ NL ≠ NL) := by
      intro hor
      cases hor with
      | inl hshort => omega
      | inr hne => exact hne rfl
    rw [if_neg (by rwa [hg]), List.length_append]
    rfl

theorem readDef_blank {dr : Dictrec} {p : List Byte} (h : Holds dr p) (fuel eof newoff)
    (inp : List Byte) :
    ∃ dr', readDef (fuel + 1) dr eof p.length newoff (NL :: inp) =
        some ⟨dr', false, p.length, p.length + 1, inp⟩ ∧
      dr'.word = dr.word ∧ dr'.text.str = p ++ [NL] := by
  have hr := h.room
  have hl : p.length + [NL].length < TEXT := by simp [TEXT] at *; omega
  have hf : fgets dr.text p.length (TEXT - p.length) ([] ++ NL :: inp) = _ :=
    fgets_line dr.text p.length List.not_mem_nil (by simp only [TEXT, List.length_nil] at *; omega) inp
  refine ⟨{ dr with text := dr.text.store p.length ([NL] ++ [NUL]) }, ?_, rfl, h.store_str (by decide) hl⟩
  simp only [List.nil_append] at hf
  rw [readDef_step h (by decide) hl hf, if_pos (by simp)]
  rfl

/-- A line that does not fit is cut, and ends the loop. -/
theorem readDef_cut {dr : Dictrec} {p : List Byte} {l : Line} (h : Holds dr p)
    (hcut : TEXT - 1 ≤ p.length + l.chars.length) (fuel eof newoff) (inp : List Byte) :
    ∃ dr', readDef (fuel + 1) dr eof p.length newoff (l.chars ++ inp) =
        some ⟨dr', false, p.length, TEXT - 1, l.chars.drop (TEXT - 1 - p.length) ++ inp⟩ ∧
      dr'.word = dr.word ∧ dr'.text.str = p ++ l.chars.take (TEXT - 1 - p.length) := by
  have hr := h.room
  have hsub : TEXT - p.length - 1 = TEXT - 1 - p.length := by omega
  have hk : (l.chars.take (TEXT - 1 - p.length)).length = TEXT - 1 - p.length := by
    rw [List.length_take]; omega
  have hx : NUL ∉ l.chars.take (TEXT - 1 - p.length) := fun hm => l.noNul (List.mem_of_mem_take hm)
  have hl : p.length + (l.chars.take (TEXT - 1 - p.length)).length < TEXT := by
    rw [hk]; simp only [TEXT] at *; omega
  have hf : fgets dr.text p.length (TEXT - p.length) (l.chars ++ inp) = _ :=
    fgets_cut dr.text p.length l.noNL (by simp only [TEXT] at *; omega) (by omega) inp
  rw [hsub] at hf
  have hs := h.store_str hx hl
  have hn : p.length + (TEXT - 1 - p.length) = TEXT - 1 := by simp only [TEXT] at *; omega
  have hg : (dr.text.store p.length (l.chars.take (TEXT - 1 - p.length) ++ [NUL])).get (TEXT - 1 - 1) ≠ NL := by
    have hi : TEXT - 1 - 1 < (p ++ l.chars.take (TEXT - 1 - p.length)).length := by
      rw [List.length_append, hk, hn]; decide
    rw [Buf.get_str (by rw [hs]; exact hi)]
    simp only [hs]
    rw [List.getElem_append_right (by simp only [TEXT] at *; omega)]
    exact fun he => l.noNL (he ▸ List.mem_of_mem_take (List.getElem_mem _))
  refine ⟨{ dr with text := dr.text.store p.length (l.chars.take (TEXT - 1 - p.length) ++ [NUL]) }, ?_, rfl, hs⟩
  rw [readDef_step h hx hl hf]
  simp only [hk, hn]
  rw [if_pos (.inr hg)]

/-! ## The flush -/

/-- What a flush leaves unread that begins at the rest `r` of a line, before
the lines `ls`: it stops at the first line whose last chunk is a newline alone. -/
def flushTail : List Byte → List Line → List Byte → List Byte
  | r, [], rest => if r.length % (BIGLINE - 1) = 0 then NL :: rest else rest
  | r, l :: ls, rest =>
    if r.length % (BIGLINE - 1) = 0 then linesText (l :: ls) ++ NL :: rest else flushTail l.chars ls rest

theorem flushTail_zero {r : List Byte} (h : r.length % (BIGLINE - 1) = 0) (ls : List Line)
    (rest : List Byte) :
    flushTail r ls rest = linesText ls ++ NL :: rest := by
  cases ls with
  | nil => rw [flushTail, if_pos h, linesText_nil, List.nil_append]
  | cons l ls => rw [flushTail, if_pos h]

theorem flushTail_congr (r r' : List Byte)
    (h : r.length % (BIGLINE - 1) = r'.length % (BIGLINE - 1)) (ls : List Line)
    (rest : List Byte) : flushTail r ls rest = flushTail r' ls rest := by
  cases ls <;> simp only [flushTail, h]

theorem flush_line (line : Buf BIGLINE) {r : List Byte} (hnl : NL ∉ r) (hn : NUL ∉ r)
    (hl : r.length + 2 ≤ BIGLINE) (inp : List Byte) :
    ∃ line', ∀ fuel, flush (fuel + 1) line (r ++ NL :: inp) =
      if r = [] then some (line', false, inp) else flush fuel line' inp := by
  have hs := Buf.store_str line 0 (by simp) (nul_not_mem_line hn) (by simp; omega)
  refine ⟨line.store 0 ((r ++ [NL]) ++ [NUL]), ?_⟩
  intro fuel
  simp only [flush, fgets_line line 0 hnl hl, hs, List.take_zero, List.nil_append, List.length_append,
    List.length_singleton]
  by_cases hr : r = []
  · simp [hr]
  · have := List.length_pos_iff.2 hr
    rw [if_pos (by omega), if_neg hr]

theorem flush_cut (line : Buf BIGLINE) {r : List Byte} (hnl : NL ∉ r) (hn : NUL ∉ r)
    (hl : BIGLINE - 1 ≤ r.length) (inp : List Byte) :
    ∃ line', ∀ fuel, flush (fuel + 1) line (r ++ inp) = flush fuel line' (r.drop (BIGLINE - 1) ++ inp) := by
  have hk : (r.take (BIGLINE - 1)).length = BIGLINE - 1 := by rw [List.length_take]; omega
  have hx : NUL ∉ r.take (BIGLINE - 1) := fun hm => hn (List.mem_of_mem_take hm)
  have hs := Buf.store_str line 0 (by simp) hx (by rw [hk]; decide)
  refine ⟨line.store 0 (r.take (BIGLINE - 1) ++ [NUL]), ?_⟩
  intro fuel
  simp only [flush, fgets_cut line 0 hnl (by decide : 2 ≤ BIGLINE) hl, hs, List.take_zero, List.nil_append, hk]
  rw [if_pos (by decide)]

/-- The flush of the rest of a definition. The induction is on the fuel, a
chunk of one of the lines a step. -/
theorem flush_lines {fuel : Nat} (r : List Byte) (ls : List Line) (line : Buf BIGLINE)
    (hnl : NL ∉ r) (hn : NUL ∉ r) (hf : r.length + (linesText ls).length + 2 ≤ fuel)
    (rest : List Byte) :
    ∃ line', flush fuel line (r ++ NL :: (linesText ls ++ NL :: rest)) =
      some (line', false, flushTail r ls rest) := by
  induction fuel generalizing r ls line with
  | zero => omega
  | succ fuel ih =>
    by_cases hl : r.length + 2 ≤ BIGLINE
    · obtain ⟨line₁, h₁⟩ := flush_line line hnl hn hl (linesText ls ++ NL :: rest)
      rw [h₁]
      by_cases hr : r = []
      · subst hr
        exact ⟨line₁, by rw [if_pos rfl, flushTail_zero (by simp)]⟩
      · have hpos := List.length_pos_iff.2 hr
        have hmod : r.length % (BIGLINE - 1) ≠ 0 := by simp only [BIGLINE] at *; omega
        rw [if_neg hr]
        cases ls with
        | nil =>
          obtain ⟨line₂, h₂⟩ := flush_line line₁ List.not_mem_nil List.not_mem_nil (by decide) rest
          obtain ⟨fuel, rfl⟩ : ∃ f, fuel = f + 1 := ⟨fuel - 1, by omega⟩
          refine ⟨line₂, ?_⟩
          simp only [List.nil_append] at h₂
          simp only [linesText_nil, List.nil_append, h₂, flushTail, if_neg hmod, if_true]
        | cons l ls =>
          simp only [linesText_cons, flushTail, if_neg hmod]
          refine ih _ _ _ l.noNL l.noNul ?_
          rw [linesText_length] at hf
          omega
    · obtain ⟨line₁, h₁⟩ := flush_cut line hnl hn (by simp only [BIGLINE] at *; omega)
        (NL :: (linesText ls ++ NL :: rest))
      rw [h₁]
      have hlen : (r.drop (BIGLINE - 1)).length = r.length - (BIGLINE - 1) := List.length_drop
      obtain ⟨line', h⟩ := ih (r.drop (BIGLINE - 1)) ls line₁
        (fun hm => hnl (List.mem_of_mem_drop hm)) (fun hm => hn (List.mem_of_mem_drop hm))
        (by simp only [BIGLINE] at *; omega)
      refine ⟨line', h.trans ?_⟩
      rw [flushTail_congr (r.drop (BIGLINE - 1)) r (by simp only [BIGLINE] at *; omega)]

/-! ## One definition -/

/-- What the definition loop and the flush leave unread of a definition's
lines, `off` characters into the text. -/
def defTail : Nat → List Line → List Byte → List Byte
  | _, [], rest => rest
  | off, l :: ls, rest =>
    if off + l.chars.length ≤ TEXT - 2 then defTail (off + l.chars.length) ls rest
    else if off = TEXT - 2 then l.chars.drop 1 ++ NL :: (linesText ls ++ NL :: rest)
    else flushTail (l.chars.drop (TEXT - 1 - off)) ls rest

/-- The definition loop on a definition's lines and its blank line, with the
flush that follows. -/
theorem readDef_lines {dr : Dictrec} {p : List Byte} (ls : List Line) (fuel : Nat) (h : Holds dr p)
    (hf : (linesText ls).length < fuel) (eof newoff) (rest : List Byte) :
    ∃ d, readDef fuel dr eof p.length newoff (linesText ls ++ NL :: rest) = some d ∧
      d.dr.word = dr.word ∧ d.dr.text.str = (p ++ joined ls ++ [NL]).take (TEXT - 1) ∧
      ∀ fuel line, (linesText ls).length + 2 ≤ fuel →
        ∃ line', flushRest fuel line d = some (line', false, defTail p.length ls rest) := by
  have hroom := h.room
  induction ls generalizing dr p fuel eof newoff with
  | nil =>
    obtain ⟨fuel, rfl⟩ : ∃ f, fuel = f + 1 := ⟨fuel - 1, by omega⟩
    obtain ⟨dr', hd, hw, ht⟩ := readDef_blank h fuel eof newoff rest
    refine ⟨_, hd, hw, ?_, fun fuel line _ => ⟨line, by simp [flushRest, DefEnd.blank, defTail]⟩⟩
    rw [ht, joined_nil, List.append_nil, List.take_of_length_le]
    simp only [TEXT, List.length_append, List.length_singleton] at *
    omega
  | cons l ls ih =>
    have hpos := l.length_pos
    have hlen := linesText_length l ls
    obtain ⟨fuel, rfl⟩ : ∃ f, fuel = f + 1 := ⟨fuel - 1, by omega⟩
    rw [linesText_cons]
    by_cases hfit : p.length + l.chars.length ≤ TEXT - 2
    · obtain ⟨dr₁, h₁, hw₁, -, hr₁⟩ := readDef_line h hfit (linesText ls ++ NL :: rest)
      obtain ⟨d, hd, hw, ht, hfl⟩ := ih fuel h₁ (by omega) false ((p ++ l.chars).length + 1) h₁.room
      refine ⟨d, (hr₁ fuel eof newoff).trans hd, hw.trans hw₁, ?_, ?_⟩
      · rw [ht, joined_cons, List.append_assoc p]
      · intro fuel line hfuel
        obtain ⟨line', hl'⟩ := hfl fuel line (by omega)
        refine ⟨line', ?_⟩
        rw [hl', defTail, if_pos hfit, List.length_append]
    · have hcut : TEXT - 1 ≤ p.length + l.chars.length := by simp only [TEXT] at *; omega
      obtain ⟨dr', hd, hw, ht⟩ := readDef_cut h hcut fuel eof newoff (NL :: (linesText ls ++ NL :: rest))
      refine ⟨_, hd, hw, ?_, ?_⟩
      · have happ : p ++ joined (l :: ls) ++ [NL] = p ++ (l.chars ++ (joined ls ++ [NL])) := by simp
        rw [ht, happ, List.take_append, List.take_of_length_le (l := p) (by simp only [TEXT] at *; omega),
          List.take_append_of_le_length (by omega)]
      · intro fuel line hfuel
        by_cases h478 : p.length = TEXT - 2
        · refine ⟨line, ?_⟩
          have hb : TEXT - 1 < p.length + 2 := by simp only [TEXT] at *; omega
          have h1 : TEXT - 1 - p.length = 1 := by simp only [TEXT] at *; omega
          rw [defTail, if_neg hfit, if_pos h478]
          simp only [flushRest, DefEnd.blank, hb, h1, decide_true, Bool.or_true, if_true]
        · rw [defTail, if_neg hfit, if_neg h478]
          have hb : ¬ TEXT - 1 < p.length + 2 := by simp only [TEXT] at *; omega
          simp only [flushRest, DefEnd.blank, hb, decide_false, Bool.or_self, Bool.false_eq_true, if_false]
          exact flush_lines _ _ _ (fun hm => l.noNL (List.mem_of_mem_drop hm))
            (fun hm => l.noNul (List.mem_of_mem_drop hm)) (by rw [List.length_drop]; omega) rest

/-! ## Which entries keep the frame -/

/-- The flush of a definition's rest, `r` characters of a line and the lines
`ls`, reaches the blank line: no last chunk of a line is its newline alone. -/
def FlushReaches (r : Nat) (ls : List Line) : Prop :=
  r % (BIGLINE - 1) ≠ 0 ∧ ∀ l ∈ ls, l.chars.length % (BIGLINE - 1) ≠ 0

/-- The definition lines are read to their blank line, `off` characters into
the text: all fit, or the one that does not leaves a rest that is flushed. -/
def DefKept : Nat → List Line → Prop
  | _, [] => True
  | off, l :: ls =>
    if off + l.chars.length ≤ TEXT - 2 then DefKept (off + l.chars.length) ls
    else off ≠ TEXT - 2 ∧ FlushReaches (off + l.chars.length - (TEXT - 1)) ls

/-- The headword line is read by one `fgets`, the definition to its blank line. -/
def Entry.Kept (e : Entry) : Prop := e.headword.chars.length ≤ BIGLINE - 2 ∧ DefKept 0 e.definition

instance (r : Nat) (ls : List Line) : Decidable (FlushReaches r ls) :=
  inferInstanceAs (Decidable (_ ∧ _))

instance DefKept.decidable : (off : Nat) → (ls : List Line) → Decidable (DefKept off ls)
  | _, [] => .isTrue trivial
  | off, l :: ls =>
    have := DefKept.decidable (off + l.chars.length) ls
    inferInstanceAs (Decidable (if off + l.chars.length ≤ TEXT - 2 then DefKept (off + l.chars.length) ls
      else off ≠ TEXT - 2 ∧ FlushReaches (off + l.chars.length - (TEXT - 1)) ls))

instance (e : Entry) : Decidable e.Kept := inferInstanceAs (Decidable (_ ∧ _))

theorem append_cons_ne (xs rest : List Byte) (c : Byte) : xs ++ c :: rest ≠ rest := fun he => by
  have := congrArg List.length he
  simp only [List.length_append, List.length_cons] at this
  omega

theorem flushTail_eq_iff {r : List Byte} {ls : List Line} {rest : List Byte} :
    flushTail r ls rest = rest ↔ FlushReaches r.length ls := by
  induction ls generalizing r with
  | nil =>
    by_cases h : r.length % (BIGLINE - 1) = 0
    · simp only [flushTail, FlushReaches, if_pos h]
      exact iff_of_false (append_cons_ne [] rest NL) fun hr => hr.1 h
    · simp only [flushTail, FlushReaches, if_neg h]
      exact iff_of_true trivial ⟨h, by simp⟩
  | cons l ls ih =>
    by_cases h : r.length % (BIGLINE - 1) = 0
    · simp only [flushTail, FlushReaches, if_pos h]
      exact iff_of_false (append_cons_ne _ rest NL) fun hr => hr.1 h
    · simp only [flushTail, FlushReaches, if_neg h, ih, List.forall_mem_cons]
      exact ⟨fun hr => ⟨h, hr⟩, fun hr => hr.2⟩

theorem defTail_eq_iff {off : Nat} {ls : List Line} {rest : List Byte} (hoff : off ≤ TEXT - 2) :
    defTail off ls rest = rest ↔ DefKept off ls := by
  induction ls generalizing off with
  | nil => simp [defTail, DefKept]
  | cons l ls ih =>
    by_cases hfit : off + l.chars.length ≤ TEXT - 2
    · simp only [defTail, DefKept, if_pos hfit, ih hfit]
    · simp only [defTail, DefKept, if_neg hfit]
      by_cases h478 : off = TEXT - 2
      · have hne := append_cons_ne (l.chars.drop 1 ++ NL :: linesText ls) rest NL
        rw [List.append_assoc, List.cons_append] at hne
        rw [if_pos h478]
        exact iff_of_false hne fun h => h.1 h478
      · have hlen : (l.chars.drop (TEXT - 1 - off)).length = off + l.chars.length - (TEXT - 1) := by
          rw [List.length_drop]; simp only [TEXT] at *; omega
        rw [if_neg h478, flushTail_eq_iff, hlen]
        exact ⟨fun hr => ⟨h478, hr⟩, fun hr => hr.2⟩

/-! ## Whole texts -/

/-- What a pass files: the strings of its record's two fields. -/
def Pass.filed (p : Pass) : List Byte × List Byte := (p.dr.word.str, p.dr.text.str)

/-- What an entry is to be filed as. -/
def Entry.filed (e : Entry) : List Byte × List Byte := (e.word, e.text)

/-- Where a pass took its headword and its definition to start. -/
def Pass.at (p : Pass) : List Byte × List Byte := (p.start, p.defStart)

/-- Where the headwords and definitions of a text start: what is unread there. -/
def starts : List Entry → List (List Byte × List Byte)
  | [] => []
  | e :: es => (dictText (e :: es), linesText e.definition ++ NL :: dictText es) :: starts es

/-- `convert` frames the text of `es`: it ends, writes one record an entry,
with the entry's word and text, and begins each at its entry. -/
def Frames (line : Buf BIGLINE) (es : List Entry) : Prop :=
  ∃ ps, Converts line (dictText es) ps ∧ ps.map Pass.filed = es.map Entry.filed ∧ ps.map Pass.at = starts es

theorem readWord_entry (l : Line) (hl : l.chars.length ≤ BIGLINE - 2) (inp : List Byte) :
    ∃ dr, readWord Dictrec.blank (l.chars ++ NL :: inp) = some (dr, inp) ∧
      dr.word.str = l.chars.take (WORD - 1) := by
  have hc := lineChunk_line (k := BIGLINE - 1) l.noNL (by simp only [BIGLINE] at *; omega) inp
  obtain ⟨dr, hr, hw⟩ := readWord_eq Dictrec.blank (by simp) hc (nul_not_mem_line l.noNul)
  refine ⟨dr, hr, hw.trans ?_⟩
  rw [← List.take_takeWhile, takeWhile_until l.noNL]

theorem readWord_long (l : Line) (hl : BIGLINE - 1 ≤ l.chars.length) (inp : List Byte) :
    ∃ dr, readWord Dictrec.blank (l.chars ++ inp) = some (dr, l.chars.drop (BIGLINE - 1) ++ inp) := by
  have hc := lineChunk_cut l.noNL hl inp
  obtain ⟨dr, hr, -⟩ := readWord_eq Dictrec.blank (by simp [l.nonempty]) hc
    fun hm => l.noNul (List.mem_of_mem_take hm)
  exact ⟨dr, hr⟩

/-- The pass at an entry whose headword is read whole. -/
theorem passes_entry {e : Entry} (he : e.headword.chars.length ≤ BIGLINE - 2) (fuel : Nat)
    (rest : List Byte) (hf : (linesText e.definition).length + 2 ≤ fuel) (line : Buf BIGLINE) :
    ∃ dr line', (dr.word.str, dr.text.str) = e.filed ∧
      passes (fuel + 1) line (e.headword.chars ++ NL :: (linesText e.definition ++ NL :: rest)) =
        (passes fuel line' (defTail 0 e.definition rest)).map fun more =>
          ⟨e.headword.chars ++ NL :: (linesText e.definition ++ NL :: rest),
            linesText e.definition ++ NL :: rest, dr⟩ :: more := by
  obtain ⟨dr, hr, hw⟩ := readWord_entry e.headword he (linesText e.definition ++ NL :: rest)
  obtain ⟨d, hd, hdw, hdt, hfl⟩ := readDef_lines e.definition fuel
    (Holds.nil dr) (by omega) false 0 rest
  obtain ⟨line', hl⟩ := hfl fuel line hf
  refine ⟨d.dr, line', ?_, ?_⟩
  · rw [hdw, hw, hdt]; rfl
  · simp only [List.length_nil] at hd hl
    simp [passes, hr, hd, hl]

/-- The text of kept entries is framed. -/
theorem frames_of_kept {es : List Entry} (h : ∀ e ∈ es, e.Kept) (fuel : Nat)
    (hf : (dictText es).length < fuel) (line : Buf BIGLINE) :
    ∃ ps, passes fuel line (dictText es) = some ps ∧ ps.map Pass.filed = es.map Entry.filed ∧
      ps.map Pass.at = starts es := by
  induction es generalizing fuel line with
  | nil =>
    obtain ⟨fuel, rfl⟩ : ∃ f, fuel = f + 1 := ⟨fuel - 1, by omega⟩
    exact ⟨[], by simp [passes, dictText, readWord_none.2], rfl, rfl⟩
  | cons e es ih =>
    obtain ⟨hk, hks⟩ := List.forall_mem_cons.1 h
    obtain ⟨fuel, rfl⟩ : ∃ f, fuel = f + 1 := ⟨fuel - 1, by omega⟩
    have hlen := dictText_length e es
    have hpos := e.headword.length_pos
    obtain ⟨dr, line', hfiled, hp⟩ := passes_entry hk.1 fuel (dictText es) (by omega) line
    rw [(defTail_eq_iff (by decide)).2 hk.2] at hp
    obtain ⟨ps, hps, hpf, hpa⟩ := ih hks fuel (by omega) line'
    refine ⟨_ :: ps, by rw [dictText, hp, hps]; rfl, ?_, ?_⟩
    · rw [List.map_cons, List.map_cons, hpf, ← hfiled]; rfl
    · rw [List.map_cons, hpa]; rfl

/-- A pass begins where the one before ended, so passes that begin at the
entries of a text read nothing else. -/
theorem unread_of_starts {fuel : Nat} {line : Buf BIGLINE} {inp : List Byte} {ps : List Pass}
    {es : List Entry} (hp : passes fuel line inp = some ps) (ha : ps.map Pass.at = starts es) :
    inp = dictText es := by
  cases fuel with
  | zero => simp [passes] at hp
  | succ fuel =>
    simp only [passes] at hp
    split at hp
    · next hr =>
      cases hp
      cases es with
      | nil => exact readWord_none.1 hr
      | cons e es => simp [starts] at ha
    · simp only [Option.bind_eq_some_iff, Option.map_eq_some_iff] at hp
      obtain ⟨d, -, r, -, more, -, rfl⟩ := hp
      cases es with
      | nil => simp [starts] at ha
      | cons e es =>
        simp only [List.map_cons, starts, List.cons.injEq, Pass.at, Prod.mk.injEq] at ha
        exact ha.1.1

/-- A framed text's entries are kept. -/
theorem kept_of_frames {es : List Entry} {fuel : Nat} {line : Buf BIGLINE} {ps : List Pass}
    (hf : (dictText es).length < fuel) (hp : passes fuel line (dictText es) = some ps)
    (ha : ps.map Pass.at = starts es) : ∀ e ∈ es, e.Kept := by
  induction es generalizing fuel line ps with
  | nil => simp
  | cons e es ih =>
    obtain ⟨fuel, rfl⟩ : ∃ f, fuel = f + 1 := ⟨fuel - 1, by omega⟩
    have hlen := dictText_length e es
    have hhead : e.headword.chars.length ≤ BIGLINE - 2 := by
      by_contra hlong
      obtain ⟨dr, hr⟩ := readWord_long e.headword (by simp only [BIGLINE] at *; omega)
        (NL :: (linesText e.definition ++ NL :: dictText es))
      simp only [dictText, passes, hr, Option.bind_eq_some_iff, Option.map_eq_some_iff] at hp
      obtain ⟨d, -, r, -, more, -, rfl⟩ := hp
      simp only [List.map_cons, starts, List.cons.injEq, Pass.at, Prod.mk.injEq] at ha
      exact append_cons_ne _ _ _ ha.1.2
    obtain ⟨dr, line', -, hpe⟩ := passes_entry hhead fuel (dictText es)
      (by have := e.headword.length_pos; omega) line
    rw [dictText, hpe, Option.map_eq_some_iff] at hp
    obtain ⟨more, hmore, rfl⟩ := hp
    rw [List.map_cons, starts, List.cons.injEq] at ha
    have hrest := unread_of_starts hmore ha.2
    rw [hrest] at hmore
    exact List.forall_mem_cons.2 ⟨⟨hhead, (defTail_eq_iff (by decide)).1 hrest⟩,
      ih (by have := e.headword.length_pos; omega) hmore ha.2⟩

/-- Exactly the texts of kept entries are framed. -/
theorem frames_iff_kept (line : Buf BIGLINE) (es : List Entry) :
    Frames line es ↔ ∀ e ∈ es, e.Kept := by
  constructor
  · intro h
    obtain ⟨ps, ⟨fuel, hp⟩, -, ha⟩ := h
    exact kept_of_frames (Nat.lt_of_lt_of_le (Nat.lt_succ_self _) (Nat.le_max_right fuel _))
      (passes_mono (Nat.le_max_left fuel _) hp) ha
  · intro h
    obtain ⟨ps, hp, hfiled, hat⟩ := frames_of_kept h _ (Nat.lt_succ_self _) line
    exact ⟨ps, ⟨_, hp⟩, hfiled, hat⟩

/-- A line of `n + 1` times the letter `x`. -/
def Line.xs (n : Nat) : Line where
  chars := List.replicate (n + 1) 120
  nonempty := by simp
  noNL := by simp [List.mem_replicate, NL]
  noNul := by simp [List.mem_replicate, NUL]

/-- An entry whose definition fills `dr.text` to its last character, so that
its newline is left for the flush to take for a blank line. -/
def tightEntry : Entry := ⟨Line.xs 0, [Line.xs 478], by simp⟩

/-- On it `convert` writes a second record, for the blank line. -/
theorem tightEntry_not_framed : ¬ Frames (Buf.zero BIGLINE) [tightEntry] ∧
    (passes 8 (Buf.zero BIGLINE) (dictText [tightEntry])).map List.length = some 2 := by
  refine ⟨?_, by decide +kernel⟩
  intro h
  obtain ⟨ps, ⟨fuel, hp⟩, -, ha⟩ := h
  have hk := kept_of_frames (Nat.lt_of_lt_of_le (Nat.lt_succ_self _) (Nat.le_max_right fuel _))
    (passes_mono (Nat.le_max_left fuel _) hp) ha tightEntry (by simp)
  exact absurd hk (by decide +kernel)

end SysProg.Convert
