/-
What is printed at the prompt, from the dictionary's text on: `convert` makes
a file of it, which `file_lookup` searches itself and `usock_client` asks the
server about, among other clients. Both print the same.
-/
import SysProg.AcceptAnswers
import SysProg.Lib.Decimal
import SysProg.Prompt
import SysProg.RoundTrip
import SysProg.Service

namespace SysProg.Output

open SysProg.Convert (Line ShortEntry linesText separated)

/-- A line typed at the prompt that is asked as it is. -/
structure Typed extends Line where
  short : chars.length ≤ WORD - 2

/-- The word that is asked. -/
def Typed.word (l : Typed) : CStr WORD :=
  ⟨l.chars, l.noNul, Nat.lt_of_le_of_lt l.short (by decide)⟩

/-- What `main` prints for a call that returns this. UNAVAIL is reported on stderr. -/
def printed (word : List Byte) : Status × Option (List Byte) → List Byte
  | (.FOUND, some text) => word ++ ascii " : " ++ text
  | (.NOTFOUND, _) => ascii "==== " ++ word ++ ascii " === : Not Found!\n"
  | _ => []

/-- All that `main` prints for its calls. -/
def output (cs : List Call) : List Byte := cs.flatMap fun c => printed c.got.word.str c.outcome

/-- What a client prints for its calls, up to one that returns UNAVAIL. -/
def clientOutput (past : List (CStr WORD × Status × Option (List Byte))) : List Byte :=
  (past.takeWhile fun r => r.2.1 ≠ .UNAVAIL).flatMap fun r => printed r.1.chars r.2

/-- What is to be printed for a word. -/
def shown (es : List ShortEntry) (w : List Byte) : List Byte :=
  printed w (outcomeOf ((es.find? fun e => e.headword.chars = w).map (·.text)))

/-! ## The loop at the prompt -/

section

variable {σ : Type} (lookup : σ → Dictrec → Answer σ)

theorem turn (n : Nat) (st : σ) (tryit : Dictrec) (l : Typed) (more : List Byte) :
    ∃ word : Buf WORD, word.str = l.chars ∧ Prompt.turns lookup (n + 1) st tryit (l.chars ++ NL :: more) =
      let asked : Dictrec := { tryit with word }
      let (status, got, st) := lookup st asked
      if status = .UNAVAIL then some [⟨asked, status, got⟩]
      else (Prompt.turns lookup n st got more).map (⟨asked, status, got⟩ :: ·) := by
  have hshort := l.short
  have hread := fgets_line tryit.word 0 l.noNL (show l.chars.length + 2 ≤ WORD by simp only [WORD] at *; omega) more
  have hstr : (tryit.word.store 0 (l.chars ++ [NL] ++ [NUL])).str = l.chars ++ [NL] := by
    have := Buf.store_str tryit.word 0 (by simp) (nul_not_mem_line l.noNul)
      (show 0 + (l.chars ++ [NL]).length < WORD by
        rw [List.length_append, List.length_singleton]
        simp only [WORD] at *
        omega)
    rwa [List.take_zero, List.nil_append] at this
  obtain ⟨word, hchop, hword⟩ := Prompt.chop_str hstr (by simp)
  refine ⟨word, by rw [hword, List.dropLast_concat], ?_⟩
  rw [Prompt.turns, hread]
  simp only [hchop, Option.bind_some]

/-- What the records have for a word, as it is printed. -/
def shownOf (recs : List Dictrec) (w : List Byte) : List Byte :=
  printed w (outcomeOf ((recs.find? fun r => r.word.str = w).map (·.text.str)))

theorem printed_answered {recs : List Dictrec} {c : Call} (h : Answered recs c.asked c.status c.got) :
    c.status ≠ .UNAVAIL ∧ printed c.got.word.str c.outcome = shownOf recs c.asked.word.str := by
  unfold Answered at h
  unfold shownOf
  split at h
  · next r hr =>
    obtain ⟨hstatus, hword, htext⟩ := h
    refine ⟨by rw [hstatus]; decide, ?_⟩
    rw [hr, hword, Call.outcome, if_pos hstatus, hstatus, htext]
    rfl
  · next hr =>
    obtain ⟨hstatus, hgot⟩ := h
    refine ⟨by rw [hstatus]; decide, ?_⟩
    rw [hr, hgot, Call.outcome, hstatus]
    rfl

/-- A `lookup` that answers from the records prints what they have for each
line typed. -/
theorem main_prints {recs : List Dictrec} {I : σ → Prop} (hcall : ∀ st sought, I st → sought.word.Terminated →
      I (lookup st sought).2.2 ∧ Answered recs sought (lookup st sought).1 (lookup st sought).2.1)
    {st : σ} (hst : I st) (tryit : Dictrec) (typed : List Typed) :
    ∃ cs, Prompt.main lookup st tryit (linesText (typed.map (·.toLine))) = some cs ∧
      output cs = typed.flatMap fun l => shownOf recs l.chars := by
  suffices h : ∀ n, (linesText (typed.map (·.toLine))).length < n →
      ∃ cs, Prompt.turns lookup n st tryit (linesText (typed.map (·.toLine))) = some cs ∧
        output cs = typed.flatMap fun l => shownOf recs l.chars from
    h _ (Nat.lt_succ_self _)
  intro n
  induction typed generalizing n st tryit with
  | nil =>
    intro hn
    obtain ⟨n, rfl⟩ : ∃ m, n = m + 1 := ⟨n - 1, by omega⟩
    exact ⟨[], by rw [List.map_nil, Prompt.turns, Convert.linesText_nil, fgets_nil (by decide)], rfl⟩
  | cons l ls ih =>
    intro hn
    obtain ⟨n, rfl⟩ : ∃ m, n = m + 1 := ⟨n - 1, by omega⟩
    have hcons : linesText ((l :: ls).map (·.toLine)) = l.chars ++ NL :: linesText (ls.map (·.toLine)) := by
      have := Convert.linesText_cons l.toLine (ls.map (·.toLine)) []
      rwa [List.append_nil, List.append_nil] at this
    rw [hcons] at hn ⊢
    rw [List.length_append, List.length_cons] at hn
    obtain ⟨word, hword, hturn⟩ := turn lookup n st tryit l (linesText (ls.map (·.toLine)))
    have hshort := l.short
    obtain ⟨hst', hans⟩ := hcall st { tryit with word } hst
      (Buf.terminated_of_length (by rw [hword]; simp only [WORD] at *; omega))
    let c : Call := ⟨{ tryit with word }, (lookup st { tryit with word }).1, (lookup st { tryit with word }).2.1⟩
    have hc : Answered recs c.asked c.status c.got := hans
    obtain ⟨hno, hprinted⟩ := printed_answered hc
    obtain ⟨cs, hcs, hout⟩ := ih hst' c.got n (by omega)
    refine ⟨c :: cs, ?_, ?_⟩
    · rw [hturn]
      exact (if_neg hno).trans (by rw [hcs]; rfl)
    · rw [output, List.flatMap_cons, hprinted, List.flatMap_cons, ← hout]
      exact congrArg (shownOf recs · ++ output cs) hword

end

/-! ## The file and the server -/

theorem text_ne_XXXX (e : ShortEntry) : e.text ≠ XXXX.chars := by
  intro he
  have : NL ∈ XXXX.chars := by
    rw [← he, ShortEntry.text]
    simp
  exact absurd this (by decide)

/-- Entries in the order of their headwords, as `lookup5` needs them. -/
def Sorted (es : List ShortEntry) : Prop := es.Pairwise fun a b => strcmp a.headword.chars b.headword.chars = .lt

theorem file_of_sorted {es : List ShortEntry} (hes : Sorted es) {ps : List Convert.Pass}
    (hfiled : ps.map Convert.Pass.filed = es.map fun e => e.filed) :
    ∃ d : DictFile, d.recs = ps.map (·.dr) ∧ d.data = Convert.output ps := by
  have hentries : ps.map Convert.Pass.filed = (es.map (·.toEntry)).map Convert.Entry.filed := by
    rw [hfiled, List.map_map]
    rfl
  have hwords : (ps.map (·.dr)).map (·.word.str) = es.map (·.headword.chars) := by
    have := congrArg (List.map Prod.fst) hfiled
    simpa [Function.comp_def, Convert.Pass.filed, ShortEntry.filed_eq] using this
  refine ⟨⟨ps.map (·.dr), [], by decide, Convert.terminated_of_filed hentries, ?_⟩, rfl, ?_⟩
  · have : (es.map (·.headword.chars)).Pairwise fun a b => strcmp a b = .lt := List.pairwise_map.2 hes
    rw [← hwords] at this
    exact List.pairwise_map.1 this
  · rw [DictFile.data, List.append_nil, Convert.output]

theorem found_ne_XXXX {es : List ShortEntry} {ps : List Convert.Pass}
    (hfiled : ps.map Convert.Pass.filed = es.map fun e => e.filed) {d : DictFile} (hd : d.recs = ps.map (·.dr))
    (w : List Byte) : d.found w ≠ some XXXX := by
  intro hx
  have htext := d.found_chars w
  rw [hx, DictFile.textOf, hd, Convert.find?_filed hfiled, Option.map_some, eq_comm, Option.map_eq_some_iff] at htext
  obtain ⟨e, -, he⟩ := htext
  exact text_ne_XXXX e he

theorem printed_answer {es : List ShortEntry} {ps : List Convert.Pass}
    (hfiled : ps.map Convert.Pass.filed = es.map fun e => e.filed) {d : DictFile} (hd : d.recs = ps.map (·.dr))
    (w : CStr WORD) : printed w.chars (answer d.found w) = shown es w.chars := by
  rw [answer, d.found_chars, DictFile.textOf, hd, Convert.find?_filed hfiled, shown]

/-- The calls that have been answered are for the first of the words. -/
theorem clientOutput_eq {dict : Dictionary} {past : List (CStr WORD × Status × Option (List Byte))}
    {words : List (CStr WORD)} (hwords : past.map (·.1) <+: words)
    (hpast : ∀ r ∈ past, r.2 = answer dict r.1 ∨ r.2 = (.UNAVAIL, none)) :
    ∃ n, clientOutput past = (words.take n).flatMap (fun w => printed w.chars (answer dict w)) ∧
      ((∀ r ∈ past, r.2.1 ≠ .UNAVAIL) → n = past.length) := by
  let answered := past.takeWhile fun r => r.2.1 ≠ .UNAVAIL
  have hbegin : answered <+: past := List.takeWhile_prefix _
  have hanswer : ∀ r ∈ answered, r.2 = answer dict r.1 := by
    intro r hr
    have hne : r.2.1 ≠ .UNAVAIL := by simpa using List.mem_takeWhile_imp hr
    exact (hpast r (hbegin.subset hr)).resolve_right fun he => hne (by rw [he])
  have hfirst : answered.map (·.1) = words.take answered.length := by
    have := (hbegin.map (·.1)).trans hwords
    rw [List.prefix_iff_eq_take.1 this, List.length_map]
  refine ⟨answered.length, ?_, fun hall => ?_⟩
  · rw [← hfirst, List.flatMap_map, clientOutput]
    exact List.flatMap_congr fun r hr => by rw [hanswer r hr]
  · rw [show answered = past from List.takeWhile_eq_self_iff.2 (by simpa using hall)]

/-- The `lookup` of `file_lookup`. The calls that C leaves undefined are those
after one that has returned UNAVAIL. -/
def file_lookup (data : List Byte) (st : Lookup1) (sought : Dictrec) : Answer Lookup1 :=
  (lookup1 (some data) st sought).getD (.UNAVAIL, sought, st)

/-- `file_lookup` prints for each word typed what the text has for it, and so
does each client of `usock_server` for the words whose calls have returned, as
long as messages are read whole and a lost server shows as an error, and up to
such an error. -/
theorem clients_print {κ : Type} [DecidableEq κ] (bsearch : Bsearch (Buf WORD) Dictrec) (line : Buf Convert.BIGLINE)
    (blank : Bool) (es : List ShortEntry) (hes : Sorted es) :
    ∃ ps, Convert.Converts line (separated blank es) ps ∧
      (∀ (tryit : Dictrec) (typed : List Typed), ∃ cs,
        Prompt.main (file_lookup (Convert.output ps)) .init tryit (linesText (typed.map (·.toLine))) = some cs ∧
          output cs = typed.flatMap fun l => shown es l.chars) ∧
      ∃ d : DictFile, d.data = Convert.output ps ∧
        ∀ (inherited : Fds Unit) (maxBacklog maxChildren : Nat) (tryit : Dictrec) (text : κ → Buf TEXT)
          (typed : κ → List Typed) (s : Accept.State κ),
          Reach (Accept.step (lookup5Service d bsearch).dict tryit maxBacklog maxChildren) (Accept.Each Accept.Noticed)
            (Accept.start tryit inherited text fun c => (typed c).map Typed.word) s →
          ∀ c, ∃ n, clientOutput (s.conns c).client.past = ((typed c).take n).flatMap (fun l => shown es l.chars) ∧
            ((∀ r ∈ (s.conns c).client.past, r.2.1 ≠ .UNAVAIL) → n = (s.conns c).client.past.length) := by
  obtain ⟨ps, hpasses, hfiled⟩ := Convert.passes_separated blank es _ line (Nat.lt_succ_self _)
  obtain ⟨d, hd, hdata⟩ := file_of_sorted hes hfiled
  refine ⟨ps, ⟨_, hpasses⟩, fun tryit typed => ?_, d, hdata,
    fun inherited maxBacklog maxChildren tryit text typed s h c => ?_⟩
  · have hcall : ∀ st sought, st.Reads d.data → sought.word.Terminated →
        (file_lookup d.data st sought).2.2.Reads d.data ∧
          Answered d.recs sought (file_lookup d.data st sought).1 (file_lookup d.data st sought).2.1 := by
      intro st sought hst _
      obtain ⟨status, got, st', hl, hst', ha⟩ := lookup1_answers d.recordFile d.terminated hst sought
      rw [file_lookup, hl]
      exact ⟨hst', ha⟩
    have hinit : Lookup1.init.Reads d.data := .inl rfl
    obtain ⟨cs, hcs, hout⟩ := main_prints (file_lookup d.data) hcall hinit tryit typed
    refine ⟨cs, by rw [← hdata]; exact hcs, hout.trans (List.flatMap_congr fun l _ => ?_)⟩
    rw [shownOf, shown, hd, Convert.find?_filed hfiled]
  · obtain ⟨hwords, hpast⟩ := Accept.each_answered (found_ne_XXXX hfiled hd) h c
    obtain ⟨n, hout, hn⟩ := clientOutput_eq hwords hpast
    refine ⟨n, ?_, hn⟩
    rw [hout, List.map_take.symm, List.flatMap_map]
    exact List.flatMap_congr fun l _ => printed_answer hfiled hd l.word

/-- The entry of a letter, defined by itself. -/
def letter (w : Byte) (h : w ∉ [NL, NUL]) : ShortEntry :=
  have hNL : NL ∉ [w] := fun he => h (by simp_all)
  have hNUL : NUL ∉ [w] := fun he => h (by simp_all)
  ⟨⟨⟨[w], by simp, hNL, hNUL⟩, [⟨[w], by simp, hNL, hNUL⟩], by simp⟩, by simp [WORD], by simp [Convert.joined, TEXT]⟩

/-- Two words, of which two clients ask any. -/
theorem clients_print_two :
    shown [letter 97 (by decide), letter 98 (by decide)] [98] = ascii "b : b\n" ∧
    ∃ d : DictFile, ∀ (typed : Bool → List Typed) (s : Accept.State Bool),
      Reach (Accept.step (lookup5Service d default).dict Dictrec.blank 128 10) (Accept.Each Accept.Noticed)
        (Accept.start Dictrec.blank [] (fun _ => Buf.zero TEXT) fun c => (typed c).map Typed.word) s →
      ∀ c, ∃ n, clientOutput (s.conns c).client.past =
        ((typed c).take n).flatMap fun l => shown [letter 97 (by decide), letter 98 (by decide)] l.chars := by
  refine ⟨by decide, ?_⟩
  obtain ⟨ps, -, -, d, -, h⟩ := clients_print (κ := Bool) default (Buf.zero _) false
    [letter 97 (by decide), letter 98 (by decide)] (by unfold Sorted; decide)
  exact ⟨d, fun typed s hs c => (h [] 128 10 Dictrec.blank (fun _ => Buf.zero TEXT) typed s hs c).imp fun n hn => hn.1⟩

end SysProg.Output
