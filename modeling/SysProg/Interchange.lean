/-
The three local lookups are interchangeable on a file of records in
ascending order: whatever a caller asks, whatever its record held before,
they answer alike at every call.
-/
import SysProg.LookupFacts

namespace SysProg

/-- A dictionary file: records whose fields are terminated and whose words
ascend strictly, and fewer bytes than a record after them. -/
structure DictFile where
  recs : List Dictrec
  partRec : List Byte
  short : partRec.length < RECSIZE
  terminated : ∀ r ∈ recs, r.Terminated
  ascending : recs.Pairwise fun a b => strcmp a.word.str b.word.str = .lt

namespace DictFile

/-- The file's bytes. -/
def data (d : DictFile) : List Byte := fileOf d.recs ++ d.partRec

theorem recordFile (d : DictFile) : RecordFile d.data d.recs := ⟨⟨d.partRec, rfl, d.short⟩⟩

theorem distinct (d : DictFile) : d.recs.Pairwise fun a b => a.word.str ≠ b.word.str :=
  d.ascending.imp fun {a b} h he => by rw [strcmp_eq.2 he] at h; cases h

/-- What the dictionary has for a word: its text, if any. -/
def textOf (d : DictFile) (w : List Byte) : Option (List Byte) :=
  (d.recs.find? fun r => r.word.str = w).map (·.text.str)

/-- The file as the dictionary of a server. -/
def found (d : DictFile) : Dictionary := fun w =>
  match h : d.recs.find? fun r => r.word.str = w with
  | some r => some (r.text.toCStr (d.terminated r (List.mem_of_find?_eq_some h)).2)
  | none => none

theorem found_chars (d : DictFile) (w : List Byte) : (d.found w).map (·.chars) = d.textOf w := by
  unfold found textOf
  split
  · next r h => simp [h]
  · next h => simp [h]

end DictFile

/-- What a caller sees of a call: the status, and the text as a C string when
there is one. -/
def Call.outcome (c : Call) : Status × Option (List Byte) :=
  (c.status, if c.status = .FOUND then some c.got.text.str else none)

theorem Answered.outcome {d : DictFile} {c : Call} (h : Answered d.recs c.asked c.status c.got) :
    c.outcome = outcomeOf (d.textOf c.asked.word.str) := by
  unfold Answered at h
  unfold DictFile.textOf
  split at h
  · next r hr => simp [Call.outcome, h.1, h.2.2, outcomeOf, hr]
  · next hr => simp [Call.outcome, h.1, outcomeOf, hr]

theorem outcomes_of_answers {d : DictFile} {ws : List (CStr WORD)} {cs : List Call}
    (h : List.Forall₂ (fun w c => c.asked.word.str = w.chars ∧ Answered d.recs c.asked c.status c.got) ws cs) :
    cs.map Call.outcome = ws.map fun w => outcomeOf (d.textOf w.chars) := by
  induction h with
  | nil => rfl
  | cons h _ ih => rw [List.map_cons, List.map_cons, ih, h.2.outcome, h.1]

/-- A lookup every call of which answers from the records has, for each word
of a session, what the dictionary has. -/
theorem session_outcomes {σ : Type} {lookup : σ → Dictrec → Option (Answer σ)} (d : DictFile)
    (I : σ → Prop) (hcall : ∀ st sought, I st → sought.word.Terminated →
      ∃ status got st', lookup st sought = some (status, got, st') ∧ I st' ∧ Answered d.recs sought status got)
    {st : σ} (hst : I st) (tryit : Dictrec) (ws : List (CStr WORD)) :
    ∃ cs, session lookup st tryit ws = some cs ∧
      cs.map Call.outcome = ws.map fun w => outcomeOf (d.textOf w.chars) := by
  obtain ⟨cs, h, hs⟩ := session_spec I (Answered d.recs) hcall hst tryit ws
  exact ⟨cs, h, outcomes_of_answers hs⟩

theorem lookup1_outcomes (d : DictFile) (tryit : Dictrec) (ws : List (CStr WORD)) :
    ∃ cs, session (lookup1 (some d.data)) Lookup1.init tryit ws = some cs ∧
      cs.map Call.outcome = ws.map fun w => outcomeOf (d.textOf w.chars) :=
  session_outcomes d (Lookup1.Reads d.data)
    (fun _ sought hst _ => lookup1_answers d.recordFile d.terminated hst sought) (.inl rfl) tryit ws

theorem lookup2_outcomes (d : DictFile) (qsort : Qsort Index) (bsearch : Bsearch Index Index)
    (tryit : Dictrec) (ws : List (CStr WORD)) :
    ∃ cs, session (lookup2 qsort bsearch (some d.data)) Lookup2.init tryit ws = some cs ∧
      cs.map Call.outcome = ws.map fun w => outcomeOf (d.textOf w.chars) :=
  session_outcomes d (Lookup2.Reads d.data d.recs)
    (fun _ _ hst ht => lookup2_answers d.recordFile d.terminated d.distinct qsort bsearch hst ht) (.inl rfl) tryit ws

theorem lookup5_outcomes (d : DictFile) (bsearch : Bsearch (Buf WORD) Dictrec) (tryit : Dictrec)
    (ws : List (CStr WORD)) :
    ∃ cs, session (lookup5 bsearch (some d.data)) Lookup5.init tryit ws = some cs ∧
      cs.map Call.outcome = ws.map fun w => outcomeOf (d.textOf w.chars) :=
  session_outcomes d (Lookup5.Reads d.recs)
    (fun _ sought hst _ => lookup5_answers d.recordFile d.terminated d.ascending bsearch hst sought) (.inl rfl) tryit ws

/-- Over any dictionary file and any queries, each program with a record of
its own, the three lookups return the same status at every call and, when
FOUND, the same text. -/
theorem lookups_interchange (d : DictFile) (qsort : Qsort Index) (bsearch₂ : Bsearch Index Index)
    (bsearch₅ : Bsearch (Buf WORD) Dictrec) (tryit₁ tryit₂ tryit₅ : Dictrec) (ws : List (CStr WORD)) :
    ∃ c₁ c₂ c₅, session (lookup1 (some d.data)) Lookup1.init tryit₁ ws = some c₁ ∧
      session (lookup2 qsort bsearch₂ (some d.data)) Lookup2.init tryit₂ ws = some c₂ ∧
      session (lookup5 bsearch₅ (some d.data)) Lookup5.init tryit₅ ws = some c₅ ∧
      c₁.map Call.outcome = c₂.map Call.outcome ∧ c₁.map Call.outcome = c₅.map Call.outcome := by
  obtain ⟨c₁, h₁, o₁⟩ := lookup1_outcomes d tryit₁ ws
  obtain ⟨c₂, h₂, o₂⟩ := lookup2_outcomes d qsort bsearch₂ tryit₂ ws
  obtain ⟨c₅, h₅, o₅⟩ := lookup5_outcomes d bsearch₅ tryit₅ ws
  exact ⟨c₁, c₂, c₅, h₁, h₂, h₅, o₁.trans o₂.symm, o₁.trans o₅.symm⟩

end SysProg
