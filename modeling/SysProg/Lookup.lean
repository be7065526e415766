/-
The lookups that read a local file of records: `lookup1` scans it,
`lookup2` builds a sorted index of it, `lookup5` maps it and searches it in
place. Each keeps its static variables between calls.

`file` is what the resource names: the bytes of a file, or nothing that can
be opened. A result of `none` is a call whose behaviour C leaves undefined.
-/
import SysProg.Dict
import SysProg.Lib.Search

namespace SysProg

/-- The outcome of one call: the status, the caller's record, the static
variables. -/
abbrev Answer (σ : Type) := Status × Dictrec × σ

/-! ## lookup1 -/

/-- The static variables of `lookup1`. -/
structure Lookup1 where
  first_time : Bool
  file : Option Stream
  deriving DecidableEq

/-- Before the first call. -/
def Lookup1.init : Lookup1 := ⟨true, none⟩

theorem Stream.fread_some_lt {n : Nat} {f f' : Stream} {b : Buf n} (hn : 0 < n)
    (h : f.fread n = (some b, f')) : f'.data.length - f'.pos < f.data.length - f.pos := by
  unfold Stream.fread at h
  split at h
  · next hl =>
    simp only [Prod.mk.injEq] at h
    rw [← h.2]
    simp only [Stream.seek_data, Stream.seek_pos]
    omega
  · simp at h

/-- The records read one after the other until one has the word sought. -/
def scan (sought : Dictrec) (f : Stream) : Option Dictrec × Stream :=
  match _h : f.fread RECSIZE with
  | (none, f') => (none, f')
  | (some b, f') =>
    let dr := Dictrec.ofFlat b
    if strcmp sought.word.str dr.word.str = .eq then (some dr, f') else scan sought f'
termination_by f.data.length - f.pos
decreasing_by exact Stream.fread_some_lt (by decide) _h

/-- The lookup that reads the file from its beginning. -/
def lookup1 (file : Option (List Byte)) (st : Lookup1) (sought : Dictrec) :
    Option (Answer Lookup1) :=
  let opened := if st.first_time then file.map fun data => (⟨data, 0⟩ : Stream) else st.file
  match opened with
  -- Not opened now, or in an earlier call: then `rewind(NULL)`.
  | none => if st.first_time then some (.UNAVAIL, sought, ⟨false, none⟩) else none
  | some f =>
    match scan sought f.rewind with
    | (some dr, f') => some (.FOUND, { sought with text := sought.text.strcpy dr.text.str }, ⟨false, some f'⟩)
    | (none, f') => some (.NOTFOUND, sought, ⟨false, some f'⟩)

/-! ## lookup2 -/

/-- A word and where its record lies in the file. -/
structure Index where
  word : Buf WORD
  off : Nat
  deriving DecidableEq

/-- The static variables of `lookup2`. -/
structure Lookup2 where
  first_time : Bool
  table : List Index
  file : Option Stream
  deriving DecidableEq

/-- Before the first call. -/
def Lookup2.init : Lookup2 := ⟨true, [], none⟩

/-- `dict_cmp` of `lookup2`. -/
def Lookup2.dict_cmp (a b : Index) : Ordering := strcmp a.word.str b.word.str

/-- The reading of the file into the table, from slot `i` on; a write past
the table is undefined. -/
def fillIndex (f : Stream) (i : Nat) (table : List Index) : Option (List Index × Stream) :=
  match _h : f.fread RECSIZE with
  | (none, f') => some (table, f')
  | (some b, f') =>
    match table[i]? with
    | none => none
    | some slot =>
      let dr := Dictrec.ofFlat b
      fillIndex f' (i + 1) (table.set i ⟨slot.word.strcpy dr.word.str, i * RECSIZE⟩)
termination_by f.data.length - f.pos
decreasing_by exact Stream.fread_some_lt (by decide) _h

/-- The set-up of the index in the first call. -/
def buildIndex (qsort : Qsort Index) (data : List Byte) : Option Lookup2 :=
  let numrec := data.length / RECSIZE
  let table := List.replicate numrec ⟨Buf.zero WORD, 0⟩
  (fillIndex ⟨data, 0⟩ 0 table).map fun (table, f) => ⟨false, qsort.sort Lookup2.dict_cmp table, some f⟩

/-- The search of the index and the reading of the record it names. -/
def searchIndex (bsearch : Bsearch Index Index) (st : Lookup2) (sought : Dictrec) :
    Option (Answer Lookup2) :=
  let tmp : Index := ⟨(Buf.zero WORD).strcpy sought.word.str, 0⟩
  match bsearch.search Lookup2.dict_cmp tmp st.table with
  | none => some (.NOTFOUND, sought, st)
  | some i =>
    match st.table[i]?, st.file with
    | some found, some f =>
      let (b, f') := (f.seek found.off).fread RECSIZE
      some (.FOUND, (b.map Dictrec.ofFlat).getD sought, { st with file := some f' })
    | _, _ => none

/-- The lookup that sorts an index of the file, and searches it. -/
def lookup2 (qsort : Qsort Index) (bsearch : Bsearch Index Index) (file : Option (List Byte))
    (st : Lookup2) (sought : Dictrec) : Option (Answer Lookup2) :=
  if st.first_time then
    match file with
    | none => some (.UNAVAIL, sought, { st with first_time := false })
    | some data => (buildIndex qsort data).bind fun st => searchIndex bsearch st sought
  else searchIndex bsearch st sought

/-! ## lookup5 -/

/-- The static variables of `lookup5`: the records of the mapped file that
`table` and `numrec` give. -/
structure Lookup5 where
  first_time : Bool
  table : List Dictrec
  deriving DecidableEq

/-- Before the first call. -/
def Lookup5.init : Lookup5 := ⟨true, []⟩

/-- `dict_cmp` of `lookup5`: a word against a record's. -/
def Lookup5.dict_cmp (word : Buf WORD) (dr : Dictrec) : Ordering := strcmp word.str dr.word.str

/-- The record at index `i` of a mapped file. -/
def recordAt (data : List Byte) (i : Nat) : Option Dictrec :=
  ((⟨data, i * RECSIZE⟩ : Stream).fread RECSIZE).1.map Dictrec.ofFlat

/-- The array of `filsiz / sizeof(Dictrec)` records a mapped file is. -/
def mapped (data : List Byte) : List Dictrec :=
  (List.range (data.length / RECSIZE)).filterMap (recordAt data)

/-- The lookup that maps the file, and searches it. -/
def lookup5 (bsearch : Bsearch (Buf WORD) Dictrec) (file : Option (List Byte)) (st : Lookup5)
    (sought : Dictrec) : Option (Answer Lookup5) :=
  if st.first_time ∧ file = none then some (.UNAVAIL, sought, ⟨false, []⟩)
  else
    let table := if st.first_time then mapped (file.getD []) else st.table
    match bsearch.search Lookup5.dict_cmp sought.word table with
    | none => some (.NOTFOUND, sought, ⟨false, table⟩)
    | some i =>
      match table[i]? with
      | none => none
      | some found => some (.FOUND, { sought with text := sought.text.strcpy found.text.str }, ⟨false, table⟩)

/-! ## A caller -/

/-- One call of a session: the record passed, the status, the record after. -/
structure Call where
  asked : Dictrec
  status : Status
  got : Dictrec
  deriving DecidableEq

/-- Queries asked one after the other, the words written into one record, as
`main` does. -/
def session {σ : Type} (lookup : σ → Dictrec → Option (Answer σ)) : σ → Dictrec → List (CStr WORD) →
    Option (List Call)
  | _, _, [] => some []
  | st, tryit, w :: ws =>
    let tryit := { tryit with word := tryit.word.strcpy w.chars }
    (lookup st tryit).bind fun (status, got, st) =>
      (session lookup st got ws).map (⟨tryit, status, got⟩ :: ·)

/-- What every call answers from every state a session can be in, every call
of a session answers. -/
theorem session_spec {σ : Type} {lookup : σ → Dictrec → Option (Answer σ)} (I : σ → Prop)
    (Spec : Dictrec → Status → Dictrec → Prop) (hcall : ∀ st sought, I st → sought.word.Terminated →
      ∃ status got st', lookup st sought = some (status, got, st') ∧ I st' ∧ Spec sought status got)
    {st : σ} (hst : I st) (tryit : Dictrec) (ws : List (CStr WORD)) :
    ∃ cs, session lookup st tryit ws = some cs ∧
      List.Forall₂ (fun w c => c.asked.word.str = w.chars ∧ Spec c.asked c.status c.got) ws cs := by
  induction ws generalizing st tryit with
  | nil => exact ⟨[], rfl, .nil⟩
  | cons w ws ih =>
    obtain ⟨status, got, st', hl, hst', hs⟩ :=
      hcall st { tryit with word := tryit.word.strcpy w.chars } hst (Buf.strcpy_terminated w)
    obtain ⟨cs, hc, hcs⟩ := ih hst' got
    refine ⟨⟨{ tryit with word := tryit.word.strcpy w.chars }, status, got⟩ :: cs, ?_, ?_⟩
    · simp [session, hl, hc]
    · exact .cons ⟨Buf.strcpy_str w, hs⟩ hcs

end SysProg
