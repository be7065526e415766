/-
A `lookup` as a server calls it, again and again, with its static variables:
what it promises its server (`Service`), and `lookup2` and `lookup5` as two
that keep the promise.
-/
import SysProg.Encoding
import SysProg.Interchange

namespace SysProg

/-- The result a call returns. C leaves undefined what a server does with a
text that does not end; on UNAVAIL it ends itself. -/
def Result.of (status : Status) (tryit : Dictrec) : Option Result :=
  if h : status ≠ .UNAVAIL ∧ (status = .FOUND → tryit.text.Terminated) then some ⟨status, tryit, h.1, h.2⟩ else none

/-- A call of a `lookup`, of a record whose word ends. -/
def call {σ : Type} (lookup : σ → Dictrec → Option (Answer σ)) (st : σ) (sought : Dictrec) : Option (Result × σ) :=
  if sought.word.Terminated then
    (lookup st sought).bind fun (status, got, st) => (Result.of status got).map (·, st)
  else none

/-- A lookup with its static variables, and the dictionary it answers from
whenever it is called, whatever it has been called for before. -/
structure Service where
  σ : Type
  init : σ
  lookup : σ → Dictrec → Option (Answer σ)
  dict : Dictionary
  /-- What its variables keep to. -/
  Ready : σ → Prop
  ready : Ready init
  answers : ∀ {st sought}, Ready st → sought.word.Terminated →
    ∃ r st', call lookup st sought = some (r, st') ∧ Ready st' ∧ Encoding.text r = reply dict sought.word.str ∧
      r.tryit.word.Terminated ∧ r.tryit.word.str = sought.word.str

theorem call_eq {σ : Type} {lookup : σ → Dictrec → Option (Answer σ)} {st st' : σ} {sought got : Dictrec}
    {status : Status} (h : lookup st sought = some (status, got, st')) (hw : sought.word.Terminated)
    (hs : status ≠ .UNAVAIL) (ht : status = .FOUND → got.text.Terminated) :
    call lookup st sought = some (⟨status, got, hs, ht⟩, st') := by
  simp only [call, if_pos hw, h, Option.bind_some, Result.of, dif_pos (And.intro hs ht), Option.map_some]

theorem Service.returned (S : Service) {st st' : S.σ} {sought : Dictrec} {r : Result} (hst : S.Ready st)
    (h : call S.lookup st sought = some (r, st')) : S.Ready st' ∧ Encoding.text r = reply S.dict sought.word.str := by
  have hw : sought.word.Terminated := by
    by_contra hn
    rw [call, if_neg hn] at h
    cases h
  obtain ⟨r₁, st₁, h₁, hst₁, htext, -⟩ := S.answers hst hw
  obtain ⟨rfl, rfl⟩ := Prod.mk.inj (Option.some.inj (h.symm.trans h₁))
  exact ⟨hst₁, htext⟩

theorem Buf.terminated_of_str {n : Nat} {b c : Buf n} (h : b.str = c.str) (hc : c.Terminated) : b.Terminated :=
  terminated_of_length (by rw [h]; exact (c.toCStr hc).fits)

theorem reply_chars (dict : Dictionary) (w : List Byte) :
    (reply dict w).chars = ((dict w).map (·.chars)).getD XXXX.chars := by
  rw [reply]
  cases dict w <;> rfl

/-! ## lookup5 -/

/-- `lookup5` over a dictionary file. -/
def lookup5Service (d : DictFile) (bsearch : Bsearch (Buf WORD) Dictrec) : Service where
  σ := Lookup5
  init := .init
  lookup := lookup5 bsearch (some d.data)
  dict := d.found
  Ready := Lookup5.Reads d.recs
  ready := .inl rfl
  answers := by
    intro st sought hst hw
    obtain ⟨status, got, st', h, hst', ha⟩ := lookup5_answers d.recordFile d.terminated d.ascending bsearch hst sought
    unfold Answered at ha
    split at ha
    · next r hr =>
      obtain ⟨rfl, hword, htext⟩ := ha
      have hterm := Buf.terminated_of_str htext (d.terminated r (List.mem_of_find?_eq_some hr)).2
      refine ⟨⟨.FOUND, got, nofun, fun _ => hterm⟩, st', call_eq h hw _ _, hst', ?_,
        Buf.terminated_of_str hword hw, hword⟩
      rw [← CStr.chars_inj, Encoding.text_found rfl, reply_chars, d.found_chars, DictFile.textOf, hr]
      exact htext
    · next hr =>
      obtain ⟨rfl, rfl⟩ := ha
      refine ⟨⟨.NOTFOUND, got, nofun, nofun⟩, st', call_eq h hw _ _, hst', ?_, hw, rfl⟩
      rw [← CStr.chars_inj, Encoding.text_notFound (by simp), reply_chars, d.found_chars, DictFile.textOf, hr]
      rfl

/-! ## lookup2 -/

/-- A file for `lookup2`: records in any order whose fields are terminated,
and fewer bytes than a record after them. -/
structure IndexFile where
  recs : List Dictrec
  partRec : List Byte
  short : partRec.length < RECSIZE
  terminated : ∀ r ∈ recs, r.Terminated

/-- The file's bytes. -/
def IndexFile.data (d : IndexFile) : List Byte := fileOf d.recs ++ d.partRec

theorem IndexFile.recordFile (d : IndexFile) : RecordFile d.data d.recs := ⟨⟨d.partRec, rfl, d.short⟩⟩

/-- What a lookup finds for a word in its first call. -/
def firstCall {σ : Type} (lookup : σ → Dictrec → Option (Answer σ)) (init : σ) : Dictionary := fun w =>
  (call lookup init ⟨(Buf.zero WORD).strcpy w, Buf.zero TEXT⟩).bind fun (r, _) =>
    if r.status = .FOUND then some (Encoding.text r) else none

section

variable (d : IndexFile) (qsort : Qsort Index) (bsearch : Bsearch Index Index)

/-- Not called yet, or with the table its first call has built. -/
def Lookup2.Kept (st : Lookup2) : Prop :=
  st = .init ∨ (st.Indexes d.data d.recs ∧ (buildIndex qsort d.data).map (·.table) = some st.table)

/-- A call of `lookup2` delivers what its table leads to, which is that of the
first call. -/
theorem lookup2_call {st : Lookup2} (hst : st.Kept d qsort) (sought : Dictrec) (hw : sought.word.Terminated) :
    ∃ table r st', (buildIndex qsort d.data).map (·.table) = some table ∧
      call (lookup2 qsort bsearch (some d.data)) st sought = some (r, st') ∧ st'.Kept d qsort ∧
      (Lookup2.find bsearch table d.data sought.word.str).map (·.text.str) =
        (if r.status = .FOUND then some r.tryit.text.str else none) ∧
      r.tryit.word.str = sought.word.str ∧ (r.status = .FOUND → r.tryit ∈ d.recs) := by
  have hsearch : ∃ st₁, Lookup2.Indexes d.data d.recs st₁ ∧ (buildIndex qsort d.data).map (·.table) = some st₁.table ∧
      lookup2 qsort bsearch (some d.data) st sought = searchIndex bsearch st₁ sought := by
    rcases hst with rfl | ⟨hst, htable⟩
    · obtain ⟨st₁, hb, hi⟩ := buildIndex_eq d.recordFile qsort
      exact ⟨st₁, hi, by rw [hb]; rfl, by simp [lookup2, Lookup2.init, hb]⟩
    · exact ⟨st, hst, htable, by simp [lookup2, hst.built]⟩
  obtain ⟨st₁, hi, htable, hl⟩ := hsearch
  rcases searchIndex_eq d.recordFile (fun r hr => (d.terminated r hr).1) bsearch hi hw with
    ⟨r, hr, st', hword, hst', hsame, hfind, he⟩ | ⟨-, hfind, he⟩
  · have hterm := d.terminated r hr
    refine ⟨st₁.table, ⟨.FOUND, r, by decide, fun _ => hterm.2⟩, st', htable, call_eq (hl.trans he) hw _ _,
      .inr ⟨hst', hsame ▸ htable⟩, by rw [hfind]; rfl, hword, fun _ => hr⟩
  · have hno : Status.NOTFOUND ≠ .FOUND := by decide
    exact ⟨st₁.table, ⟨.NOTFOUND, sought, by decide, fun h => absurd h hno⟩, st₁, htable, call_eq (hl.trans he) hw _ _,
      .inr ⟨hi, htable⟩, by rw [hfind]; rfl, rfl, fun h => absurd h hno⟩

/-- `lookup2` over a file: it answers every call as it would its first. -/
def lookup2Service : Service where
  σ := Lookup2
  init := .init
  lookup := lookup2 qsort bsearch (some d.data)
  dict := firstCall (lookup2 qsort bsearch (some d.data)) .init
  Ready := Lookup2.Kept d qsort
  ready := .inl rfl
  answers := by
    intro st sought hst hw
    obtain ⟨table, r, st', htable, hcall, hst', hfind, hword, -⟩ := lookup2_call d qsort bsearch hst sought hw
    refine ⟨r, st', hcall, hst', ?_, Buf.terminated_of_str hword hw, hword⟩
    let first : Dictrec := ⟨(Buf.zero WORD).strcpy sought.word.str, Buf.zero TEXT⟩
    have hfirst : first.word.str = sought.word.str := Buf.strcpy_of_terminated hw
    obtain ⟨table₀, r₀, st₀, htable₀, hcall₀, -, hfind₀, -, -⟩ := lookup2_call d qsort bsearch (.inl rfl)
      first (Buf.terminated_of_str hfirst hw)
    obtain rfl : table = table₀ := Option.some.inj (htable.symm.trans htable₀)
    rw [hfirst, hfind] at hfind₀
    have hdict : firstCall (lookup2 qsort bsearch (some d.data)) .init sought.word.str =
        if r₀.status = .FOUND then some (Encoding.text r₀) else none := by
      simp only [firstCall, first] at hcall₀ ⊢
      rw [hcall₀, Option.bind_some]
    rw [← CStr.chars_inj, reply_chars, hdict]
    by_cases h : r.status = .FOUND
    · have h₀ : r₀.status = .FOUND := by
        by_contra hn
        rw [if_pos h, if_neg hn] at hfind₀
        cases hfind₀
      rw [if_pos h, if_pos h₀, Option.some.injEq] at hfind₀
      rw [if_pos h₀, Encoding.text_found h, hfind₀, Option.map_some, Option.getD_some, Encoding.text_found h₀]
    · have h₀ : r₀.status ≠ .FOUND := by
        intro hn
        rw [if_neg h, if_pos hn] at hfind₀
        cases hfind₀
      rw [if_neg h₀, Encoding.text_notFound h]
      rfl

/-- Its texts are those of the records. -/
theorem lookup2Service_text {w : List Byte} {t : CStr TEXT} (h : (lookup2Service d qsort bsearch).dict w = some t) :
    ∃ r ∈ d.recs, r.text.str = t.chars := by
  obtain ⟨⟨r, st⟩, hcall, hr⟩ := Option.bind_eq_some_iff.1 h
  have hw : ((Buf.zero WORD).strcpy w).Terminated := by
    by_contra hn
    rw [call, if_neg hn] at hcall
    cases hcall
  obtain ⟨_, r', st', -, hcall', -, -, -, hmem⟩ := lookup2_call d qsort bsearch (.inl rfl)
    ⟨(Buf.zero WORD).strcpy w, Buf.zero TEXT⟩ hw
  obtain ⟨rfl, rfl⟩ := Prod.mk.inj (Option.some.inj (hcall.symm.trans hcall'))
  change (if r.status = .FOUND then some (Encoding.text r) else none) = some t at hr
  split at hr
  · next hf =>
    obtain rfl := Option.some.inj hr
    exact ⟨r.tryit, hmem hf, (Encoding.text_found hf).symm⟩
  · cases hr

end

/-- A file with the text A for the word a. -/
def oneRecord : IndexFile where
  recs := [⟨(Buf.zero WORD).strcpy [97], (Buf.zero TEXT).strcpy [65]⟩]
  partRec := []
  short := by decide
  terminated := by decide

/-- The text A for the word a and B for b, in order. -/
def twoRecords : DictFile where
  recs := [⟨(Buf.zero WORD).strcpy [97], (Buf.zero TEXT).strcpy [65]⟩,
    ⟨(Buf.zero WORD).strcpy [98], (Buf.zero TEXT).strcpy [66]⟩]
  partRec := []
  short := by decide
  terminated := by decide
  ascending := by decide

/-- The text XXXX for the word a. -/
def foundXXXXFile : DictFile where
  recs := [⟨(Buf.zero WORD).strcpy [97], (Buf.zero TEXT).strcpy XXXX.chars⟩]
  partRec := []
  short := by decide
  terminated := by decide
  ascending := by decide

end SysProg
