/-
What the local lookups answer, each for itself: the records of a file as the
three read them, `lookup1` as a search for the first record of a word,
`lookup2`'s table as a sorted permutation of the words and offsets, `lookup5`
as a search of the records in place.
-/
import SysProg.Lookup

namespace SysProg

/-! ## A file of records -/

theorem fileOf_cons (r : Dictrec) (recs : List Dictrec) :
    fileOf (r :: recs) = r.flat.bytes ++ fileOf recs := rfl

theorem fileOf_length (recs : List Dictrec) : (fileOf recs).length = recs.length * RECSIZE := by
  induction recs with
  | nil => rfl
  | cons r recs ih => rw [fileOf_cons, List.length_append, ih, r.flat.size, List.length_cons,
    Nat.succ_mul, Nat.add_comm]

/-- A file of whole records, and fewer bytes than a record after them. -/
structure RecordFile (data : List Byte) (recs : List Dictrec) : Prop where
  part : ∃ tail, data = fileOf recs ++ tail ∧ tail.length < RECSIZE

namespace RecordFile

variable {data : List Byte} {recs : List Dictrec}

theorem numrec (h : RecordFile data recs) : data.length / RECSIZE = recs.length := by
  obtain ⟨tail, rfl, ht⟩ := h.part
  rw [List.length_append, fileOf_length, Nat.add_comm, Nat.add_mul_div_right _ _ (by decide),
    Nat.div_eq_of_lt ht, Nat.zero_add]

theorem drop (h : RecordFile data recs) (i : Nat) (hi : i ≤ recs.length) :
    RecordFile (data.drop (i * RECSIZE)) (recs.drop i) := by
  obtain ⟨tail, rfl, ht⟩ := h.part
  refine ⟨⟨tail, ?_, ht⟩⟩
  clear h
  induction i generalizing recs with
  | zero => simp
  | succ i ih =>
    cases recs with
    | nil => simp at hi
    | cons r recs =>
      rw [fileOf_cons, List.append_assoc, Nat.succ_mul, Nat.add_comm, ← List.drop_drop,
        List.drop_left' r.flat.size, List.drop_succ_cons]
      exact ih (by simpa using hi)

theorem fread (h : RecordFile data recs) {i : Nat} (hi : i < recs.length) :
    (⟨data, i * RECSIZE⟩ : Stream).fread RECSIZE = (some recs[i].flat, ⟨data, (i + 1) * RECSIZE⟩) := by
  obtain ⟨tail, hd, -⟩ := (h.drop i hi.le).part
  rw [List.drop_eq_getElem_cons hi, fileOf_cons, List.append_assoc] at hd
  have hlen : i * RECSIZE + RECSIZE ≤ data.length := by
    have := congrArg List.length hd
    simp only [List.length_drop, List.length_append, recs[i].flat.size] at this
    have : 0 < RECSIZE := by decide
    omega
  have hb : (data.drop (i * RECSIZE)).take RECSIZE = recs[i].flat.bytes := by
    rw [hd, List.take_left' recs[i].flat.size]
  have hp : i * RECSIZE + RECSIZE = (i + 1) * RECSIZE := (Nat.succ_mul i RECSIZE).symm
  simp only [Stream.fread, dif_pos hlen, Stream.seek, hb, hp]

theorem fread_end (h : RecordFile data recs) :
    (⟨data, recs.length * RECSIZE⟩ : Stream).fread RECSIZE = (none, ⟨data, data.length⟩) := by
  obtain ⟨tail, rfl, ht⟩ := h.part
  have : ¬ recs.length * RECSIZE + RECSIZE ≤ (fileOf recs ++ tail).length := by
    rw [List.length_append, fileOf_length]
    omega
  unfold Stream.fread
  rw [dif_neg this]
  rfl

end RecordFile

/-! ## lookup1 -/

/-- The scan finds the first record of the word from where it starts. -/
theorem scan_eq {data : List Byte} {recs : List Dictrec} (h : RecordFile data recs)
    (sought : Dictrec) {i : Nat} (hi : i ≤ recs.length) :
    ∃ pos, scan sought ⟨data, i * RECSIZE⟩ =
      ((recs.drop i).find? fun r => r.word.str = sought.word.str, ⟨data, pos⟩) := by
  induction hk : recs.length - i generalizing i with
  | zero =>
    obtain rfl : i = recs.length := by omega
    rw [scan]
    split
    · next f' he =>
      rw [h.fread_end] at he
      cases he
      exact ⟨data.length, by simp⟩
    · next b f' he => rw [h.fread_end] at he; cases he
  | succ k ih =>
    have hlt : i < recs.length := by omega
    obtain ⟨pos, hp⟩ := ih (i := i + 1) hlt (by omega)
    rw [scan]
    split
    · next f' he => rw [h.fread hlt] at he; cases he
    · next b f' he =>
      rw [h.fread hlt] at he
      cases he
      rw [List.drop_eq_getElem_cons hlt, List.find?_cons]
      simp only [Dictrec.ofFlat_flat, strcmp_eq]
      by_cases hw : sought.word.str = recs[i].word.str
      · exact ⟨(i + 1) * RECSIZE, by simp [hw]⟩
      · exact ⟨pos, by simp [hw, Ne.symm hw, hp]⟩

/-- A file has been opened, or will be. -/
def Lookup1.Reads (data : List Byte) (st : Lookup1) : Prop :=
  st.first_time = true ∨ ∃ f, st.file = some f ∧ f.data = data

/-- The answer a file of records gives to a query: from its first record of
the word, and none when it has none. -/
def Answered (recs : List Dictrec) (sought : Dictrec) (status : Status) (got : Dictrec) : Prop :=
  match recs.find? fun r => r.word.str = sought.word.str with
  | some r => status = .FOUND ∧ got.word.str = sought.word.str ∧ got.text.str = r.text.str
  | none => status = .NOTFOUND ∧ got = sought

theorem Answered.of_mem {recs : List Dictrec} {sought got r : Dictrec} (hr : r ∈ recs)
    (hw : r.word.str = sought.word.str) (hd : recs.Pairwise fun a b => a.word.str ≠ b.word.str)
    (hg : got.word.str = sought.word.str)
    (ht : got.text.str = r.text.str) : Answered recs sought .FOUND got := by
  have hf : (recs.find? fun r => r.word.str = sought.word.str) = some r := by
    induction recs with
    | nil => simp at hr
    | cons a recs ih =>
      rw [List.pairwise_cons] at hd
      rw [List.find?_cons]
      rcases List.mem_cons.1 hr with rfl | hr
      · simp [hw]
      · have hne : a.word.str ≠ sought.word.str := hw ▸ hd.1 r hr
        simpa [hne] using ih hr hd.2
  rw [Answered, hf]
  exact ⟨rfl, hg, ht⟩

theorem Answered.of_absent {recs : List Dictrec} {sought : Dictrec}
    (h : ∀ r ∈ recs, r.word.str ≠ sought.word.str) : Answered recs sought .NOTFOUND sought := by
  have hf : (recs.find? fun r => r.word.str = sought.word.str) = none := by
    simpa [List.find?_eq_none] using h
  rw [Answered, hf]
  exact ⟨rfl, rfl⟩

/-- A call of `lookup1` answers from the first record of the word. -/
theorem lookup1_answers {data : List Byte} {recs : List Dictrec} (h : RecordFile data recs)
    (hrecs : ∀ r ∈ recs, r.Terminated) {st : Lookup1} (hst : st.Reads data) (sought : Dictrec) :
    ∃ status got st', lookup1 (some data) st sought = some (status, got, st') ∧ st'.Reads data ∧
      Answered recs sought status got := by
  obtain ⟨pos, hs⟩ := scan_eq h sought (Nat.zero_le _)
  simp only [Nat.zero_mul, List.drop_zero] at hs
  have hopen : ∃ f, (if st.first_time then (some data).map fun data => (⟨data, 0⟩ : Stream) else st.file) = some f ∧
      f.rewind = ⟨data, 0⟩ := by
    rcases hst with hf | ⟨f, hf, rfl⟩
    · exact ⟨⟨data, 0⟩, by simp [hf], rfl⟩
    · by_cases ht : st.first_time = true
      · exact ⟨⟨f.data, 0⟩, by simp [ht], rfl⟩
      · exact ⟨f, by simp [ht, hf], rfl⟩
  obtain ⟨f, hf, hr⟩ := hopen
  simp only [lookup1, hf, hr, hs, Answered]
  cases hfind : recs.find? fun r => r.word.str = sought.word.str with
  | none => exact ⟨_, _, _, rfl, .inr ⟨_, rfl, rfl⟩, rfl, rfl⟩
  | some r =>
    refine ⟨_, _, _, rfl, .inr ⟨_, rfl, rfl⟩, rfl, rfl, ?_⟩
    exact Buf.strcpy_of_terminated (hrecs r (List.mem_of_find?_eq_some hfind)).2

/-! ## lookup2 -/

/-- The table entries of records, numbered from `i`. -/
def indexFrom : Nat → List Dictrec → List Index
  | _, [] => []
  | i, r :: recs => ⟨(Buf.zero WORD).strcpy r.word.str, i * RECSIZE⟩ :: indexFrom (i + 1) recs

theorem mem_indexFrom {recs : List Dictrec} {i : Nat} {ix : Index} (h : ix ∈ indexFrom i recs) :
    ∃ (j : Nat) (hj : j < recs.length),
      ix = ⟨(Buf.zero WORD).strcpy recs[j].word.str, (i + j) * RECSIZE⟩ := by
  induction recs generalizing i with
  | nil => simp [indexFrom] at h
  | cons r recs ih =>
    rcases List.mem_cons.1 h with rfl | h
    · exact ⟨0, by simp, by simp⟩
    · obtain ⟨j, hj, rfl⟩ := ih h
      exact ⟨j + 1, by simpa using hj, by simp [Nat.add_assoc, Nat.add_comm 1]⟩

theorem indexFrom_mem {recs : List Dictrec} {i j : Nat} (hj : j < recs.length) :
    (⟨(Buf.zero WORD).strcpy recs[j].word.str, (i + j) * RECSIZE⟩ : Index) ∈ indexFrom i recs := by
  induction recs generalizing i j with
  | nil => simp at hj
  | cons r recs ih =>
    cases j with
    | zero => simp [indexFrom]
    | succ j =>
      have := ih (i := i + 1) (j := j) (by simpa using hj)
      simp only [indexFrom, List.mem_cons, List.getElem_cons_succ]
      right
      rwa [Nat.add_right_comm, Nat.add_assoc] at this

/-- The fill loop writes one entry a record, each in its slot, and no other. -/
theorem fillIndex_eq {data : List Byte} {recs : List Dictrec} (h : RecordFile data recs) {i : Nat}
    (hi : i ≤ recs.length) (done : List Index) (hd : done.length = i) :
    ∃ pos, fillIndex ⟨data, i * RECSIZE⟩ i (done ++ List.replicate (recs.length - i) ⟨Buf.zero WORD, 0⟩) =
      some (done ++ indexFrom i (recs.drop i), ⟨data, pos⟩) := by
  induction hk : recs.length - i generalizing i done with
  | zero =>
    obtain rfl : i = recs.length := by omega
    rw [fillIndex]
    split
    · next f' he =>
      rw [h.fread_end] at he
      cases he
      exact ⟨data.length, by simp [indexFrom]⟩
    · next b f' he => rw [h.fread_end] at he; cases he
  | succ k ih =>
    have hlt : i < recs.length := by omega
    have hslot : (done ++ List.replicate (k + 1) (⟨Buf.zero WORD, 0⟩ : Index))[i]? = some ⟨Buf.zero WORD, 0⟩ := by
      rw [List.getElem?_append_right hd.le, hd, Nat.sub_self, List.replicate_succ, List.getElem?_cons_zero]
    obtain ⟨pos, hp⟩ := ih (i := i + 1) hlt
      (done ++ [⟨(Buf.zero WORD).strcpy recs[i].word.str, i * RECSIZE⟩]) (by simp [hd]) (by omega)
    refine ⟨pos, ?_⟩
    rw [fillIndex]
    split
    · next f' he => rw [h.fread hlt] at he; cases he
    · next b f' he =>
      rw [h.fread hlt] at he
      cases he
      simp only [hslot, Dictrec.ofFlat_flat]
      rw [List.set_append_right _ _ hd.le, hd, Nat.sub_self, List.replicate_succ, List.set_cons_zero,
        List.append_cons, hp, List.drop_eq_getElem_cons hlt, indexFrom, List.append_assoc]
      rfl

instance : Std.TransCmp Lookup2.dict_cmp where
  eq_swap := (inferInstance : Std.OrientedCmp strcmp).eq_swap
  isLE_trans := (inferInstance : Std.TransCmp strcmp).isLE_trans

/-- The index of a file: set up, its table a sorted permutation of the words
and offsets of the records. -/
structure Lookup2.Indexes (data : List Byte) (recs : List Dictrec) (st : Lookup2) : Prop where
  built : st.first_time = false
  file : ∃ f, st.file = some f ∧ f.data = data
  perm : st.table.Perm (indexFrom 0 recs)
  sorted : st.table.Pairwise fun a b => Lookup2.dict_cmp a b ≠ .gt

theorem buildIndex_eq {data : List Byte} {recs : List Dictrec} (h : RecordFile data recs)
    (qsort : Qsort Index) :
    ∃ st, buildIndex qsort data = some st ∧ st.Indexes data recs := by
  obtain ⟨pos, hf⟩ := fillIndex_eq h (Nat.zero_le _) [] rfl
  simp only [Nat.zero_mul, List.nil_append, Nat.sub_zero, List.drop_zero] at hf
  refine ⟨⟨false, qsort.sort Lookup2.dict_cmp (indexFrom 0 recs), some ⟨data, pos⟩⟩, ?_, ?_⟩
  · simp only [buildIndex, h.numrec, hf, Option.map_some]
  · exact ⟨rfl, ⟨_, rfl, rfl⟩, qsort.perm _ _, qsort.sorted _ _ inferInstance⟩

/-- The record of a word that a table and the file's bytes lead to. -/
def Lookup2.find (bsearch : Bsearch Index Index) (table : List Index) (data w : List Byte) : Option Dictrec :=
  (bsearch.search Lookup2.dict_cmp ⟨(Buf.zero WORD).strcpy w, 0⟩ table).bind fun i =>
    table[i]?.bind fun ix => ((⟨data, ix.off⟩ : Stream).fread RECSIZE).1.map Dictrec.ofFlat

/-- A search of the index delivers some record of the word, the one the table
leads to, or finds that there is none. -/
theorem searchIndex_eq {data : List Byte} {recs : List Dictrec} (h : RecordFile data recs)
    (hrecs : ∀ r ∈ recs, r.word.Terminated) (bsearch : Bsearch Index Index) {st : Lookup2}
    (hst : st.Indexes data recs) {sought : Dictrec} (hs : sought.word.Terminated) :
    (∃ r ∈ recs, ∃ st', r.word.str = sought.word.str ∧ st'.Indexes data recs ∧ st'.table = st.table ∧
      Lookup2.find bsearch st.table data sought.word.str = some r ∧
      searchIndex bsearch st sought = some (.FOUND, r, st')) ∨
    ((∀ r ∈ recs, r.word.str ≠ sought.word.str) ∧
      Lookup2.find bsearch st.table data sought.word.str = none ∧
      searchIndex bsearch st sought = some (.NOTFOUND, sought, st)) := by
  have hpart : Partitioned Lookup2.dict_cmp ⟨(Buf.zero WORD).strcpy sought.word.str, 0⟩ st.table :=
    partitioned_of_sorted strcmp (fun ix : Index => ix.word.str) _ hst.sorted
  have hkey : ((Buf.zero WORD).strcpy sought.word.str).str = sought.word.str := Buf.strcpy_of_terminated hs
  have hword : ∀ (j : Nat) (hj : j < recs.length),
      ((Buf.zero WORD).strcpy recs[j].word.str).str = recs[j].word.str :=
    fun j hj => Buf.strcpy_of_terminated (hrecs _ (List.getElem_mem hj))
  obtain ⟨f, hf, rfl⟩ := hst.file
  cases hb : bsearch.search Lookup2.dict_cmp ⟨(Buf.zero WORD).strcpy sought.word.str, 0⟩ st.table with
  | none =>
    refine .inr ⟨?_, by simp only [Lookup2.find, hb, Option.bind_none], by simp only [searchIndex, hb]⟩
    intro r hr he
    obtain ⟨j, hj, rfl⟩ := List.getElem_of_mem hr
    refine bsearch.absent hpart hb _ (hst.perm.mem_iff.2 (indexFrom_mem hj)) (strcmp_eq.2 ?_)
    rw [hkey, hword j hj, he]
  | some i =>
    obtain ⟨hi, he⟩ := bsearch.found hpart hb
    obtain ⟨j, hj, hix⟩ := mem_indexFrom (hst.perm.mem_iff.1 (List.getElem_mem hi))
    rw [Nat.zero_add] at hix
    have hw := strcmp_eq.1 he
    simp only [hix, hkey, hword j hj] at hw
    refine .inl ⟨recs[j], List.getElem_mem hj, { st with file := some ⟨f.data, (j + 1) * RECSIZE⟩ }, hw.symm,
      ⟨hst.built, ⟨_, rfl, rfl⟩, hst.perm, hst.sorted⟩, rfl, ?_, ?_⟩
    · simp only [Lookup2.find, hb, Option.bind_some, List.getElem?_eq_getElem hi, hix, h.fread hj, Option.map_some,
        Dictrec.ofFlat_flat]
    · simp only [searchIndex, hb, List.getElem?_eq_getElem hi, hf, hix, Stream.seek, h.fread hj,
        Option.map_some, Option.getD_some, Dictrec.ofFlat_flat]

/-- A table that is set up, or is not yet. -/
def Lookup2.Reads (data : List Byte) (recs : List Dictrec) (st : Lookup2) : Prop :=
  st = Lookup2.init ∨ st.Indexes data recs

/-- Every call searches the index, set up before or by it. -/
theorem lookup2_search {data : List Byte} {recs : List Dictrec} (h : RecordFile data recs) (qsort : Qsort Index)
    (bsearch : Bsearch Index Index) {st : Lookup2} (hst : st.Reads data recs) (sought : Dictrec) :
    ∃ st₁, Lookup2.Indexes data recs st₁ ∧
      lookup2 qsort bsearch (some data) st sought = searchIndex bsearch st₁ sought := by
  rcases hst with rfl | hst
  · obtain ⟨st₁, hb, hi⟩ := buildIndex_eq h qsort
    exact ⟨st₁, hi, by simp [lookup2, Lookup2.init, hb]⟩
  · exact ⟨st, hst, by simp [lookup2, hst.built]⟩

/-- FOUND exactly if some record has the word, and then with such a record;
else NOTFOUND and the caller's own record. -/
def Delivered (recs : List Dictrec) (sought : Dictrec) (a : Status × Dictrec) : Prop :=
  (a.1 = .FOUND ↔ ∃ r ∈ recs, r.word.str = sought.word.str) ∧
    (a.1 = .FOUND → a.2 ∈ recs ∧ a.2.word.str = sought.word.str) ∧ (a.1 ≠ .FOUND → a = (.NOTFOUND, sought))

theorem lookup2_delivers {data : List Byte} {recs : List Dictrec} (h : RecordFile data recs)
    (hrecs : ∀ r ∈ recs, r.word.Terminated) (qsort : Qsort Index) (bsearch : Bsearch Index Index) {st : Lookup2}
    (hst : st.Reads data recs) {sought : Dictrec} (hs : sought.word.Terminated) :
    ∃ status got st', lookup2 qsort bsearch (some data) st sought = some (status, got, st') ∧
      st'.Reads data recs ∧ Delivered recs sought (status, got) := by
  obtain ⟨st₁, hi, hl⟩ := lookup2_search h qsort bsearch hst sought
  rw [hl]
  rcases searchIndex_eq h hrecs bsearch hi hs with ⟨r, hr, st', hw, hst', -, -, he⟩ | ⟨habs, -, he⟩
  · exact ⟨.FOUND, r, st', he, .inr hst', iff_of_true rfl ⟨r, hr, hw⟩, fun _ => ⟨hr, hw⟩, fun hne => absurd rfl hne⟩
  · have hno : Status.NOTFOUND ≠ .FOUND := by decide
    refine ⟨.NOTFOUND, sought, st₁, he, .inr hi, iff_of_false hno ?_, fun hf => absurd hf hno, fun _ => rfl⟩
    rintro ⟨r, hr, hw⟩
    exact habs r hr hw

/-- Where no two records have one word, a record of the word is the first. -/
theorem Delivered.answered {recs : List Dictrec} (hd : recs.Pairwise fun a b => a.word.str ≠ b.word.str)
    {sought got : Dictrec} {status : Status} (h : Delivered recs sought (status, got)) :
    Answered recs sought status got := by
  obtain ⟨hiff, hfound, hnot⟩ := h
  by_cases hs : status = .FOUND
  · subst hs
    obtain ⟨hr, hw⟩ := hfound rfl
    exact .of_mem hr hw hd hw rfl
  · cases hnot hs
    exact .of_absent fun r hr hw => hs (hiff.2 ⟨r, hr, hw⟩)

/-- A call of `lookup2` answers, when no two records have one word. -/
theorem lookup2_answers {data : List Byte} {recs : List Dictrec} (h : RecordFile data recs)
    (hrecs : ∀ r ∈ recs, r.Terminated) (hd : recs.Pairwise fun a b => a.word.str ≠ b.word.str)
    (qsort : Qsort Index) (bsearch : Bsearch Index Index) {st : Lookup2} (hst : st.Reads data recs)
    {sought : Dictrec} (hs : sought.word.Terminated) :
    ∃ status got st', lookup2 qsort bsearch (some data) st sought = some (status, got, st') ∧
      st'.Reads data recs ∧ Answered recs sought status got := by
  obtain ⟨status, got, st', hl, hst', hdelivered⟩ :=
    lookup2_delivers h (fun r hr => (hrecs r hr).1) qsort bsearch hst hs
  exact ⟨status, got, st', hl, hst', hdelivered.answered hd⟩

/-! ## lookup5 -/

theorem mapped_eq {data : List Byte} {recs : List Dictrec} (h : RecordFile data recs) :
    mapped data = recs := by
  have hread : ∀ k ≤ recs.length, (List.range k).filterMap (recordAt data) = recs.take k := by
    intro k
    induction k with
    | zero => simp
    | succ k ih =>
      intro hk
      have hr : recordAt data k = some recs[k] := by
        rw [recordAt, h.fread hk, Option.map_some, Dictrec.ofFlat_flat]
      rw [List.range_succ, List.filterMap_append, ih (by omega), List.take_add_one, List.getElem?_eq_getElem hk]
      simp [hr]
  rw [mapped, h.numrec, hread _ le_rfl, List.take_length]

/-- The file is mapped, or will be. -/
def Lookup5.Reads (recs : List Dictrec) (st : Lookup5) :
    Prop := st.first_time = true ∨ st.table = recs

/-- A call of `lookup5` answers, when the words ascend. -/
theorem lookup5_answers {data : List Byte} {recs : List Dictrec} (h : RecordFile data recs)
    (hrecs : ∀ r ∈ recs, r.Terminated) (hd : recs.Pairwise fun a b => strcmp a.word.str b.word.str = .lt)
    (bsearch : Bsearch (Buf WORD) Dictrec) {st : Lookup5} (hst : st.Reads recs) (sought : Dictrec) :
    ∃ status got st', lookup5 bsearch (some data) st sought = some (status, got, st') ∧
      st'.Reads recs ∧ Answered recs sought status got := by
  have htable : (if st.first_time then mapped ((some data).getD []) else st.table) = recs := by
    rcases hst with hf | ht
    · simp [hf, mapped_eq h]
    · by_cases hf : st.first_time = true
      · simp [hf, mapped_eq h]
      · simp [hf, ht]
  have hpart : Partitioned Lookup5.dict_cmp sought.word recs :=
    partitioned_of_sorted strcmp (fun r : Dictrec => r.word.str) _
      (hd.imp fun {a b} hab => by rw [hab]; decide)
  simp only [lookup5, htable]
  cases hb : bsearch.search Lookup5.dict_cmp sought.word recs with
  | none =>
    refine ⟨_, _, ⟨false, recs⟩, by simp, .inr rfl, .of_absent ?_⟩
    intro r hr he
    exact bsearch.absent hpart hb r hr (strcmp_eq.2 he.symm)
  | some i =>
    obtain ⟨hi, he⟩ := bsearch.found hpart hb
    have hw := (strcmp_eq.1 he).symm
    refine ⟨.FOUND, { sought with text := sought.text.strcpy recs[i].text.str }, ⟨false, recs⟩,
      by simp [List.getElem?_eq_getElem hi], .inr rfl,
      .of_mem (List.getElem_mem hi) hw (hd.imp fun {a b} hab he => ?_) rfl ?_⟩
    · rw [strcmp_eq.2 he] at hab; cases hab
    · exact Buf.strcpy_of_terminated (hrecs _ (List.getElem_mem hi)).2

end SysProg
