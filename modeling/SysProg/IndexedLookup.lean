/-
`lookup2` on any file: records in any order, words that come more than once,
a part of a record at the end. Its table indexes every whole record, and
every call searches that table and reads the file where it says.
-/
import SysProg.LookupFacts

namespace SysProg

/-! ## Any file -/

/-- Every file is its whole records and less than one more. -/
theorem recordFile_mapped (data : List Byte) : RecordFile data (mapped data) := by
  have hex : ∃ recs, RecordFile data recs := by
    induction hn : data.length using Nat.strong_induction_on generalizing data with
    | _ n ih =>
      by_cases hlt : data.length < RECSIZE
      · exact ⟨[], ⟨data, rfl, hlt⟩⟩
      · have hpos : 0 < RECSIZE := by decide
        have hsize : (data.take RECSIZE).length = RECSIZE := by
          rw [List.length_take]
          omega
        obtain ⟨recs, ⟨tail, hdata, htail⟩⟩ := ih _ (by rw [List.length_drop]; omega) (data.drop RECSIZE) rfl
        refine ⟨Dictrec.ofFlat ⟨data.take RECSIZE, hsize⟩ :: recs, ⟨tail, ?_, htail⟩⟩
        have hflat : (Dictrec.ofFlat ⟨data.take RECSIZE, hsize⟩).flat.bytes = data.take RECSIZE :=
          List.take_append_drop WORD _
        rw [fileOf_cons, hflat, List.append_assoc, ← hdata, List.take_append_drop]
  obtain ⟨recs, h⟩ := hex
  rw [mapped_eq h]
  exact h

theorem indexFrom_pairs {recs : List Dictrec} (hrecs : ∀ r ∈ recs, r.word.Terminated) (i : Nat) :
    ((indexFrom i recs).map fun ix => (ix.word.str, ix.off)) =
      recs.mapIdx fun j r => (r.word.str, (i + j) * RECSIZE) := by
  induction recs generalizing i with
  | nil => rfl
  | cons r recs ih =>
    obtain ⟨hr, hrecs⟩ := List.forall_mem_cons.1 hrecs
    have hnext : (fun j (r : Dictrec) => (r.word.str, (i + 1 + j) * RECSIZE)) =
        fun j r => (r.word.str, (i + (j + 1)) * RECSIZE) := by
      funext j r
      rw [Nat.add_right_comm, Nat.add_assoc]
    rw [indexFrom, List.map_cons, Buf.strcpy_of_terminated hr, ih hrecs, hnext, List.mapIdx_cons, Nat.add_zero]

/-! ## Any calls -/

/-- Calls one after the other, each with whatever record its caller has. -/
def askAll {σ : Type} (lookup : σ → Dictrec → Option (Answer σ)) : σ → List Dictrec → Option (List (Status × Dictrec))
  | _, [] => some []
  | st, sought :: queries =>
    (lookup st sought).bind fun (status, got, st) => (askAll lookup st queries).map ((status, got) :: ·)

theorem askAll_spec {σ : Type} {lookup : σ → Dictrec → Option (Answer σ)} (I : σ → Prop)
    (Spec : Dictrec → Status × Dictrec → Prop) (hcall : ∀ st sought, I st → sought.word.Terminated →
      ∃ status got st', lookup st sought = some (status, got, st') ∧ I st' ∧ Spec sought (status, got))
    {st : σ} (hst : I st) {queries : List Dictrec} (hq : ∀ q ∈ queries, q.word.Terminated) :
    ∃ answers, askAll lookup st queries = some answers ∧ List.Forall₂ Spec queries answers := by
  induction queries generalizing st with
  | nil => exact ⟨[], rfl, .nil⟩
  | cons q queries ih =>
    obtain ⟨hq, hqs⟩ := List.forall_mem_cons.1 hq
    obtain ⟨status, got, st', hl, hst', hspec⟩ := hcall st q hst hq
    obtain ⟨answers, hc, hanswers⟩ := ih hst' hqs
    refine ⟨(status, got) :: answers, ?_, .cons hspec hanswers⟩
    simp only [askAll, hl, Option.bind_some, hc, Option.map_some]

/-- On any file whose whole records have words that end in their fields: the
table is filled without a write past it, holds in order the word and the
offset of every whole record, and each of any calls delivers a record of the
word it asks for if there is one. -/
theorem lookup2_faithful (qsort : Qsort Index) (bsearch : Bsearch Index Index) {data : List Byte}
    (hrecs : ∀ r ∈ mapped data, r.word.Terminated) :
    (∃ st, buildIndex qsort data = some st ∧ st.table.length = data.length / RECSIZE ∧
      (st.table.map fun ix => (ix.word.str, ix.off)).Perm
        ((mapped data).mapIdx fun i r => (r.word.str, i * RECSIZE)) ∧
      st.table.Pairwise fun a b => strcmp a.word.str b.word.str ≠ .gt) ∧
    ∀ queries : List Dictrec, (∀ q ∈ queries, q.word.Terminated) →
      ∃ answers, askAll (lookup2 qsort bsearch (some data)) .init queries = some answers ∧
        List.Forall₂ (Delivered (mapped data)) queries answers := by
  have h := recordFile_mapped data
  constructor
  · obtain ⟨st, hbuild, hindex⟩ := buildIndex_eq h qsort
    have hperm := hindex.perm.map fun ix => (ix.word.str, ix.off)
    rw [indexFrom_pairs hrecs] at hperm
    simp only [Nat.zero_add] at hperm
    refine ⟨st, hbuild, ?_, hperm, hindex.sorted⟩
    have hlen := hperm.length_eq
    rw [List.length_map, List.length_mapIdx] at hlen
    rw [hlen, h.numrec]
  · intro queries hq
    exact askAll_spec (fun st => st.Reads data (mapped data)) (Delivered (mapped data))
      (fun _ _ hst hs => lookup2_delivers h hrecs qsort bsearch hst hs) (.inl rfl) hq

/-- A record of a word and a text of one letter each. -/
def letters (w t : Byte) : Dictrec := ⟨(Buf.zero WORD).strcpy [w], (Buf.zero TEXT).strcpy [t]⟩

/-- The words b, a and b again, and ten bytes more. -/
def twiceB : List Byte := fileOf [letters 98 49, letters 97 50, letters 98 51] ++ List.replicate 10 120

/-- The words b, c and b are asked for. -/
theorem lookup2_faithful_twiceB : (mapped twiceB).length = 3 ∧
    ∃ answers, askAll (lookup2 default default (some twiceB)) .init [letters 98 0, letters 99 0, letters 98 0] =
        some answers ∧
      List.Forall₂ (Delivered (mapped twiceB)) [letters 98 0, letters 99 0, letters 98 0] answers := by
  have hrecs : ∀ r ∈ mapped twiceB, r.word.Terminated := by decide +kernel
  exact ⟨by decide +kernel, (lookup2_faithful default default hrecs).2 _ (by decide +kernel)⟩

end SysProg
