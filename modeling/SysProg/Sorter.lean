/-
The script `sorter`: entries joined to lines, the lines sorted, and split
again. It sorts by headword and colon and definition where the lookups
compare headwords, and so whether its order is theirs hangs on what stands
after a headword in those it begins.
-/
import Mathlib.Data.List.Pairwise
import Mathlib.Data.List.Sort
import SysProg.Interchange
import SysProg.RoundTrip

namespace SysProg

theorem strcmp_cons {x y : Byte} {s t : List Byte} : strcmp (x :: s) (y :: t) = (compare x y).then (strcmp s t) :=
  List.compare_cons_cons

namespace Sorter

open SysProg.Convert (Line Entry linesText dictText)

/-- The character `:`. -/
def COLON : Byte := 58

/-! ## The script -/

/-- The records of the first `awk` (RS is empty): the paragraphs of the text,
and their fields, which are the lines. -/
def records (text : List Byte) : List (List (List Byte)) := ((text.splitOn NL).splitOn []).filter (· ≠ [])

/-- What it prints of a record. -/
def toLine (fields : List (List Byte)) : List Byte := [COLON].intercalate fields

/-- The order of `sort`: whole lines, bytewise. -/
def NotAfter (a b : List Byte) : Prop := strcmp a b ≠ .gt

instance : DecidableRel NotAfter := fun a b => inferInstanceAs (Decidable (strcmp a b ≠ .gt))

/-- The command, which orders whole lines. -/
def sort (lines : List (List Byte)) : List (List Byte) := lines.insertionSort NotAfter

/-- What the second `awk` prints of a line, by its fields. -/
def toEntry (line : List Byte) : List Byte := (line.splitOn COLON).flatMap (· ++ [NL]) ++ [NL]

/-- The script: paragraphs to lines, `sort`, and back. -/
def sorter (text : List Byte) : List Byte := (sort ((records text).map toLine)).flatMap toEntry

/-! ## What is asked of it -/

/-- The headwords of a text: the first line of each of its paragraphs. -/
def headwords (text : List Byte) : List (List Byte) := (records text).map (·.headD [])

/-- They ascend as the lookups need it. -/
def Ascends (text : List Byte) : Prop := (headwords text).Pairwise fun a b => strcmp a b = .lt

/-- Every headword of a text is found, in any sequence of queries, by `lookup5`
over the file that `convert` makes of it. -/
def Finds (text : List Byte) : Prop :=
  ∀ line, ∃ ps, Convert.Converts line text ps ∧
    ∀ (bsearch : Bsearch (Buf WORD) Dictrec) (tryit : Dictrec) (ws : List (CStr WORD)),
      (∀ w ∈ ws, w.chars ∈ headwords text) →
      ∃ cs, session (lookup5 bsearch (some (Convert.output ps))) Lookup5.init tryit ws = some cs ∧
        ∀ c ∈ cs, c.status = .FOUND

/-- The texts of some entries: blank lines in any number before an entry, one
at least after it unless it is the last. -/
inductive DictText : List Entry → List Byte → Prop
  | nil : DictText [] []
  | blank {es text} (h : DictText es text) : DictText es (NL :: text)
  | last (e : Entry) : DictText [e] (linesText (e.headword :: e.definition))
  | entry (e : Entry) {es text} (h : DictText es text) :
      DictText (e :: es) (linesText (e.headword :: e.definition) ++ NL :: text)

/-- One headword begins the other, which goes on with a byte below the colon. -/
def Below (a b : Entry) : Prop := ∃ c u, b.headword.chars = a.headword.chars ++ c :: u ∧ c < COLON

/-! ## The texts between the programs -/

/-- The lines of an entry. -/
def fields (e : Entry) : List (List Byte) := (e.headword :: e.definition).map (·.chars)

/-- An entry as a line of the sort. -/
def joined (e : Entry) : List Byte := toLine (fields e)

theorem fields_ne_nil (e : Entry) : fields e ≠ [] := List.cons_ne_nil _ _

theorem nil_not_mem_chars (ls : List Line) : [] ∉ ls.map (·.chars) := by
  intro h
  obtain ⟨l, -, hl⟩ := List.mem_map.1 h
  exact l.nonempty hl

theorem nil_not_mem_fields (e : Entry) : [] ∉ fields e := nil_not_mem_chars _

theorem splitOn_linesText (ls : List Line) (rest : List Byte) :
    (linesText ls ++ rest).splitOn NL = ls.map (·.chars) ++ rest.splitOn NL := by
  induction ls with
  | nil => rfl
  | cons l ls ih =>
    rw [Convert.linesText_cons, List.splitOn_append_cons_self_of_not_mem l.noNL, ih]
    rfl

theorem records_blank {fs : List (List Byte)} (hfs : [] ∉ fs) {ls : List Line} (hls : ls.map (·.chars) = fs)
    (text : List Byte) : records (linesText ls ++ NL :: text) = (if fs = [] then [] else [fs]) ++ records text := by
  have hnil : NL ∉ ([] : List Byte) := List.not_mem_nil
  have hblank : (NL :: text).splitOn NL = [] :: text.splitOn NL := List.splitOn_append_cons_self_of_not_mem hnil text
  rw [records, splitOn_linesText, hls, hblank, List.splitOn_append_cons_self_of_not_mem hfs, List.filter_cons]
  by_cases hnil : fs = []
  · simp [hnil, records]
  · simp [hnil, records]

theorem records_last {ls : List Line} (hne : ls ≠ []) : records (linesText ls) = [ls.map (·.chars)] := by
  have hlines : (linesText ls).splitOn NL = ls.map (·.chars) ++ [[]] := by
    have := splitOn_linesText ls []
    rwa [List.append_nil] at this
  rw [records, hlines, List.splitOn_append_cons_self_of_not_mem (nil_not_mem_chars ls)]
  simp [hne]

theorem records_eq {es : List Entry} {text : List Byte} (h : DictText es text) : records text = es.map fields := by
  induction h with
  | nil => rfl
  | @blank es text _ ih =>
    have hnil : [] ∉ ([] : List (List Byte)) := List.not_mem_nil
    have hblank := records_blank hnil (show ([] : List Line).map (·.chars) = [] from rfl) text
    exact hblank.trans ih
  | last e => exact records_last (List.cons_ne_nil _ _)
  | entry e _ ih => rw [records_blank (nil_not_mem_fields e) rfl, if_neg (fields_ne_nil e), ih]; rfl

theorem DictText.dictText (es : List Entry) : DictText es (Convert.dictText es) := by
  induction es with
  | nil => exact .nil
  | cons e es ih =>
    have := DictText.entry e ih
    rwa [Convert.linesText_cons] at this

/-- Lines without a colon come out of the second `awk` as they stood in the text. -/
theorem toEntry_toLine {ls : List Line} (hne : ls ≠ []) (hc : ∀ l ∈ ls, COLON ∉ l.chars) (rest : List Byte) :
    toEntry (toLine (ls.map (·.chars))) ++ rest = linesText ls ++ NL :: rest := by
  rw [toLine, toEntry, List.splitOn_intercalate COLON (by simpa using hc) (by simpa using hne), List.flatMap_map,
    List.append_assoc]
  rfl

theorem toEntry_joined {e : Entry} (hc : ∀ f ∈ fields e, COLON ∉ f) (rest : List Byte) :
    toEntry (joined e) ++ rest = linesText (e.headword :: e.definition) ++ NL :: rest :=
  toEntry_toLine (List.cons_ne_nil _ _) (fun _ hl => hc _ (List.mem_map_of_mem hl)) rest

/-- The entries in the order of their lines. -/
def sorted (es : List Entry) : List Entry := es.insertionSort fun a b => NotAfter (joined a) (joined b)

theorem sorted_perm (es : List Entry) : (sorted es).Perm es := List.perm_insertionSort _ es

theorem map_sorted (es : List Entry) : (sorted es).map joined = sort (es.map joined) :=
  List.map_insertionSort _ _ joined es fun _ _ _ _ => Iff.rfl

/-- The script writes the entries in that order. -/
theorem sorter_eq {es : List Entry} {text : List Byte} (h : DictText es text)
    (hc : ∀ e ∈ es, ∀ f ∈ fields e, COLON ∉ f) : sorter text = dictText (sorted es) := by
  have hsort : sort ((records text).map toLine) = (sorted es).map joined := by
    rw [records_eq h, List.map_map, map_sorted]
    rfl
  have hwrites (l : List Entry) (hl : ∀ e ∈ l, ∀ f ∈ fields e, COLON ∉ f) :
      (l.map joined).flatMap toEntry = dictText l := by
    induction l with
    | nil => rfl
    | cons e l ih =>
      rw [List.map_cons, List.flatMap_cons, toEntry_joined (hl e List.mem_cons_self),
        ih fun e he => hl e (List.mem_cons_of_mem _ he), Convert.linesText_cons]
      rfl
  rw [sorter, hsort]
  exact hwrites _ fun e he => hc e ((sorted_perm es).mem_iff.1 he)

theorem not_mem_linesText {ls : List Line} {c : Byte} (hc : c ∉ linesText ls) : ∀ f ∈ ls.map (·.chars), c ∉ f := by
  intro f hf hcf
  obtain ⟨l, hl, rfl⟩ := List.mem_map.1 hf
  exact hc (List.mem_flatMap.2 ⟨l, hl, List.mem_append_left _ hcf⟩)

theorem DictText.not_mem {es : List Entry} {text : List Byte} (h : DictText es text) {c : Byte} (hc : c ∉ text) :
    ∀ e ∈ es, ∀ f ∈ fields e, c ∉ f := by
  induction h with
  | nil => simp
  | blank _ ih => exact ih fun hm => hc (List.mem_cons_of_mem _ hm)
  | last e =>
    rw [List.forall_mem_singleton]
    exact not_mem_linesText hc
  | entry e _ ih =>
    rw [List.mem_append, List.mem_cons, not_or, not_or] at hc
    exact List.forall_mem_cons.2 ⟨not_mem_linesText hc.1, ih hc.2.2⟩

/-! ## The two orders -/

/-- In front of the colon a word before another stays before it, unless it
begins the other and what follows there is below the colon. -/
theorem strcmp_colon {s t : List Byte} (hs : COLON ∉ s) (ht : COLON ∉ t) (r r' : List Byte) (h : strcmp s t = .lt) :
    strcmp (s ++ COLON :: r) (t ++ COLON :: r') = .lt ∨ ∃ c u, t = s ++ c :: u ∧ c < COLON := by
  induction s generalizing t with
  | nil =>
    cases t with
    | nil => cases h
    | cons c u =>
      cases hc : compare c COLON with
      | lt => exact .inr ⟨c, u, rfl, Std.compare_eq_lt.1 hc⟩
      | eq => exact absurd (Std.compare_eq_iff_eq.1 hc ▸ List.mem_cons_self) ht
      | gt =>
        left
        rw [List.nil_append, List.cons_append, strcmp_cons, Std.OrientedCmp.gt_iff_lt.1 hc]
        rfl
  | cons x s ih =>
    cases t with
    | nil => cases h
    | cons y t =>
      rw [strcmp_cons] at h
      rw [List.cons_append, List.cons_append, strcmp_cons]
      cases hxy : compare x y with
      | lt => exact .inl rfl
      | gt => rw [hxy] at h; cases h
      | eq =>
        rw [hxy] at h
        obtain rfl := Std.compare_eq_iff_eq.1 hxy
        rcases ih (fun hm => hs (List.mem_cons_of_mem _ hm)) (fun hm => ht (List.mem_cons_of_mem _ hm)) h with
          hlt | ⟨c, u, rfl, hc⟩
        · exact .inl hlt
        · exact .inr ⟨c, u, rfl, hc⟩

/-- There it comes after it. -/
theorem strcmp_below (s u r r' : List Byte) {c : Byte} (hc : c < COLON) :
    strcmp s (s ++ c :: u) = .lt ∧ strcmp (s ++ c :: u ++ COLON :: r') (s ++ COLON :: r) = .lt := by
  induction s with
  | nil =>
    refine ⟨rfl, ?_⟩
    rw [List.nil_append, List.nil_append, List.cons_append, strcmp_cons, Std.compare_eq_lt.2 hc]
    rfl
  | cons x s ih =>
    simp only [List.cons_append, strcmp_cons, Std.ReflCmp.compare_self, Ordering.eq_then]
    exact ih

theorem joined_eq (e : Entry) : joined e = e.headword.chars ++ COLON :: toLine (e.definition.map (·.chars)) := by
  have hne : e.definition.map (·.chars) ≠ [] := by simpa using e.nonempty
  obtain ⟨f, fs, hfs⟩ := List.exists_cons_of_ne_nil hne
  rw [joined, fields, List.map_cons, hfs]
  rfl

theorem Below.lt {a b : Entry} (h : Below a b) :
    strcmp a.headword.chars b.headword.chars = .lt ∧ strcmp (joined b) (joined a) = .lt := by
  obtain ⟨c, u, hb, hc⟩ := h
  rw [joined_eq, joined_eq, hb]
  exact strcmp_below _ _ _ _ hc

/-- Two headwords that differ stand in the order of their lines, unless the
later one goes on below the colon. -/
theorem lt_of_joined {a b : Entry} (ha : COLON ∉ a.headword.chars) (hb : COLON ∉ b.headword.chars)
    (hne : a.headword.chars ≠ b.headword.chars) (hn : ¬ Below b a) (h : NotAfter (joined a) (joined b)) :
    strcmp a.headword.chars b.headword.chars = .lt := by
  cases hlt : strcmp a.headword.chars b.headword.chars with
  | lt => rfl
  | eq => exact absurd (strcmp_eq.1 hlt) hne
  | gt =>
    have hgt : strcmp b.headword.chars a.headword.chars = .lt := Std.OrientedCmp.gt_iff_lt.1 hlt
    rcases strcmp_colon hb ha (toLine (b.definition.map (·.chars))) (toLine (a.definition.map (·.chars))) hgt with
      hj | hbelow
    · rw [← joined_eq, ← joined_eq] at hj
      exact absurd (Std.OrientedCmp.gt_iff_lt.2 hj) h
    · exact absurd hbelow hn

/-! ## The script's order -/

variable {es : List Entry} {text : List Byte}

instance : Std.Total NotAfter where
  total a b := by
    by_cases h : strcmp a b = .gt
    · exact .inr (by rw [NotAfter, Std.OrientedCmp.gt_iff_lt.1 h]; simp)
    · exact .inl h

instance : IsTrans (List Byte) NotAfter where
  trans _ _ _ hab hbc := Ordering.ne_gt_iff_isLE.2
    (Std.TransCmp.isLE_trans (Ordering.ne_gt_iff_isLE.1 hab) (Ordering.ne_gt_iff_isLE.1 hbc))

theorem sorted_pairwise (es : List Entry) : (sorted es).Pairwise fun a b => NotAfter (joined a) (joined b) := by
  rw [← List.pairwise_map, map_sorted]
  exact List.pairwise_insertionSort NotAfter _

theorem rel_or_rel {α : Type} {R : α → α → Prop} {l : List α} (h : l.Pairwise R) {a b : α} (ha : a ∈ l) (hb : b ∈ l)
    (hne : a ≠ b) : R a b ∨ R b a := by
  have hsymm : Std.Symm fun x y => R x y ∨ R y x := ⟨fun _ _ => Or.symm⟩
  have hor : l.Pairwise fun x y => R x y ∨ R y x := h.imp Or.inl
  exact hor.forall ha hb hne

theorem headwords_dictText (es : List Entry) : headwords (dictText es) = es.map (·.headword.chars) := by
  rw [headwords, records_eq (.dictText es), List.map_map]
  rfl

/-- The headwords come out in order exactly when none begins another that goes
on below the colon. -/
theorem ascends_iff (h : DictText es text) (hd : es.Pairwise fun a b => a.headword.chars ≠ b.headword.chars)
    (hc : COLON ∉ text) : Ascends (sorter text) ↔ ∀ a ∈ es, ∀ b ∈ es, ¬ Below a b := by
  have hfields := h.not_mem hc
  have hmem (e : Entry) : e ∈ sorted es ↔ e ∈ es := (sorted_perm es).mem_iff
  rw [sorter_eq h hfields, Ascends, headwords_dictText, List.pairwise_map]
  constructor
  · intro hasc a ha b hb hbelow
    obtain ⟨hhead, hline⟩ := hbelow.lt
    have hne : a ≠ b := by
      rintro rfl
      rw [strcmp_eq.2 rfl] at hhead
      cases hhead
    rcases rel_or_rel (hasc.and (sorted_pairwise es)) ((hmem a).2 ha) ((hmem b).2 hb) hne with ⟨-, hle⟩ | ⟨hlt, -⟩
    · exact hle (Std.OrientedCmp.gt_iff_lt.2 hline)
    · rw [Std.OrientedCmp.gt_iff_lt.2 hhead] at hlt
      cases hlt
  · intro hn
    have hne : (sorted es).Pairwise fun a b => a.headword.chars ≠ b.headword.chars :=
      ((sorted_perm es).pairwise_iff Ne.symm).2 hd
    refine (hne.and (sorted_pairwise es)).imp_of_mem fun {a b} ha hb hab => ?_
    have ha := (hmem a).1 ha
    have hb := (hmem b).1 hb
    exact lt_of_joined (hfields a ha _ List.mem_cons_self) (hfields b hb _ List.mem_cons_self) hab.1
      (hn b hb a ha) hab.2

/-! ## What the lookup finds -/

/-- In the file of a text whose headwords ascend and whose entries `convert`
keeps every headword is found. -/
theorem finds_of_ascends (hk : ∀ e ∈ es, e.Kept) (hs : ∀ e ∈ es, e.headword.chars.length ≤ WORD - 1)
    (hasc : Ascends (dictText es)) : Finds (dictText es) := by
  intro line
  obtain ⟨ps, hp, hfiled, -⟩ := (Convert.frames_iff_kept line es).2 hk
  refine ⟨ps, hp, fun bsearch tryit ws hws => ?_⟩
  have hwords : (ps.map (·.dr)).map (·.word.str) = headwords (dictText es) := by
    have := congrArg (List.map Prod.fst) hfiled
    rw [List.map_map, List.map_map] at this
    rw [List.map_map, headwords_dictText]
    refine this.trans (List.map_congr_left fun e he => ?_)
    exact List.take_of_length_le (hs e he)
  rw [Ascends, ← hwords, List.pairwise_map] at hasc
  let d : DictFile :=
    { recs := ps.map (·.dr)
      partRec := []
      short := by decide
      terminated := Convert.terminated_of_filed hfiled
      ascending := hasc }
  obtain ⟨cs, hsession, hcs⟩ := lookup5_outcomes d bsearch tryit ws
  have hdata : d.data = Convert.output ps := List.append_nil _
  rw [hdata] at hsession
  refine ⟨cs, hsession, fun c hc => ?_⟩
  have hout : c.outcome ∈ cs.map Call.outcome := List.mem_map_of_mem hc
  rw [hcs] at hout
  obtain ⟨w, hw, he⟩ := List.mem_map.1 hout
  have hfound : (d.recs.find? fun r => r.word.str = w.chars).isSome := by
    have := hws w hw
    rw [← hwords] at this
    obtain ⟨r, hr, hrw⟩ := List.mem_map.1 this
    exact List.find?_isSome.2 ⟨r, hr, by simpa using hrw⟩
  obtain ⟨r, hr⟩ := Option.isSome_iff_exists.1 hfound
  rw [DictFile.textOf, hr, Option.map_some, outcomeOf] at he
  exact (Prod.mk.inj he).1.symm

/-- The headwords of a text without a colon come out of `sorter` in the order
of the lookups exactly when none of them begins another that goes on with a
byte below the colon; and, of texts all of whose entries `convert` keeps,
exactly then they do and `lookup5` finds every one of them. -/
theorem sorter_yields_iff (h : DictText es text) (hd : es.Pairwise fun a b => a.headword.chars ≠ b.headword.chars)
    (hs : ∀ e ∈ es, e.headword.chars.length ≤ WORD - 1) (hc : COLON ∉ text) :
    (Ascends (sorter text) ↔ ∀ a ∈ es, ∀ b ∈ es, ¬ Below a b) ∧
    ((∀ e ∈ es, e.Kept) →
      (Ascends (sorter text) ∧ Finds (sorter text) ↔ ∀ a ∈ es, ∀ b ∈ es, ¬ Below a b)) := by
  have hiff := ascends_iff h hd hc
  refine ⟨hiff, fun hk => ⟨fun hy => hiff.1 hy.1, fun hn => ?_⟩⟩
  have hasc := hiff.2 hn
  refine ⟨hasc, ?_⟩
  have hmem (e : Entry) : e ∈ sorted es → e ∈ es := (sorted_perm es).mem_iff.1
  rw [sorter_eq h (h.not_mem hc)] at hasc ⊢
  exact finds_of_ascends (fun e he => hk e (hmem e he)) (fun e he => hs e (hmem e he)) hasc

/-! ## Two texts -/

/-- An entry with the line x under its headword. -/
def xEntry (headword : Line) : Entry := ⟨headword, [⟨[120], by decide, by decide, by decide⟩], by simp⟩

instance (text : List Byte) : Decidable (Ascends text) := inferInstanceAs (Decidable (List.Pairwise _ _))

/-- The headwords ab and a: the first goes on above the colon. -/
theorem sorter_yields_ab :
    let es := [xEntry ⟨[97, 98], by decide, by decide, by decide⟩, xEntry ⟨[97], by decide, by decide, by decide⟩]
    (∀ e ∈ es, e.Kept) ∧ Ascends (sorter (dictText es)) ∧ Finds (sorter (dictText es)) := by
  intro es
  have hkept : ∀ e ∈ es, e.Kept := by decide
  have hn : ∀ a ∈ es, ∀ b ∈ es, ¬ Below a b := by
    intro a ha b hb hbelow
    obtain ⟨c, u, h, hc⟩ := hbelow
    simp only [es, List.mem_cons, List.not_mem_nil, or_false] at ha hb
    rcases ha with rfl | rfl <;> rcases hb with rfl | rfl <;> simp [xEntry] at h
    obtain ⟨rfl, -⟩ := h
    exact absurd hc (by decide)
  exact ⟨hkept, ((sorter_yields_iff (.dictText es) (by decide) (by decide) (by decide)).2 hkept).2 hn⟩

/-- The headwords a and a-b: the hyphen is below the colon, and a-b comes out
before a. -/
theorem sorter_misorders :
    let es := [xEntry ⟨[97], by decide, by decide, by decide⟩, xEntry ⟨[97, 45, 98], by decide, by decide, by decide⟩]
    ¬ (Ascends (sorter (dictText es)) ∧ Finds (sorter (dictText es))) := by
  intro es hy
  have hn : ¬ Ascends (sorter (dictText es)) := by decide +kernel
  exact hn hy.1

end Sorter

end SysProg
