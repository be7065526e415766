/-
What the script `sorter` keeps of a text. The first `awk` puts a colon between
the lines of a paragraph and the second takes every colon for one of these.
-/
import SysProg.Sorter

namespace SysProg.Sorter

open SysProg.Convert (Line linesText)

/-- A headword line and the lines of its definition, in any number. -/
structure Paragraph where
  headword : Line
  definition : List Line

/-- The lines of a paragraph. -/
def Paragraph.lines (p : Paragraph) : List Line := p.headword :: p.definition

/-- The texts of some paragraphs: blank lines in any number before a
paragraph, one at least after it unless it is the last. -/
inductive Paragraphs : List Paragraph → List Byte → Prop
  | nil : Paragraphs [] []
  | blank {ps text} (h : Paragraphs ps text) : Paragraphs ps (NL :: text)
  | last (p : Paragraph) : Paragraphs [p] (linesText p.lines)
  | entry (p : Paragraph) {ps text} (h : Paragraphs ps text) : Paragraphs (p :: ps) (linesText p.lines ++ NL :: text)

/-- A paragraph as a line of the sort. -/
def Paragraph.joined (p : Paragraph) : List Byte := toLine (p.lines.map (·.chars))

/-- The paragraphs in the order of their lines. -/
def sortedParagraphs (ps : List Paragraph) : List Paragraph := ps.insertionSort fun a b => NotAfter a.joined b.joined

/-! ## Paragraphs and records -/

theorem Paragraph.lines_ne_nil (p : Paragraph) : p.lines ≠ [] := List.cons_ne_nil _ _

theorem Paragraphs.records {ps : List Paragraph} {text : List Byte} (h : Paragraphs ps text) :
    records text = ps.map fun p => p.lines.map (·.chars) := by
  induction h with
  | nil => rfl
  | @blank ps text _ ih =>
    have hnil : [] ∉ ([] : List (List Byte)) := List.not_mem_nil
    exact (records_blank hnil (show ([] : List Line).map (·.chars) = [] from rfl) text).trans ih
  | last p => exact records_last p.lines_ne_nil
  | entry p _ ih =>
    have hne : p.lines.map (·.chars) ≠ [] := by simpa using p.lines_ne_nil
    rw [records_blank (nil_not_mem_chars p.lines) rfl, if_neg hne, ih]
    rfl

theorem Paragraphs.not_mem {ps : List Paragraph} {text : List Byte} (h : Paragraphs ps text) {c : Byte}
    (hc : c ∉ text) : ∀ p ∈ ps, ∀ l ∈ p.lines, c ∉ l.chars := by
  have hlines (ls : List Line) (hls : c ∉ linesText ls) : ∀ l ∈ ls, c ∉ l.chars :=
    fun l hl => not_mem_linesText hls _ (List.mem_map_of_mem hl)
  induction h with
  | nil => simp
  | blank _ ih => exact ih fun hm => hc (List.mem_cons_of_mem _ hm)
  | last p => exact List.forall_mem_singleton.2 (hlines _ hc)
  | entry p _ ih =>
    rw [List.mem_append, List.mem_cons, not_or, not_or] at hc
    exact List.forall_mem_cons.2 ⟨hlines _ hc.1, ih hc.2.2⟩

/-! ## What is written -/

theorem not_mem_of_mem_splitOn {c : Byte} {s f : List Byte} (h : f ∈ s.splitOn c) : c ∉ f := by
  induction s generalizing f with
  | nil => simp_all [List.splitOn_nil]
  | cons x s ih =>
    rw [List.splitOn_cons_eq_if_modifyHead] at h
    split at h
    · rcases List.mem_cons.1 h with rfl | h
      · exact List.not_mem_nil
      · exact ih h
    · next hx =>
      obtain ⟨g, gs, hsplit⟩ := List.exists_cons_of_ne_nil (List.splitOn_ne_nil c s)
      rw [hsplit] at h ih
      rcases List.mem_cons.1 h with rfl | h
      · rw [List.mem_cons, not_or]
        exact ⟨fun he => hx (by simp [he]), ih List.mem_cons_self⟩
      · exact ih (List.mem_cons_of_mem _ h)

theorem colon_not_mem_sorter (text : List Byte) : COLON ∉ sorter text := by
  intro h
  obtain ⟨line, -, h⟩ := List.mem_flatMap.1 h
  have hnl : COLON ≠ NL := by decide
  rw [toEntry, List.mem_append, List.mem_singleton, or_iff_left hnl] at h
  obtain ⟨f, hf, h⟩ := List.mem_flatMap.1 h
  rw [List.mem_append, List.mem_singleton, or_iff_left hnl] at h
  exact not_mem_of_mem_splitOn hf h

theorem sortedParagraphs_perm (ps : List Paragraph) : (sortedParagraphs ps).Perm ps := List.perm_insertionSort _ ps

/-- Without a colon in the text the paragraphs are written as they stand there. -/
theorem sorter_paragraphs {ps : List Paragraph} {text : List Byte} (h : Paragraphs ps text)
    (hc : ∀ p ∈ ps, ∀ l ∈ p.lines, COLON ∉ l.chars) : Paragraphs (sortedParagraphs ps) (sorter text) := by
  have hsort : sort ((SysProg.Sorter.records text).map toLine) = (sortedParagraphs ps).map Paragraph.joined := by
    rw [h.records, List.map_map]
    exact (List.map_insertionSort _ _ Paragraph.joined ps fun _ _ _ _ => Iff.rfl).symm
  have hwrites (qs : List Paragraph) (hqs : ∀ p ∈ qs, ∀ l ∈ p.lines, COLON ∉ l.chars) :
      Paragraphs qs ((qs.map Paragraph.joined).flatMap toEntry) := by
    induction qs with
    | nil => exact .nil
    | cons p qs ih =>
      obtain ⟨hp, hqs⟩ := List.forall_mem_cons.1 hqs
      rw [List.map_cons, List.flatMap_cons, Paragraph.joined, toEntry_toLine p.lines_ne_nil hp]
      exact .entry p (ih hqs)
  rw [sorter, hsort]
  exact hwrites _ fun p hp => hc p ((sortedParagraphs_perm ps).mem_iff.1 hp)

/-! ## What is kept -/

/-- The paragraphs come out as they went in, in some order, exactly when no
line of theirs has a colon. -/
theorem sorter_keeps_iff {ps : List Paragraph} {text : List Byte} (h : Paragraphs ps text) :
    (∃ qs, Paragraphs qs (sorter text) ∧ qs.Perm ps) ↔ ∀ p ∈ ps, ∀ l ∈ p.lines, COLON ∉ l.chars := by
  constructor
  · intro hkept p hp
    obtain ⟨qs, hqs, hperm⟩ := hkept
    exact hqs.not_mem (colon_not_mem_sorter text) p (hperm.mem_iff.2 hp)
  · intro hc
    exact ⟨_, sorter_paragraphs h hc, sortedParagraphs_perm ps⟩

/-- The entries xx and x, each with a definition of one line. -/
def twoParagraphs : List Paragraph := [⟨Line.xs 1, [Line.xs 0]⟩, ⟨Line.xs 0, [Line.xs 0]⟩]

theorem twoParagraphs_kept : Paragraphs twoParagraphs [120, 120, NL, 120, NL, NL, 120, NL, 120, NL] ∧
    ∃ qs, Paragraphs qs (sorter [120, 120, NL, 120, NL, NL, 120, NL, 120, NL]) ∧ qs.Perm twoParagraphs := by
  have h : Paragraphs twoParagraphs [120, 120, NL, 120, NL, NL, 120, NL, 120, NL] := .entry _ (.last _)
  exact ⟨h, (sorter_keeps_iff h).2 (by decide)⟩

/-- The entry x, defined by x:y. -/
def colonParagraph : Paragraph := ⟨Line.xs 0, [⟨[120, COLON, 121], by decide, by decide, by decide⟩]⟩

/-- Its definition comes out as two lines. -/
theorem colonParagraph_split : Paragraphs [colonParagraph] [120, NL, 120, COLON, 121, NL] ∧
    sorter [120, NL, 120, COLON, 121, NL] = [120, NL, 120, NL, 121, NL, NL] ∧
    ¬ ∃ qs, Paragraphs qs (sorter [120, NL, 120, COLON, 121, NL]) ∧ qs.Perm [colonParagraph] := by
  refine ⟨.last colonParagraph, by decide +kernel, ?_⟩
  intro hkept
  obtain ⟨qs, hqs, hperm⟩ := hkept
  have hnone := hqs.not_mem (colon_not_mem_sorter _) colonParagraph (hperm.mem_iff.2 List.mem_cons_self)
  exact hnone _ (List.mem_cons_of_mem _ List.mem_cons_self) (by decide)

end SysProg.Sorter
