/-
`strtok`: the tokens of a string one after the other, which are its maximal
runs of bytes that are no delimiters.
-/
import SysProg.Lib.Buffer

namespace SysProg

/-- A call of `strtok` where `s` is what is left of the string: the next
token, and what is left after it and the byte that ended it. -/
def strtok (delim s : List Byte) : Option (List Byte × List Byte) :=
  match s.dropWhile (delim.contains ·) with
  | [] => none
  | s@(_ :: _) => some (s.takeWhile (!delim.contains ·), (s.dropWhile (!delim.contains ·)).drop 1)

/-- The maximal runs of other bytes than delimiters. -/
def tokens (delim s : List Byte) : List (List Byte) := (s.splitOnP (delim.contains ·)).filter (· ≠ [])

variable {delim s t b : List Byte}

/-- At a delimiter the tokens divide. -/
theorem tokens_append_cons (s t : List Byte) {c : Byte} (hc : c ∈ delim) :
    tokens delim (s ++ c :: t) = tokens delim s ++ tokens delim t := by
  rw [tokens, List.splitOnP_append_cons s t (by simpa using hc), List.filter_append]
  rfl

theorem tokens_run (hne : s ≠ []) (h : ∀ c ∈ s, c ∉ delim) : tokens delim s = [s] := by
  rw [tokens, List.splitOnP_eq_singleton (by simpa using h)]
  simp [hne]

theorem tokens_blank_append (h : ∀ c ∈ b, c ∈ delim) : tokens delim (b ++ s) = tokens delim s := by
  induction b with
  | nil => rfl
  | cons c b ih =>
    obtain ⟨hc, hb⟩ := List.forall_mem_cons.1 h
    rw [List.cons_append, ← ih hb]
    exact tokens_append_cons [] (b ++ s) hc

theorem tokens_append_blank (h : ∀ c ∈ b, c ∈ delim) : tokens delim (s ++ b) = tokens delim s := by
  cases b with
  | nil => rw [List.append_nil]
  | cons c b =>
    obtain ⟨hc, hb⟩ := List.forall_mem_cons.1 h
    have hnone : tokens delim b = [] := by
      have := tokens_blank_append (s := []) hb
      rwa [List.append_nil] at this
    rw [tokens_append_cons s b hc, hnone, List.append_nil]

/-- The tokens hold all bytes but the delimiters. -/
theorem tokens_flatten (delim s : List Byte) : (tokens delim s).flatten = s.filter (!delim.contains ·) := by
  have hsplit : (tokens delim s).flatten = (s.splitOnP (delim.contains ·)).flatten := List.flatten_filter_ne_nil
  rw [hsplit]
  clear hsplit
  induction s with
  | nil => rfl
  | cons c s ih =>
    rw [List.splitOnP_cons_eq_if_modifyHead]
    split
    · next hc =>
      rw [List.filter_cons_of_neg (by simpa using hc), ← ih]
      rfl
    · next hc =>
      obtain ⟨t, ts, ht⟩ := List.exists_cons_of_ne_nil (List.splitOnP_ne_nil (delim.contains ·) s)
      rw [ht] at ih ⊢
      rw [List.filter_cons_of_pos (by simpa using hc), ← ih]
      rfl

theorem tokens_eq_nil : tokens delim s = [] ↔ ∀ c ∈ s, c ∈ delim := by
  constructor
  · intro h
    have hflat := tokens_flatten delim s
    rw [h, List.flatten_nil, eq_comm, List.filter_eq_nil_iff] at hflat
    intro c hc
    simpa using hflat c hc
  · intro h
    have := tokens_blank_append (s := []) h
    rwa [List.append_nil] at this

theorem dropWhile_cons_not {p : Byte → Bool} {c : Byte} (h : s.dropWhile p = c :: t) : p c = false := by
  have := List.head?_dropWhile_not p s
  rwa [h] at this

/-- `strtok` passes over delimiters and takes a run of other bytes and the
delimiter after it, if there is one. -/
theorem strtok_cases (delim s : List Byte) : (strtok delim s = none ∧ ∀ c ∈ s, c ∈ delim) ∨
    ∃ b t rest tail, strtok delim s = some (t, rest) ∧ s = b ++ (t ++ tail) ∧ (∀ c ∈ b, c ∈ delim) ∧ t ≠ [] ∧
      (∀ c ∈ t, c ∉ delim) ∧ (tail = [] ∧ rest = [] ∨ ∃ c ∈ delim, tail = c :: rest) := by
  have hs : s.takeWhile (delim.contains ·) ++ s.dropWhile (delim.contains ·) = s := List.takeWhile_append_dropWhile
  have hblank : ∀ c ∈ s.takeWhile (delim.contains ·), c ∈ delim := by
    intro c hc
    simpa using List.mem_takeWhile_imp hc
  cases hu : s.dropWhile (delim.contains ·) with
  | nil =>
    rw [hu, List.append_nil] at hs
    exact .inl ⟨by rw [strtok, hu], hs ▸ hblank⟩
  | cons c u =>
    right
    have hc : c ∉ delim := by simpa using dropWhile_cons_not hu
    let t := (c :: u).takeWhile (!delim.contains ·)
    have ht : t ++ (c :: u).dropWhile (!delim.contains ·) = c :: u := List.takeWhile_append_dropWhile
    have hrun : ∀ x ∈ t, x ∉ delim := by
      intro x hx
      simpa using List.mem_takeWhile_imp hx
    refine ⟨_, t, ((c :: u).dropWhile (!delim.contains ·)).drop 1, (c :: u).dropWhile (!delim.contains ·),
      by rw [strtok, hu], ?_, hblank, by simp [t, hc], hrun, ?_⟩
    · rw [ht, ← hu, hs]
    · cases hr : (c :: u).dropWhile (!delim.contains ·) with
      | nil => exact .inl ⟨rfl, rfl⟩
      | cons d rest => exact .inr ⟨d, by simpa using dropWhile_cons_not hr, rfl⟩

theorem strtok_eq (delim s : List Byte) : (strtok delim s = none ∧ tokens delim s = []) ∨
    ∃ t rest, strtok delim s = some (t, rest) ∧ tokens delim s = t :: tokens delim rest ∧ rest.length < s.length := by
  rcases strtok_cases delim s with ⟨hs, hblank⟩ | ⟨b, t, rest, tail, hs, rfl, hb, hne, ht, htail⟩
  · exact .inl ⟨hs, tokens_eq_nil.2 hblank⟩
  · have hpos := List.length_pos_iff.2 hne
    refine .inr ⟨t, rest, hs, ?_, ?_⟩
    · rw [tokens_blank_append hb]
      rcases htail with ⟨rfl, rfl⟩ | ⟨c, hc, rfl⟩
      · rw [List.append_nil, tokens_run hne ht]
        rfl
      · rw [tokens_append_cons t rest hc, tokens_run hne ht]
        rfl
    · rcases htail with ⟨rfl, rfl⟩ | ⟨c, -, rfl⟩ <;> simp <;> omega

/-! ## Tokens and what stands between them -/

/-- A string of these tokens, each a run of bytes that are no delimiters, and
delimiters about them: at least one between two. -/
inductive Spaced (delim : List Byte) : List (List Byte) → List Byte → Prop
  | blank {b : List Byte} (hb : ∀ c ∈ b, c ∈ delim) : Spaced delim [] b
  | last {b t : List Byte} (hb : ∀ c ∈ b, c ∈ delim) (hne : t ≠ []) (ht : ∀ c ∈ t, c ∉ delim) :
      Spaced delim [t] (b ++ t)
  | cons {b t s : List Byte} {c : Byte} {ts : List (List Byte)} (hb : ∀ c ∈ b, c ∈ delim) (hne : t ≠ [])
      (ht : ∀ c ∈ t, c ∉ delim) (hc : c ∈ delim) (h : Spaced delim ts s) : Spaced delim (t :: ts) (b ++ (t ++ c :: s))

theorem Spaced.tokens {ts : List (List Byte)} (h : Spaced delim ts s) : tokens delim s = ts := by
  induction h with
  | blank hb => exact tokens_eq_nil.2 hb
  | last hb hne ht => rw [tokens_blank_append hb, tokens_run hne ht]
  | cons hb hne ht hc _ ih =>
    rw [tokens_blank_append hb, tokens_append_cons _ _ hc, tokens_run hne ht, ih]
    rfl

/-- Every string is one of its tokens. -/
theorem spaced_tokens (delim s : List Byte) : Spaced delim (tokens delim s) s := by
  obtain ⟨n, hn⟩ : ∃ n, s.length ≤ n := ⟨_, le_rfl⟩
  induction n generalizing s with
  | zero =>
    rw [List.eq_nil_of_length_eq_zero (Nat.le_zero.1 hn)]
    exact .blank (by simp)
  | succ n ih =>
    rcases strtok_cases delim s with ⟨-, hblank⟩ | ⟨b, t, rest, tail, -, rfl, hb, hne, ht, htail⟩
    · rw [tokens_eq_nil.2 hblank]
      exact .blank hblank
    · rcases htail with ⟨rfl, rfl⟩ | ⟨c, hc, rfl⟩
      · have hlast := Spaced.last hb hne ht
        rw [List.append_nil, hlast.tokens]
        exact hlast
      · have hpos := List.length_pos_iff.2 hne
        have hcons := Spaced.cons hb hne ht hc (ih rest (by simp at hn; omega))
        rw [hcons.tokens]
        exact hcons

end SysProg
