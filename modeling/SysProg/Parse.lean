/-
`parse` of the last shell (`sh9`) in memory: the copies of the tokens, the
array that is made longer by a slot for each of them, and the stores into it.
What `MainLoop` has for the vector it returns is what the array then holds.
-/
import SysProg.Lib.Heap
import SysProg.MainLoop

namespace SysProg.Parse

open SysProg.Shell (Token delim)

/-! ## Memory -/

/-- A slot of an array of strings. -/
inductive Slot where
  /-- Nothing was stored here yet. -/
  | undef
  | null
  | ptr (p : Nat)
  deriving DecidableEq

/-- What a block holds. -/
inductive Block where
  | string (s : Token)
  | array (slots : List Slot)
  deriving DecidableEq

/-- The blocks of the heap. -/
abbrev Mem := Heap Block

/-- `a[i] = v`, undefined outside the block. -/
def store (h : Mem) (a i : Nat) (v : Slot) : Option Mem :=
  match h.get a with
  | some (.array slots) => if i < slots.length then some (h.put a (.array (slots.set i v))) else none
  | _ => none

/-- `a[i]`, undefined outside the block. -/
def load (h : Mem) (a i : Nat) : Option Slot :=
  match h.get a with
  | some (.array slots) => slots[i]?
  | _ => none

/-- `realloc` of an array to `n` slots: the block it returns has a number of its own. -/
def realloc (h : Mem) (a n : Nat) : Option (Mem × Nat) :=
  match h.get a with
  | some (.array slots) =>
    (h.free a).map fun h => h.malloc (.array (slots.take n ++ List.replicate (n - slots.length) .undef))
  | _ => none

/-! ## parse -/

/-- The loop, with a token at hand and the rest of the line: the array and
the number of its tokens. -/
def tokenLoop : Nat → Mem → Nat → Nat → Token → List Byte → Option (Mem × Nat × Nat)
  | 0, _, _, _, _, _ => none
  | n + 1, h, newArgv, count, token, line =>
    -- Give token its own memory, then install it.
    let (h, copy) := h.malloc (.string token)
    (store h newArgv count (.ptr copy)).bind fun h =>
    let count := count + 1
    let next := strtok delim line
    (realloc h newArgv (count + 1)).bind fun (h, newArgv) =>
    match next with
    | some (token, line) => tokenLoop n h newArgv count token line
    | none => some (h, newArgv, count)

/-- The memory and the array returned, or `none` for NULL: no tokens in line. -/
def parse (h : Mem) (line : List Byte) : Option (Mem × Option Nat) :=
  match strtok delim line with
  | none => some (h, none)
  | some (token, rest) =>
    -- Room for the first token.
    let (h, newArgv) := h.malloc (.array [.undef])
    (tokenLoop (line.length + 1) h newArgv 0 token rest).bind fun (h, newArgv, count) =>
    (store h newArgv count .null).map fun h => (h, some newArgv)

/-! ## What has been allocated -/

/-- In `h` there are, besides what was in `h₀`, an array `a` of these slots
and the blocks `ps`, which hold the strings `ts`. -/
structure Holds (h₀ h : Mem) (a : Nat) (ps : List Nat) (slots : List Slot) (ts : List Token) : Prop where
  array : h.get a = some (.array slots)
  strings : ps.map h.get = ts.map fun t => some (.string t)
  nodup : (a :: ps).Nodup
  new : ∀ p ∈ a :: ps, h₀.length ≤ p
  others : ∀ q, q ∉ a :: ps → h.get q = h₀.get q

variable {h₀ h : Mem} {a : Nat} {ps : List Nat} {slots : List Slot} {ts : List Token}

theorem Holds.string (hh : Holds h₀ h a ps slots ts) : ∀ p ∈ ps, ∃ t, h.get p = some (.string t) := by
  intro p hp
  have hmem : h.get p ∈ ts.map fun t => some (.string t) := hh.strings ▸ List.mem_map_of_mem hp
  obtain ⟨t, -, ht⟩ := List.mem_map.1 hmem
  exact ⟨t, ht.symm⟩

theorem Holds.live (hh : Holds h₀ h a ps slots ts) : ∀ p ∈ a :: ps, p < h.length := by
  rw [List.forall_mem_cons]
  refine ⟨Heap.lt_of_get hh.array, fun p hp => ?_⟩
  obtain ⟨t, ht⟩ := hh.string p hp
  exact Heap.lt_of_get ht

theorem Holds.store (hh : Holds h₀ h a ps slots ts) {i : Nat} (hi : i < slots.length) (v : Slot) :
    ∃ h', Parse.store h a i v = some h' ∧ h'.length = h.length ∧ Holds h₀ h' a ps (slots.set i v) ts := by
  have hget := Heap.get_put hh.array (Block.array (slots.set i v))
  have hne : ∀ p ∈ ps, p ≠ a := fun p hp he => (List.nodup_cons.1 hh.nodup).1 (he ▸ hp)
  refine ⟨h.put a (.array (slots.set i v)), ?_, Heap.length_put .., ⟨?_, ?_, hh.nodup, hh.new, ?_⟩⟩
  · simp only [Parse.store, hh.array, if_pos hi]
  · rw [hget, if_pos rfl]
  · rw [← hh.strings]
    refine List.map_congr_left fun p hp => ?_
    rw [hget, if_neg (hne p hp)]
  · intro q hq
    rw [hget, if_neg (List.ne_of_not_mem_cons hq), hh.others q hq]

/-- A string more. -/
theorem Holds.strdup (hh : Holds h₀ h a ps slots ts) (token : Token) :
    Holds h₀ (h.malloc (.string token)).1 a (ps ++ [(h.malloc (.string token)).2]) slots (ts ++ [token]) := by
  have hget := Heap.get_malloc h (Block.string token)
  have hlive := hh.live
  have hold : ∀ q ∈ a :: ps, q ≠ h.length := fun q hq => Nat.ne_of_lt (hlive q hq)
  have hge : h₀.length ≤ h.length :=
    (hh.new a List.mem_cons_self).trans (Nat.le_of_lt (hlive a List.mem_cons_self))
  show Holds h₀ (h.malloc (.string token)).1 a (ps ++ [h.length]) slots (ts ++ [token])
  refine ⟨?_, ?_, ?_, ?_, ?_⟩
  · rw [hget, if_neg (hold a List.mem_cons_self), hh.array]
  · rw [List.map_append, List.map_append, ← hh.strings, List.map_singleton, hget, if_pos rfl]
    congr 1
    refine List.map_congr_left fun p hp => ?_
    rw [hget, if_neg (hold p (List.mem_cons_of_mem _ hp))]
  · rw [← List.cons_append]
    refine List.nodup_append.2 ⟨hh.nodup, List.pairwise_singleton .., fun q hq r hr => ?_⟩
    rw [List.mem_singleton.1 hr]
    exact hold q hq
  · rw [← List.cons_append, List.forall_mem_append, List.forall_mem_singleton]
    exact ⟨hh.new, hge⟩
  · intro q hq
    rw [← List.cons_append, List.mem_append, not_or, List.mem_singleton] at hq
    rw [hget, if_neg hq.2, hh.others q hq.1]

/-- A longer array in its place. -/
theorem Holds.realloc (hh : Holds h₀ h a ps slots ts) {n : Nat} (hn : slots.length ≤ n) :
    ∃ h' a', Parse.realloc h a n = some (h', a') ∧
      Holds h₀ h' a' ps (slots ++ List.replicate (n - slots.length) .undef) ts := by
  obtain ⟨h₁, hfree, hget₁⟩ := Heap.free_eq hh.array
  have hlen : h₁.length = h.length := by
    rw [Heap.free, hh.array] at hfree
    cases hfree
    exact List.length_set
  let array : Block := .array (slots ++ List.replicate (n - slots.length) .undef)
  have hget := Heap.get_malloc h₁ array
  have hlive := hh.live
  have hge : h₀.length ≤ h₁.length := by
    rw [hlen]
    exact (hh.new a List.mem_cons_self).trans (Nat.le_of_lt (hlive a List.mem_cons_self))
  have hps : ∀ p ∈ ps, p ≠ h₁.length ∧ p ≠ a := by
    intro p hp
    rw [hlen]
    exact ⟨Nat.ne_of_lt (hlive p (List.mem_cons_of_mem _ hp)), fun he => (List.nodup_cons.1 hh.nodup).1 (he ▸ hp)⟩
  refine ⟨(h₁.malloc array).1, h₁.length, ?_, ⟨?_, ?_, ?_, ?_, ?_⟩⟩
  · simp only [Parse.realloc, hh.array, hfree, Option.map_some, List.take_of_length_le hn]
    rfl
  · rw [hget, if_pos rfl]
  · rw [← hh.strings]
    refine List.map_congr_left fun p hp => ?_
    rw [hget, if_neg (hps p hp).1, hget₁, if_neg (hps p hp).2]
  · exact List.nodup_cons.2 ⟨fun hm => (hps _ hm).1 rfl, (List.nodup_cons.1 hh.nodup).2⟩
  · exact List.forall_mem_cons.2 ⟨hge, fun p hp => hh.new p (List.mem_cons_of_mem _ hp)⟩
  · intro q hq
    rw [List.mem_cons, not_or] at hq
    rw [hget, if_neg hq.1, hget₁]
    split
    · next he =>
      rw [he, Heap.get_of_le (hh.new a List.mem_cons_self)]
    · next hne => exact hh.others q (List.not_mem_cons_of_ne_of_not_mem hne hq.2)

/-! ## The loop -/

/-- The slots when some tokens are installed, with room for one more. -/
def filling (ps : List Nat) : List Slot := ps.map .ptr ++ [.undef]

/-- The slots of the array that is returned. -/
def argv (ps : List Nat) : List Slot := ps.map .ptr ++ [.null]

/-- One turn: a token is installed, and the array is a slot longer again. -/
theorem install (hh : Holds h₀ h a ps (filling ps) ts) (token : Token) : ∃ p h₁ h₂ a₂,
    store (h.malloc (.string token)).1 a ps.length (.ptr (h.malloc (.string token)).2) = some h₁ ∧
    realloc h₁ a (ps.length + 1 + 1) = some (h₂, a₂) ∧
    Holds h₀ h₂ a₂ (ps ++ [p]) (filling (ps ++ [p])) (ts ++ [token]) := by
  have hcopied := hh.strdup token
  obtain ⟨h₁, hstore, -, hstored⟩ := hcopied.store (i := ps.length) (by simp [filling])
    (.ptr (h.malloc (.string token)).2)
  have hfull : (filling ps).set ps.length (.ptr (h.malloc (.string token)).2) =
      (ps ++ [(h.malloc (.string token)).2]).map .ptr := by
    rw [filling, List.set_append_right _ _ (by simp)]
    simp
  rw [hfull] at hstored
  obtain ⟨h₂, a₂, hrealloc, hgrown⟩ := hstored.realloc (n := ps.length + 1 + 1) (by simp)
  have hroom : ps.length + 1 + 1 - ((ps ++ [(h.malloc (.string token)).2]).map Slot.ptr).length = 1 := by simp
  rw [hroom] at hgrown
  exact ⟨_, h₁, h₂, a₂, hstore, hrealloc, hgrown⟩

theorem tokenLoop_eq {n : Nat} {rest : List Byte} (hn : rest.length < n) (hh : Holds h₀ h a ps (filling ps) ts)
    (token : Token) : ∃ h' a' ps', tokenLoop n h a ps.length token rest = some (h', a', ps'.length) ∧
      Holds h₀ h' a' ps' (filling ps') (ts ++ token :: tokens delim rest) := by
  induction n generalizing h a ps ts token rest with
  | zero => omega
  | succ n ih =>
    obtain ⟨p, h₁, h₂, a₂, hstore, hrealloc, hinstalled⟩ := install hh token
    have hlen : (ps ++ [p]).length = ps.length + 1 := by simp
    rw [tokenLoop]
    simp only [hstore, hrealloc, Option.bind_some]
    rcases strtok_eq delim rest with ⟨hs, ht⟩ | ⟨next, rest', hs, ht, hlt⟩
    · rw [hs, ht]
      exact ⟨h₂, a₂, ps ++ [p], by rw [hlen], hinstalled⟩
    · rw [hs, ht, ← hlen]
      obtain ⟨h', a', ps', hloop, hfinal⟩ := ih (show rest'.length < n by omega) hinstalled next
      refine ⟨h', a', ps', hloop, ?_⟩
      rw [List.append_assoc] at hfinal
      exact hfinal

/-- `parse` comes to its end with every store inside its block, and the array
it returns holds the tokens of the line, and NULL. -/
theorem parse_eq (h : Mem) (line : List Byte) :
    (tokens delim line = [] ∧ parse h line = some (h, none)) ∨
    ∃ h' a ps, tokens delim line ≠ [] ∧ parse h line = some (h', some a) ∧
      Holds h h' a ps (argv ps) (tokens delim line) := by
  rcases strtok_eq delim line with ⟨hs, ht⟩ | ⟨token, rest, hs, ht, hlt⟩
  · exact .inl ⟨ht, by rw [parse, hs]⟩
  · right
    have hget := Heap.get_malloc h (Block.array [.undef])
    have hstart : Holds h (h.malloc (.array [.undef])).1 (h.malloc (.array [.undef])).2 [] (filling []) [] := by
      refine ⟨by rw [hget]; exact if_pos rfl, rfl, by simp, by simp [Heap.malloc], fun q hq => ?_⟩
      rw [hget]
      exact if_neg (List.ne_of_not_mem_cons hq)
    obtain ⟨h₁, a, ps, hloop, hholds⟩ := tokenLoop_eq (show rest.length < line.length + 1 by omega) hstart token
    obtain ⟨h', hstore, -, hend⟩ := hholds.store (i := ps.length) (by simp [filling]) .null
    have hcap : (filling ps).set ps.length .null = argv ps := by
      rw [filling, List.set_append_right _ _ (by simp)]
      simp [argv]
    rw [hcap, List.nil_append, ← ht] at hend
    refine ⟨h', a, ps, by rw [ht]; simp, ?_, hend⟩
    rw [parse, hs]
    simp only [List.length_nil] at hloop
    simp only [hloop, Option.bind_some, hstore, Option.map_some]

/-- `parse` returns the vector that `Shell.parse` does. -/
theorem parse_refines (h : Mem) (line : List Byte) :
    (Shell.parse line = none ∧ parse h line = some (h, none)) ∨
    ∃ h' a ps ts, Shell.parse line = some ts ∧ parse h line = some (h', some a) ∧ Holds h h' a ps (argv ps) ts := by
  rw [Shell.parse_eq]
  rcases parse_eq h line with ⟨ht, hp⟩ | ⟨h', a, ps, ht, hp, hholds⟩
  · exact .inl ⟨if_pos ht, hp⟩
  · exact .inr ⟨h', a, ps, _, if_neg ht, hp, hholds⟩

/-! ## Lines laid out -/

/-- Tokens with blanks about them: at least one after each but the last. -/
structure Layout where
  lead : List Byte
  items : List (Token × List Byte)
  last : Token
  trail : List Byte
  blanks : ∀ b ∈ lead :: trail :: items.map (·.2), ∀ c ∈ b, c ∈ delim
  between : ∀ i ∈ items, i.2 ≠ []
  runs : ∀ t ∈ last :: items.map (·.1), t ≠ [] ∧ ∀ c ∈ t, c ∉ delim

/-- The line. -/
def Layout.line (l : Layout) : List Byte := l.lead ++ (l.items.flatMap (fun i => i.1 ++ i.2) ++ (l.last ++ l.trail))

/-- The tokens of a line. -/
def Layout.tokens (l : Layout) : List Token := l.items.map (·.1) ++ [l.last]

theorem spaced_items {lead trail : List Byte} {items : List (Token × List Byte)} {last : Token}
    (hlead : ∀ c ∈ lead, c ∈ delim) (htrail : ∀ c ∈ trail, c ∈ delim) (hgaps : ∀ i ∈ items, ∀ c ∈ i.2, c ∈ delim)
    (hbetween : ∀ i ∈ items, i.2 ≠ []) (hruns : ∀ i ∈ items, i.1 ≠ [] ∧ ∀ c ∈ i.1, c ∉ delim)
    (hlast : last ≠ [] ∧ ∀ c ∈ last, c ∉ delim) :
    Spaced delim (items.map (·.1) ++ [last]) (lead ++ (items.flatMap (fun i => i.1 ++ i.2) ++ (last ++ trail))) := by
  induction items generalizing lead with
  | nil =>
    cases trail with
    | nil =>
      have := Spaced.last hlead hlast.1 hlast.2
      simpa using this
    | cons c trail =>
      obtain ⟨hc, htrail⟩ := List.forall_mem_cons.1 htrail
      exact Spaced.cons hlead hlast.1 hlast.2 hc (.blank htrail)
  | cons i items ih =>
    rw [List.forall_mem_cons] at hgaps hbetween hruns
    obtain ⟨t, gap⟩ := i
    -- the gap's first blank ends the token, the others stand before the next
    cases gap with
    | nil => exact absurd rfl hbetween.1
    | cons c gap =>
      obtain ⟨hc, hgap⟩ := List.forall_mem_cons.1 hgaps.1
      have := Spaced.cons hlead hruns.1.1 hruns.1.2 hc (ih hgap hgaps.2 hbetween.2 hruns.2)
      simpa using this

theorem Layout.spaced (l : Layout) : Spaced delim l.tokens l.line := by
  have hblanks := List.forall_mem_cons.1 l.blanks
  have htrail := List.forall_mem_cons.1 hblanks.2
  have hruns := List.forall_mem_cons.1 l.runs
  exact spaced_items hblanks.1 htrail.1 (List.forall_mem_map.1 htrail.2) l.between (List.forall_mem_map.1 hruns.2)
    hruns.1

/-! ## What is returned -/

/-- What `parse` returns for a line of these tokens: NULL if there is none,
else an array of one slot more with copies of them in their order, and NULL. -/
def Returns (h : Mem) (r : Mem × Option Nat) (ts : List Token) : Prop :=
  match r.2 with
  | none => ts = []
  | some a => ts ≠ [] ∧ ∃ ps, Holds h r.1 a ps (argv ps) ts ∧ (argv ps).length = ts.length + 1

/-- `parse` makes every store inside its block and returns the maximal runs of
other characters than blanks, or NULL for blanks alone; so tokens laid out with
any blanks about them are what it returns. -/
theorem parse_exact (h : Mem) (line : List Byte) (l : Layout) :
    (∃ r ts, parse h line = some r ∧ Spaced delim ts line ∧ Returns h r ts ∧
      (r.2 = none ↔ ∀ c ∈ line, c ∈ delim)) ∧
    ∃ r, parse h l.line = some r ∧ Returns h r l.tokens := by
  have hline (line : List Byte) : ∃ r, parse h line = some r ∧ Returns h r (tokens delim line) ∧
      (r.2 = none ↔ tokens delim line = []) := by
    rcases parse_eq h line with ⟨ht, hp⟩ | ⟨h', a, ps, ht, hp, hholds⟩
    · exact ⟨_, hp, ht, iff_of_true rfl ht⟩
    · have hlen := congrArg List.length hholds.strings
      refine ⟨_, hp, ⟨ht, ps, hholds, ?_⟩, iff_of_false (by simp) ht⟩
      simpa [argv] using hlen
  constructor
  · obtain ⟨r, hr, hreturns, hnull⟩ := hline line
    exact ⟨r, _, hr, spaced_tokens delim line, hreturns, hnull.trans tokens_eq_nil⟩
  · obtain ⟨r, hr, hreturns, -⟩ := hline l.line
    exact ⟨r, hr, l.spaced.tokens ▸ hreturns⟩

end SysProg.Parse
