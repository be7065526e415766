/-
The dictionary's records (`dict.h`): a word field, a text field right after
it, and the status every `lookup` answers with.
-/
import SysProg.Lib.Stdio

namespace SysProg

/-- The size of a word. -/
abbrev WORD : Nat := 32

/-- The size of a text. -/
abbrev TEXT : Nat := 480

/-- The size of an id. -/
abbrev IDSIZE : Nat := 96

/-- The empty word. -/
def noWord : CStr WORD := ⟨[], List.not_mem_nil, by decide⟩

/-- What `lookup` returns. -/
inductive Status where
  | FOUND
  | NOTFOUND
  | UNAVAIL
  deriving DecidableEq

/-- What a caller of `lookup` gets for what the dictionary has for a word. -/
def outcomeOf : Option (List Byte) → Status × Option (List Byte)
  | some t => (.FOUND, some t)
  | none => (.NOTFOUND, none)

/-- The standard lookup structure. -/
structure Dictrec where
  word : Buf WORD
  text : Buf TEXT
  deriving DecidableEq

/-- `sizeof(Dictrec)`. -/
abbrev RECSIZE : Nat := WORD + TEXT

namespace Dictrec

/-- A record with both fields zero-filled. -/
def blank : Dictrec := ⟨Buf.zero WORD, Buf.zero TEXT⟩

/-- The record's bytes: the two fields, one after the other. -/
def flat (d : Dictrec) : Buf RECSIZE :=
  ⟨d.word.bytes ++ d.text.bytes, by simp [d.word.size, d.text.size]⟩

/-- The record a block of `RECSIZE` bytes is. -/
def ofFlat (b : Buf RECSIZE) : Dictrec :=
  ⟨⟨b.bytes.take WORD, by simp [b.size]⟩, ⟨b.bytes.drop WORD, by simp [b.size]⟩⟩

@[simp] theorem ofFlat_flat (d : Dictrec) : ofFlat d.flat = d := by
  obtain ⟨⟨w, hw⟩, ⟨t, ht⟩⟩ := d
  simp [flat, ofFlat, ← hw]

/-- Both fields hold a NUL. -/
def Terminated (d : Dictrec) : Prop := d.word.Terminated ∧ d.text.Terminated

instance (d : Dictrec) : Decidable d.Terminated := inferInstanceAs (Decidable (_ ∧ _))

end Dictrec

/-- What a client sends of its word and itself in the FIFO and message-queue
examples (`Client`). -/
structure Request where
  word : Buf WORD
  id : Buf IDSIZE

namespace Request

/-- The request's bytes: the two fields, one after the other. -/
def flat (r : Request) : List Byte := r.word.bytes ++ r.id.bytes

/-- The request a message of its size is. -/
def ofFlat (bytes : List Byte) : Option Request :=
  if h : bytes.length = WORD + IDSIZE then
    some ⟨⟨bytes.take WORD, by simp [h]⟩, ⟨bytes.drop WORD, by simp [h]⟩⟩
  else none

@[simp] theorem flat_length (r : Request) : r.flat.length = WORD + IDSIZE := by
  simp [flat, r.word.size, r.id.size]

@[simp] theorem ofFlat_flat (r : Request) : ofFlat r.flat = some r := by
  obtain ⟨⟨w, hw⟩, ⟨i, hi⟩⟩ := r
  simp [flat, ofFlat, ← hw, hi]

end Request

/-- The bytes `fwrite` makes of a list of records. -/
def fileOf (recs : List Dictrec) : List Byte := recs.flatMap fun d => d.flat.bytes

/-! ## Dictionaries -/

/-- What a server's `lookup` finds for a word. -/
abbrev Dictionary := List Byte → Option (CStr TEXT)

/-- The text by which a server says that there is none. -/
def XXXX : CStr TEXT := ⟨[88, 88, 88, 88], by decide, by decide⟩

/-- What a server sends, or leaves, for a word: the text found, or XXXX. -/
def reply (dict : Dictionary) (word : List Byte) : CStr TEXT := (dict word).getD XXXX

/-- What `lookup` is to return for a word. -/
def answer (dict : Dictionary) (w : CStr WORD) : Status × Option (List Byte) :=
  outcomeOf ((dict w.chars).map (·.chars))

theorem past_of_answers {dict : Dictionary} {past : List (CStr WORD × Status × Option (List Byte))}
    (h : ∀ r ∈ past, r.2 = answer dict r.1) : past = (past.map (·.1)).map fun w => (w, answer dict w) := by
  rw [List.map_map]
  conv_lhs => rw [← List.map_id past]
  exact List.map_congr_left fun r hr => Prod.ext rfl (h r hr)

/-- A dictionary with the text A for the word a and B for b. -/
def twoWords : Dictionary := fun word =>
  if word = [97] then some ⟨[65], by decide, by decide⟩
  else if word = [98] then some ⟨[66], by decide, by decide⟩
  else none

end SysProg
