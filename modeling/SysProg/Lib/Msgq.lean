/-
System V message queues: messages of a type and some bytes, taken by type and
in each type in the order they were sent.
-/
import Mathlib.Algebra.Ring.Nat
import SysProg.Lib.Buffer
import SysProg.Lib.Flight

namespace SysProg

/-- A message of the queue. -/
structure Message where
  type : Int
  bytes : List Byte
  deriving DecidableEq

/-- The bytes a queue holds. -/
def used (q : List Message) : Nat := (q.map fun m => m.bytes.length).sum

/-- `msgsnd`, which blocks while the queue would hold more than `cap` bytes. -/
def msgsnd (cap : Nat) (q : List Message) (m : Message) : Option (List Message) :=
  if used q + m.bytes.length ≤ cap then some (q ++ [m]) else none

/-- `msgrcv` of a type greater than zero: the first message of it, and while
there is none it blocks. -/
def msgrcv (q : List Message) (type : Int) : Option (Message × List Message) :=
  (q.find? fun m => m.type = type).map fun m => (m, q.eraseP fun m => m.type = type)

variable {q q' : List Message} {m : Message}

theorem msgsnd_eq {cap : Nat} (h : msgsnd cap q m = some q') : used q + m.bytes.length ≤ cap ∧ q' = q ++ [m] := by
  unfold msgsnd at h
  split at h
  · next hle =>
    cases h
    exact ⟨hle, rfl⟩
  · cases h

theorem msgsnd_eq_none {cap : Nat} : msgsnd cap q m = none ↔ cap < used q + m.bytes.length := by
  simp [msgsnd]

theorem msgrcv_eq {type : Int} (h : msgrcv q type = some (m, q')) :
    m.type = type ∧ Takes m q q' := by
  obtain ⟨a, hf, ha⟩ := Option.map_eq_some_iff.1 h
  obtain ⟨rfl, rfl⟩ := Prod.mk.inj ha
  obtain ⟨ht, l₁, l₂, rfl, hn⟩ := List.find?_eq_some_iff_append.1 hf
  refine ⟨by simpa using ht, l₁, l₂, rfl, ?_⟩
  rw [List.eraseP_append_right _ (by simpa using hn), List.eraseP_cons_of_pos (by simpa using ht)]

theorem msgrcv_eq_none {type : Int} : msgrcv q type = none ↔ ∀ m ∈ q, m.type ≠ type := by
  simp [msgrcv]

theorem used_append (q q' : List Message) : used (q ++ q') = used q + used q' := by
  simp [used]

theorem msgsnd_used {cap : Nat} (h : msgsnd cap q m = some q') : used q' ≤ cap := by
  obtain ⟨hle, rfl⟩ := msgsnd_eq h
  rw [used_append]
  simpa [used] using hle

theorem msgrcv_used {type : Int} (h : msgrcv q type = some (m, q')) : used q' ≤ used q := by
  obtain ⟨-, l₁, l₂, rfl, rfl⟩ := msgrcv_eq h
  rw [used_append, used_append]
  simp [used]

/-- Messages all of one size. -/
theorem used_const {n : Nat} (h : ∀ m ∈ q, m.bytes.length = n) : used q = n * q.length := by
  rw [used, List.map_congr_left h, List.map_const', List.sum_replicate_nat, Nat.mul_comm]

theorem filter_send (p : Message → Bool) (q : List Message) (m : Message) :
    (q ++ [m]).filter p = q.filter p ++ if p m then [m] else [] := by
  rw [List.filter_append, List.filter_cons, List.filter_nil]

end SysProg
