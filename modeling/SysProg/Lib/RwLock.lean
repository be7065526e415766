/-
A lock that readers hold together and a writer alone.
-/
import Mathlib.Data.Finset.Basic
import Mathlib.Data.Finset.Insert

namespace SysProg

/-- Who holds it. -/
structure RwLock (ι : Type) where
  readers : Finset ι
  writer : Option ι
  apart : writer.isSome → readers = ∅

namespace RwLock

variable {ι : Type} [DecidableEq ι]

/-- The lock held by nobody. -/
def free : RwLock ι := ⟨∅, none, fun _ => rfl⟩

/-- A reader comes in, unless there is a writer. -/
def rdlock (l : RwLock ι) (i : ι) : Option (RwLock ι) :=
  if l.writer = none then some ⟨insert i l.readers, none, fun h => by cases h⟩ else none

/-- A writer comes in when there is nobody. -/
def wrlock (l : RwLock ι) (i : ι) : Option (RwLock ι) :=
  if l.writer = none ∧ l.readers = ∅ then some ⟨∅, some i, fun _ => rfl⟩ else none

/-- One that holds it gives it up; for others this is not defined. -/
def unlock (l : RwLock ι) (i : ι) : Option (RwLock ι) :=
  if l.writer = some i then some ⟨l.readers, none, fun h => by cases h⟩
  else if i ∈ l.readers then some ⟨l.readers.erase i, l.writer, fun h => by rw [l.apart h]; rfl⟩
  else none

/-- The readers in `r` and the writers in `w` are those that hold the lock. -/
structure Holds (l : RwLock ι) (r w : ι → Prop) : Prop where
  readers : ∀ i, i ∈ l.readers ↔ r i
  writer : ∀ i, l.writer = some i ↔ w i

variable {l l' : RwLock ι} {r w r' w' : ι → Prop} {i j : ι}

omit [DecidableEq ι] in
/-- A writer is alone. -/
theorem Holds.alone (h : Holds l r w) (hi : w i) : ¬ r j ∧ (w j → j = i) := by
  have hw := (h.writer i).2 hi
  refine ⟨fun hj => ?_, fun hj => ?_⟩
  · have := (h.readers j).2 hj
    rw [l.apart (by rw [hw]; rfl)] at this
    exact absurd this (Finset.notMem_empty j)
  · exact Option.some_inj.1 (((h.writer j).2 hj).symm.trans hw)

theorem Holds.rdlock (h : Holds l r w) (hl : l.rdlock i = some l') (hr : ∀ j, r' j ↔ j = i ∨ r j)
    (hw : ∀ j, w' j ↔ w j) : Holds l' r' w' := by
  unfold RwLock.rdlock at hl
  split at hl
  · next hnone =>
    cases hl
    refine ⟨fun j => ?_, fun j => ?_⟩
    · rw [hr, ← h.readers, Finset.mem_insert]
    · rw [hw, ← h.writer, hnone]
  · cases hl

theorem Holds.wrlock (h : Holds l r w) (hl : l.wrlock i = some l') (hr : ∀ j, r' j ↔ r j)
    (hw : ∀ j, w' j ↔ j = i ∨ w j) : Holds l' r' w' := by
  unfold RwLock.wrlock at hl
  split at hl
  · next hfree =>
    cases hl
    refine ⟨fun j => ?_, fun j => ?_⟩
    · rw [hr, ← h.readers, hfree.2]
    · have hno : ¬ w j := by
        rw [← h.writer, hfree.1]
        exact (Option.some_ne_none j).symm
      rw [hw, Option.some_inj, eq_comm, or_iff_left hno]
  · cases hl

/-- One that holds it can give it up, and has given it up then. -/
theorem Holds.unlock (h : Holds l r w) (hi : r i ∨ w i) (hr : ∀ j, r' j ↔ j ≠ i ∧ r j) (hw : ∀ j, w' j ↔ j ≠ i ∧ w j) :
    ∃ l', l.unlock i = some l' ∧ Holds l' r' w' := by
  by_cases hwi : l.writer = some i
  · refine ⟨_, if_pos hwi, fun j => ?_, fun j => ?_⟩
    · have hj := (h.alone ((h.writer i).1 hwi) (j := j)).1
      rw [hr, h.readers]
      exact iff_of_false hj fun hr => hj hr.2
    · rw [hw]
      exact iff_of_false (Option.some_ne_none j).symm fun hj =>
        hj.1 ((h.alone ((h.writer i).1 hwi)).2 hj.2)
  · have hri : i ∈ l.readers := (h.readers i).2 (hi.resolve_right fun hi => hwi ((h.writer i).2 hi))
    have hnone : l.writer = none := by
      rw [Option.eq_none_iff_forall_ne_some]
      intro j hj
      exact (h.alone ((h.writer j).1 hj)).1 ((h.readers i).1 hri)
    refine ⟨_, (if_neg hwi).trans (if_pos hri), fun j => ?_, fun j => ?_⟩
    · rw [hr, ← h.readers, Finset.mem_erase]
    · rw [hw, ← h.writer, hnone]
      exact iff_of_false (Option.some_ne_none j).symm fun hj => Option.some_ne_none j hj.2.symm

end RwLock

end SysProg
