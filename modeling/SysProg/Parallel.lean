/-
The sum of an array of ints: by one loop (serial.c), and by threads that sum
a chunk each, joined one after the other (parallel.c).

The chunks have N / cores elements, all of them; the last N % cores elements
of the array are in none.
-/
import SysProg.Lib.Chunks
import SysProg.Lib.Lts
import Mathlib.Algebra.Group.Action.Defs
import Mathlib.Algebra.Order.BigOperators.Group.List
import Mathlib.Algebra.Order.Ring.Int
import Mathlib.Algebra.Order.Ring.Nat

namespace SysProg

/-! ## serial.c -/

namespace Serial

/-- The loop of `get_sum`; `none` when it reads beyond the array. -/
def loop (array : List Int32) (size i : Nat) (sum : Int) : Option Int :=
  if i < size then
    match array[i]? with
    | some x => loop array size (i + 1) (sum + x.toInt)
    | none => none
  else some sum
termination_by size - i

/-- The sum of an array, added up in an `int`. -/
def get_sum (array : List Int32) (size : Nat) : Option Int := loop array size 0 0

end Serial

/-! ## parallel.c -/

namespace Parallel

/-- A `task_data`; the array is that of `main`. -/
structure Task where
  start : Nat
  size : Nat
  deriving DecidableEq

/-- The variables of a `get_sum` in its loop. -/
structure Loop where
  size : Nat
  i : Nat
  k : Nat
  sum : Int
  deriving DecidableEq

/-- Where `main` is: before the number of cores divides anything, and in its
two loops. -/
inductive Main where
  | start
  | create (i start : Nat)
  | join (i : Nat) (sum : Int)
  | printed (sum : Int)
  deriving DecidableEq

/-- The program and its threads. -/
structure State where
  main : Main
  /-- The tasks set, one for each thread created. -/
  tasks : List Task
  /-- The threads created: `none` for one that has not begun. -/
  threads : List (Option Loop)
  /-- The elements read, in their order. -/
  reads : List Nat
  deriving DecidableEq

/-- Before the first statement of `main`. -/
def State.init : State := ⟨.start, [], [], []⟩

/-- The elements of each thread. -/
def task_data_size (array : List Int32) (number_of_cores : Nat) : Nat := array.length / number_of_cores

/-- The next step of `main`; `none` while it waits for a thread, when it is
done, and for a division by zero. -/
def mainStep (array : List Int32) (number_of_cores : Nat) (s : State) : Option State :=
  match s.main with
  | .start => if number_of_cores = 0 then none else some { s with main := .create 0 0 }
  | .create i start =>
    if i < number_of_cores then
      some { s with
        main := .create (i + 1) (start + task_data_size array number_of_cores)
        tasks := s.tasks ++ [⟨start, task_data_size array number_of_cores⟩]
        threads := s.threads ++ [none] }
    else some { s with main := .join 0 0 }
  | .join i sum =>
    if i < number_of_cores then
      match s.threads[i]?.join with
      | some th => if th.i < th.size then none else some { s with main := .join (i + 1) (sum + th.sum) }
      | none => none
    else some { s with main := .printed sum }
  | .printed _ => none

/-- The next step of thread `j`: it looks up its task, or reads an element;
`none` when it has returned its sum, or reads beyond the array. -/
def threadStep (array : List Int32) (s : State) (j : Nat) : Option State :=
  match s.threads[j]? with
  | none => none
  | some none =>
    match s.tasks[j]? with
    | some td => some { s with threads := s.threads.set j (some ⟨td.size, 0, td.start, 0⟩) }
    | none => none
  | some (some th) =>
    if th.i < th.size then
      match array[th.k]? with
      | some x => some { s with
          threads := s.threads.set j (some ⟨th.size, th.i + 1, th.k + 1, th.sum + x.toInt⟩)
          reads := s.reads ++ [th.k] }
      | none => none
    else none

/-- Who is next. -/
inductive Action where
  | main
  | thread (j : Nat)

/-- The next state, where there is a step to take. -/
def step (array : List Int32) (number_of_cores : Nat) (s : State) : Action → Option State
  | .main => mainStep array number_of_cores s
  | .thread j => threadStep array s j

/-! ## Sums -/

/-- The sum of the elements. -/
def total (l : List Int32) : Int := (l.map Int32.toInt).sum

theorem total_append (l l' : List Int32) : total (l ++ l') = total l + total l' := by
  rw [total, List.map_append, List.sum_append, total, total]

theorem total_take_succ {l : List Int32} {i : Nat} {x : Int32} (h : l[i]? = some x) :
    total (l.take (i + 1)) = total (l.take i) + x.toInt := by
  rw [List.take_add_one, h, total_append]
  simp [total]

theorem total_bounds (l : List Int32) : -(2 ^ 31 * l.length : Int) ≤ total l ∧ total l ≤ 2 ^ 31 * l.length := by
  induction l with
  | nil => decide
  | cons x l ih =>
    have htotal : total (x :: l) = x.toInt + total l := rfl
    have hle := Int32.le_toInt x
    have hlt := Int32.toInt_lt x
    rw [htotal, List.length_cons]
    omega

theorem total_fits {l : List Int32} (h : l.length < 2 ^ 31) : -2 ^ 63 ≤ total l ∧ total l < 2 ^ 63 := by
  have := total_bounds l
  omega

theorem serial_loop (array : List Int32) {i : Nat} (hi : i ≤ array.length) :
    Serial.loop array array.length i (total (array.take i)) = some (total array) := by
  induction hn : array.length - i generalizing i with
  | zero =>
    rw [Serial.loop, if_neg (by omega), List.take_of_length_le (by omega)]
  | succ n ih =>
    have hget : array[i]? = some array[i] := List.getElem?_eq_getElem (by omega)
    rw [Serial.loop, if_pos (by omega), hget]
    dsimp only
    rw [← total_take_succ hget]
    exact ih (by omega) (by omega)

theorem serial_get_sum (array : List Int32) : Serial.get_sum array array.length = some (total array) :=
  serial_loop array (Nat.zero_le _)

/-! ## What a step does -/

section

variable {array : List Int32} {cores : Nat} {s s' : State}

theorem mainStep_cases (h : mainStep array cores s = some s') :
    (s.main = .start ∧ 0 < cores ∧ s' = { s with main := .create 0 0 }) ∨
    (∃ i start, s.main = .create i start ∧ i < cores ∧ s' = { s with
      main := .create (i + 1) (start + task_data_size array cores)
      tasks := s.tasks ++ [⟨start, task_data_size array cores⟩]
      threads := s.threads ++ [none] }) ∨
    (∃ i start, s.main = .create i start ∧ cores ≤ i ∧ s' = { s with main := .join 0 0 }) ∨
    (∃ i sum th, s.main = .join i sum ∧ i < cores ∧ s.threads[i]? = some (some th) ∧ th.size ≤ th.i ∧
      s' = { s with main := .join (i + 1) (sum + th.sum) }) ∨
    ∃ i sum, s.main = .join i sum ∧ cores ≤ i ∧ s' = { s with main := .printed sum } := by
  unfold mainStep at h
  split at h
  · next hmain =>
    split at h
    · cases h
    · next hcores =>
      cases h
      exact .inl ⟨hmain, Nat.pos_of_ne_zero hcores, rfl⟩
  · next i start hmain =>
    split at h
    · next hi =>
      cases h
      exact .inr (.inl ⟨i, start, hmain, hi, rfl⟩)
    · next hi =>
      cases h
      exact .inr (.inr (.inl ⟨i, start, hmain, Nat.not_lt.1 hi, rfl⟩))
  · next i sum hmain =>
    split at h
    · next hi =>
      split at h
      · next th hth =>
        split at h
        · cases h
        · next hend =>
          cases h
          exact .inr (.inr (.inr (.inl ⟨i, sum, th, hmain, hi, Option.join_eq_some_iff.1 hth,
            Nat.not_lt.1 hend, rfl⟩)))
      · cases h
    · next hi =>
      cases h
      exact .inr (.inr (.inr (.inr ⟨i, sum, hmain, Nat.not_lt.1 hi, rfl⟩)))
  · cases h

theorem threadStep_cases {j : Nat} (h : threadStep array s j = some s') :
    (∃ td, s.threads[j]? = some none ∧ s.tasks[j]? = some td ∧
      s' = { s with threads := s.threads.set j (some ⟨td.size, 0, td.start, 0⟩) }) ∨
    ∃ th x, s.threads[j]? = some (some th) ∧ th.i < th.size ∧ array[th.k]? = some x ∧ s' = { s with
      threads := s.threads.set j (some ⟨th.size, th.i + 1, th.k + 1, th.sum + x.toInt⟩)
      reads := s.reads ++ [th.k] } := by
  unfold threadStep at h
  split at h
  · cases h
  · next hth =>
    split at h
    · next td htd =>
      cases h
      exact .inl ⟨td, hth, htd, rfl⟩
    · cases h
  · next th hth =>
    split at h
    · next hi =>
      split at h
      · next x hx =>
        cases h
        exact .inr ⟨th, x, hth, hi, hx, rfl⟩
      · cases h
    · cases h

/-! ## What is kept -/

/-- Thread `j` has returned. -/
def Finished (threads : List (Option Loop)) (j : Nat) : Prop :=
  ∃ th, threads[j]? = some (some th) ∧ th.size ≤ th.i

theorem Finished.set {threads : List (Option Loop)} {j j' : Nat} (h : Finished threads j') (hj : ¬ Finished threads j)
    (th : Option Loop) : Finished (threads.set j th) j' := by
  obtain ⟨th', hget, hend⟩ := h
  have hne : j ≠ j' := fun he => hj (he ▸ ⟨th', hget, hend⟩)
  exact ⟨th', by rw [List.getElem?_set_ne hne, hget], hend⟩

/-- Thread `j` has summed the first elements of the chunk of `m` elements that
is its task. -/
structure LoopOk (array : List Int32) (m j : Nat) (th : Loop) : Prop where
  size : th.size = m
  le : th.i ≤ m
  k : th.k = j * m + th.i
  sum : th.sum = total ((array.drop (j * m)).take th.i)

/-- What `main` has done, by where it is: it has joined threads that have
returned, and has the sum of their chunks. -/
def MainOk (array : List Int32) (cores : Nat) (threads : List (Option Loop)) : Main → Prop
  | .start => threads = []
  | .create i start => i ≤ cores ∧ threads.length = i ∧ start = i * task_data_size array cores
  | .join i sum => i ≤ cores ∧ threads.length = cores ∧ (∀ j < i, Finished threads j) ∧
      sum = total (array.take (i * task_data_size array cores))
  | .printed sum => threads.length = cores ∧ (∀ j < cores, Finished threads j) ∧
      sum = total (array.take (cores * task_data_size array cores))

/-- The elements a thread has read. -/
def readBy : Option Loop → List Nat
  | none => []
  | some th => List.range' (th.k - th.i) th.i

/-- Every thread has its chunk for a task, and is in it; the elements read are
those the threads have read. -/
structure Inv (array : List Int32) (cores : Nat) (s : State) : Prop where
  tasks : s.tasks = (List.range s.threads.length).map fun j =>
    ⟨j * task_data_size array cores, task_data_size array cores⟩
  loops : ∀ j th, s.threads[j]? = some (some th) → LoopOk array (task_data_size array cores) j th
  reads : s.reads.Perm (s.threads.flatMap readBy)
  main : MainOk array cores s.threads s.main

theorem Inv.init : Inv array cores .init where
  tasks := rfl
  loops j th h := by cases h
  reads := .nil
  main := rfl

theorem MainOk.length_le {threads : List (Option Loop)} {main : Main} (h : MainOk array cores threads main) :
    threads.length ≤ cores := by
  cases main with
  | start => rw [show threads = [] from h]; exact Nat.zero_le _
  | create i start => exact h.2.1.le.trans h.1
  | join i sum => exact h.2.1.le
  | printed sum => exact h.1.le

theorem MainOk.set {threads : List (Option Loop)} {main : Main} {j : Nat} (h : MainOk array cores threads main)
    (hj : ¬ Finished threads j) (th : Option Loop) : MainOk array cores (threads.set j th) main := by
  cases main with
  | start =>
    have hnil : threads = [] := h
    rw [hnil]
    rfl
  | create i start => exact ⟨h.1, by rw [List.length_set]; exact h.2.1, h.2.2⟩
  | join i sum =>
    exact ⟨h.1, by rw [List.length_set]; exact h.2.1, fun j' hj' => (h.2.2.1 j' hj').set hj th, h.2.2.2⟩
  | printed sum => exact ⟨by rw [List.length_set]; exact h.1, fun j' hj' => (h.2.1 j' hj').set hj th, h.2.2⟩

/-- A step of a thread keeps the invariant, if the thread's part of it is kept. -/
theorem Inv.set {j : Nat} {old : Option Loop} {th : Loop} {reads : List Nat} (h : Inv array cores s)
    (hold : s.threads[j]? = some old) (hrun : ∀ th, old = some th → th.i < th.size)
    (hok : LoopOk array (task_data_size array cores) j th) (hread : readBy (some th) = readBy old ++ reads) :
    Inv array cores { s with threads := s.threads.set j (some th), reads := s.reads ++ reads } where
  tasks := by
    rw [List.length_set]
    exact h.tasks
  loops j' th' hget := by
    by_cases hj : j = j'
    · subst hj
      rw [List.getElem?_set_self (List.getElem?_eq_some_iff.1 hold).1] at hget
      cases hget
      exact hok
    · rw [List.getElem?_set_ne hj] at hget
      exact h.loops j' th' hget
  reads := (h.reads.append_right reads).trans (flatMap_set_perm readBy hold hread).symm
  main := by
    refine h.main.set ?_ _
    intro hfin
    obtain ⟨th', hget, hend⟩ := hfin
    rw [hold] at hget
    have := hrun th' (Option.some.inj hget)
    omega

theorem Inv.thread {j : Nat} (h : Inv array cores s) (hstep : threadStep array s j = some s') : Inv array cores s' := by
  rcases threadStep_cases hstep with ⟨td, hold, htd, rfl⟩ | ⟨th, x, hold, hi, hx, rfl⟩
  · have htask : td = ⟨j * task_data_size array cores, task_data_size array cores⟩ := by
      rw [h.tasks, List.getElem?_map, Option.map_eq_some_iff] at htd
      obtain ⟨j', hj', rfl⟩ := htd
      rw [List.getElem?_eq_some_iff] at hj'
      rw [← hj'.2, List.getElem_range]
    have hok : LoopOk array (task_data_size array cores) j ⟨td.size, 0, td.start, 0⟩ := by
      rw [htask]
      exact ⟨rfl, Nat.zero_le _, rfl, rfl⟩
    have hnone : readBy (some ⟨td.size, 0, td.start, 0⟩) = readBy none ++ [] := rfl
    have := h.set hold (fun th he => by cases he) hok hnone
    rwa [List.append_nil] at this
  · obtain ⟨hsize, hle, hk, hsum⟩ := h.loops j th hold
    refine h.set hold (fun th' he => by cases he; exact hi) ⟨hsize, by dsimp only; omega, by dsimp only; omega, ?_⟩ ?_
    · have hget : (array.drop (j * task_data_size array cores))[th.i]? = some x := by
        rw [List.getElem?_drop, ← hk, hx]
      dsimp only
      rw [total_take_succ hget, hsum]
    · have hfirst : th.k + 1 - (th.i + 1) = th.k - th.i := by omega
      have hlast : th.k - th.i + th.i = th.k := by omega
      simp only [readBy]
      rw [hfirst, List.range'_1_concat, hlast]

theorem total_take_chunk (array : List Int32) (i m : Nat) :
    total (array.take ((i + 1) * m)) = total (array.take (i * m)) + total ((array.drop (i * m)).take m) := by
  rw [Nat.succ_mul, List.take_add, total_append]

theorem Inv.mainStep (h : Inv array cores s) (hstep : mainStep array cores s = some s') : Inv array cores s' := by
  have hmain := h.main
  rcases mainStep_cases hstep with ⟨he, hpos, rfl⟩ | ⟨i, start, he, hi, rfl⟩ | ⟨i, start, he, hi, rfl⟩ |
    ⟨i, sum, th, he, hi, hth, hend, rfl⟩ | ⟨i, sum, he, hi, rfl⟩
  · rw [he] at hmain
    have hnil : s.threads = [] := hmain
    exact ⟨h.tasks, h.loops, h.reads, Nat.zero_le _, by rw [hnil]; rfl, (Nat.zero_mul _).symm⟩
  · rw [he] at hmain
    obtain ⟨hle, hlen, rfl⟩ := hmain
    refine ⟨?_, ?_, ?_, hi, ?_, (Nat.succ_mul ..).symm⟩
    · dsimp only
      rw [h.tasks, List.length_append, List.length_singleton, List.range_succ, List.map_append, hlen]
      rfl
    · intro j th hget
      rcases Nat.lt_or_ge j s.threads.length with hj | hj
      · rw [List.getElem?_append_left hj] at hget
        exact h.loops j th hget
      · rw [List.getElem?_append_right hj] at hget
        cases List.mem_singleton.1 (List.mem_of_getElem? hget)
    · dsimp only
      rw [List.flatMap_append, List.flatMap_singleton, readBy, List.append_nil]
      exact h.reads
    · rw [List.length_append, hlen]
      rfl
  · rw [he] at hmain
    obtain ⟨hle, hlen, -⟩ := hmain
    have hall : s.threads.length = cores := by omega
    refine ⟨h.tasks, h.loops, h.reads, Nat.zero_le _, hall, fun j hj => absurd hj (Nat.not_lt_zero j), ?_⟩
    rw [Nat.zero_mul]
    rfl
  · rw [he] at hmain
    obtain ⟨hle, hlen, hfin, hsum⟩ := hmain
    refine ⟨h.tasks, h.loops, h.reads, hi, hlen, ?_, ?_⟩
    · intro j hj
      rcases Nat.lt_succ_iff_lt_or_eq.1 hj with hj | rfl
      · exact hfin j hj
      · exact ⟨th, hth, hend⟩
    · obtain ⟨hsize, hi', -, hthread⟩ := h.loops i th hth
      have hall : th.i = task_data_size array cores := by omega
      rw [total_take_chunk, hsum, hthread, hall]
  · rw [he] at hmain
    obtain ⟨hle, hlen, hfin, hsum⟩ := hmain
    obtain rfl : i = cores := by omega
    exact ⟨h.tasks, h.loops, h.reads, hlen, hfin, hsum⟩

theorem Inv.step {a : Action} (h : Inv array cores s) (hstep : step array cores s a = some s') :
    Inv array cores s' := by
  cases a with
  | main => exact h.mainStep hstep
  | thread j => exact h.thread hstep

theorem chunk_le (array : List Int32) {j : Nat} (hj : j < cores) :
    (j + 1) * task_data_size array cores ≤ array.length :=
  calc (j + 1) * task_data_size array cores
    _ ≤ cores * task_data_size array cores := Nat.mul_le_mul_right _ hj
    _ ≤ array.length := Nat.mul_div_le array.length cores

/-- A thread that has not returned takes its next step. -/
theorem Inv.thread_goes {j : Nat} (h : Inv array cores s) (hj : j < s.threads.length) (hfin : ¬ Finished s.threads j) :
    ∃ s', threadStep array s j = some s' := by
  have hget : s.threads[j]? = some s.threads[j] := List.getElem?_eq_getElem hj
  unfold threadStep
  cases hth : s.threads[j] with
  | none =>
    have htask : s.tasks[j]? = some ⟨j * task_data_size array cores, task_data_size array cores⟩ := by
      rw [h.tasks, List.getElem?_map, List.getElem?_range hj]
      rfl
    rw [hget, hth, htask]
    exact ⟨_, rfl⟩
  | some th =>
    rw [hth] at hget
    have hi : th.i < th.size := by
      by_contra hend
      exact hfin ⟨th, hget, Nat.not_lt.1 hend⟩
    obtain ⟨hsize, -, hk, -⟩ := h.loops j th hget
    have hchunk := chunk_le array (hj.trans_le h.main.length_le)
    rw [Nat.succ_mul] at hchunk
    have hx : array[th.k]? = some array[th.k] := List.getElem?_eq_getElem (by omega)
    rw [hget]
    dsimp only
    rw [if_pos hi, hx]
    exact ⟨_, rfl⟩

/-- Until the sum is printed there is a step to take. -/
theorem Inv.goes (h : Inv array cores s) (hcores : 0 < cores) :
    (∃ sum, s.main = .printed sum) ∨ ∃ a s', Parallel.step array cores s a = some s' := by
  have hmain := h.main
  cases he : s.main with
  | start => exact .inr ⟨.main, _, by simp only [Parallel.step, Parallel.mainStep, he]; exact if_neg (by omega)⟩
  | create i start =>
    right
    by_cases hi : i < cores
    · exact ⟨.main, _, by simp only [Parallel.step, Parallel.mainStep, he]; exact if_pos hi⟩
    · exact ⟨.main, _, by simp only [Parallel.step, Parallel.mainStep, he]; exact if_neg hi⟩
  | join i sum =>
    right
    rw [he] at hmain
    by_cases hi : i < cores
    · by_cases hfin : Finished s.threads i
      · obtain ⟨th, hget, hend⟩ := hfin
        refine ⟨.main, { s with main := .join (i + 1) (sum + th.sum) }, ?_⟩
        simp only [Parallel.step, Parallel.mainStep, he, hget]
        rw [if_pos hi]
        exact if_neg (Nat.not_lt.2 hend)
      · obtain ⟨s', hs'⟩ := h.thread_goes (by rw [hmain.2.1]; exact hi) hfin
        exact ⟨.thread i, s', hs'⟩
    · exact ⟨.main, _, by simp only [Parallel.step, Parallel.mainStep, he]; exact if_neg hi⟩
  | printed sum => exact .inl ⟨sum, rfl⟩

/-! ## The steps of a run -/

/-- The steps `main` has taken, by where it is. -/
def Main.count (cores : Nat) : Main → Nat
  | .start => 0
  | .create i _ => i + 1
  | .join i _ => cores + 2 + i
  | .printed _ => 2 * cores + 3

/-- The steps of a thread. -/
def threadCount : Option Loop → Nat
  | none => 0
  | some th => th.i + 1

/-- The steps that have been taken. -/
def State.count (cores : Nat) (s : State) : Nat := s.main.count cores + (s.threads.map threadCount).sum

theorem Inv.count_step {a : Action} (h : Inv array cores s) (hstep : Parallel.step array cores s a = some s') :
    s'.count cores = s.count cores + 1 := by
  have hmain := h.main
  cases a with
  | main =>
    rcases mainStep_cases hstep with ⟨he, -, rfl⟩ | ⟨i, start, he, -, rfl⟩ | ⟨i, start, he, hi, rfl⟩ |
      ⟨i, sum, th, he, -, -, -, rfl⟩ | ⟨i, sum, he, hi, rfl⟩
    · simp only [State.count, he, Main.count]
      omega
    · simp only [State.count, he, Main.count, List.map_append, List.sum_append, List.map_cons, List.map_nil,
        List.sum_cons, List.sum_nil, threadCount]
      omega
    · rw [he] at hmain
      obtain ⟨hle, -⟩ := hmain
      simp only [State.count, he, Main.count]
      omega
    · simp only [State.count, he, Main.count]
      omega
    · rw [he] at hmain
      obtain ⟨hle, -⟩ := hmain
      simp only [State.count, he, Main.count]
      omega
  | thread j =>
    rcases threadStep_cases hstep with ⟨td, hold, -, rfl⟩ | ⟨th, x, hold, -, -, rfl⟩
    · simp only [State.count]
      rw [sum_set hold (show threadCount (some ⟨td.size, 0, td.start, 0⟩) = threadCount none + 1 from rfl)]
      omega
    · simp only [State.count]
      rw [sum_set hold (show threadCount (some ⟨th.size, th.i + 1, th.k + 1, th.sum + x.toInt⟩) =
        threadCount (some th) + 1 from rfl)]
      omega

/-- At most: those of `main`, and for each thread one and its chunk. -/
def bound (array : List Int32) (cores : Nat) : Nat := 2 * cores + 3 + cores * (task_data_size array cores + 1)

theorem Inv.count_le (h : Inv array cores s) : s.count cores ≤ bound array cores := by
  have hplace : s.main.count cores ≤ 2 * cores + 3 := by
    have hmain := h.main
    cases he : s.main with
    | start => simp only [Main.count]; omega
    | create i start => rw [he] at hmain; have := hmain.1; simp only [Main.count]; omega
    | join i sum => rw [he] at hmain; have := hmain.1; simp only [Main.count]; omega
    | printed sum => simp only [Main.count]; omega
  have hthreads : (s.threads.map threadCount).sum ≤ s.threads.length * (task_data_size array cores + 1) := by
    have hle : ∀ n ∈ s.threads.map threadCount, n ≤ task_data_size array cores + 1 := by
      intro n hn
      obtain ⟨o, ho, rfl⟩ := List.mem_map.1 hn
      obtain ⟨j, hj⟩ := List.mem_iff_getElem?.1 ho
      cases o with
      | none => exact Nat.zero_le _
      | some th => exact Nat.succ_le_succ (h.loops j th hj).le
    have := List.sum_le_card_nsmul _ _ hle
    rwa [List.length_map, smul_eq_mul] at this
  have hlen : s.threads.length * (task_data_size array cores + 1) ≤ cores * (task_data_size array cores + 1) :=
    Nat.mul_le_mul_right _ h.main.length_le
  unfold State.count bound
  omega

/-! ## Complete runs -/

/-- What is printed is the sum of the chunks, and the elements read are theirs. -/
theorem Inv.printed {sum : Int} (h : Inv array cores s) (hp : s.main = .printed sum) :
    sum = total (array.take (cores * task_data_size array cores)) ∧
      s.reads.Perm (List.range (cores * task_data_size array cores)) := by
  have hmain := h.main
  rw [hp] at hmain
  obtain ⟨hlen, hfin, hsum⟩ := hmain
  have hread : s.threads.map readBy =
      (List.range cores).map fun j => List.range' (j * task_data_size array cores) (task_data_size array cores) := by
    apply List.ext_getElem (by rw [List.length_map, List.length_map, List.length_range, hlen])
    intro j h₁ h₂
    rw [List.length_map] at h₁
    obtain ⟨th, hget, hend⟩ := hfin j (by omega)
    obtain ⟨hsize, hle, hk, -⟩ := h.loops j th hget
    have hi : th.i = task_data_size array cores := by omega
    rw [List.getElem_map, List.getElem_map, List.getElem_range, (List.getElem?_eq_some_iff.1 hget).2, readBy, hk,
      Nat.add_sub_cancel, hi]
  refine ⟨hsum, ?_⟩
  rw [← flatMap_range', List.flatMap_def, ← hread, ← List.flatMap_def]
  exact h.reads

theorem inv_of_reach (h : Reach (Parallel.step array cores) anyStep .init s) : Inv array cores s :=
  h.invariant (fun _ _ _ hI _ hstep => hI.step hstep) .init

/-- No sum of a thread or of `main` overflows. -/
theorem sums_fit (h : Reach (Parallel.step array cores) anyStep .init s) (hlen : array.length < 2 ^ 31) :
    (∀ (j : Nat) (th : Loop), s.threads[j]? = some (some th) → -2 ^ 63 ≤ th.sum ∧ th.sum < 2 ^ 63) ∧
    ∀ i sum, s.main = .join i sum → -2 ^ 63 ≤ sum ∧ sum < 2 ^ 63 := by
  have hI := inv_of_reach h
  constructor
  · intro j th hget
    rw [(hI.loops j th hget).sum]
    apply total_fits
    rw [List.length_take, List.length_drop]
    omega
  · intro i sum hp
    have hmain := hI.main
    rw [hp] at hmain
    rw [hmain.2.2.2]
    apply total_fits
    rw [List.length_take]
    omega

end

/-- Every run can be completed. -/
theorem comes_to_print (array : List Int32) {cores : Nat} (hcores : 0 < cores) :
    ∃ s, Reach (step array cores) anyStep .init s ∧ ∃ sum, s.main = .printed sum := by
  refine Reach.comes_to (I := Inv array cores) ?_ (fun s hI => hI.count_le) ?_ .init
  · intro s a s' hI hstep
    exact ⟨hI.step hstep, hI.count_step hstep⟩
  · intro s hI
    rcases hI.goes hcores with hp | ⟨a, s', hstep⟩
    · exact .inl hp
    · exact .inr ⟨a, s', trivial, hstep⟩

/-- The sum is that of `get_sum` in serial.c, and every element of the array
was read once. -/
def AsSerial (array : List Int32) (s : State) (sum : Int) : Prop :=
  Serial.get_sum array array.length = some sum ∧ s.reads.Perm (List.range array.length)

/-- Whatever the order of their steps, the threads and `main` come to an end,
and the sum printed is then the serial one, of elements each read once,
exactly when the number of cores divides that of the elements. -/
theorem as_serial_iff (array : List Int32) {cores : Nat} (hcores : 0 < cores) (as : List Action) (s : State)
    (hrun : exec (step array cores) anyStep .init as = some s) :
    as.length ≤ bound array cores ∧
    ((∃ sum, s.main = .printed sum) ∨ ∃ a s', step array cores s a = some s') ∧
    ∀ sum, s.main = .printed sum → (AsSerial array s sum ↔ cores ∣ array.length) := by
  have hI := inv_of_reach (reach_of_exec hrun)
  have hcount := exec_count (fun _ _ _ hI hstep => ⟨Inv.step hI hstep, Inv.count_step hI hstep⟩)
    (show Inv array cores .init from .init) hrun
  have hle := hI.count_le
  refine ⟨by omega, hI.goes hcores, ?_⟩
  intro sum hp
  obtain ⟨hsum, hread⟩ := hI.printed hp
  unfold AsSerial
  rw [serial_get_sum]
  constructor
  · intro h
    have hlen := (hread.symm.trans h.2).length_eq
    rw [List.length_range, List.length_range] at hlen
    exact ⟨_, hlen.symm⟩
  · intro h
    have hall : cores * task_data_size array cores = array.length := Nat.mul_div_cancel' h
    rw [hall] at hsum hread
    rw [List.take_length] at hsum
    exact ⟨by rw [hsum], hread⟩

/-- Two threads on four elements, a step of the one and of the other. -/
theorem two_cores_interleaved : ∃ as s, exec (step [1, 2, 3, 4] 2) anyStep .init as = some s ∧
    s.main = .printed 10 ∧ s.reads = [2, 0, 3, 1] ∧ (AsSerial [1, 2, 3, 4] s 10 ↔ 2 ∣ 4) := by
  have hrun : exec (step [1, 2, 3, 4] 2) anyStep .init [.main, .main, .main, .main, .thread 1, .thread 0, .thread 1,
      .thread 0, .thread 1, .thread 0, .main, .main, .main] = some ⟨.printed 10, [⟨0, 2⟩, ⟨2, 2⟩],
        [some ⟨2, 2, 2, 3⟩, some ⟨2, 2, 4, 7⟩], [2, 0, 3, 1]⟩ := by decide
  exact ⟨_, _, hrun, rfl, rfl, (as_serial_iff [1, 2, 3, 4] (by decide) _ _ hrun).2.2 10 rfl⟩

/-- The size of the array. -/
def N : Nat := 400000000

/-- The array of `main`. -/
def ones : List Int32 := List.replicate N 1

theorem total_ones (n : Nat) : total (List.replicate n 1) = n := by
  have hone : Int32.toInt 1 = 1 := by decide
  rw [total, List.map_replicate, List.sum_replicate, hone]
  simp

/-- On three cores one of the 400000000 elements is in no chunk. -/
theorem three_cores_miss : ∃ s, Reach (step ones 3) anyStep .init s ∧ s.main = .printed 399999999 ∧
    Serial.get_sum ones ones.length = some 400000000 ∧ ¬ s.reads.Perm (List.range ones.length) := by
  have hlen : ones.length = N := List.length_replicate
  obtain ⟨s, hreach, sum, hp⟩ := comes_to_print ones (show 0 < 3 by decide)
  obtain ⟨hsum, hread⟩ := (inv_of_reach hreach).printed hp
  refine ⟨s, hreach, ?_, ?_, ?_⟩
  · have htotal : total (ones.take (3 * task_data_size ones 3)) = 399999999 := by
      rw [task_data_size, hlen, ones, List.take_replicate, total_ones]
      rfl
    rw [hp, hsum, htotal]
  · rw [serial_get_sum, ones, total_ones]
    rfl
  · intro h
    have := (hread.symm.trans h).length_eq
    rw [List.length_range, List.length_range, task_data_size, hlen] at this
    exact absurd this (by decide)

end Parallel

end SysProg
