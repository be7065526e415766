/-
proc_mutex.c: processes that count together in a shared area, under a mutex
that lies in it. The process that creates the file of the area is to size it
and to initialise the mutex; but its flag for true is 0, which `if` takes for
false, so the others do both, each of them, and the creator neither.

A process that is interrupted unlocks the mutex whoever holds it. Between the
delivery of the signal and that unlock others go on.
-/
import Mathlib.Data.Fintype.Basic
import Mathlib.Logic.Function.Basic
import Mathlib.Logic.IsEmpty.Basic
import SysProg.Lib.Lts

namespace SysProg.ProcMutex

/-- The values of a `boolean_t`. -/
def B_TRUE : Int := 0

/-- False, in the source. -/
def B_FALSE : Int := 1

/-- What C's `if` takes for true. -/
def holds (flag : Int) : Bool := flag ≠ 0

/-- Where a process is in `main`. -/
inductive Pc where
  /-- The `open` that creates the file, and fails if it exists. -/
  | create
  /-- The plain `open`. -/
  | reopen
  | truncate (createdHere : Int)
  | map (createdHere : Int)
  /-- Before the handler is set up. -/
  | signal (createdHere : Int)
  | initMutex
  /-- At `pthread_mutex_lock`, or waiting in it. -/
  | lock
  | read
  /-- With the count it has read and incremented, and is to store. -/
  | store (temporary_storage : Int)
  | unlock
  | pause
  /-- In the handler, before its unlock. What is kept is whether it was
  interrupted between lock and unlock. -/
  | cleanup (inside : Bool)
  /-- At the `exit` of the handler. -/
  | exit
  | exited
  deriving DecidableEq

/-- Between lock and unlock; the handler's unlock is one too. -/
def Pc.Inside : Pc → Prop
  | .read | .store _ | .unlock | .cleanup true => True
  | _ => False

instance : DecidablePred Pc.Inside
  | .read | .store _ | .unlock | .cleanup true => .isTrue trivial
  | .create | .reopen | .truncate _ | .map _ | .signal _ | .initMutex | .lock | .pause | .cleanup false | .exit |
    .exited => .isFalse id

/-- The calls that set the area up, and those that lock the mutex. -/
inductive Event (ι : Type) where
  | size (i : ι)
  | init (i : ι)
  | lock (i : ι)
  deriving DecidableEq

/-- The shared file and the processes. -/
structure State (ι : Type) where
  /-- The process that has created the file. -/
  file : Option ι
  /-- The file has the size of the area. It holds zeros at first. -/
  sized : Bool
  locked : Bool
  count : Int
  procs : ι → Pc
  /-- Not in the source: what has been called, how often the count has been
  stored, and how many iterations have been completed. -/
  log : List (Event ι)
  stores : Nat
  completed : Nat

/-- What can happen: a process takes the next step of its `main`, is
interrupted, or takes the next step of its handler. -/
inductive Action (ι : Type) where
  | main (i : ι)
  | sigint (i : ι)
  | cleanup (i : ι)

section

variable {ι : Type} [DecidableEq ι]

/-- The state with one process elsewhere. -/
def State.go (s : State ι) (i : ι) (pc : Pc) : State ι := { s with procs := Function.update s.procs i pc }

/-- `none` while the mutex is locked, in the handler, or when the process has
exited. An area that has no size yet cannot be accessed: the process is killed. -/
def main (s : State ι) (i : ι) : Option (State ι) :=
  match s.procs i with
  | .create =>
    match s.file with
    | none => some ({ s with file := some i }.go i (.truncate B_TRUE))
    | some _ => some (s.go i .reopen)
  | .reopen => some (s.go i (.truncate B_FALSE))
  | .truncate createdHere =>
    if holds createdHere then some ({ s with sized := true, log := s.log ++ [Event.size i] }.go i (.map createdHere))
    else some (s.go i (.map createdHere))
  | .map createdHere => some (s.go i (.signal createdHere))
  | .signal createdHere => if holds createdHere then some (s.go i .initMutex) else some (s.go i .lock)
  | .initMutex => some ({ s with locked := false, log := s.log ++ [Event.init i] }.go i .lock)
  | .lock =>
    if s.sized = false then some ({ s with log := s.log ++ [Event.lock i] }.go i .exited)
    else if s.locked then none
    else some ({ s with locked := true, log := s.log ++ [Event.lock i] }.go i .read)
  | .read => some (s.go i (.store (s.count + 1)))
  | .store temporary_storage => some ({ s with count := temporary_storage, stores := s.stores + 1 }.go i .unlock)
  | .unlock => some ({ s with locked := false, completed := s.completed + 1 }.go i .pause)
  | .pause => some (s.go i .lock)
  | .cleanup _ | .exit | .exited => none

/-- The handler of SIGINT: it unlocks the mutex, whoever holds it, and exits. -/
def cleanup (s : State ι) (i : ι) : Option (State ι) :=
  match s.procs i with
  | .cleanup _ => some ({ s with locked := false }.go i .exit)
  | .exit => some (s.go i .exited)
  | _ => none

/-- The delivery of SIGINT, which the handler blocks. -/
def sigint (s : State ι) (i : ι) : Option (State ι) :=
  match s.procs i with
  | .cleanup _ | .exit | .exited => none
  -- The handler is not yet set up: the process is killed.
  | .create | .reopen | .truncate _ | .map _ | .signal _ => some (s.go i .exited)
  | pc => some (s.go i (.cleanup (decide pc.Inside)))

/-- The next state, where there is a step to take. -/
def step (s : State ι) : Action ι → Option (State ι)
  | .main i => main s i
  | .sigint i => sigint s i
  | .cleanup i => cleanup s i

/-- No file, and no process has started. -/
def fresh : State ι := ⟨none, false, false, 0, fun _ => .create, [], 0, 0⟩

/-- Nobody interrupts. -/
def undisturbed (_ : State ι) : Action ι → Prop
  | .main _ | .cleanup _ => True
  | .sigint _ => False

/-- What a step of `main` does. -/
inductive Main (s : State ι) (i : ι) : State ι → Prop
  | create (pc : s.procs i = .create) (file : s.file = none) :
      Main s i ({ s with file := some i }.go i (.truncate B_TRUE))
  | exists (pc : s.procs i = .create) (file : s.file.isSome) : Main s i (s.go i .reopen)
  | reopen (pc : s.procs i = .reopen) : Main s i (s.go i (.truncate B_FALSE))
  | size (createdHere) (pc : s.procs i = .truncate createdHere) (flag : createdHere ≠ 0) :
      Main s i ({ s with sized := true, log := s.log ++ [Event.size i] }.go i (.map createdHere))
  | unsized (pc : s.procs i = .truncate 0) : Main s i (s.go i (.map 0))
  | map (createdHere) (pc : s.procs i = .map createdHere) : Main s i (s.go i (.signal createdHere))
  | toInit (createdHere) (pc : s.procs i = .signal createdHere) (flag : createdHere ≠ 0) : Main s i (s.go i .initMutex)
  | toLoop (pc : s.procs i = .signal 0) : Main s i (s.go i .lock)
  | init (pc : s.procs i = .initMutex) :
      Main s i ({ s with locked := false, log := s.log ++ [Event.init i] }.go i .lock)
  | killed (pc : s.procs i = .lock) (unsized : s.sized = false) :
      Main s i ({ s with log := s.log ++ [Event.lock i] }.go i .exited)
  | lock (pc : s.procs i = .lock) (sized : s.sized = true) (free : s.locked = false) :
      Main s i ({ s with locked := true, log := s.log ++ [Event.lock i] }.go i .read)
  | read (pc : s.procs i = .read) : Main s i (s.go i (.store (s.count + 1)))
  | store (temporary_storage) (pc : s.procs i = .store temporary_storage) :
      Main s i ({ s with count := temporary_storage, stores := s.stores + 1 }.go i .unlock)
  | unlock (pc : s.procs i = .unlock) :
      Main s i ({ s with locked := false, completed := s.completed + 1 }.go i .pause)
  | resume (pc : s.procs i = .pause) : Main s i (s.go i .lock)

theorem main_cases {s s' : State ι} {i : ι} (h : main s i = some s') : Main s i s' := by
  have hflag (flag : Int) (hf : ¬holds flag = true) : flag = 0 := by simpa [holds] using hf
  unfold main at h
  split at h
  · next pc =>
    split at h
    · next file => cases h; exact .create pc file
    · next file => cases h; exact .exists pc (by simp [file])
  · next pc => cases h; exact .reopen pc
  · next createdHere pc =>
    split at h
    · next flag => cases h; exact .size createdHere pc (by simpa [holds] using flag)
    · next flag => cases h; obtain rfl := hflag _ flag; exact .unsized pc
  · next createdHere pc => cases h; exact .map createdHere pc
  · next createdHere pc =>
    split at h
    · next flag => cases h; exact .toInit createdHere pc (by simpa [holds] using flag)
    · next flag => cases h; obtain rfl := hflag _ flag; exact .toLoop pc
  · next pc => cases h; exact .init pc
  · next pc =>
    split at h
    · next unsized => cases h; exact .killed pc unsized
    · next sized =>
      split at h
      · cases h
      · next free => cases h; exact .lock pc (by simpa using sized) (by simpa using free)
  · next pc => cases h; exact .read pc
  · next pc => cases h; exact .store _ pc
  · next pc => cases h; exact .unlock pc
  · next pc => cases h; exact .resume pc
  all_goals cases h

instance (s : State ι) : (a : Action ι) → Decidable (undisturbed s a)
  | .main _ | .cleanup _ => .isTrue trivial
  | .sigint _ => .isFalse id

theorem cleanup_cases {s s' : State ι} {i : ι} (h : cleanup s i = some s') :
    (∃ inside, s.procs i = .cleanup inside ∧ s' = { s with locked := false }.go i .exit) ∨
      (s.procs i = .exit ∧ s' = s.go i .exited) := by
  unfold cleanup at h
  split at h
  · next inside pc =>
    cases h
    exact .inl ⟨inside, pc, rfl⟩
  · next pc =>
    cases h
    exact .inr ⟨pc, rfl⟩
  · cases h

/-! ## Start-up -/

/-- What start-up and the loop are to do: the creator, and nobody else, sizes
the area and initialises the mutex, before anyone locks it; one process at a
time is between lock and unlock; and every unlock leaves the count equal to
the number of iterations completed. -/
structure Safe (s : State ι) : Prop where
  creator : ∀ i, Event.size i ∈ s.log ∨ .init i ∈ s.log → s.file = some i
  before : ∀ earlier i later, s.log = earlier ++ .lock i :: later → ∃ j, Event.size j ∈ earlier ∧ .init j ∈ earlier
  exclusive : ∀ i j, (s.procs i).Inside → (s.procs j).Inside → i = j
  counted : ∀ i s', s.procs i = .unlock → main s i = some s' → s'.count = s'.completed

/-- A process that has made none of the calls yet. -/
def Early (file : Option ι) (i : ι) : Pc → Prop
  | .create => file ≠ some i
  | .reopen => file ≠ some i ∧ file.isSome
  | .truncate createdHere => createdHere = B_TRUE ∨ file ≠ some i ∧ file.isSome
  | .map createdHere | .signal createdHere => createdHere = B_TRUE
  | .lock => True
  | _ => False

/-- The first call is made by the wrong process, or too early. -/
def Wrong (s : State ι) : Prop :=
  (∃ i rest, s.log = .size i :: rest ∧ s.file ≠ some i ∧ s.file.isSome) ∨ ∃ i rest, s.log = .lock i :: rest

/-- Until the first call each process is where `main` can be before it, and after it something is wrong. -/
def Inv (s : State ι) : Prop := (s.log = [] ∧ ∀ i, Early s.file i (s.procs i)) ∨ Wrong s

theorem Wrong.not_safe {s : State ι} (h : Wrong s) : ¬Safe s := by
  rintro ⟨hcreator, hbefore, -, -⟩
  rcases h with ⟨i, rest, hlog, hfile, -⟩ | ⟨i, rest, hlog⟩
  · exact hfile (hcreator i (.inl (by simp [hlog])))
  · obtain ⟨j, hj, -⟩ := hbefore [] i rest hlog
    cases hj

theorem main_grows {s s' : State ι} {i : ι} (h : main s i = some s') :
    (∃ more, s'.log = s.log ++ more) ∧ (s.file.isSome → s'.file = s.file) := by
  cases main_cases h with
  | create pc file => exact ⟨⟨[], by simp [State.go]⟩, fun hsome => by simp [file] at hsome⟩
  | size createdHere pc flag => exact ⟨⟨_, rfl⟩, fun _ => rfl⟩
  | init pc | killed pc unsized | lock pc sized free => exact ⟨⟨_, rfl⟩, fun _ => rfl⟩
  | _ => exact ⟨⟨[], by simp [State.go]⟩, fun _ => rfl⟩

theorem wrong_step {s s' : State ι} {i : ι} (hwrong : Wrong s) (h : main s i = some s') : Wrong s' := by
  obtain ⟨⟨more, hmore⟩, hfile⟩ := main_grows h
  rcases hwrong with ⟨j, rest, hlog, hne, hsome⟩ | ⟨j, rest, hlog⟩
  · rw [← hfile hsome] at hne hsome
    exact .inl ⟨j, rest ++ more, by rw [hmore, hlog]; rfl, hne, hsome⟩
  · exact .inr ⟨j, rest ++ more, by rw [hmore, hlog]; rfl⟩

theorem early_go {s : State ι} (h : ∀ j, Early s.file j (s.procs j)) {i : ι} {pc : Pc} (hpc : Early s.file i pc)
    (j : ι) : Early s.file j ((s.go i pc).procs j) := by
  unfold State.go
  by_cases hj : j = i
  · subst hj
    simpa using hpc
  · simpa [hj] using h j

theorem inv_step {s s' : State ι} {i : ι} (hinv : Inv s) (h : main s i = some s') : Inv s' := by
  rcases hinv with ⟨hlog, hearly⟩ | hwrong
  · have hi := hearly i
    cases main_cases h with
    | create pc file =>
      -- The others have not met a file yet.
      have hothers (j : ι) (hj : j ≠ i) : Early (some i) j (s.procs j) := by
        have hj' := hearly j
        rw [file] at hj'
        cases hp : s.procs j <;> simp_all [Early, Ne.symm hj]
      refine .inl ⟨hlog, fun j => ?_⟩
      by_cases hj : j = i
      · subst hj
        simp [State.go, Early]
      · simpa [State.go, hj] using hothers j hj
    | «exists» pc file =>
      rw [pc] at hi
      exact .inl ⟨hlog, early_go hearly ⟨hi, file⟩⟩
    | reopen pc =>
      rw [pc] at hi
      exact .inl ⟨hlog, early_go hearly (.inr hi)⟩
    | size createdHere pc flag =>
      rw [pc] at hi
      rcases hi with rfl | ⟨hne, hsome⟩
      · exact absurd rfl flag
      · exact .inr (.inl ⟨i, [], by simp [State.go, hlog], hne, hsome⟩)
    | unsized pc => exact .inl ⟨hlog, early_go hearly rfl⟩
    | map createdHere pc =>
      rw [pc] at hi
      exact .inl ⟨hlog, early_go hearly hi⟩
    | toInit createdHere pc flag =>
      rw [pc] at hi
      exact absurd hi flag
    | toLoop pc => exact .inl ⟨hlog, early_go hearly trivial⟩
    | killed pc unsized => exact .inr (.inr ⟨i, [], by simp [State.go, hlog]⟩)
    | lock pc sized free => exact .inr (.inr ⟨i, [], by simp [State.go, hlog]⟩)
    | init pc | read pc | store t pc | unlock pc | resume pc =>
      rw [pc] at hi
      exact hi.elim
  · exact .inr (wrong_step hwrong h)

/-- No process comes to the handler before the first call. -/
theorem inv_cleanup {s s' : State ι} {i : ι} (hinv : Inv s) (h : cleanup s i = some s') : Inv s' := by
  have hsame : s'.log = s.log ∧ s'.file = s.file ∧ ((∃ inside, s.procs i = .cleanup inside) ∨ s.procs i = .exit) := by
    rcases cleanup_cases h with ⟨inside, pc, rfl⟩ | ⟨pc, rfl⟩
    · exact ⟨rfl, rfl, .inl ⟨inside, pc⟩⟩
    · exact ⟨rfl, rfl, .inr pc⟩
  obtain ⟨hlog, hfile, hpc⟩ := hsame
  rcases hinv with ⟨-, hearly⟩ | hwrong
  · have hi := hearly i
    rcases hpc with ⟨inside, pc⟩ | pc
    · rw [pc] at hi
      exact hi.elim
    · rw [pc] at hi
      exact hi.elim
  · rw [Inv, Wrong, hlog, hfile]
    exact .inr hwrong

theorem inv_reach {s : State ι} (h : Reach step undisturbed fresh s) : Inv s := by
  refine Reach.invariant (I := Inv) ?_ (.inl ⟨rfl, fun _ => by simp [fresh, Early]⟩) h
  intro s a s' hinv ha hstep
  cases a with
  | main i => exact inv_step hinv hstep
  | sigint i => exact ha.elim
  | cleanup i => exact inv_cleanup hinv hstep

theorem safe_of_early {s : State ι} (hlog : s.log = []) (hearly : ∀ i, Early s.file i (s.procs i)) : Safe s := by
  have houtside (i : ι) : ¬(s.procs i).Inside := by
    intro hin
    have hi := hearly i
    cases hp : s.procs i <;> simp_all [Pc.Inside, Early]
  refine ⟨?_, ?_, fun i _ hi _ => absurd hi (houtside i), ?_⟩
  · intro i hi
    simp [hlog] at hi
  · intro earlier i later hsplit
    simp [hlog] at hsplit
  · intro i s' hi
    exact absurd (by simp [hi, Pc.Inside]) (houtside i)

/-- The creator on its own, before any call. -/
def creating (i : ι) (pc : Pc) : State ι := { fresh with file := some i }.go i pc

theorem creating_pc (i : ι) (pc : Pc) : (creating i pc).procs i = pc := by
  simp [creating, State.go]

theorem creating_go (i : ι) (pc pc' : Pc) : (creating i pc).go i pc' = creating i pc' := by
  simp [creating, State.go, Function.update_idem]

/-- The creator locks what nobody has sized or initialised. -/
theorem creator_run (i : ι) : ∃ s, Reach step undisturbed fresh s ∧ s.log = [Event.lock i] := by
  have hcreate : main fresh i = some (creating i (.truncate B_TRUE)) := rfl
  have hskip : main (creating i (.truncate B_TRUE)) i = some (creating i (.map B_TRUE)) := by
    simp [main, creating_pc, creating_go, holds, B_TRUE]
  have hmap : main (creating i (.map B_TRUE)) i = some (creating i (.signal B_TRUE)) := by
    simp [main, creating_pc, creating_go]
  have hloop : main (creating i (.signal B_TRUE)) i = some (creating i .lock) := by
    simp [main, creating_pc, creating_go, holds, B_TRUE]
  have hlock : main (creating i .lock) i = some ({ creating i .lock with log := [Event.lock i] }.go i .exited) := by
    simp [main, creating, State.go, fresh]
  refine ⟨{ creating i .lock with log := [Event.lock i] }.go i .exited, ?_, rfl⟩
  exact .head ⟨.main i, trivial, hcreate⟩ (.head ⟨.main i, trivial, hskip⟩ (.head ⟨.main i, trivial, hmap⟩
    (.head ⟨.main i, trivial, hloop⟩ (.single ⟨.main i, trivial, hlock⟩))))

/-- Start-up is right only until the first call of `ftruncate`,
`pthread_mutex_init` or `pthread_mutex_lock` in the run, whichever process
makes it; there are runs that come to it as soon as there is a process. -/
theorem proc_mutex_safe_iff : (∀ s : State ι, Reach step undisturbed fresh s → (Safe s ↔ s.log = [])) ∧
    ((∀ s : State ι, Reach step undisturbed fresh s → Safe s) ↔ IsEmpty ι) := by
  have hiff (s : State ι) (h : Reach step undisturbed fresh s) : Safe s ↔ s.log = [] := by
    rcases inv_reach h with ⟨hlog, hearly⟩ | hwrong
    · exact ⟨fun _ => hlog, fun _ => safe_of_early hlog hearly⟩
    · refine ⟨fun hsafe => absurd hsafe hwrong.not_safe, fun hlog => ?_⟩
      rcases hwrong with ⟨i, rest, hfirst, -⟩ | ⟨i, rest, hfirst⟩ <;> simp [hlog] at hfirst
  refine ⟨hiff, fun hall => ⟨fun i => ?_⟩, fun hempty s h => ?_⟩
  · obtain ⟨s, hreach, hlog⟩ := creator_run i
    have hnil := (hiff s hreach).1 (hall s hreach)
    simp [hlog] at hnil
  · rcases inv_reach h with ⟨hlog, hearly⟩ | ⟨i, _⟩ | ⟨i, _⟩
    · exact safe_of_early hlog hearly
    · exact hempty.elim i
    · exact hempty.elim i

end

/-- Two processes: the one that has not created the file sizes and initialises it. -/
theorem proc_mutex_unsafe : ∃ s : State (Fin 2), Reach step undisturbed fresh s ∧ ¬Safe s := by
  have hrun : (exec step undisturbed fresh
      [.main (0 : Fin 2), .main 1, .main 1, .main 1, .main 1, .main 1, .main 1]).map (fun s => (s.file, s.log)) =
        some (some 0, [.size 1, .init 1]) := by
    decide
  obtain ⟨s, hs, hsame⟩ := Option.map_eq_some_iff.1 hrun
  obtain ⟨hfile, hlog⟩ := Prod.mk.inj hsame
  refine ⟨s, reach_of_exec hs, fun hsafe => ?_⟩
  have hcreator := hsafe.creator 1 (.inl (by simp [hlog]))
  rw [hfile] at hcreator
  cases hcreator

/-! ## Interrupts -/

section

variable {ι : Type} [DecidableEq ι]

/-- A process that is in its loop or its handler, or has left them for good. -/
def Pc.Looping : Pc → Prop
  | .lock | .read | .store _ | .unlock | .pause | .cleanup _ | .exit | .exited => True
  | _ => False

/-- Processes at the top of their loops, the area set up and the mutex free. -/
def looping (file : Option ι) (count : Int) : State ι := ⟨file, true, false, count, fun _ => .lock, [], 0, 0⟩

/-- A handler unlocks the mutex only while no other process is between lock
and unlock. Interrupts are delivered at any time. -/
def timely (s : State ι) : Action ι → Prop
  | .main _ | .sigint _ => True
  | .cleanup i => ∀ j, j ≠ i → ¬(s.procs j).Inside

instance [Fintype ι] (s : State ι) : (a : Action ι) → Decidable (timely s a)
  | .main _ | .sigint _ => .isTrue trivial
  | .cleanup i => inferInstanceAs (Decidable (∀ j, j ≠ i → ¬(s.procs j).Inside))

/-- What the loops keep: whoever is inside is alone, and holds the mutex. -/
structure Exclusive (count : Int) (s : State ι) : Prop where
  sized : s.sized = true
  looping : ∀ i, (s.procs i).Looping
  alone : ∀ i j, (s.procs i).Inside → (s.procs j).Inside → i = j
  locked : ∀ i, (s.procs i).Inside → s.locked = true
  stored : ∀ i temporary_storage, s.procs i = .store temporary_storage → temporary_storage = s.count + 1
  counted : s.count = count + s.stores

/-- Only process `i` has gone on: while it is inside nobody else is, and while
others are inside it leaves the mutex and the count alone. -/
theorem Exclusive.go {count : Int} {s t : State ι} {i : ι} {pc : Pc} (hs : Exclusive count s)
    (hsized : t.sized = s.sized) (hprocs : t.procs = s.procs) (hlooping : pc.Looping)
    (hinside : pc.Inside → t.locked = true ∧ ∀ j, j ≠ i → ¬(s.procs j).Inside)
    (hothers : ∀ j, j ≠ i → (s.procs j).Inside → t.locked = true ∧ t.count = s.count)
    (hstored : ∀ v, pc = .store v → v = t.count + 1) (hcounted : t.count = count + t.stores) :
    Exclusive count (t.go i pc) := by
  have hself : (t.go i pc).procs i = pc := Function.update_self ..
  have hother {j : ι} (hj : j ≠ i) : (t.go i pc).procs j = s.procs j :=
    (Function.update_of_ne hj ..).trans (congrFun hprocs j)
  refine ⟨hsized.trans hs.sized, fun j => ?_, fun j k hj hk => ?_, fun j hj => ?_, fun j v hv => ?_, hcounted⟩
  · by_cases hji : j = i
    · rwa [hji, hself]
    · rw [hother hji]
      exact hs.looping j
  · by_cases hji : j = i
    · subst hji
      rw [hself] at hj
      by_contra hne
      rw [hother (Ne.symm hne)] at hk
      exact (hinside hj).2 k (Ne.symm hne) hk
    · rw [hother hji] at hj
      by_cases hki : k = i
      · subst hki
        rw [hself] at hk
        exact absurd hj ((hinside hk).2 j hji)
      · rw [hother hki] at hk
        exact hs.alone j k hj hk
  · by_cases hji : j = i
    · subst hji
      rw [hself] at hj
      exact (hinside hj).1
    · rw [hother hji] at hj
      exact (hothers j hji hj).1
  · by_cases hji : j = i
    · subst hji
      rw [hself] at hv
      exact hstored v hv
    · rw [hother hji] at hv
      rw [show (t.go i pc).count = s.count from (hothers j hji (by simp [hv, Pc.Inside])).2]
      exact hs.stored j v hv

/-- It was inside and, if it still is, holds the mutex. -/
theorem Exclusive.go_inside {count : Int} {s t : State ι} {i : ι} {pc : Pc} (hs : Exclusive count s)
    (hin : (s.procs i).Inside) (hsized : t.sized = s.sized) (hprocs : t.procs = s.procs) (hlooping : pc.Looping)
    (hlocked : pc.Inside → t.locked = true) (hstored : ∀ v, pc = .store v → v = t.count + 1)
    (hcounted : t.count = count + t.stores) : Exclusive count (t.go i pc) := by
  have halone (j : ι) (hj : j ≠ i) : ¬(s.procs j).Inside := fun hin' => hj (hs.alone j i hin' hin)
  exact hs.go hsized hprocs hlooping (fun hpc => ⟨hlocked hpc, halone⟩)
    (fun j hj hin' => absurd hin' (halone j hj)) hstored hcounted

theorem exclusive_main {count : Int} {s s' : State ι} {i : ι} (hs : Exclusive count s) (h : main s i = some s') :
    Exclusive count s' := by
  have hlooping := hs.looping i
  have hcounted := hs.counted
  cases main_cases h with
  | create pc | «exists» pc | reopen pc | size _ pc | unsized pc | map _ pc | toInit _ pc | toLoop pc | init pc =>
    rw [pc] at hlooping
    exact hlooping.elim
  | killed pc unsized =>
    rw [hs.sized] at unsized
    cases unsized
  | lock pc sized free =>
    have hnobody (j : ι) : ¬(s.procs j).Inside := fun hin => by
      rw [hs.locked j hin] at free
      cases free
    refine hs.go rfl rfl trivial (fun _ => ⟨rfl, fun j _ => hnobody j⟩) (fun j _ hin => absurd hin (hnobody j)) ?_
      hcounted
    intro v hv
    cases hv
  | read pc =>
    have hin : (s.procs i).Inside := by simp [pc, Pc.Inside]
    refine hs.go_inside hin rfl rfl trivial (fun _ => hs.locked i hin) ?_ hcounted
    intro v hv
    cases hv
    rfl
  | store temporary_storage pc =>
    have hin : (s.procs i).Inside := by simp [pc, Pc.Inside]
    have hvalue := hs.stored i temporary_storage pc
    refine hs.go_inside hin rfl rfl trivial (fun _ => hs.locked i hin) ?_ ?_
    · intro v hv
      cases hv
    · push_cast
      omega
  | unlock pc =>
    have hin : (s.procs i).Inside := by simp [pc, Pc.Inside]
    refine hs.go_inside hin rfl rfl trivial (fun hpause => hpause.elim) ?_ hcounted
    intro v hv
    cases hv
  | resume pc =>
    refine hs.go rfl rfl trivial (fun hlock => hlock.elim) (fun j _ hin => ⟨hs.locked j hin, rfl⟩) ?_ hcounted
    intro v hv
    cases hv

/-- Who is interrupted stays inside if it was. -/
theorem exclusive_sigint {count : Int} {s s' : State ι} {i : ι} (hs : Exclusive count s)
    (h : sigint s i = some s') : Exclusive count s' := by
  have hgo : s' = s.go i (.cleanup (decide (s.procs i).Inside)) := by
    have hlooping := hs.looping i
    unfold sigint at h
    split at h
    all_goals
      next pc =>
        first
        | (rw [pc] at hlooping; exact hlooping.elim)
        | (cases h <;> rfl)
  subst hgo
  have hinside (hin : (Pc.cleanup (decide (s.procs i).Inside)).Inside) : (s.procs i).Inside := by
    by_contra hout
    rw [decide_eq_false hout] at hin
    exact hin
  refine hs.go rfl rfl trivial (fun hin => ⟨hs.locked i (hinside hin), fun j hj hj' => ?_⟩)
    (fun j _ hin => ⟨hs.locked j hin, rfl⟩) ?_ hs.counted
  · exact hj (hs.alone j i hj' (hinside hin))
  · intro v hv
    cases hv

theorem exclusive_cleanup {count : Int} {s s' : State ι} {i : ι} (hs : Exclusive count s)
    (hothers : ∀ j, j ≠ i → ¬(s.procs j).Inside) (h : cleanup s i = some s') : Exclusive count s' := by
  rcases cleanup_cases h with ⟨inside, -, rfl⟩ | ⟨-, rfl⟩
  all_goals
    refine hs.go rfl rfl trivial (fun hin => hin.elim) (fun j hj hin => absurd hin (hothers j hj)) ?_ hs.counted
    intro v hv
    cases hv

end

end SysProg.ProcMutex
