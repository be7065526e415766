/-
Monitors: data that threads share under one mutex with one condition
variable. In each of its critical sections a thread either finds that it must
wait (`pthread_cond_wait`, and the test made again when it returns) or does
its part and leaves, with a `pthread_cond_signal` or without.

A step is a whole critical section, from the mutex taken to the mutex given
up, so the mutex itself needs no state.
-/
import SysProg.Lib.Lts
import SysProg.Lib.Sum

namespace SysProg

/-- What a critical section comes to. -/
inductive Section (σ L : Type) where
  /-- The thread sleeps, and will make the test again. -/
  | wait
  /-- It leaves, its own variables and the shared data changed. -/
  | leave (shared : σ) (own : L) (signal : Bool)

/-- A section seen through maps of the data (which may take over what the
thread leaves with) and of the thread's variables. -/
def Section.map {σ τ L N : Type} (f : σ → L → τ) (g : L → N) : Section σ L → Section τ N
  | .wait => .wait
  | .leave shared own signal => .leave (f shared own) (g own) signal

/-- What a thread is doing. -/
inductive Mode where
  | ready
  /-- In `pthread_cond_wait`, to be signalled. -/
  | asleep
  /-- Signalled, or woken for no reason: it has still to take the mutex again. -/
  | woken
  deriving DecidableEq

/-- A thread, with what it has of its own. -/
structure Thread (L : Type) where
  own : L
  mode : Mode

/-- What each thread does in its next section, from its own variables and the
shared data; `none` when it enters none. -/
def Monitor (ι σ L : Type) := ι → L → σ → Option (Section σ L)

namespace Monitor

/-- What the mutex guards, and the threads. -/
structure State (ι σ L : Type) where
  shared : σ
  threads : ι → Thread L

theorem ne_of_asleep {ι σ L : Type} {s : State ι σ L} {i j : ι} (hi : (s.threads i).mode ≠ .asleep)
    (hj : (s.threads j).mode = .asleep) : j ≠ i := by
  intro he
  exact hi (he ▸ hj)

/-- What can happen next. -/
inductive Action (ι : Type) where
  /-- A thread runs its next section. Its signal wakes `wakes`. -/
  | enter (i : ι) (wakes : Option ι)
  /-- A thread wakes without a signal. -/
  | spurious (i : ι)

section

variable {ι σ L : Type} [DecidableEq ι]

/-- The state with one thread changed. -/
def State.put (s : State ι σ L) (i : ι) (th : Thread L) : State ι σ L :=
  { s with threads := Function.update s.threads i th }

/-- Thread `i` has left its section. -/
def State.left (s : State ι σ L) (i : ι) (shared : σ) (own : L) : State ι σ L :=
  ⟨shared, Function.update s.threads i ⟨own, .ready⟩⟩

/-- Thread `j` is no longer asleep. -/
def State.wake (s : State ι σ L) (j : ι) : State ι σ L := s.put j ⟨(s.threads j).own, .woken⟩

/-- A signal: it wakes one of the threads asleep, if there are any. -/
def signal [Fintype ι] (s s' : State ι σ L) : Option ι → Option (State ι σ L)
  | some j => if (s.threads j).mode = .asleep then some (s'.wake j) else none
  | none => if ∀ j, (s.threads j).mode ≠ .asleep then some s' else none

/-- The next state, where the action can happen. -/
def step [Fintype ι] (M : Monitor ι σ L) (s : State ι σ L) : Action ι → Option (State ι σ L)
  | .enter i wakes =>
    if (s.threads i).mode = .asleep then none
    else
      match M i (s.threads i).own s.shared with
      | none => none
      | some .wait => if wakes = none then some (s.put i ⟨(s.threads i).own, .asleep⟩) else none
      | some (.leave shared own false) => if wakes = none then some (s.left i shared own) else none
      | some (.leave shared own true) => signal s (s.left i shared own) wakes
  | .spurious i => if (s.threads i).mode = .asleep then some (s.wake i) else none

/-- What the steps do. -/
inductive Move (M : Monitor ι σ L) (s : State ι σ L) : Action ι → State ι σ L → Prop
  | wait {i} (awake : (s.threads i).mode ≠ .asleep) (enter : M i (s.threads i).own s.shared = some .wait) :
      Move M s (.enter i none) (s.put i ⟨(s.threads i).own, .asleep⟩)
  | leave {i shared own} (awake : (s.threads i).mode ≠ .asleep)
      (enter : M i (s.threads i).own s.shared = some (.leave shared own false)) :
      Move M s (.enter i none) (s.left i shared own)
  | wake {i j shared own} (awake : (s.threads i).mode ≠ .asleep)
      (enter : M i (s.threads i).own s.shared = some (.leave shared own true))
      (asleep : (s.threads j).mode = .asleep) :
      Move M s (.enter i (some j)) ((s.left i shared own).wake j)
  | lost {i shared own} (awake : (s.threads i).mode ≠ .asleep)
      (enter : M i (s.threads i).own s.shared = some (.leave shared own true))
      (allAwake : ∀ j, (s.threads j).mode ≠ .asleep) :
      Move M s (.enter i none) (s.left i shared own)
  | spurious {i} (asleep : (s.threads i).mode = .asleep) : Move M s (.spurious i) (s.wake i)

theorem move_of_step [Fintype ι] {M : Monitor ι σ L} {s s' : State ι σ L} {a : Action ι}
    (h : step M s a = some s') : Move M s a s' := by
  cases a with
  | enter i wakes =>
    simp only [step] at h
    split at h
    · cases h
    · next awake =>
      split at h
      · cases h
      · next enter =>
        split at h
        · next hw => cases h; subst hw; exact .wait awake enter
        · cases h
      · next enter =>
        split at h
        · next hw => cases h; subst hw; exact .leave awake enter
        · cases h
      · next enter =>
        cases wakes with
        | some j =>
          simp only [signal] at h
          split at h
          · next asleep => cases h; exact .wake awake enter asleep
          · cases h
        | none =>
          simp only [signal] at h
          split at h
          · next hnone => cases h; exact .lost awake enter hnone
          · cases h
  | spurious i =>
    simp only [step] at h
    split at h
    · next asleep => cases h; exact .spurious asleep
    · cases h

/-- The threads' own variables. -/
def State.owns (s : State ι σ L) (i : ι) : L := (s.threads i).own

theorem State.owns_put (s : State ι σ L) (i : ι) (own : L) (mode : Mode) :
    (s.put i ⟨own, mode⟩).owns = Function.update s.owns i own := by
  funext j
  by_cases hj : j = i
  · subst hj
    simp [State.owns, State.put]
  · simp [State.owns, State.put, hj]

theorem State.owns_left (s : State ι σ L) (i : ι) (shared : σ) (own : L) :
    (s.left i shared own).owns = Function.update s.owns i own :=
  State.owns_put ⟨shared, s.threads⟩ i own .ready

theorem State.owns_wake (s : State ι σ L) (j : ι) : (s.wake j).owns = s.owns := by
  rw [State.wake, State.owns_put]
  exact Function.update_eq_self j s.owns

/-- Some threads have not finished, and all of these are asleep. -/
def State.Stuck (unfinished : L → Prop) (s : State ι σ L) : Prop :=
  (∃ i, unfinished (s.owns i)) ∧ ∀ i, unfinished (s.owns i) → (s.threads i).mode = .asleep

/-- Whether threads may wake without a signal. -/
def mayWake (spurious : Bool) (_ : State ι σ L) : Action ι → Prop
  | .enter _ _ => True
  | .spurious _ => spurious = true

instance [Fintype ι] (unfinished : L → Prop) [DecidablePred unfinished] (s : State ι σ L) :
    Decidable (s.Stuck unfinished) :=
  inferInstanceAs (Decidable (_ ∧ _))

instance (spurious : Bool) (s : State ι σ L) : (a : Action ι) → Decidable (mayWake spurious s a)
  | .enter _ _ => .isTrue trivial
  | .spurious _ => inferInstanceAs (Decidable (_ = _))

theorem reach_mayWake [Fintype ι] {M : Monitor ι σ L} {s s' : State ι σ L} (spurious : Bool)
    (h : Reach (step M) (mayWake false) s s') : Reach (step M) (mayWake spurious) s s' := by
  refine Relation.ReflTransGen.mono ?_ _ _ h
  rintro t t' ⟨a, ha, hstep⟩
  refine ⟨a, ?_, hstep⟩
  cases a with
  | enter i wakes => trivial
  | spurious i => cases ha

/-- What becomes of the data and of the threads' variables in a step: one
thread has left its section, or nothing has changed. -/
theorem section_of_step [Fintype ι] {M : Monitor ι σ L} {s s' : State ι σ L} {a : Action ι} (h : step M s a = some s') :
    (s'.shared = s.shared ∧ s'.owns = s.owns) ∨
    ∃ i shared own signal, M i (s.owns i) s.shared = some (.leave shared own signal) ∧
      s'.shared = shared ∧ s'.owns = Function.update s.owns i own := by
  cases move_of_step h with
  | @wait i awake enter =>
    refine .inl ⟨rfl, ?_⟩
    rw [State.owns_put]
    exact Function.update_eq_self i s.owns
  | leave awake enter => exact .inr ⟨_, _, _, _, enter, rfl, s.owns_left ..⟩
  | wake awake enter asleep =>
    refine .inr ⟨_, _, _, _, enter, rfl, ?_⟩
    rw [State.owns_wake, State.owns_left]
  | lost awake enter allAwake => exact .inr ⟨_, _, _, _, enter, rfl, s.owns_left ..⟩
  | @spurious i asleep => exact .inl ⟨rfl, s.owns_wake i⟩

@[simp] theorem State.put_self (s : State ι σ L) (i : ι) (th : Thread L) : (s.put i th).threads i = th :=
  Function.update_self ..

theorem State.put_of_ne (s : State ι σ L) {i j : ι} (h : j ≠ i) (th : Thread L) :
    (s.put i th).threads j = s.threads j :=
  Function.update_of_ne h ..

theorem State.asleep_of_left {s : State ι σ L} {i j : ι} {shared : σ} {own : L}
    (h : ((s.left i shared own).threads j).mode = .asleep) : (s.threads j).mode = .asleep := by
  have hput : (s.left i shared own).threads j = ((⟨shared, s.threads⟩ : State ι σ L).put i ⟨own, .ready⟩).threads j :=
    rfl
  rw [hput] at h
  by_cases hj : j = i
  · subst hj
    rw [State.put_self] at h
    cases h
  · rwa [State.put_of_ne _ hj] at h

/-- What is true of every thread that waits stays true of it until it is ready again. -/
theorem waiting_step [Fintype ι] {M : Monitor ι σ L} {P : L → Prop}
    (hwait : ∀ i own shared, M i own shared = some .wait → P own) {s s' : State ι σ L} {a : Action ι}
    (hs : ∀ i, (s.threads i).mode ≠ .ready → P (s.owns i)) (h : step M s a = some s') :
    ∀ i, (s'.threads i).mode ≠ .ready → P (s'.owns i) := by
  have hput {t : State ι σ L} (ht : ∀ i, (t.threads i).mode ≠ .ready → P (t.owns i)) {j : ι} {th : Thread L}
      (hth : th.mode ≠ .ready → P th.own) (i : ι) (hi : ((t.put j th).threads i).mode ≠ .ready) :
      P ((t.put j th).owns i) := by
    unfold State.owns
    by_cases hj : i = j
    · subst hj
      rw [State.put_self] at hi ⊢
      exact hth hi
    · rw [State.put_of_ne _ hj] at hi ⊢
      exact ht i hi
  have hleft (i : ι) (shared : σ) (own : L) :
      ∀ j, ((s.left i shared own).threads j).mode ≠ .ready → P ((s.left i shared own).owns j) :=
    hput (t := ⟨shared, s.threads⟩) hs (fun hi => absurd rfl hi)
  cases move_of_step h with
  | @wait j awake enter => exact hput hs fun _ => hwait j _ _ enter
  | leave awake enter => exact hleft _ _ _
  | @wake i j shared own awake enter asleep =>
    refine hput (hleft i shared own) fun _ => ?_
    have hj : (s.left i shared own).threads j = s.threads j :=
      State.put_of_ne ⟨_, s.threads⟩ (ne_of_asleep awake asleep) _
    rw [hj]
    exact hs j (by simp [asleep])
  | lost awake enter allAwake => exact hleft _ _ _
  | @spurious i asleep => exact hput hs fun _ => hs i (by simp [asleep])

end

/-! ## Sums over the threads -/

section

variable {ι σ L : Type} [Fintype ι]

/-- The sum of a weight over all threads. Counts of threads are such sums. -/
def State.total (s : State ι σ L) (w : ι → Thread L → ℤ) : ℤ := ∑ i, w i (s.threads i)

theorem State.total_nonneg (s : State ι σ L) {w : ι → Thread L → ℤ} (h : ∀ i th, 0 ≤ w i th) : 0 ≤ s.total w :=
  Finset.sum_nonneg fun i _ => h i _

/-- How many threads are such. -/
def State.number (s : State ι σ L) (p : Thread L → Prop) [DecidablePred p] : Nat :=
  (Finset.univ.filter fun i => p (s.threads i)).card

theorem State.number_eq_total (s : State ι σ L) (p : Thread L → Prop) [DecidablePred p] :
    (s.number p : ℤ) = s.total fun _ th => if p th then 1 else 0 := by
  unfold State.number State.total
  rw [Finset.card_filter]
  push_cast
  rfl

theorem State.number_eq_zero (s : State ι σ L) (p : Thread L → Prop) [DecidablePred p] :
    s.number p = 0 ↔ ∀ i, ¬p (s.threads i) := by
  simp [State.number, Finset.filter_eq_empty_iff]

theorem State.le_total (s : State ι σ L) {w : ι → Thread L → ℤ} (h : ∀ i th, 0 ≤ w i th) (i : ι) :
    w i (s.threads i) ≤ s.total w :=
  Finset.single_le_sum (fun j _ => h j _) (Finset.mem_univ i)

theorem State.total_eq_zero (s : State ι σ L) {w : ι → Thread L → ℤ} (h : ∀ i th, 0 ≤ w i th) :
    s.total w = 0 ↔ ∀ i, w i (s.threads i) = 0 := by
  rw [State.total, Finset.sum_eq_zero_iff_of_nonneg fun i _ => h i _]
  simp

variable [DecidableEq ι]

theorem State.total_put (s : State ι σ L) (w : ι → Thread L → ℤ) (i : ι) (th : Thread L) :
    (s.put i th).total w = s.total w - w i (s.threads i) + w i th :=
  sum_update w s.threads i th

theorem State.number_put (s : State ι σ L) (p : Thread L → Prop) [DecidablePred p] (i : ι) (th : Thread L) :
    ((s.put i th).number p : ℤ) =
      s.number p - (if p (s.threads i) then 1 else 0) + if p th then 1 else 0 := by
  rw [State.number_eq_total, State.total_put, State.number_eq_total]

end

/-! ## Two monitors -/

section

variable {ι σ τ L N : Type}

/-- The state seen through a view of what is shared and one of what is a thread's own. -/
def State.map (f : σ → τ) (g : L → N) (s : State ι σ L) : State ι τ N :=
  ⟨f s.shared, fun i => ⟨g (s.threads i).own, (s.threads i).mode⟩⟩

variable [DecidableEq ι] {f : σ → τ} {g : L → N}

theorem State.map_put (s : State ι σ L) (i : ι) (th : Thread L) :
    (s.put i th).map f g = (s.map f g).put i ⟨g th.own, th.mode⟩ := by
  have hthreads (j : ι) : ((s.put i th).map f g).threads j = ((s.map f g).put i ⟨g th.own, th.mode⟩).threads j := by
    by_cases hj : j = i
    · subst hj
      simp [State.map, State.put]
    · simp [State.map, State.put, hj]
  exact congrArg (State.mk (f s.shared)) (funext hthreads)

theorem State.map_left (s : State ι σ L) (i : ι) (shared : σ) (own : L) :
    (s.left i shared own).map f g = (s.map f g).left i (f shared) (g own) :=
  State.map_put ⟨shared, s.threads⟩ i ⟨own, .ready⟩

theorem State.map_wake (s : State ι σ L) (j : ι) : (s.wake j).map f g = (s.map f g).wake j :=
  s.map_put j ⟨(s.threads j).own, .woken⟩

/-- A step seen through the maps is the other monitor's, where the section of
the thread that takes it is. -/
theorem step_map [Fintype ι] {M : Monitor ι σ L} {M' : Monitor ι τ N} {s : State ι σ L} {i : ι}
    (h : M' i (g (s.threads i).own) (f s.shared) =
      (M i (s.threads i).own s.shared).map (Section.map (fun x _ => f x) g))
    (wakes : Option ι) :
    step M' (s.map f g) (.enter i wakes) = (step M s (.enter i wakes)).map (State.map f g) := by
  have hmode (j : ι) : ((s.map f g).threads j).mode = (s.threads j).mode := rfl
  have hshared : (s.map f g).shared = f s.shared := rfl
  have hown : ((s.map f g).threads i).own = g (s.threads i).own := rfl
  simp only [step, hmode, hshared, hown, h]
  split
  · rfl
  · next awake =>
    cases M i (s.threads i).own s.shared with
    | none => rfl
    | some sec =>
      cases sec with
      | wait =>
        simp only [Option.map_some, Section.map]
        split
        · rw [Option.map_some, State.map_put]
        · rfl
      | leave shared own sig =>
        cases sig with
        | false =>
          simp only [Option.map_some, Section.map]
          split
          · rw [Option.map_some, State.map_left]
          · rfl
        | true =>
          simp only [Option.map_some, Section.map]
          cases wakes with
          | none =>
            simp only [signal, hmode]
            split
            · rw [Option.map_some, State.map_left]
            · rfl
          | some j =>
            simp only [signal, hmode]
            split
            · rw [Option.map_some, State.map_wake, State.map_left]
            · rfl

theorem spurious_map [Fintype ι] {M : Monitor ι σ L} {M' : Monitor ι τ N} (s : State ι σ L) (i : ι) :
    step M' (s.map f g) (.spurious i) = (step M s (.spurious i)).map (State.map f g) := by
  have hmode : ((s.map f g).threads i).mode = (s.threads i).mode := rfl
  simp only [step, hmode]
  split
  · rw [Option.map_some, State.map_wake]
  · rfl

variable [Fintype ι] {M : Monitor ι σ L} {M' : Monitor ι τ N} {I : State ι σ L → Prop} {spurious : Bool}

theorem step_map_eq {s : State ι σ L} (h : ∀ i, M' i (g (s.owns i)) (f s.shared) =
    (M i (s.owns i) s.shared).map (Section.map (fun x _ => f x) g)) (a : Action ι) :
    step M' (s.map f g) a = (step M s a).map (State.map f g) := by
  cases a with
  | enter i wakes => exact step_map (h i) wakes
  | spurious i => exact spurious_map s i

variable (hI : ∀ s a s', I s → step M s a = some s' → I s')
  (hM : ∀ s, I s → ∀ i, M' i (g (s.owns i)) (f s.shared) =
    (M i (s.owns i) s.shared).map (Section.map (fun x _ => f x) g))

include hI hM

/-- Every run is one of the monitor it maps to, -/
theorem reach_map {s s' : State ι σ L} (hs : I s) (h : Reach (step M) (mayWake spurious) s s') :
    Reach (step M') (mayWake spurious) (s.map f g) (s'.map f g) := by
  refine (Reach.invariant (I := fun t => I t ∧ Reach (step M') (mayWake spurious) (s.map f g) (t.map f g)) ?_ ?_ h).2
  · intro t a t' ht ha hstep
    refine ⟨hI t a t' ht.1 hstep, ht.2.tail ⟨a, ?_, ?_⟩⟩
    · cases a <;> exact ha
    · rw [step_map_eq (hM t ht.1), hstep]
      rfl
  · exact ⟨hs, .refl⟩

/-- and the runs of that one are all seen. -/
theorem reach_of_map {s : State ι σ L} {t : State ι τ N} (hs : I s)
    (h : Reach (step M') (mayWake spurious) (s.map f g) t) :
    ∃ s', Reach (step M) (mayWake spurious) s s' ∧ I s' ∧ s'.map f g = t := by
  refine Reach.lift ?_ hs h
  rintro s t hs ⟨a, ha, hstep⟩
  rw [step_map_eq (hM s hs)] at hstep
  obtain ⟨s', hs', rfl⟩ := Option.map_eq_some_iff.1 hstep
  refine ⟨s', ⟨a, ?_, hs'⟩, hI s a s' hs hs', rfl⟩
  cases a <;> exact ha

end

/-! ## Threads that do nothing -/

section

variable {ι κ σ L : Type}

/-- The action under other names for the threads. -/
def Action.map (e : κ → ι) : Action κ → Action ι
  | .enter k wakes => .enter (e k) (wakes.map e)
  | .spurious k => .spurious (e k)

/-- The threads of `s` among others, which are as `idle` says. -/
noncomputable def State.among (e : κ ↪ ι) (idle : ι → Thread L) (s : State κ σ L) : State ι σ L :=
  ⟨s.shared, Function.extend e s.threads idle⟩

variable {e : κ ↪ ι} {idle : ι → Thread L} {s : State κ σ L}

@[simp] theorem State.among_threads (k : κ) : (s.among e idle).threads (e k) = s.threads k :=
  e.injective.extend_apply s.threads idle k

theorem State.among_idle {i : ι} (h : ∀ k, e k ≠ i) : (s.among e idle).threads i = idle i :=
  Function.extend_apply' s.threads idle i fun ⟨k, hk⟩ => h k hk

variable [DecidableEq ι] [DecidableEq κ]

theorem State.among_put (k : κ) (th : Thread L) : (s.put k th).among e idle = (s.among e idle).put (e k) th := by
  have hthreads (i : ι) : ((s.put k th).among e idle).threads i = ((s.among e idle).put (e k) th).threads i := by
    by_cases hi : ∃ k', e k' = i
    · obtain ⟨k', rfl⟩ := hi
      by_cases hk : k' = k
      · subst hk
        simp [State.put]
      · have he : e k' ≠ e k := fun h => hk (e.injective h)
        simp [State.put, hk, he]
    · have hi : ∀ k', e k' ≠ i := fun k' h => hi ⟨k', h⟩
      have hput : ((s.among e idle).put (e k) th).threads i = (s.among e idle).threads i :=
        Function.update_of_ne (hi k).symm ..
      rw [State.among_idle hi, hput, State.among_idle hi]
  exact congrArg (State.mk s.shared) (funext hthreads)

theorem State.among_left (k : κ) (shared : σ) (own : L) :
    (s.left k shared own).among e idle = (s.among e idle).left (e k) shared own :=
  State.among_put (s := ⟨shared, s.threads⟩) k ⟨own, .ready⟩

theorem State.among_wake (k : κ) : (s.wake k).among e idle = (s.among e idle).wake (e k) := by
  rw [State.wake, State.among_put, State.wake, State.among_threads]

/-- A step is taken in the same way when there are other threads, none of them asleep. -/
theorem step_among [Fintype ι] [Fintype κ] {M : Monitor κ σ L} {M' : Monitor ι σ L} (hM : ∀ k, M' (e k) = M k)
    (hidle : ∀ i, (idle i).mode ≠ .asleep) {s' : State κ σ L} {a : Action κ} (h : step M s a = some s') :
    step M' (s.among e idle) (a.map e) = some (s'.among e idle) := by
  have hshared : (s.among e idle).shared = s.shared := rfl
  cases move_of_step h with
  | wait awake enter =>
    simp [step, Action.map, hshared, hM, awake, enter, State.among_put]
  | leave awake enter =>
    simp [step, Action.map, hshared, hM, awake, enter, State.among_left]
  | wake awake enter asleep =>
    simp [step, Action.map, hshared, hM, awake, enter, signal, asleep, State.among_left, State.among_wake]
  | @lost k shared own awake enter allAwake =>
    have hall (i : ι) : ((s.among e idle).threads i).mode ≠ .asleep := by
      by_cases hi : ∃ k, e k = i
      · obtain ⟨k, rfl⟩ := hi
        rw [State.among_threads]
        exact allAwake k
      · rw [State.among_idle fun k h => hi ⟨k, h⟩]
        exact hidle i
    have hsignal : signal (s.among e idle) ((s.among e idle).left (e k) shared own) none =
        some ((s.among e idle).left (e k) shared own) := if_pos hall
    simp [step, Action.map, hshared, hM, awake, enter, hsignal, State.among_left]
  | spurious asleep =>
    simp [step, Action.map, asleep, State.among_wake]

theorem reach_among [Fintype ι] [Fintype κ] {M : Monitor κ σ L} {M' : Monitor ι σ L} (hM : ∀ k, M' (e k) = M k)
    (hidle : ∀ i, (idle i).mode ≠ .asleep) {s' : State κ σ L} {spurious : Bool}
    (h : Reach (step M) (mayWake spurious) s s') :
    Reach (step M') (mayWake spurious) (s.among e idle) (s'.among e idle) := by
  refine Relation.ReflTransGen.lift (State.among e idle) ?_ _ _ h
  rintro t t' ⟨a, ha, hstep⟩
  refine ⟨a.map e, ?_, step_among hM hidle hstep⟩
  cases a <;> exact ha

end

end Monitor

end SysProg
