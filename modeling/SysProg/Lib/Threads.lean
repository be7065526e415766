/-
Threads that run one program over shared data, one step of one of them at a
time, with a mutex (or a spin lock) that they take and give up on the way.
-/
import SysProg.Lib.Lts
import SysProg.Lib.Sum

namespace SysProg.Threads

/-- What a thread does next. -/
inductive Act (σ L : Type) where
  | go (shared : σ) (own : L)
  | lock (own : L)
  | unlock (own : L)
  | stop

/-- What is shared, who holds the mutex, and the threads. -/
structure State (ι σ L : Type) where
  shared : σ
  holder : Option ι
  threads : ι → L

section

variable {ι σ L : Type} [DecidableEq ι] (next : L → σ → Act σ L)

/-- The state after a step of one thread. -/
def State.put (s : State ι σ L) (i : ι) (shared : σ) (holder : Option ι) (own : L) : State ι σ L :=
  ⟨shared, holder, Function.update s.threads i own⟩

@[simp] theorem put_shared (s : State ι σ L) (i : ι) (shared : σ) (holder : Option ι) (own : L) :
    (s.put i shared holder own).shared = shared := rfl

@[simp] theorem put_holder (s : State ι σ L) (i : ι) (shared : σ) (holder : Option ι) (own : L) :
    (s.put i shared holder own).holder = holder := rfl

@[simp] theorem put_self (s : State ι σ L) (i : ι) (shared : σ) (holder : Option ι) (own : L) :
    (s.put i shared holder own).threads i = own :=
  Function.update_self ..

theorem put_of_ne (s : State ι σ L) {i j : ι} (h : j ≠ i) (shared : σ) (holder : Option ι) (own : L) :
    (s.put i shared holder own).threads j = s.threads j :=
  Function.update_of_ne h ..

theorem put_seen {τ : Type*} (f : L → τ) (s : State ι σ L) (i : ι) (shared : σ) (holder : Option ι) (own : L) :
    (fun j => f ((s.put i shared holder own).threads j)) = Function.update (fun j => f (s.threads j)) i (f own) := by
  funext j
  exact Function.apply_update (fun _ => f) s.threads i own j

/-- A thread at the lock waits while another holds it. -/
def step (s : State ι σ L) (i : ι) : Option (State ι σ L) :=
  match next (s.threads i) s.shared with
  | .go shared own => some (s.put i shared s.holder own)
  | .lock own => if s.holder = none then some (s.put i s.shared (some i) own) else none
  | .unlock own => some (s.put i s.shared none own)
  | .stop => none

/-- What the steps do. -/
inductive Move (s : State ι σ L) (i : ι) : State ι σ L → Prop
  | go {shared own} (next : next (s.threads i) s.shared = .go shared own) :
      Move s i (s.put i shared s.holder own)
  | lock {own} (next : next (s.threads i) s.shared = .lock own) (free : s.holder = none) :
      Move s i (s.put i s.shared (some i) own)
  | unlock {own} (next : next (s.threads i) s.shared = .unlock own) :
      Move s i (s.put i s.shared none own)

/-- The program locks and unlocks in turn: `inside` are the places between the
two. It does not stop there. -/
structure Bracketed (inside : L → Bool) : Prop where
  go : ∀ l sh sh' l', next l sh = .go sh' l' → inside l' = inside l
  lock : ∀ l sh l', next l sh = .lock l' → inside l = false ∧ inside l' = true
  unlock : ∀ l sh l', next l sh = .unlock l' → inside l = true ∧ inside l' = false

/-- Each step of the program, from where it can be, takes a thread one further. -/
structure Paced (ok : L → Prop) (pos : L → Nat) : Prop where
  go : ∀ l sh sh' l', ok l → next l sh = .go sh' l' → pos l' = pos l + 1
  lock : ∀ l sh l', ok l → next l sh = .lock l' → pos l' = pos l + 1
  unlock : ∀ l sh l', ok l → next l sh = .unlock l' → pos l' = pos l + 1

end

variable {ι σ L : Type} [DecidableEq ι] {next : L → σ → Act σ L} {s s' : State ι σ L} {i : ι}

theorem move_of_step (h : step next s i = some s') : Move next s i s' := by
  unfold step at h
  split at h
  · next hn =>
    cases h
    exact .go hn
  · next hn =>
    split at h
    · next hfree =>
      cases h
      exact .lock hn hfree
    · cases h
  · next hn =>
    cases h
    exact .unlock hn
  · cases h

theorem step_go {shared : σ} {own : L} (h : next (s.threads i) s.shared = .go shared own) :
    Reach (step next) anyStep s (s.put i shared s.holder own) :=
  .single ⟨i, trivial, by simp only [step, h]⟩

theorem put_go {shared shared' : σ} {holder : Option ι} {own own' : L} (h : next own shared = .go shared' own') :
    Reach (step next) anyStep (s.put i shared holder own) (s.put i shared' holder own') := by
  have hgo := step_go (s := s.put i shared holder own) (i := i) (by rw [put_self]; exact h)
  have hput : (s.put i shared holder own).put i shared' holder own' = s.put i shared' holder own' :=
    congrArg (State.mk shared' holder) (Function.update_idem ..)
  rwa [put_holder, hput] at hgo

/-- A step that all threads have before them, taken by those of a set. -/
theorem each_go (f : L → L) (hgo : ∀ i, next (s.threads i) s.shared = .go s.shared (f (s.threads i))) (S : Finset ι) :
    ∃ s', Reach (step next) anyStep s s' ∧ s'.shared = s.shared ∧ (∀ i ∈ S, s'.threads i = f (s.threads i)) ∧
      ∀ i ∉ S, s'.threads i = s.threads i := by
  induction S using Finset.induction_on with
  | empty => exact ⟨s, .refl, rfl, by simp, fun _ _ => rfl⟩
  | insert i S hi ih =>
    obtain ⟨s₁, hreach, hshared, hdone, hrest⟩ := ih
    have hstep : next (s₁.threads i) s₁.shared = .go s₁.shared (f (s.threads i)) := by
      rw [hrest i hi, hshared]
      exact hgo i
    refine ⟨_, hreach.trans (step_go hstep), hshared, ?_, ?_⟩
    · intro j hj
      by_cases hji : j = i
      · subst hji
        rw [put_self]
      · rw [put_of_ne s₁ hji]
        exact hdone j (Finset.mem_of_mem_insert_of_ne hj hji)
    · intro j hj
      rw [Finset.mem_insert, not_or] at hj
      rw [put_of_ne s₁ hj.1]
      exact hrest j hj.2

/-- The thread that holds the lock is the one inside. -/
def Exclusive (inside : L → Bool) (s : State ι σ L) : Prop := ∀ i, inside (s.threads i) = true ↔ s.holder = some i

omit [DecidableEq ι] in
theorem Exclusive.one {inside : L → Bool} (h : Exclusive inside s) {j : ι} (hi : inside (s.threads i))
    (hj : inside (s.threads j)) : i = j :=
  Option.some_inj.1 (((h i).1 hi).symm.trans ((h j).1 hj))

theorem Exclusive.move {inside : L → Bool} (hb : Bracketed next inside) (h : Exclusive inside s)
    (hm : Move next s i s') : Exclusive inside s' := by
  intro j
  cases hm with
  | go hn =>
    by_cases hj : j = i
    · subst hj
      rw [put_self, hb.go _ _ _ _ hn]
      exact h j
    · rw [put_of_ne s hj]
      exact h j
  | lock hn hfree =>
    by_cases hj : j = i
    · subst hj
      rw [put_self]
      exact iff_of_true (hb.lock _ _ _ hn).2 rfl
    · rw [put_of_ne s hj]
      refine iff_of_false (fun hin => ?_) fun he => hj (Option.some_inj.1 he).symm
      have := (h j).1 hin
      rw [hfree] at this
      cases this
  | unlock hn =>
    have hi := (hb.unlock _ _ _ hn).1
    by_cases hj : j = i
    · subst hj
      rw [put_self, (hb.unlock _ _ _ hn).2]
      exact iff_of_false Bool.false_ne_true (Option.some_ne_none j).symm
    · rw [put_of_ne s hj]
      exact iff_of_false (fun hin => hj (h.one hin hi)) (Option.some_ne_none j).symm

/-- As long as a thread has not stopped, one can go on. -/
theorem Exclusive.goes_on {inside : L → Bool} (hb : Bracketed next inside) (h : Exclusive inside s) :
    (∃ i, inside (s.threads i) ∧ next (s.threads i) s.shared = .stop) ∨
      (∀ i, next (s.threads i) s.shared = .stop) ∨ ∃ i s', step next s i = some s' := by
  cases hh : s.holder with
  | some i =>
    have hin := (h i).2 hh
    cases hn : next (s.threads i) s.shared with
    | go shared own => exact .inr (.inr ⟨i, _, by simp only [step, hn]; rfl⟩)
    | lock own =>
      rw [(hb.lock _ _ _ hn).1] at hin
      cases hin
    | unlock own => exact .inr (.inr ⟨i, _, by simp only [step, hn]; rfl⟩)
    | stop => exact .inl ⟨i, hin, hn⟩
  | none =>
    by_cases hall : ∀ i, next (s.threads i) s.shared = .stop
    · exact .inr (.inl hall)
    · obtain ⟨i, hi⟩ := not_forall.1 hall
      cases hn : next (s.threads i) s.shared with
      | go shared own => exact .inr (.inr ⟨i, _, by simp only [step, hn]; rfl⟩)
      | lock own => exact .inr (.inr ⟨i, _, by simp only [step, hn, hh, if_pos]; rfl⟩)
      | unlock own =>
        have := (h i).1 (hb.unlock _ _ _ hn).1
        rw [hh] at this
        cases this
      | stop => exact absurd hn hi

section

variable [Fintype ι]

/-- The sum of what each thread has of something. -/
def total (f : L → Nat) (s : State ι σ L) : Nat := ∑ i, f (s.threads i)

theorem total_put (f : L → Nat) (s : State ι σ L) (i : ι) (shared : σ) (holder : Option ι) (own : L) :
    total f (s.put i shared holder own) + f (s.threads i) = total f s + f own :=
  sum_update_nat f s.threads (Finset.mem_univ i) own

theorem total_move {ok : L → Prop} {pos : L → Nat} (hp : Paced next ok pos) (hok : ok (s.threads i))
    (hm : Move next s i s') : total pos s' = total pos s + 1 := by
  cases hm with
  | @go shared own hn =>
    have := total_put pos s i shared s.holder own
    have := hp.go _ _ _ _ hok hn
    omega
  | @lock own hn _ =>
    have := total_put pos s i s.shared (some i) own
    have := hp.lock _ _ _ hok hn
    omega
  | @unlock own hn =>
    have := total_put pos s i s.shared none own
    have := hp.unlock _ _ _ hok hn
    omega

/-- A run has as many steps as its threads have taken. -/
theorem length_exec {ok : L → Prop} {pos : L → Nat} (hp : Paced next ok pos) {I : State ι σ L → Prop}
    (hok : ∀ s, I s → ∀ i, ok (s.threads i)) (hstep : ∀ s i s', I s → Move next s i s' → I s') {as : List ι} (hs : I s)
    (h : exec (step next) anyStep s as = some s') : total pos s' = total pos s + as.length :=
  exec_count
    (fun s i s' hi hs => ⟨hstep s i s' hi (move_of_step hs), total_move hp (hok s hi i) (move_of_step hs)⟩) hs h

end

end SysProg.Threads
