/-
Ten readers and a writer (`rw.c`), under a lock that readers hold together or
under a mutex: who can be at work at once, in each mode.

Whether a reader must wait while a writer waits is left to the system, so it
is a parameter. The pauses that stand for the reading and the writing are
steps of their own; `main`'s clock is left out.
-/
import SysProg.Lib.Lts
import SysProg.Lib.RwLock
import SysProg.Lib.Sum

namespace SysProg.ReadersWriters

/-- What a thread does. -/
inductive Role where
  | reader
  | writer
  deriving DecidableEq

/-- Where a thread is in an iteration. -/
inductive Pc where
  /-- At the test of the loop. -/
  | top
  /-- At the lock, or waiting in it. -/
  | lock
  /-- In `doRead` or `doWrite`. -/
  | op
  | unlock
  | exit
  deriving DecidableEq

/-- What a thread has of its own. -/
structure Own where
  pc : Pc
  loopCount : Nat

/-- The locks, and which of them is used. -/
structure Locks (ι : Type) where
  userwlock : Bool
  rwlock : RwLock ι
  mutex : Option ι

section

variable {ι : Type} [DecidableEq ι]

/-- Get either the rwlock or the mutex, depending on the mode. A reader may be
`refused` for the sake of writers. -/
def acquire (role : Role) (refused : Bool) (locks : Locks ι) (i : ι) : Option (Locks ι) :=
  if locks.userwlock then
    match role with
    | .reader => if refused then none else (locks.rwlock.rdlock i).map fun l => { locks with rwlock := l }
    | .writer => (locks.rwlock.wrlock i).map fun l => { locks with rwlock := l }
  else if locks.mutex = none then some { locks with mutex := some i }
  else none

/-- Release the lock. -/
def release (locks : Locks ι) (i : ι) : Option (Locks ι) :=
  if locks.userwlock then (locks.rwlock.unlock i).map fun l => { locks with rwlock := l }
  else if locks.mutex = some i then some { locks with mutex := none }
  else none

/-- `readerMain` and `writerMain`, of `max` iterations. -/
def threadMain (max : Nat) (role : Role) (refused : Bool) (locks : Locks ι) (i : ι) (l : Own) :
    Option (Locks ι × Own) :=
  match l.pc with
  | .top => some (locks, { l with pc := if l.loopCount < max then .lock else .exit })
  | .lock => (acquire role refused locks i).map fun locks => (locks, { l with pc := .op })
  | .op => some (locks, { l with pc := .unlock })
  | .unlock => (release locks i).map fun locks => (locks, ⟨.top, l.loopCount + 1⟩)
  | .exit => none

/-- Between the lock and its release. -/
def Own.inside (l : Own) : Bool := l.pc = .op ∨ l.pc = .unlock

/-! ## Who holds the locks -/

/-- Those `inside` hold the lock of the mode. -/
structure Held (role : ι → Role) (inside : ι → Bool) (locks : Locks ι) : Prop where
  rwlock : locks.userwlock = true →
    locks.rwlock.Holds (fun i => inside i ∧ role i = .reader) fun i => inside i ∧ role i = .writer
  mutex : locks.userwlock = false → ∀ i, locks.mutex = some i ↔ inside i

variable {role : ι → Role} {inside : ι → Bool} {locks locks' : Locks ι} {refused : Bool} {i j : ι}

omit [DecidableEq ι] in
/-- Two are inside together only as readers, of a lock for these. -/
theorem Held.together (h : Held role inside locks) (hi : inside i) (hj : inside j) (hij : i ≠ j) :
    locks.userwlock = true ∧ role i = .reader ∧ role j = .reader := by
  cases hmode : locks.userwlock with
  | false =>
    have hm := h.mutex hmode
    exact absurd (Option.some_inj.1 (((hm i).2 hi).symm.trans ((hm j).2 hj))) hij
  | true =>
    have hrw := h.rwlock hmode
    have hreader : ∀ {a b}, inside a → inside b → a ≠ b → role a = .reader := by
      intro a b ha hb hab
      cases hra : role a with
      | reader => rfl
      | writer =>
        obtain ⟨hnr, hw⟩ := hrw.alone ⟨ha, hra⟩ (j := b)
        cases hrb : role b with
        | reader => exact absurd ⟨hb, hrb⟩ hnr
        | writer => exact absurd (hw ⟨hb, hrb⟩).symm hab
    exact ⟨rfl, hreader hi hj hij, hreader hj hi hij.symm⟩

theorem Held.acquire (h : Held role inside locks) (hi : inside i = false)
    (ha : acquire (role i) refused locks i = some locks') :
    Held role (Function.update inside i true) locks' ∧ locks'.userwlock = locks.userwlock := by
  have hin (a : Role) (j : ι) : (Function.update inside i true j = true ∧ role j = a) ↔
      (j = i ∧ role i = a) ∨ (inside j = true ∧ role j = a) := by
    by_cases hj : j = i
    · subst hj
      simp [hi]
    · simp [hj]
  unfold ReadersWriters.acquire at ha
  split at ha
  · next hmode =>
    have hrw := h.rwlock hmode
    split at ha
    · next hrole =>
      split at ha
      · cases ha
      · obtain ⟨l, hl, rfl⟩ := Option.map_eq_some_iff.1 ha
        refine ⟨⟨fun _ => hrw.rdlock hl ?_ ?_, fun hm => ?_⟩, rfl⟩
        · intro j
          rw [hin, hrole]
          simp
        · intro j
          rw [hin, hrole]
          simp
        · rw [hmode] at hm
          cases hm
    · next hrole =>
      obtain ⟨l, hl, rfl⟩ := Option.map_eq_some_iff.1 ha
      refine ⟨⟨fun _ => hrw.wrlock hl ?_ ?_, fun hm => ?_⟩, rfl⟩
      · intro j
        rw [hin, hrole]
        simp
      · intro j
        rw [hin, hrole]
        simp
      · rw [hmode] at hm
        cases hm
  · next hmode =>
    have hfalse : locks.userwlock = false := by simpa using hmode
    split at ha
    · next hfree =>
      cases ha
      refine ⟨⟨fun hm => absurd hm hmode, fun _ j => ?_⟩, rfl⟩
      have hno : inside j = false := by
        rw [← Bool.not_eq_true, ← h.mutex hfalse j, hfree]
        exact (Option.some_ne_none j).symm
      by_cases hj : j = i
      · subst hj
        simp
      · simp [hj, hno, Ne.symm hj]
    · cases ha

theorem acquire_not_refused {r : Role} (h : r = .reader → refused = false) :
    acquire r refused locks i = acquire r false locks i := by
  cases r with
  | reader => rw [h rfl]
  | writer => rfl

/-- Those inside can release what they hold. -/
theorem Held.release (h : Held role inside locks) (hi : inside i) :
    ∃ locks', release locks i = some locks' ∧ Held role (Function.update inside i false) locks' ∧
      locks'.userwlock = locks.userwlock := by
  have hin (a : Role) (j : ι) : (Function.update inside i false j = true ∧ role j = a) ↔
      j ≠ i ∧ (inside j = true ∧ role j = a) := by
    by_cases hj : j = i
    · subst hj
      simp
    · simp [hj]
  unfold ReadersWriters.release
  cases hmode : locks.userwlock with
  | true =>
    have hrw := h.rwlock hmode
    obtain ⟨l, hl, hh⟩ := hrw.unlock (i := i)
      (by cases hr : role i <;> simp [hi]) (hin .reader) (hin .writer)
    exact ⟨{ locks with rwlock := l }, by simp [hmode, hl], ⟨fun _ => hh, fun hm => by simp [hmode] at hm⟩, hmode⟩
  | false =>
    have hm := h.mutex hmode
    refine ⟨{ locks with mutex := none }, by simp [hmode, (hm i).2 hi],
      ⟨fun hm => by simp [hmode] at hm, fun _ j => ?_⟩, hmode⟩
    by_cases hj : j = i
    · subst hj
      simp
    · have hno : inside j = false := by
        rw [← Bool.not_eq_true]
        exact fun hjin => hj (Option.some_inj.1 (((hm j).2 hjin).symm.trans ((hm i).2 hi)))
      simp [hj, hno]

/-- When nobody is inside, anybody not refused comes in. -/
theorem Held.free (h : Held role inside locks) (hnone : ∀ i, inside i = false) (i : ι)
    (hrefused : role i = .reader → refused = false) :
    ∃ locks', ReadersWriters.acquire (role i) refused locks i = some locks' := by
  unfold ReadersWriters.acquire
  cases hmode : locks.userwlock with
  | true =>
    have hrw := h.rwlock hmode
    have hw : locks.rwlock.writer = none := by
      rw [Option.eq_none_iff_forall_ne_some]
      intro j hj
      have := ((hrw.writer j).1 hj).1
      simp [hnone j] at this
    have hr : locks.rwlock.readers = ∅ := by
      rw [Finset.eq_empty_iff_forall_notMem]
      intro j hj
      have := ((hrw.readers j).1 hj).1
      simp [hnone j] at this
    cases hrole : role i with
    | reader => exact ⟨_, by simp [hrefused hrole, RwLock.rdlock, hw]; rfl⟩
    | writer => exact ⟨_, by simp [RwLock.wrlock, hw, hr]; rfl⟩
  | false =>
    have hm : locks.mutex = none := by
      rw [Option.eq_none_iff_forall_ne_some]
      intro j hj
      have := (h.mutex hmode j).1 hj
      simp [hnone j] at this
    exact ⟨_, by simp [hm]; rfl⟩

end

/-! ## The threads of `rw.c` -/

/-- The locks and the threads. -/
structure State (ι : Type) where
  locks : Locks ι
  threads : ι → Own

/-- A thread's steps but for the locks, and how far it has come by them. -/
def pos (l : Own) : Nat :=
  4 * l.loopCount + match l.pc with
    | .top => 0
    | .lock | .exit => 1
    | .op => 2
    | .unlock => 3

/-- `main` has created the threads. -/
def start {ι : Type} (userwlock : Bool) : State ι := ⟨⟨userwlock, .free, none⟩, fun _ => ⟨.top, 0⟩⟩

/-- Every thread has exited. -/
def AllExited {ι : Type} (s : State ι) : Prop := ∀ i, (s.threads i).pc = .exit

section

variable {ι : Type} [DecidableEq ι] [Fintype ι] (prefer : Bool) (role : ι → Role) (max : Nat)

/-- A writer waits, and readers have to wait for those. -/
def refused (s : State ι) : Bool := prefer && decide (∃ j, role j = .writer ∧ (s.threads j).pc = .lock)

/-- The next state, where the thread has a step to take. -/
def step (s : State ι) (i : ι) : Option (State ι) :=
  (threadMain max (role i) (refused prefer role s) s.locks i (s.threads i)).map fun (locks, own) =>
    ⟨locks, Function.update s.threads i own⟩

/-- What the steps do. -/
inductive Move (s : State ι) (i : ι) : State ι → Prop
  | next (pc : (s.threads i).pc = .top) (lt : (s.threads i).loopCount < max) :
      Move s i ⟨s.locks, Function.update s.threads i { s.threads i with pc := .lock }⟩
  | exit (pc : (s.threads i).pc = .top) (ge : max ≤ (s.threads i).loopCount) :
      Move s i ⟨s.locks, Function.update s.threads i { s.threads i with pc := .exit }⟩
  | acquire {locks} (pc : (s.threads i).pc = .lock)
      (acquire : acquire (role i) (refused prefer role s) s.locks i = some locks) :
      Move s i ⟨locks, Function.update s.threads i { s.threads i with pc := .op }⟩
  | work (pc : (s.threads i).pc = .op) :
      Move s i ⟨s.locks, Function.update s.threads i { s.threads i with pc := .unlock }⟩
  | release {locks} (pc : (s.threads i).pc = .unlock) (release : release s.locks i = some locks) :
      Move s i ⟨locks, Function.update s.threads i ⟨.top, (s.threads i).loopCount + 1⟩⟩

variable {prefer role max} {s s' : State ι} {i : ι}

theorem move_of_step (h : step prefer role max s i = some s') : Move prefer role max s i s' := by
  obtain ⟨⟨locks, own⟩, ht, he⟩ := Option.map_eq_some_iff.1 h
  cases he
  unfold threadMain at ht
  split at ht
  · next hpc =>
    cases ht
    dsimp only
    split
    · next hlt => exact .next hpc hlt
    · next hge => exact .exit hpc (Nat.le_of_not_lt hge)
  · next hpc =>
    obtain ⟨locks, ha, he⟩ := Option.map_eq_some_iff.1 ht
    cases he
    exact .acquire hpc ha
  · next hpc =>
    cases ht
    exact .work hpc
  · next hpc =>
    obtain ⟨locks, hr, he⟩ := Option.map_eq_some_iff.1 ht
    cases he
    exact .release hpc hr
  · cases ht

/-- Those inside hold the lock, and each thread is within its loop. -/
structure Sound (userwlock : Bool) (role : ι → Role) (max : Nat) (s : State ι) : Prop where
  held : Held role (fun i => (s.threads i).inside) s.locks
  mode : s.locks.userwlock = userwlock
  loop : ∀ i, (s.threads i).loopCount ≤ max ∧
    ((s.threads i).pc = .lock ∨ (s.threads i).inside → (s.threads i).loopCount < max)
  exit : ∀ i, (s.threads i).pc = .exit → (s.threads i).loopCount = max

omit [Fintype ι] in
theorem inside_update (threads : ι → Own) (i : ι) (l : Own) :
    (fun j => (Function.update threads i l j).inside) = Function.update (fun j => (threads j).inside) i l.inside := by
  funext j
  exact Function.apply_update (fun _ => Own.inside) threads i l j

omit [Fintype ι] in
theorem Sound.put {userwlock : Bool} (h : Sound userwlock role max s) {locks : Locks ι} {l : Own}
    (hheld : Held role (Function.update (fun j => (s.threads j).inside) i l.inside) locks)
    (hmode : locks.userwlock = s.locks.userwlock) (hle : l.loopCount ≤ max)
    (hlt : l.pc = .lock ∨ l.inside → l.loopCount < max) (hexit : l.pc = .exit → l.loopCount = max) :
    Sound userwlock role max ⟨locks, Function.update s.threads i l⟩ where
  held := by
    show Held role (fun j => (Function.update s.threads i l j).inside) locks
    rw [inside_update]
    exact hheld
  mode := hmode.trans h.mode
  loop j := by
    dsimp only
    by_cases hj : j = i
    · subst hj
      rw [Function.update_self]
      exact ⟨hle, hlt⟩
    · rw [Function.update_of_ne hj]
      exact h.loop j
  exit j := by
    dsimp only
    by_cases hj : j = i
    · subst hj
      rw [Function.update_self]
      exact hexit
    · rw [Function.update_of_ne hj]
      exact h.exit j

theorem Sound.move {userwlock : Bool} (h : Sound userwlock role max s) (hm : Move prefer role max s i s') :
    Sound userwlock role max s' := by
  obtain ⟨hle, hlt⟩ := h.loop i
  -- a step within or without leaves who is inside as it is
  have hsame {l : Own} (hl : l.inside = (s.threads i).inside) :
      Held role (Function.update (fun j => (s.threads j).inside) i l.inside) s.locks := by
    rw [hl, Function.update_eq_self i fun j => (s.threads j).inside]
    exact h.held
  cases hm with
  | next hpc hlt => exact h.put (hsame (by simp [Own.inside, hpc])) rfl hle (fun _ => hlt) (fun h => by cases h)
  | exit hpc hge =>
    exact h.put (hsame (by simp [Own.inside, hpc])) rfl hle (by simp [Own.inside]) fun _ => le_antisymm hle hge
  | acquire hpc ha =>
    obtain ⟨hheld, hmode⟩ := h.held.acquire (by simp [Own.inside, hpc]) ha
    exact h.put hheld hmode hle (fun _ => hlt (.inl hpc)) (fun h => by cases h)
  | work hpc =>
    exact h.put (hsame (by simp [Own.inside, hpc])) rfl hle (fun _ => hlt (.inr (by simp [Own.inside, hpc])))
      (fun h => by cases h)
  | release hpc hr =>
    have hin : (s.threads i).inside := by simp [Own.inside, hpc]
    obtain ⟨locks', hr', hheld, hmode⟩ := h.held.release hin
    cases hr.symm.trans hr'
    exact h.put hheld hmode (hlt (.inr hin)) (by simp [Own.inside]) (fun h => by cases h)

omit [DecidableEq ι] [Fintype ι] in
theorem sound_start (userwlock : Bool) : Sound userwlock role max (start userwlock) where
  held :=
    { rwlock := fun _ =>
        ⟨fun _ => by simp [start, RwLock.free, Own.inside], fun _ => by simp [start, RwLock.free, Own.inside]⟩
      mutex := fun _ _ => by simp [start, Own.inside] }
  mode := rfl
  loop _ := ⟨Nat.zero_le _, by simp [start, Own.inside]⟩
  exit _ h := by cases h

theorem sound_reached {userwlock : Bool} (h : Reach (step prefer role max) anyStep (start userwlock) s) :
    Sound userwlock role max s :=
  h.invariant (I := Sound userwlock role max) (fun _ _ _ hi _ hs => hi.move (move_of_step hs)) (sound_start userwlock)

/-- How far all threads have come. -/
def total (s : State ι) : Nat := ∑ i, pos (s.threads i)

theorem total_move (hm : Move prefer role max s i s') : total s' = total s + 1 := by
  have hput (locks : Locks ι) (l : Own) (hl : pos l = pos (s.threads i) + 1) :
      total ⟨locks, Function.update s.threads i l⟩ = total s + 1 := by
    have := sum_update_nat pos s.threads (Finset.mem_univ i) l
    unfold total
    dsimp only
    omega
  cases hm with
  | next hpc | exit hpc | acquire hpc | work hpc => exact hput _ _ (by simp [pos, hpc])
  | release hpc =>
    refine hput _ _ ?_
    simp only [pos, hpc]
    omega

omit [DecidableEq ι] [Fintype ι] in
theorem Sound.pos_le {userwlock : Bool} (h : Sound userwlock role max s) (i : ι) :
    pos (s.threads i) ≤ 4 * max + 1 := by
  obtain ⟨hle, hlt⟩ := h.loop i
  unfold pos
  cases hpc : (s.threads i).pc with
  | top | exit => dsimp only; omega
  | lock =>
    have := hlt (.inl hpc)
    dsimp only
    omega
  | op | unlock =>
    have := hlt (.inr (by simp [Own.inside, hpc]))
    dsimp only
    omega

theorem step_of_thread {locks : Locks ι} {own : Own}
    (h : threadMain max (role i) (refused prefer role s) s.locks i (s.threads i) = some (locks, own)) :
    step prefer role max s i = some ⟨locks, Function.update s.threads i own⟩ := by
  rw [step, h]
  rfl

/-- As long as a thread has not exited, one can go on: one inside, one on its
way to the lock, or one that finds it free. -/
theorem Sound.goes_on {userwlock : Bool} (h : Sound userwlock role max s) :
    AllExited s ∨ ∃ i s', step prefer role max s i = some s' := by
  by_cases hin : ∃ i, (s.threads i).inside
  · obtain ⟨i, hi⟩ := hin
    refine .inr ⟨i, ?_⟩
    cases hpc : (s.threads i).pc with
    | op => exact ⟨_, step_of_thread (by rw [threadMain, hpc])⟩
    | unlock =>
      obtain ⟨locks, hr, -⟩ := h.held.release hi
      exact ⟨_, step_of_thread (by rw [threadMain, hpc]; simp only [hr]; rfl)⟩
    | top | lock | exit => simp [Own.inside, hpc] at hi
  · by_cases htop : ∃ i, (s.threads i).pc = .top
    · obtain ⟨i, hpc⟩ := htop
      exact .inr ⟨i, _, step_of_thread (by rw [threadMain, hpc])⟩
    · have hnone : ∀ i, (s.threads i).inside = false := by simpa using hin
      have hpcs : ∀ i, (s.threads i).pc = .lock ∨ (s.threads i).pc = .exit := by
        intro i
        have hi := hnone i
        cases hpc : (s.threads i).pc with
        | lock => exact .inl rfl
        | exit => exact .inr rfl
        | top => exact absurd ⟨i, hpc⟩ htop
        | op | unlock => simp [Own.inside, hpc] at hi
      by_cases hall : AllExited s
      · exact .inl hall
      · obtain ⟨i, hi⟩ := not_forall.1 hall
        have hi := (hpcs i).resolve_right hi
        -- a writer that waits, if there is one
        obtain ⟨j, hj, hrefused⟩ : ∃ j, (s.threads j).pc = .lock ∧
            (role j = .reader → refused prefer role s = false) := by
          by_cases hw : ∃ j, role j = .writer ∧ (s.threads j).pc = .lock
          · obtain ⟨j, hrole, hj⟩ := hw
            exact ⟨j, hj, fun hr => by rw [hrole] at hr; cases hr⟩
          · exact ⟨i, hi, fun _ => by simp [refused, hw]⟩
        obtain ⟨locks, ha⟩ := h.held.free hnone j hrefused
        exact .inr ⟨j, _, step_of_thread (by rw [threadMain, hj]; simp only [ha]; rfl)⟩

omit [DecidableEq ι] in
/-- A run has as many steps as the threads have taken, so it ends when they
have taken all of theirs. -/
theorem Sound.exited_iff {userwlock : Bool} (h : Sound userwlock role max s) :
    AllExited s ↔ total s = Fintype.card ι * (4 * max + 1) := by
  have hsum : ∑ _ : ι, (4 * max + 1) = Fintype.card ι * (4 * max + 1) := by
    rw [Finset.sum_const, Finset.card_univ, smul_eq_mul]
  have hle : ∀ i ∈ Finset.univ, pos (s.threads i) ≤ 4 * max + 1 := fun i _ => h.pos_le i
  rw [← hsum, total, Finset.sum_eq_sum_iff_of_le hle]
  constructor
  · intro hall i _
    have hdone := h.exit i (hall i)
    simp only [pos, hall i, hdone]
  · intro hall i
    have hi := hall i (Finset.mem_univ i)
    obtain ⟨hle, hlt⟩ := h.loop i
    unfold pos at hi
    cases hpc : (s.threads i).pc with
    | exit => rfl
    | lock =>
      have := hlt (.inl hpc)
      simp only [hpc] at hi
      omega
    | top | op | unlock =>
      simp only [hpc] at hi
      omega

theorem length_exec {userwlock : Bool} {as : List ι}
    (h : exec (step prefer role max) anyStep (start userwlock) as = some s) : total s = as.length := by
  have hzero : total (start userwlock : State ι) = 0 := by simp [total, start, pos]
  have hcount := exec_count (I := fun _ => True) (fun _ _ _ _ hs => ⟨trivial, total_move (move_of_step hs)⟩) trivial h
  rw [hcount, hzero, Nat.zero_add]

omit [DecidableEq ι] in
theorem Sound.total_le {userwlock : Bool} (h : Sound userwlock role max s) :
    total s ≤ Fintype.card ι * (4 * max + 1) := by
  rw [← smul_eq_mul, ← Finset.card_univ]
  exact Finset.sum_le_card_nsmul _ _ _ fun i _ => h.pos_le i

/-! ## Who can be inside -/

/-- Those in `S` are inside, and the others have not started. -/
def Opened (S : Finset ι) (s : State ι) : Prop :=
  ∀ i, s.threads i = if i ∈ S then ⟨.op, 0⟩ else ⟨.top, 0⟩

omit [Fintype ι] in
theorem Opened.inside {S : Finset ι} (h : Opened S s) (i : ι) : (s.threads i).inside = true ↔ i ∈ S := by
  rw [h i]
  by_cases hi : i ∈ S
  · simp [hi, Own.inside]
  · simp [hi, Own.inside]

/-- A thread comes in to those that are inside, if the lock lets it. -/
theorem Opened.insert {S : Finset ι} (h : Opened S s) (hmax : 0 < max) (hi : i ∉ S) {locks : Locks ι}
    (ha : ReadersWriters.acquire (role i) false s.locks i = some locks) :
    ∃ s', Reach (step prefer role max) anyStep s s' ∧ Opened (insert i S) s' := by
  have htop : s.threads i = ⟨.top, 0⟩ := by rw [h i, if_neg hi]
  have hlock : step prefer role max s i = some ⟨s.locks, Function.update s.threads i ⟨.lock, 0⟩⟩ :=
    step_of_thread (by simp [threadMain, htop, hmax])
  have hrefused : role i = .reader →
      refused prefer role ⟨s.locks, Function.update s.threads i ⟨.lock, 0⟩⟩ = false := by
    intro hrole
    -- the others are not at the lock
    have hno : ¬ ∃ j, role j = .writer ∧ (Function.update s.threads i ⟨.lock, 0⟩ j).pc = .lock := by
      rintro ⟨j, hj, hpc⟩
      by_cases hji : j = i
      · rw [hji, hrole] at hj
        cases hj
      · rw [Function.update_of_ne hji, h j] at hpc
        split at hpc <;> cases hpc
    simp only [refused, hno, decide_false, Bool.and_false]
  have hop : step prefer role max ⟨s.locks, Function.update s.threads i ⟨.lock, 0⟩⟩ i =
      some ⟨locks, Function.update s.threads i ⟨.op, 0⟩⟩ := by
    rw [step_of_thread (by simp only [threadMain, Function.update_self, acquire_not_refused hrefused, ha]; rfl)]
    simp
  refine ⟨_, .tail (.single ⟨i, trivial, hlock⟩) ⟨i, trivial, hop⟩, fun j => ?_⟩
  dsimp only
  by_cases hj : j = i
  · subst hj
    simp
  · rw [Function.update_of_ne hj, h j]
    simp [hj]

omit [Fintype ι] in
theorem opened_start (userwlock : Bool) : Opened ∅ (start userwlock : State ι) := fun _ => rfl

/-- The readers in `S` come in one after the other. -/
theorem reach_readers (hmax : 0 < max) (S : Finset ι) (hS : ∀ i ∈ S, role i = .reader) :
    ∃ s, Reach (step prefer role max) anyStep (start true) s ∧ Opened S s := by
  induction S using Finset.induction_on with
  | empty => exact ⟨_, .refl, opened_start true⟩
  | insert i S hi ih =>
    obtain ⟨s, hreach, hs⟩ := ih fun j hj => hS j (Finset.mem_insert_of_mem hj)
    have hsound := sound_reached hreach
    have hrole := hS i (Finset.mem_insert_self i S)
    have hw : s.locks.rwlock.writer = none := by
      rw [Option.eq_none_iff_forall_ne_some]
      intro j hj
      obtain ⟨hin, hj⟩ := ((hsound.held.rwlock hsound.mode).writer j).1 hj
      rw [hS j (Finset.mem_insert_of_mem ((hs.inside j).1 hin))] at hj
      cases hj
    have ha : ∃ locks, ReadersWriters.acquire (role i) false s.locks i = some locks :=
      ⟨_, by simp only [ReadersWriters.acquire, hsound.mode, hrole, RwLock.rdlock, hw]; rfl⟩
    obtain ⟨locks, ha⟩ := ha
    obtain ⟨s', hreach', hs'⟩ := hs.insert hmax hi ha
    exact ⟨s', hreach.trans hreach', hs'⟩

theorem reach_one (userwlock : Bool) (hmax : 0 < max) (i : ι) :
    ∃ s, Reach (step prefer role max) anyStep (start userwlock) s ∧ Opened {i} s := by
  have hnone : ∀ j, (fun j => ((start userwlock : State ι).threads j).inside) j = false := fun _ => rfl
  have hsound : Sound userwlock role max (start userwlock) := sound_start userwlock
  obtain ⟨locks, ha⟩ :
      ∃ locks, ReadersWriters.acquire (role i) false (start userwlock : State ι).locks i = some locks :=
    hsound.held.free hnone i fun _ => rfl
  exact (opened_start userwlock).insert hmax (Finset.notMem_empty i) ha

/-- Which threads can be inside together. -/
theorem inside_iff (userwlock : Bool) (hmax : 0 < max) (S : Finset ι) :
    (∃ s, Reach (step prefer role max) anyStep (start userwlock) s ∧ ∀ i, (s.threads i).inside ↔ i ∈ S) ↔
      S.card ≤ 1 ∨ userwlock = true ∧ ∀ i ∈ S, role i = .reader := by
  constructor
  · rintro ⟨s, hreach, hs⟩
    have hsound := sound_reached hreach
    by_cases hcard : S.card ≤ 1
    · exact .inl hcard
    · obtain ⟨a, ha, b, hb, hab⟩ := Finset.one_lt_card.1 (Nat.lt_of_not_le hcard)
      refine .inr ⟨?_, fun i hi => ?_⟩
      · rw [← hsound.mode]
        exact (hsound.held.together ((hs a).2 ha) ((hs b).2 hb) hab).1
      · -- another one than `i`
        obtain ⟨j, hj, hij⟩ : ∃ j ∈ S, i ≠ j := by
          by_cases hia : i = a
          · exact ⟨b, hb, hia ▸ hab⟩
          · exact ⟨a, ha, hia⟩
        exact (hsound.held.together ((hs i).2 hi) ((hs j).2 hj) hij).2.1
  · rintro (hcard | ⟨rfl, hS⟩)
    · rcases Nat.le_one_iff_eq_zero_or_eq_one.1 hcard with h0 | h1
      · rw [Finset.card_eq_zero.1 h0]
        exact ⟨_, .refl, (opened_start userwlock).inside⟩
      · obtain ⟨i, rfl⟩ := Finset.card_eq_one.1 h1
        exact (reach_one userwlock hmax i).imp fun s hs => ⟨hs.1, hs.2.inside⟩
    · exact (reach_readers hmax S hS).imp fun s hs => ⟨hs.1, hs.2.inside⟩

end

/-! ## Ten readers and a writer -/

/-- How many threads read. -/
abbrev NUM_READERS : Nat := 10

/-- How many threads write. -/
abbrev NUM_WRITERS : Nat := 1

/-- How many threads are created. -/
abbrev NUM_THREADS : Nat := NUM_READERS + NUM_WRITERS

/-- How often each thread locks. -/
def LOOP_MAX : Nat := 50

/-- The writer is the last thread. -/
def mainRole (i : Fin NUM_THREADS) : Role := if i.val = NUM_READERS then .writer else .reader

/-- Each run ends, after as many steps in one order as in another: two threads
are inside together only as readers in the mode `rw`, and until all have exited
one can go on, whether readers wait for writers or not. -/
theorem readers_writers_run (prefer userwlock : Bool) {as : List (Fin NUM_THREADS)} {s : State (Fin NUM_THREADS)}
    (h : exec (step prefer mainRole LOOP_MAX) anyStep (start userwlock) as = some s) :
    (∀ i j, (s.threads i).inside → (s.threads j).inside → i ≠ j →
        userwlock = true ∧ mainRole i = .reader ∧ mainRole j = .reader) ∧
      as.length ≤ 2211 ∧ (AllExited s ↔ as.length = 2211) ∧
      (AllExited s ∨ ∃ i s', step prefer mainRole LOOP_MAX s i = some s') := by
  have hsound := sound_reached (reach_of_exec h)
  have hlen := length_exec h
  have hcard : Fintype.card (Fin NUM_THREADS) * (4 * LOOP_MAX + 1) = 2211 := rfl
  refine ⟨fun i j hi hj hij => ?_, ?_, ?_, hsound.goes_on⟩
  · rw [← hsound.mode]
    exact hsound.held.together hi hj hij
  · rw [← hlen, ← hcard]
    exact hsound.total_le
  · rw [hsound.exited_iff, hcard, hlen]

theorem readers_writers_run_waiting :
    ∃ s, exec (step true mainRole LOOP_MAX) anyStep (start true) [0, 0, 1, 1, 10] = some s ∧
      (s.threads 0).inside ∧ (s.threads 1).inside ∧ (s.threads 10).pc = .lock ∧
        ∃ i s', step true mainRole LOOP_MAX s i = some s' := by
  obtain ⟨s, h⟩ : ∃ s, exec (step true mainRole LOOP_MAX) anyStep (start true) [0, 0, 1, 1, 10] = some s := ⟨_, rfl⟩
  have hs := h
  cases hs
  refine ⟨_, h, rfl, rfl, rfl, ?_⟩
  have hrun := readers_writers_run true true h
  refine hrun.2.2.2.resolve_left fun hall => ?_
  exact absurd (hrun.2.2.1.1 hall) (by decide)

/-- Threads can be inside together in the mode `rw` if they are all readers,
all ten at once too, and in the mode `mutex` if they are but one. -/
theorem inside_together (prefer userwlock : Bool) (S : Finset (Fin NUM_THREADS)) :
    (∃ s, Reach (step prefer mainRole LOOP_MAX) anyStep (start userwlock) s ∧ ∀ i, (s.threads i).inside ↔ i ∈ S) ↔
      S.card ≤ 1 ∨ userwlock = true ∧ ∀ i ∈ S, mainRole i = .reader :=
  inside_iff userwlock (by decide) S

end SysProg.ReadersWriters
