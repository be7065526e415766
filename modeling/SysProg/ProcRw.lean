/-
Processes of eleven threads each that share two locks in a mapped file
(`proc_rw.c`). The process that creates the file says in it which of the locks
is used, and initialises that one; the others take what they find there.

What `ftruncate` adds to a file is zeros, and each process maps the file after
its own call, so the area is there from the beginning, with zeros in it. The
calls of `open`, `ftruncate` and `mmap` succeed, but for the `open` of a file
that exists. A lock that is not initialised is not to be locked or unlocked.
-/
import SysProg.ReadersWriters

namespace SysProg.ProcRw

open ReadersWriters (Role Locks acquire release Held)

/-- How many threads read. -/
abbrev NUM_READERS : Nat := 10

/-- How many threads write. -/
abbrev NUM_WRITERS : Nat := 1

/-- How many threads a process creates. -/
abbrev NUM_THREADS : Nat := NUM_READERS + NUM_WRITERS

/-- The writer is the last thread. -/
def WRITER : Fin NUM_THREADS := 10

/-- How often each thread locks. -/
def LOOP_MAX : Nat := 10

/-- Where a thread is in an iteration. -/
inductive Pc where
  /-- At the test of the loop, and at the mode that it reads then. -/
  | top
  /-- With the mode, at the lock of this mode or waiting in it. -/
  | lock (userwlock : Bool)
  /-- In `doRead` or `doWrite`, and at the mode that it reads again. -/
  | op
  | unlock (userwlock : Bool)
  | exit
  deriving DecidableEq

/-- What a thread has of its own. -/
structure Own where
  pc : Pc
  loopCount : Nat

/-- Where a process is in `main`. -/
inductive MainPc where
  /-- The `open` that creates the file, and fails if it exists. -/
  | create
  /-- The plain `open`. -/
  | reopen
  /-- The file is sized and mapped. -/
  | arguments (createdHere : Bool)
  | initLocks
  /-- So many threads have been created, the writer first. -/
  | spawn (count : Nat)
  /-- So many have been joined, the writer last. -/
  | join (count : Nat)
  | returned
  /-- It has said how it is to be called, and exited. -/
  | usage
  deriving DecidableEq

/-- The shared file, the processes and their threads. -/
structure State (ι : Type) where
  /-- The process that has created the file. -/
  file : Option ι
  /-- What the area holds, and which of its locks are initialised. -/
  locks : Locks (ι × Fin NUM_THREADS)
  rwlockReady : Bool
  mutexReady : Bool
  mains : ι → MainPc
  threads : ι × Fin NUM_THREADS → Own
  /-- What the processes have said of the locks they use. -/
  told : ι → Option Bool

/-- Who is next. -/
inductive Action (ι : Type) where
  | main (p : ι)
  | thread (i : ι × Fin NUM_THREADS)

/-- What the arguments say: the mode, or nothing that is understood. -/
def mode (argv : List String) : Option Bool :=
  match argv with
  | _ :: arg :: _ => if arg = "rw" then some true else if arg = "mutex" then some false else none
  | _ => none

/-- What a thread of a process does. -/
def role {ι : Type} (i : ι × Fin NUM_THREADS) : Role := if i.2 = WRITER then .writer else .reader

/-- How many threads are created before this one. -/
def place (t : Fin NUM_THREADS) : Nat := if t = WRITER then 0 else t.val + 1

/-- The threads that are there, by where their process is. -/
def MainPc.created (t : Fin NUM_THREADS) : MainPc → Bool
  | .spawn count => place t < count
  | .join _ => true
  | .create | .reopen | .arguments _ | .initLocks | .returned | .usage => false

/-- The lock of a mode is initialised. -/
def State.ready {ι : Type} (s : State ι) (userwlock : Bool) : Bool :=
  if userwlock then s.rwlockReady else s.mutexReady

section

variable {ι : Type} [DecidableEq ι]

/-- The state with the first thread of one process elsewhere. -/
def State.go (s : State ι) (p : ι) (pc : MainPc) : State ι := { s with mains := Function.update s.mains p pc }

/-- `none` while the process waits for a thread, and when it has exited. -/
def main (argv : ι → List String) (s : State ι) (p : ι) : Option (State ι) :=
  match s.mains p with
  | .create =>
    match s.file with
    | none => some ({ s with file := some p }.go p (.arguments true))
    | some _ => some (s.go p .reopen)
  | .reopen => some (s.go p (.arguments false))
  | .arguments createdHere =>
    if createdHere then
      match mode (argv p) with
      | some userwlock => some ({ s with locks := { s.locks with userwlock } }.go p .initLocks)
      | none => some (s.go p .usage)
    else some ({ s with told := Function.update s.told p (some s.locks.userwlock) }.go p (.spawn 0))
  | .initLocks =>
    if s.locks.userwlock then
      some ({ s with locks := { s.locks with rwlock := .free }, rwlockReady := true }.go p (.spawn 0))
    else some ({ s with locks := { s.locks with mutex := none }, mutexReady := true }.go p (.spawn 0))
  | .spawn count => if count < NUM_THREADS then some (s.go p (.spawn (count + 1))) else some (s.go p (.join 0))
  | .join count =>
    if h : count < NUM_THREADS then
      if (s.threads (p, ⟨count, h⟩)).pc = .exit then some (s.go p (.join (count + 1))) else none
    else some (s.go p .returned)
  | .returned | .usage => none

/-- `readerMain` and `writerMain`. What they do to a lock that is not
initialised, or not theirs to release, is not defined. -/
def threadMain (refused : Bool) (s : State ι) (i : ι × Fin NUM_THREADS) : Option (State ι) :=
  let own := s.threads i
  let put (locks : Locks (ι × Fin NUM_THREADS)) (own : Own) : State ι :=
    { s with locks, threads := Function.update s.threads i own }
  match own.pc with
  | .top =>
    some (put s.locks { own with pc := if own.loopCount < LOOP_MAX then .lock s.locks.userwlock else .exit })
  | .lock userwlock =>
    if s.ready userwlock then
      (acquire (role i) refused { s.locks with userwlock } i).map fun locks =>
        put { locks with userwlock := s.locks.userwlock } { own with pc := .op }
    else none
  | .op => some (put s.locks { own with pc := .unlock s.locks.userwlock })
  | .unlock userwlock =>
    if s.ready userwlock then
      (release { s.locks with userwlock } i).map fun locks =>
        put { locks with userwlock := s.locks.userwlock } ⟨.top, own.loopCount + 1⟩
    else none
  | .exit => none

/-- A thread is at a call whose effect is not defined. -/
def Fault (s : State ι) (i : ι × Fin NUM_THREADS) : Prop :=
  match (s.threads i).pc with
  | .lock userwlock => s.ready userwlock = false
  | .unlock userwlock => s.ready userwlock = false ∨ release { s.locks with userwlock } i = none
  | .top | .op | .exit => False

/-- Between the lock and its release. -/
def Own.inside (l : Own) : Bool :=
  match l.pc with
  | .op | .unlock _ => true
  | .top | .lock _ | .exit => false

/-- A process opens the file of another only when the lock there that is used is initialised. -/
def inOrder (s : State ι) : Action ι → Prop
  | .main p => s.mains p = .reopen → s.ready s.locks.userwlock
  | .thread _ => True

instance (s : State ι) (a : Action ι) : Decidable (inOrder s a) := by
  unfold inOrder
  cases a <;> infer_instance

/-- No file, and no process has started. -/
def start : State ι :=
  ⟨none, ⟨false, .free, none⟩, false, false, fun _ => .create, fun _ => ⟨.top, 0⟩, fun _ => none⟩

/-- Every process has come to its end. -/
def AllEnded (s : State ι) : Prop := ∀ p, s.mains p = .returned ∨ s.mains p = .usage

variable [Fintype ι] (argv : ι → List String) (prefer : Bool)

/-- A writer waits, and readers have to wait for those. -/
def refused (s : State ι) : Bool := prefer && decide (∃ j, role j = .writer ∧ (s.threads j).pc = .lock true)

/-- The next state, where there is a step to take. -/
def step (s : State ι) : Action ι → Option (State ι)
  | .main p => main argv s p
  | .thread i => if (s.mains i.1).created i.2 then threadMain (refused prefer s) s i else none

end

/-! ## When each process opens the file in order -/

section

variable {ι : Type} {argv : ι → List String} {s : State ι}

/-- Where a process is that has not opened the file. -/
def MainPc.early : MainPc → Bool
  | .create | .reopen => true
  | .arguments _ | .initLocks | .spawn _ | .join _ | .returned | .usage => false

/-- Where only the creator comes, before the lock is initialised or when it cannot be. -/
def MainPc.creators : MainPc → Bool
  | .arguments true | .initLocks | .usage => true
  | .create | .reopen | .arguments false | .spawn _ | .join _ | .returned => false

/-- Where a process is that has opened the file of another, or whose lock is initialised. -/
def MainPc.later : MainPc → Bool
  | .arguments false | .spawn _ | .join _ | .returned => true
  | .create | .reopen | .arguments true | .initLocks | .usage => false

/-- The lock is initialised, by the process that has created the file, and those inside hold it. -/
structure Ready (argv : ι → List String) (s : State ι) (c : ι) : Prop where
  file : s.file = some c
  mode : mode (argv c) = some s.locks.userwlock
  ready : s.ready s.locks.userwlock = true
  mains : ∀ p, (s.mains p).creators = false
  held : Held role (fun i => (s.threads i).inside) s.locks

/-- How far the file has come. -/
inductive Setup (argv : ι → List String) (s : State ι) : Prop
  | fresh (file : s.file = none) (mains : ∀ p, s.mains p = .create) (unready : ∀ m, s.ready m = false)
  | setting (c : ι) (file : s.file = some c) (others : ∀ p, p ≠ c → (s.mains p).early = true)
      (unready : ∀ m, s.ready m = false)
      (pc : s.mains c = .arguments true ∨ s.mains c = .initLocks ∧ mode (argv c) = some s.locks.userwlock ∨
        s.mains c = .usage ∧ mode (argv c) = none)
  | ready (c : ι) (ready : Ready argv s c)

/-- What the threads of a process have come to, by where it is in `main`. -/
def Within (own : Fin NUM_THREADS → Own) : MainPc → Prop
  | .spawn count => count ≤ NUM_THREADS ∧ ∀ t, count ≤ place t → own t = ⟨.top, 0⟩
  | .join count => count ≤ NUM_THREADS ∧ ∀ t, t.val < count → (own t).pc = .exit
  | .returned => ∀ t, (own t).pc = .exit
  | .create | .reopen | .arguments _ | .initLocks | .usage => ∀ t, own t = ⟨.top, 0⟩

/-- A thread is within its loop, and has read the mode there is. -/
def Own.Good (userwlock : Bool) (l : Own) : Prop :=
  match l.pc with
  | .top => l.loopCount ≤ LOOP_MAX
  | .lock m | .unlock m => m = userwlock ∧ l.loopCount < LOOP_MAX
  | .op => l.loopCount < LOOP_MAX
  | .exit => l.loopCount = LOOP_MAX

/-- What holds of every state of a run in order. -/
structure Sound (argv : ι → List String) (s : State ι) : Prop where
  setup : Setup argv s
  within : ∀ p, Within (fun t => s.threads (p, t)) (s.mains p)
  threads : ∀ i, (s.threads i).Good s.locks.userwlock
  told : ∀ p m, s.told p = some m → s.ready m ∧ m = s.locks.userwlock

theorem sound_start : Sound argv (start : State ι) where
  setup := .fresh rfl (fun _ => rfl) fun m => by cases m <;> rfl
  within _ _ := rfl
  threads _ := Nat.zero_le _
  told _ _ h := by cases h

theorem not_later_of_early {pc : MainPc} (h : pc.early = true) : pc.later = false := by
  cases pc with
  | create | reopen => rfl
  | arguments | initLocks | spawn | join | returned | usage => cases h

theorem not_creators_of_early {pc : MainPc} (h : pc.early = true) : pc.creators = false := by
  cases pc with
  | create | reopen => rfl
  | arguments | initLocks | spawn | join | returned | usage => cases h

/-- All but the first process find the lock initialised. -/
theorem Setup.is_ready (h : Setup argv s) {p : ι} (hpc : (s.mains p).later = true) : ∃ c, Ready argv s c := by
  cases h with
  | fresh _ hmains => simp [hmains p, MainPc.later] at hpc
  | setting c _ hothers _ hmain =>
    by_cases hp : p = c
    · subst hp
      rcases hmain with h | ⟨h, -⟩ | ⟨h, -⟩ <;> simp [h, MainPc.later] at hpc
    · rw [not_later_of_early (hothers p hp)] at hpc
      cases hpc
  | ready c h => exact ⟨c, h⟩

/-- The process that creates the file, before it has come further. -/
theorem Setup.is_setting (h : Setup argv s) {p : ι} (hc : (s.mains p).creators = true) :
    s.file = some p ∧ (∀ q, q ≠ p → (s.mains q).early = true) ∧ (∀ m, s.ready m = false) ∧
      (s.mains p = .initLocks → mode (argv p) = some s.locks.userwlock) := by
  cases h with
  | fresh _ hmains => simp [hmains p, MainPc.creators] at hc
  | setting c hfile hothers hunready hmain =>
    by_cases hp : p = c
    · subst hp
      refine ⟨hfile, hothers, hunready, fun hpc => ?_⟩
      rcases hmain with h | ⟨-, h⟩ | ⟨h, -⟩
      · rw [hpc] at h
        cases h
      · exact h
      · rw [hpc] at h
        cases h
    · rw [not_creators_of_early (hothers p hp)] at hc
      cases hc
  | ready c h => simp [h.mains p] at hc

theorem Within.top {own : Fin NUM_THREADS → Own} {pc : MainPc} (h : Within own pc) (he : pc.early = true)
    (t : Fin NUM_THREADS) : own t = ⟨.top, 0⟩ := by
  cases pc with
  | create | reopen => exact h t
  | arguments | initLocks | spawn | join | returned | usage => cases he

theorem Sound.top (h : Sound argv s) {p : ι} (hothers : ∀ q, q ≠ p → (s.mains q).early = true)
    (hc : (s.mains p).creators = true) (i : ι × Fin NUM_THREADS) : s.threads i = ⟨.top, 0⟩ := by
  have hi := h.within i.1
  by_cases hp : i.1 = p
  · rw [← hp] at hc
    cases hpc : s.mains i.1 with
    | arguments | initLocks | usage =>
      rw [hpc] at hi
      exact hi i.2
    | create | reopen | spawn | join | returned => simp [hpc, MainPc.creators] at hc
  · exact hi.top (hothers i.1 hp) i.2

theorem Sound.ready_of_thread (h : Sound argv s) {i : ι × Fin NUM_THREADS} (hi : (s.threads i).pc ≠ .top) :
    ∃ c, Ready argv s c := by
  have hw := h.within i.1
  cases hpc : s.mains i.1 with
  | spawn | join | returned => exact h.setup.is_ready (p := i.1) (by rw [hpc]; rfl)
  | create | reopen | arguments | initLocks | usage =>
    rw [hpc] at hw
    exact absurd (congrArg Own.pc (hw i.2)) hi

/-- A thread that is inside has been created, and has not been waited for. -/
theorem Sound.created (h : Sound argv s) {i : ι × Fin NUM_THREADS} (htop : (s.threads i).pc ≠ .top)
    (hexit : (s.threads i).pc ≠ .exit) : (s.mains i.1).created i.2 := by
  have hw := h.within i.1
  cases hpc : s.mains i.1 with
  | join => rfl
  | spawn count =>
    rw [hpc] at hw
    by_cases hi : place i.2 < count
    · exact decide_eq_true hi
    · exact absurd (congrArg Own.pc (hw.2 i.2 (Nat.le_of_not_lt hi))) htop
  | returned =>
    rw [hpc] at hw
    exact absurd (hw i.2) hexit
  | create | reopen | arguments | initLocks | usage =>
    rw [hpc] at hw
    exact absurd (congrArg Own.pc (hw i.2)) htop

theorem later_of_created {pc : MainPc} {t : Fin NUM_THREADS} (h : pc.created t) : pc.later = true := by
  cases pc with
  | spawn | join => rfl
  | create | reopen | arguments | initLocks | returned | usage => cases h

theorem held_free {locks : Locks (ι × Fin NUM_THREADS)}
    (h : if locks.userwlock then locks.rwlock = .free else locks.mutex = none) :
    Held role (fun _ => false) locks where
  rwlock hm := by
    rw [if_pos hm] at h
    rw [h]
    exact ⟨fun i => by simp [RwLock.free], fun i => by simp [RwLock.free]⟩
  mutex hm i := by
    simp [hm] at h
    simp [h]

/-- How many steps a thread has taken. -/
def Own.pos (l : Own) : Nat :=
  4 * l.loopCount + match l.pc with
    | .top => 0
    | .lock _ | .exit => 1
    | .op => 2
    | .unlock _ => 3

/-- The steps that a process has taken in `main`. -/
def MainPc.pos : MainPc → Nat
  | .create => 0
  | .reopen | .arguments true => 1
  | .arguments false | .initLocks | .usage => 2
  | .spawn count => 3 + count
  | .join count => NUM_THREADS + 4 + count
  | .returned => 2 * NUM_THREADS + 5

theorem Sound.main_pos_le (h : Sound argv s) (p : ι) : (s.mains p).pos ≤ 2 * NUM_THREADS + 5 := by
  have hw := h.within p
  cases hpc : s.mains p with
  | arguments createdHere => cases createdHere <;> decide
  | create | reopen | initLocks | usage | returned => decide
  | spawn count | join count =>
    rw [hpc] at hw
    have := hw.1
    simp only [MainPc.pos]
    omega

theorem Own.Good.pos_le {m : Bool} {l : Own} (h : l.Good m) : l.pos ≤ 4 * LOOP_MAX + 1 := by
  unfold Own.Good at h
  unfold Own.pos
  cases hpc : l.pc with
  | top | exit | op => simp only [hpc] at h ⊢; omega
  | lock | unlock => simp only [hpc] at h ⊢; omega

/-- What a process and its threads take in all. -/
def each : Nat := 2 * NUM_THREADS + 5 + NUM_THREADS * (4 * LOOP_MAX + 1)

theorem sum_const_each [Fintype ι] :
    ∑ _ : ι, (2 * NUM_THREADS + 5) + ∑ _ : ι × Fin NUM_THREADS, (4 * LOOP_MAX + 1) = Fintype.card ι * each := by
  rw [Finset.sum_const, Finset.sum_const, Finset.card_univ, Finset.card_univ, Fintype.card_prod, Fintype.card_fin,
    smul_eq_mul, smul_eq_mul, each]
  ring

variable [DecidableEq ι] {s' : State ι}

theorem Sound.no_fault (h : Sound argv s) (i : ι × Fin NUM_THREADS) : ¬ Fault s i := by
  have hgood := h.threads i
  unfold Own.Good at hgood
  unfold Fault
  cases hpc : (s.threads i).pc with
  | top | op | exit => exact id
  | lock m =>
    obtain ⟨c, hr⟩ := h.ready_of_thread (i := i) (by rw [hpc]; exact Pc.noConfusion)
    simp only [hpc] at hgood
    dsimp only
    rw [hgood.1, hr.ready]
    exact Bool.noConfusion
  | unlock m =>
    obtain ⟨c, hr⟩ := h.ready_of_thread (i := i) (by rw [hpc]; exact Pc.noConfusion)
    simp only [hpc] at hgood
    obtain ⟨locks, hrel, -⟩ := hr.held.release (i := i) (by simp [Own.inside, hpc])
    dsimp only
    rw [hgood.1, hr.ready, show { s.locks with userwlock := s.locks.userwlock } = s.locks from rfl, hrel]
    rintro (h | h) <;> cases h

theorem Sound.within_go (h : Sound argv s) {p : ι} (pc : MainPc) (hpc : Within (fun t => s.threads (p, t)) pc)
    (q : ι) :
    Within (fun t => s.threads (q, t)) (Function.update s.mains p pc q) := by
  by_cases hq : q = p
  · subst hq
    rw [Function.update_self]
    exact hpc
  · rw [Function.update_of_ne hq]
    exact h.within q

theorem go_self (s : State ι) (p : ι) (pc : MainPc) : (s.go p pc).mains p = pc := Function.update_self ..

theorem go_other (s : State ι) {p q : ι} (h : q ≠ p) (pc : MainPc) : (s.go p pc).mains q = s.mains q :=
  Function.update_of_ne h ..

theorem Ready.go {c : ι} (h : Ready argv s c) {p : ι} {pc : MainPc} (hpc : pc.creators = false) :
    Ready argv (s.go p pc) c where
  file := h.file
  mode := h.mode
  ready := h.ready
  mains q := by
    by_cases hq : q = p
    · rwa [hq, go_self]
    · rw [go_other s hq]
      exact h.mains q
  held := h.held

theorem Sound.go (h : Sound argv s) {c p : ι} (hr : Ready argv s c) {pc : MainPc} (hpc : pc.creators = false)
    (hw : Within (fun t => s.threads (p, t)) pc) : Sound argv (s.go p pc) where
  setup := .ready c (hr.go hpc)
  within := h.within_go pc hw
  threads := h.threads
  told := h.told

/-- A process creates the file. -/
theorem Sound.create (h : Sound argv s) {p : ι} (hpc : s.mains p = .create) (hfile : s.file = none) :
    Sound argv ({ s with file := some p }.go p (.arguments true)) := by
  have hw := h.within p
  rw [hpc] at hw
  cases h.setup with
  | fresh _ hmains hunready =>
    refine ⟨.setting p rfl (fun q hq => ?_) hunready (.inl (go_self ..)), h.within_go (.arguments true) hw, h.threads,
      h.told⟩
    rw [go_other _ hq]
    dsimp only
    rw [hmains q]
    rfl
  | setting c hc => rw [hfile] at hc; cases hc
  | ready c hr =>
    have hc := hr.file
    rw [hfile] at hc
    cases hc

/-- A process finds that the file exists. -/
theorem Sound.finds (h : Sound argv s) {p : ι} (hpc : s.mains p = .create) (hfile : s.file.isSome) :
    Sound argv (s.go p .reopen) := by
  have hw := h.within p
  rw [hpc] at hw
  cases h.setup with
  | fresh hnone => rw [hnone] at hfile; cases hfile
  | setting c hc hothers hunready hmain =>
    have hne : c ≠ p := by
      rintro rfl
      rcases hmain with h | ⟨h, -⟩ | ⟨h, -⟩ <;> · rw [hpc] at h; cases h
    refine ⟨.setting c hc (fun q hq => ?_) hunready (by rwa [go_other s hne]), h.within_go .reopen hw, h.threads,
      h.told⟩
    by_cases hqp : q = p
    · rw [hqp, go_self]
      rfl
    · rw [go_other s hqp]
      exact hothers q hq
  | ready c hr => exact h.go hr rfl hw

/-- A process initialises the lock of its mode. -/
theorem Sound.init (h : Sound argv s) {p : ι} (hpc : s.mains p = .initLocks) {s' : State ι}
    (hfile : s'.file = s.file) (hmains : s'.mains = Function.update s.mains p (.spawn 0))
    (hthreads : s'.threads = s.threads) (htold : s'.told = s.told) (hmode : s'.locks.userwlock = s.locks.userwlock)
    (hready : s'.ready s'.locks.userwlock = true) (hheld : Held role (fun _ => false) s'.locks) : Sound argv s' := by
  obtain ⟨hcreator, hothers, hunready, hinit⟩ := h.setup.is_setting (p := p) (by rw [hpc]; rfl)
  have htop := h.top hothers (by rw [hpc]; rfl)
  refine ⟨.ready p ⟨hfile.trans hcreator, ?_, hready, fun q => ?_, ?_⟩, fun q => ?_, fun i => ?_,
    fun q m hm => ?_⟩
  · rw [hmode]
    exact hinit hpc
  · rw [hmains]
    by_cases hq : q = p
    · subst hq
      rw [Function.update_self]
      rfl
    · rw [Function.update_of_ne hq]
      exact not_creators_of_early (hothers q hq)
  · have hnone : (fun i => (s'.threads i).inside) = fun _ => false := by
      funext i
      rw [hthreads, htop i]
      rfl
    rw [hnone]
    exact hheld
  · rw [hmains, hthreads]
    exact h.within_go (.spawn 0) ⟨Nat.zero_le _, fun t _ => htop (p, t)⟩ q
  · rw [hthreads, hmode]
    exact h.threads i
  · rw [htold] at hm
    have := (h.told q m hm).1
    rw [hunready m] at this
    cases this

theorem acquire_mode {r : Role} {refused : Bool} {locks locks' : Locks (ι × Fin NUM_THREADS)}
    {i : ι × Fin NUM_THREADS} (h : acquire r refused locks i = some locks') :
    { locks' with userwlock := locks.userwlock } = locks' := by
  unfold acquire at h
  split at h
  · split at h
    · split at h
      · cases h
      · obtain ⟨l, -, rfl⟩ := Option.map_eq_some_iff.1 h
        rfl
    · obtain ⟨l, -, rfl⟩ := Option.map_eq_some_iff.1 h
      rfl
  · split at h
    · cases h
      rfl
    · cases h

theorem release_mode {locks locks' : Locks (ι × Fin NUM_THREADS)} {i : ι × Fin NUM_THREADS}
    (h : release locks i = some locks') : { locks' with userwlock := locks.userwlock } = locks' := by
  unfold release at h
  split at h
  · obtain ⟨l, -, rfl⟩ := Option.map_eq_some_iff.1 h
    rfl
  · split at h
    · cases h
      rfl
    · cases h

/-- What a step of a thread does when the lock is initialised: one that is
inside holds the lock, so it can release it. -/
inductive Goes (refused : Bool) (s : State ι) (i : ι × Fin NUM_THREADS) :
    Locks (ι × Fin NUM_THREADS) → Own → Prop
  | next (pc : (s.threads i).pc = .top) (lt : (s.threads i).loopCount < LOOP_MAX) :
      Goes refused s i s.locks { s.threads i with pc := .lock s.locks.userwlock }
  | exit (pc : (s.threads i).pc = .top) (ge : LOOP_MAX ≤ (s.threads i).loopCount) :
      Goes refused s i s.locks { s.threads i with pc := .exit }
  | acquire {locks} (pc : (s.threads i).pc = .lock s.locks.userwlock)
      (acquire : acquire (role i) refused s.locks i = some locks) :
      Goes refused s i locks { s.threads i with pc := .op }
  | work (pc : (s.threads i).pc = .op) : Goes refused s i s.locks { s.threads i with pc := .unlock s.locks.userwlock }
  | release {locks} (pc : (s.threads i).pc = .unlock s.locks.userwlock) (release : release s.locks i = some locks) :
      Goes refused s i locks ⟨.top, (s.threads i).loopCount + 1⟩

/-- Such a step can be taken, -/
theorem Goes.thread {r : Bool} {c : ι} {i : ι × Fin NUM_THREADS} {locks : Locks (ι × Fin NUM_THREADS)} {own : Own}
    (hr : Ready argv s c) (hg : Goes r s i locks own) :
    threadMain r s i = some { s with locks, threads := Function.update s.threads i own } := by
  unfold threadMain
  cases hg with
  | next hpc hlt => simp only [hpc, if_pos hlt]
  | exit hpc hge => simp only [hpc, if_neg (Nat.not_lt.2 hge)]
  | acquire hpc ha => simp only [hpc, if_pos hr.ready, ha, Option.map_some, acquire_mode ha]
  | work hpc => simp only [hpc]
  | release hpc hrel => simp only [hpc, if_pos hr.ready, hrel, Option.map_some, release_mode hrel]

/-- and there are no others: the threads go by the mode in the area. -/
theorem Sound.goes (h : Sound argv s) {r : Bool} {i : ι × Fin NUM_THREADS} (ht : threadMain r s i = some s') :
    ∃ locks own, s' = { s with locks, threads := Function.update s.threads i own } ∧ Goes r s i locks own := by
  have hgood := h.threads i
  unfold Own.Good at hgood
  unfold threadMain at ht
  cases hpc : (s.threads i).pc with
  | top =>
    simp only [hpc] at ht
    cases ht
    refine ⟨_, _, rfl, ?_⟩
    split
    · next hlt => exact .next hpc hlt
    · next hge => exact .exit hpc (Nat.le_of_not_lt hge)
  | lock m =>
    simp only [hpc] at ht hgood
    obtain ⟨rfl, -⟩ := hgood
    split at ht
    · obtain ⟨locks, ha, rfl⟩ := Option.map_eq_some_iff.1 ht
      rw [acquire_mode ha]
      exact ⟨_, _, rfl, .acquire hpc ha⟩
    · cases ht
  | op =>
    simp only [hpc] at ht
    cases ht
    exact ⟨_, _, rfl, .work hpc⟩
  | unlock m =>
    simp only [hpc] at ht hgood
    obtain ⟨rfl, -⟩ := hgood
    split at ht
    · obtain ⟨locks, hrel, rfl⟩ := Option.map_eq_some_iff.1 ht
      rw [release_mode hrel]
      exact ⟨_, _, rfl, .release hpc hrel⟩
    · cases ht
  | exit =>
    simp only [hpc] at ht
    cases ht

/-- What a step leaves of what is known of a thread, and of those inside. -/
theorem Goes.keeps {r : Bool} {c : ι} {i : ι × Fin NUM_THREADS} {locks : Locks (ι × Fin NUM_THREADS)} {own : Own}
    (hr : Ready argv s c) (hgood : (s.threads i).Good s.locks.userwlock) (hg : Goes r s i locks own) :
    (s.threads i).pc ≠ .exit ∧ own.Good s.locks.userwlock ∧ own.pos = (s.threads i).pos + 1 ∧
      locks.userwlock = s.locks.userwlock ∧
        Held role (Function.update (fun j => (s.threads j).inside) i own.inside) locks := by
  have hsame {l : Own} (hl : l.inside = (s.threads i).inside) :
      Held role (Function.update (fun j => (s.threads j).inside) i l.inside) s.locks := by
    rw [hl, Function.update_eq_self i fun j => (s.threads j).inside]
    exact hr.held
  unfold Own.Good at hgood
  cases hg with
  | next hpc hlt =>
    exact ⟨by simp [hpc], ⟨rfl, hlt⟩, by simp [Own.pos, hpc], rfl, hsame (by simp [Own.inside, hpc])⟩
  | exit hpc hge =>
    simp only [hpc] at hgood
    exact ⟨by simp [hpc], le_antisymm hgood hge, by simp [Own.pos, hpc], rfl, hsame (by simp [Own.inside, hpc])⟩
  | acquire hpc ha =>
    simp only [hpc] at hgood
    obtain ⟨hheld, hmode⟩ := hr.held.acquire (by simp [Own.inside, hpc]) ha
    exact ⟨by simp [hpc], hgood.2, by simp [Own.pos, hpc], hmode, hheld⟩
  | work hpc =>
    simp only [hpc] at hgood
    exact ⟨by simp [hpc], ⟨rfl, hgood⟩, by simp [Own.pos, hpc], rfl, hsame (by simp [Own.inside, hpc])⟩
  | release hpc hrel =>
    simp only [hpc] at hgood
    obtain ⟨locks', hrel', hheld, hmode⟩ := hr.held.release (i := i) (by simp [Own.inside, hpc])
    cases hrel.symm.trans hrel'
    refine ⟨by simp [hpc], hgood.2, ?_, hmode, hheld⟩
    simp only [Own.pos, hpc]
    omega

theorem inside_update (threads : ι × Fin NUM_THREADS → Own) (i : ι × Fin NUM_THREADS) (l : Own) :
    (fun j => (Function.update threads i l j).inside) = Function.update (fun j => (threads j).inside) i l.inside := by
  funext j
  exact Function.apply_update (fun _ => Own.inside) threads i l j

/-- What is known of a process's threads is not of the one that takes a step. -/
theorem Within.update {own : Fin NUM_THREADS → Own} {t : Fin NUM_THREADS} {pc : MainPc} (h : Within own pc)
    (hcreated : pc.created t) (hexit : (own t).pc ≠ .exit) (l : Own) : Within (Function.update own t l) pc := by
  cases pc with
  | spawn count =>
    refine ⟨h.1, fun t' ht' => ?_⟩
    have hne : t' ≠ t := by
      rintro rfl
      exact absurd (of_decide_eq_true hcreated) (Nat.not_lt.2 ht')
    rw [Function.update_of_ne hne]
    exact h.2 t' ht'
  | join count =>
    refine ⟨h.1, fun t' ht' => ?_⟩
    have hne : t' ≠ t := by
      rintro rfl
      exact hexit (h.2 t' ht')
    rw [Function.update_of_ne hne]
    exact h.2 t' ht'
  | create | reopen | arguments | initLocks | returned | usage => cases hcreated

theorem Sound.thread_move (h : Sound argv s) {r : Bool} {c : ι} {i : ι × Fin NUM_THREADS}
    {locks : Locks (ι × Fin NUM_THREADS)} {own : Own} (hr : Ready argv s c) (hcreated : (s.mains i.1).created i.2)
    (hg : Goes r s i locks own) : Sound argv { s with locks, threads := Function.update s.threads i own } := by
  obtain ⟨hexit, hgood, -, hmode, hheld⟩ := hg.keeps hr (h.threads i)
  refine ⟨.ready c ⟨hr.file, ?_, ?_, hr.mains, ?_⟩, fun p => ?_, fun j => ?_, fun p m hm => ?_⟩
  · dsimp only
    rw [hmode]
    exact hr.mode
  · dsimp only
    rw [hmode]
    exact hr.ready
  · dsimp only
    rw [inside_update]
    exact hheld
  · by_cases hp : p = i.1
    · subst hp
      have hown : (fun t => Function.update s.threads i own (i.1, t)) =
          Function.update (fun t => s.threads (i.1, t)) i.2 own := by
        funext t
        by_cases ht : t = i.2
        · subst ht
          simp
        · rw [Function.update_of_ne ht, Function.update_of_ne fun h => ht (congrArg Prod.snd h)]
      dsimp only
      rw [hown]
      exact (h.within i.1).update hcreated hexit own
    · have hown : (fun t => Function.update s.threads i own (p, t)) = fun t => s.threads (p, t) := by
        funext t
        exact Function.update_of_ne (fun h => hp (congrArg Prod.fst h)) _ _
      dsimp only
      rw [hown]
      exact h.within p
  · dsimp only
    rw [hmode]
    by_cases hj : j = i
    · subst hj
      rw [Function.update_self]
      exact hgood
    · rw [Function.update_of_ne hj]
      exact h.threads j
  · dsimp only
    rw [hmode]
    exact h.told p m hm

theorem thread_leaves {r : Bool} {i : ι × Fin NUM_THREADS} (ht : threadMain r s i = some s') :
    s'.mains = s.mains ∧ ∀ j, j ≠ i → s'.threads j = s.threads j := by
  unfold threadMain at ht
  dsimp only at ht
  split at ht
  · cases ht
    exact ⟨rfl, fun j hj => Function.update_of_ne hj _ _⟩
  · split at ht
    · obtain ⟨locks, -, rfl⟩ := Option.map_eq_some_iff.1 ht
      exact ⟨rfl, fun j hj => Function.update_of_ne hj _ _⟩
    · cases ht
  · cases ht
    exact ⟨rfl, fun j hj => Function.update_of_ne hj _ _⟩
  · split at ht
    · obtain ⟨locks, -, rfl⟩ := Option.map_eq_some_iff.1 ht
      exact ⟨rfl, fun j hj => Function.update_of_ne hj _ _⟩
    · cases ht
  · cases ht

end

/-! ## The runs -/

section

variable {ι : Type} [DecidableEq ι] [Fintype ι] (argv : ι → List String) (prefer : Bool)

/-- What the steps do. -/
inductive Move (s : State ι) : Action ι → State ι → Prop
  | create (p) (pc : s.mains p = .create) (file : s.file = none) :
      Move s (.main p) ({ s with file := some p }.go p (.arguments true))
  | exists (p) (pc : s.mains p = .create) (file : s.file.isSome) : Move s (.main p) (s.go p .reopen)
  | reopen (p) (pc : s.mains p = .reopen) : Move s (.main p) (s.go p (.arguments false))
  | mode (p) (userwlock : Bool) (pc : s.mains p = .arguments true) (mode : mode (argv p) = some userwlock) :
      Move s (.main p) ({ s with locks := { s.locks with userwlock } }.go p .initLocks)
  | usage (p) (pc : s.mains p = .arguments true) (mode : mode (argv p) = none) : Move s (.main p) (s.go p .usage)
  | tell (p) (pc : s.mains p = .arguments false) :
      Move s (.main p) ({ s with told := Function.update s.told p (some s.locks.userwlock) }.go p (.spawn 0))
  | rwlock (p) (pc : s.mains p = .initLocks) (mode : s.locks.userwlock = true) :
      Move s (.main p) ({ s with locks := { s.locks with rwlock := .free }, rwlockReady := true }.go p (.spawn 0))
  | mutex (p) (pc : s.mains p = .initLocks) (mode : s.locks.userwlock = false) :
      Move s (.main p) ({ s with locks := { s.locks with mutex := none }, mutexReady := true }.go p (.spawn 0))
  | spawn (p) (count : Nat) (pc : s.mains p = .spawn count) (lt : count < NUM_THREADS) :
      Move s (.main p) (s.go p (.spawn (count + 1)))
  | spawned (p) (count : Nat) (pc : s.mains p = .spawn count) (ge : NUM_THREADS ≤ count) :
      Move s (.main p) (s.go p (.join 0))
  | join (p) (count : Nat) (pc : s.mains p = .join count) (lt : count < NUM_THREADS)
      (exit : (s.threads (p, ⟨count, lt⟩)).pc = .exit) : Move s (.main p) (s.go p (.join (count + 1)))
  | joined (p) (count : Nat) (pc : s.mains p = .join count) (ge : NUM_THREADS ≤ count) :
      Move s (.main p) (s.go p .returned)
  | thread (i) (s') (created : (s.mains i.1).created i.2) (thread : threadMain (refused prefer s) s i = some s') :
      Move s (.thread i) s'

variable {argv prefer} {s s' : State ι} {a : Action ι}

theorem move_of_step (h : step argv prefer s a = some s') : Move argv prefer s a s' := by
  cases a with
  | main p =>
    change main argv s p = some s' at h
    unfold main at h
    split at h
    · next hpc =>
      split at h
      · next hfile =>
        cases h
        exact .create p hpc hfile
      · next hfile =>
        cases h
        exact .exists p hpc (by rw [hfile]; rfl)
    · next hpc =>
      cases h
      exact .reopen p hpc
    · next hpc =>
      split at h
      · next hhere =>
        subst hhere
        split at h
        · next hmode =>
          cases h
          exact .mode p _ hpc hmode
        · next hmode =>
          cases h
          exact .usage p hpc hmode
      · next hhere =>
        cases h
        rw [Bool.not_eq_true] at hhere
        subst hhere
        exact .tell p hpc
    · next hpc =>
      split at h
      · next hmode =>
        cases h
        exact .rwlock p hpc hmode
      · next hmode =>
        cases h
        exact .mutex p hpc (by simpa using hmode)
    · next hpc =>
      split at h
      · next hlt =>
        cases h
        exact .spawn p _ hpc hlt
      · next hge =>
        cases h
        exact .spawned p _ hpc (Nat.le_of_not_lt hge)
    · next hpc =>
      split at h
      · next hlt =>
        split at h
        · next hexit =>
          cases h
          exact .join p _ hpc hlt hexit
        · cases h
      · next hge =>
        cases h
        exact .joined p _ hpc (Nat.le_of_not_lt hge)
    · cases h
    · cases h
  | thread i =>
    change (if (s.mains i.1).created i.2 then threadMain (refused prefer s) s i else none) = some s' at h
    split at h
    · next hcreated => exact .thread i s' hcreated h
    · cases h

theorem Sound.main_move (h : Sound argv s) {p : ι} (ha : inOrder s (.main p)) (hm : Move argv prefer s (.main p) s') :
    Sound argv s' := by
  have hw := h.within p
  cases hm with
  | create _ hpc hfile => exact h.create hpc hfile
  | «exists» _ hpc hfile => exact h.finds hpc hfile
  | reopen _ hpc =>
    have hready := ha hpc
    rw [hpc] at hw
    cases h.setup with
    | fresh _ hmains => rw [hmains p] at hpc; cases hpc
    | setting c _ _ hunready => rw [hunready] at hready; cases hready
    | ready c hr => exact h.go hr rfl hw
  | mode _ m hpc hmode =>
    obtain ⟨hfile, hothers, hunready, -⟩ := h.setup.is_setting (p := p) (by rw [hpc]; rfl)
    have htop := h.top hothers (by rw [hpc]; rfl)
    rw [hpc] at hw
    refine ⟨.setting p hfile (fun q hq => ?_) hunready (.inr (.inl ⟨go_self .., hmode⟩)), h.within_go .initLocks hw,
      fun i => ?_, fun q m hm => ?_⟩
    · rw [go_other _ hq]
      exact hothers q hq
    · show (s.threads i).Good m
      rw [htop i]
      exact Nat.zero_le _
    · have := (h.told q m hm).1
      rw [hunready m] at this
      cases this
  | usage _ hpc hmode =>
    obtain ⟨hfile, hothers, hunready, -⟩ := h.setup.is_setting (p := p) (by rw [hpc]; rfl)
    rw [hpc] at hw
    refine ⟨.setting p hfile (fun q hq => ?_) hunready (.inr (.inr ⟨go_self .., hmode⟩)), h.within_go .usage hw,
      h.threads, h.told⟩
    rw [go_other s hq]
    exact hothers q hq
  | tell _ hpc =>
    obtain ⟨c, hr⟩ := h.setup.is_ready (p := p) (by rw [hpc]; rfl)
    rw [hpc] at hw
    have hgo : Sound argv (s.go p (.spawn 0)) := h.go hr rfl ⟨Nat.zero_le _, fun t _ => hw t⟩
    have hgr : Ready argv (s.go p (.spawn 0)) c := hr.go rfl
    refine ⟨.ready c ⟨hgr.file, hgr.mode, hgr.ready, hgr.mains, hgr.held⟩, hgo.within, hgo.threads,
      fun q m hm => ?_⟩
    change Function.update s.told p (some s.locks.userwlock) q = some m at hm
    by_cases hq : q = p
    · rw [hq, Function.update_self] at hm
      obtain rfl := Option.some_inj.1 hm
      exact ⟨hr.ready, rfl⟩
    · rw [Function.update_of_ne hq] at hm
      exact h.told q m hm
  | rwlock _ hpc hmode =>
    refine h.init hpc rfl rfl rfl rfl rfl ?_ (held_free ?_)
    · simp [State.ready, State.go, hmode]
    · simp [State.go, hmode]
  | mutex _ hpc hmode =>
    refine h.init hpc rfl rfl rfl rfl rfl ?_ (held_free ?_)
    · simp [State.ready, State.go, hmode]
    · simp [State.go, hmode]
  | spawn _ count hpc hlt =>
    obtain ⟨c, hr⟩ := h.setup.is_ready (p := p) (by rw [hpc]; rfl)
    rw [hpc] at hw
    exact h.go hr rfl ⟨hlt, fun t ht => hw.2 t (Nat.le_of_succ_le ht)⟩
  | spawned _ count hpc hge =>
    obtain ⟨c, hr⟩ := h.setup.is_ready (p := p) (by rw [hpc]; rfl)
    exact h.go hr rfl ⟨Nat.zero_le _, fun t ht => absurd ht (Nat.not_lt_zero _)⟩
  | join _ count hpc hlt hexit =>
    obtain ⟨c, hr⟩ := h.setup.is_ready (p := p) (by rw [hpc]; rfl)
    rw [hpc] at hw
    refine h.go hr rfl ⟨hlt, fun t ht => ?_⟩
    rcases Nat.lt_succ_iff_lt_or_eq.1 ht with h | h
    · exact hw.2 t h
    · have ht : t = ⟨count, hlt⟩ := Fin.ext h
      rw [ht]
      exact hexit
  | joined _ count hpc hge =>
    obtain ⟨c, hr⟩ := h.setup.is_ready (p := p) (by rw [hpc]; rfl)
    rw [hpc] at hw
    exact h.go hr rfl fun t => hw.2 t (Nat.lt_of_lt_of_le t.isLt hge)

theorem Sound.move (h : Sound argv s) (ha : inOrder s a) (hm : Move argv prefer s a s') : Sound argv s' := by
  cases a with
  | main p => exact h.main_move ha hm
  | thread i =>
    cases hm with
    | thread _ _ hcreated ht =>
      obtain ⟨c, hr⟩ := h.setup.is_ready (later_of_created hcreated)
      obtain ⟨locks, own, rfl, hg⟩ := h.goes ht
      exact h.thread_move hr hcreated hg

/-- The steps of all processes and of all their threads. -/
def total (s : State ι) : Nat := ∑ p, (s.mains p).pos + ∑ i, (s.threads i).pos

theorem total_go {p : ι} {pc : MainPc} (hpc : pc.pos = (s.mains p).pos + 1) : total (s.go p pc) = total s + 1 := by
  have := sum_update_nat MainPc.pos s.mains (Finset.mem_univ p) pc
  unfold total State.go
  dsimp only
  omega

theorem Sound.total_move (h : Sound argv s) (hm : Move argv prefer s a s') : total s' = total s + 1 := by
  cases hm with
  | create _ hpc | «exists» _ hpc | reopen _ hpc | mode _ _ hpc | usage _ hpc | tell _ hpc | rwlock _ hpc
  | mutex _ hpc =>
    exact total_go (by simp [hpc, MainPc.pos])
  | spawn _ count hpc | join _ count hpc => exact total_go (by simp only [hpc, MainPc.pos]; omega)
  | spawned p count hpc hge =>
    have hw := h.within p
    rw [hpc] at hw
    have hle := hw.1
    exact total_go (by simp only [hpc, MainPc.pos]; omega)
  | joined p count hpc hge =>
    have hw := h.within p
    rw [hpc] at hw
    have hle := hw.1
    exact total_go (by simp only [hpc, MainPc.pos]; omega)
  | thread i _ hcreated ht =>
    obtain ⟨c, hr⟩ := h.setup.is_ready (later_of_created hcreated)
    obtain ⟨locks, own, rfl, hg⟩ := h.goes ht
    have hpos := (hg.keeps hr (h.threads i)).2.2.1
    have := sum_update_nat Own.pos s.threads (Finset.mem_univ i) own
    unfold total
    dsimp only
    omega

omit [DecidableEq ι] in
theorem Sound.total_le (h : Sound argv s) : total s ≤ Fintype.card ι * each := by
  rw [← sum_const_each]
  exact Nat.add_le_add (Finset.sum_le_sum fun p _ => h.main_pos_le p)
    (Finset.sum_le_sum fun i _ => (h.threads i).pos_le)

/-- Where the lock has been initialised, a run that has come to its end has
taken all the steps there are. -/
theorem Sound.ended_iff (h : Sound argv s) {c : ι} (hfile : s.file = some c) (hargs : mode (argv c) ≠ none) :
    AllEnded s ↔ total s = Fintype.card ι * each := by
  have hmain : ∀ p ∈ Finset.univ, (s.mains p).pos ≤ 2 * NUM_THREADS + 5 := fun p _ => h.main_pos_le p
  have hown : ∀ i ∈ Finset.univ, (s.threads i).pos ≤ 4 * LOOP_MAX + 1 := fun i _ => (h.threads i).pos_le
  constructor
  · intro hall
    have hret : ∀ p, s.mains p = .returned := by
      intro p
      refine (hall p).resolve_right fun hp => ?_
      cases h.setup with
      | fresh hnone => rw [hnone] at hfile; cases hfile
      | setting c' hc' hothers _ hpc =>
        obtain rfl := Option.some_inj.1 (hfile.symm.trans hc')
        by_cases hpc' : p = c
        · subst hpc'
          rcases hpc with hpc | ⟨hpc, -⟩ | ⟨-, hnone⟩
          · rw [hp] at hpc
            cases hpc
          · rw [hp] at hpc
            cases hpc
          · exact hargs hnone
        · have he := hothers p hpc'
          rw [hp] at he
          cases he
      | ready c' hr =>
        have := hr.mains p
        rw [hp] at this
        cases this
    have hexit : ∀ i, (s.threads i).pos = 4 * LOOP_MAX + 1 := by
      intro i
      have hw := h.within i.1
      have hgood := h.threads i
      rw [hret i.1] at hw
      have hpc : (s.threads i).pc = .exit := hw i.2
      unfold Own.Good at hgood
      simp only [hpc] at hgood
      simp only [Own.pos, hpc, hgood]
    rw [← sum_const_each, total]
    congr 1
    · exact Finset.sum_congr rfl fun p _ => by rw [hret p]; rfl
    · exact Finset.sum_congr rfl fun i _ => hexit i
  · intro htotal p
    rw [← sum_const_each] at htotal
    have hsum := (Finset.sum_eq_sum_iff_of_le hmain).1 (by
      have := Finset.sum_le_sum hmain
      have := Finset.sum_le_sum hown
      unfold total at htotal
      omega)
    have hp := hsum p (Finset.mem_univ p)
    have hw := h.within p
    cases hpc : s.mains p with
    | returned => exact .inl rfl
    | usage => exact .inr rfl
    | arguments createdHere =>
      rw [hpc] at hp
      cases createdHere <;> exact absurd hp (by decide)
    | create | reopen | initLocks =>
      rw [hpc] at hp
      exact absurd hp (by decide)
    | spawn count | join count =>
      rw [hpc] at hp hw
      have := hw.1
      simp only [MainPc.pos] at hp
      omega

theorem step_of_goes {c : ι} {i : ι × Fin NUM_THREADS} {locks : Locks (ι × Fin NUM_THREADS)} {own : Own}
    (hr : Ready argv s c) (hcreated : (s.mains i.1).created i.2) (hg : Goes (refused prefer s) s i locks own) :
    ∃ a s', inOrder s a ∧ step argv prefer s a = some s' :=
  ⟨.thread i, _, trivial, (if_pos hcreated).trans (hg.thread hr)⟩

/-- While a thread has not come to its end, one can go on: one inside, one on
its way to the lock, or one that finds it free. -/
theorem Sound.thread_on (h : Sound argv s) {c : ι} (hr : Ready argv s c) {i : ι × Fin NUM_THREADS}
    (hcreated : (s.mains i.1).created i.2) (hexit : (s.threads i).pc ≠ .exit) :
    ∃ a s', inOrder s a ∧ step argv prefer s a = some s' := by
  have hinto {j : ι × Fin NUM_THREADS} (hj : (s.threads j).inside) :
      ∃ a s', inOrder s a ∧ step argv prefer s a = some s' := by
    have hgood := h.threads j
    unfold Own.Good at hgood
    have hc : (s.mains j.1).created j.2 :=
      h.created (fun hp => by simp [Own.inside, hp] at hj) fun hp => by simp [Own.inside, hp] at hj
    cases hpc : (s.threads j).pc with
    | op => exact step_of_goes hr hc (.work hpc)
    | unlock m =>
      simp only [hpc] at hgood
      rw [hgood.1] at hpc
      obtain ⟨locks, hrel, -⟩ := hr.held.release hj
      exact step_of_goes hr hc (.release hpc hrel)
    | top | lock | exit => simp [Own.inside, hpc] at hj
  by_cases hin : ∃ j, (s.threads j).inside
  · obtain ⟨j, hj⟩ := hin
    exact hinto hj
  · have hnone : ∀ j, (s.threads j).inside = false := by simpa using hin
    cases hpc : (s.threads i).pc with
    | top =>
      by_cases hlt : (s.threads i).loopCount < LOOP_MAX
      · exact step_of_goes hr hcreated (.next hpc hlt)
      · exact step_of_goes hr hcreated (.exit hpc (Nat.le_of_not_lt hlt))
    | op | unlock =>
      have := hnone i
      simp [Own.inside, hpc] at this
    | exit => exact absurd hpc hexit
    | lock m =>
      -- a writer that waits, if there is one
      obtain ⟨j, m, hj, hrefused⟩ :
          ∃ j m, (s.threads j).pc = .lock m ∧ (role j = .reader → refused prefer s = false) := by
        by_cases hw : ∃ j, role j = .writer ∧ (s.threads j).pc = .lock true
        · obtain ⟨j, hrole, hj⟩ := hw
          exact ⟨j, true, hj, fun hr => by rw [hrole] at hr; cases hr⟩
        · exact ⟨i, m, hpc, fun _ => by simp [refused, hw]⟩
      have hgood := h.threads j
      unfold Own.Good at hgood
      simp only [hj] at hgood
      obtain ⟨rfl, -⟩ := hgood
      obtain ⟨locks, ha⟩ := hr.held.free hnone j hrefused
      have hc : (s.mains j.1).created j.2 :=
        h.created (by rw [hj]; exact Pc.noConfusion) (by rw [hj]; exact Pc.noConfusion)
      exact step_of_goes hr hc (.acquire hj ha)

/-- A process that can go on: one neither at the file of another nor waiting for a thread. -/
theorem main_on {p : ι} (hreopen : s.mains p ≠ .reopen) (hjoin : ∀ count, s.mains p ≠ .join count)
    (hend : s.mains p ≠ .returned ∧ s.mains p ≠ .usage) : ∃ a s', inOrder s a ∧ step argv prefer s a = some s' := by
  have hmain {s' : State ι} (hs : main argv s p = some s') : ∃ a s', inOrder s a ∧ step argv prefer s a = some s' :=
    ⟨.main p, s', fun h => absurd h hreopen, hs⟩
  cases hpc : s.mains p with
  | create =>
    cases hfile : s.file with
    | none => exact hmain (by simp only [main, hpc, hfile]; rfl)
    | some _ => exact hmain (by simp only [main, hpc, hfile]; rfl)
  | arguments createdHere =>
    cases createdHere with
    | false => exact hmain (by simp only [main, hpc]; rfl)
    | true =>
      cases hmode : mode (argv p) with
      | none => exact hmain (by simp only [main, hpc, hmode]; rfl)
      | some m => exact hmain (by simp only [main, hpc, hmode]; rfl)
  | initLocks =>
    cases hmode : s.locks.userwlock with
    | false => exact hmain (by simp only [main, hpc, hmode]; rfl)
    | true => exact hmain (by simp only [main, hpc, hmode]; rfl)
  | spawn count =>
    by_cases hlt : count < NUM_THREADS
    · exact hmain (by simp only [main, hpc, if_pos hlt]; rfl)
    · exact hmain (by simp only [main, hpc, if_neg hlt]; rfl)
  | reopen => exact absurd hpc hreopen
  | join count => exact absurd hpc (hjoin count)
  | returned => exact absurd hpc hend.1
  | usage => exact absurd hpc hend.2

/-- As long as a process has not come to its end one can go on, in order, unless
the lock will never be initialised. -/
theorem Sound.goes_on (h : Sound argv s) (hargs : ∀ c, s.file = some c → mode (argv c) ≠ none) :
    AllEnded s ∨ ∃ a s', inOrder s a ∧ step argv prefer s a = some s' := by
  by_cases hall : AllEnded s
  · exact .inl hall
  · obtain ⟨p, hp⟩ := not_forall.1 hall
    rw [not_or] at hp
    refine .inr ?_
    cases hpc : s.mains p with
    | reopen =>
      cases h.setup with
      | fresh _ hmains => rw [hmains p] at hpc; cases hpc
      | ready c hr => exact ⟨.main p, _, fun _ => hr.ready, by simp only [step, main, hpc]; rfl⟩
      | setting c hfile _ _ hmain =>
        -- the creator goes on first
        rcases hmain with hc | ⟨hc, -⟩ | ⟨-, hnone⟩
        · exact main_on (p := c) (by simp [hc]) (by simp [hc]) (by simp [hc])
        · exact main_on (p := c) (by simp [hc]) (by simp [hc]) (by simp [hc])
        · exact absurd hnone (hargs c hfile)
    | join count =>
      obtain ⟨c, hr⟩ := h.setup.is_ready (p := p) (by rw [hpc]; rfl)
      have hmain {s' : State ι} (hs : main argv s p = some s') :
          ∃ a s', inOrder s a ∧ step argv prefer s a = some s' := ⟨.main p, s', fun _ => hr.ready, hs⟩
      by_cases hlt : count < NUM_THREADS
      · by_cases hexit : (s.threads (p, ⟨count, hlt⟩)).pc = .exit
        · exact hmain (by simp only [main, hpc, dif_pos hlt, if_pos hexit]; rfl)
        · exact h.thread_on hr (i := (p, ⟨count, hlt⟩)) (by rw [hpc]; rfl) hexit
      · exact hmain (by simp only [main, hpc, dif_neg hlt]; rfl)
    | create | arguments | initLocks | spawn => exact main_on (by simp [hpc]) (by simp [hpc]) hp
    | returned => exact absurd hpc hp.1
    | usage => exact absurd hpc hp.2

theorem sound_reached (h : Reach (step argv prefer) inOrder start s) : Sound argv s :=
  h.invariant (I := Sound argv) (fun _ _ _ hi ha hs => hi.move ha (move_of_step hs)) sound_start

/-- When each process opens the file in order, no thread comes to a call whose
effect is not defined, those of different processes too are inside together only
as readers, all threads go by the mode of the first process, and every run ends,
after as many steps in one order as in another; and if the first process has been
called right, it can go on in order until all processes have come to their end. -/
theorem shared_run {as : List (Action ι)} (h : exec (step argv prefer) inOrder start as = some s) :
    (∀ i, ¬ Fault s i) ∧
      (∀ c, s.file = some c →
        (∀ i j, (s.threads i).inside → (s.threads j).inside → i ≠ j →
          mode (argv c) = some true ∧ role i = .reader ∧ role j = .reader) ∧
        (∀ p m, s.told p = some m → mode (argv c) = some m) ∧
        (∀ i m, (s.threads i).pc = .lock m ∨ (s.threads i).pc = .unlock m → mode (argv c) = some m) ∧
        (mode (argv c) ≠ none → (AllEnded s ↔ as.length = Fintype.card ι * 478))) ∧
      as.length ≤ Fintype.card ι * 478 ∧
      ((∀ c, s.file = some c → mode (argv c) ≠ none) →
        AllEnded s ∨ ∃ a s', inOrder s a ∧ step argv prefer s a = some s') := by
  have hsound := sound_reached (reach_of_exec h)
  have hlen : total s = as.length := by
    have hzero : total (start : State ι) = 0 := by simp [total, start, MainPc.pos, Own.pos]
    have hstep : ∀ s a s', Sound argv s → inOrder s a → step argv prefer s a = some s' →
        Sound argv s' ∧ total s' = total s + 1 :=
      fun _ _ _ hi ha hs => ⟨hi.move ha (move_of_step hs), hi.total_move (move_of_step hs)⟩
    rw [exec_count_of hstep sound_start h, hzero, Nat.zero_add]
  refine ⟨hsound.no_fault, fun c hfile => ⟨fun i j hi hj hij => ?_, fun p m hm => ?_, fun i m hm => ?_,
    fun hargs => ?_⟩, ?_, hsound.goes_on⟩
  · obtain ⟨c', hr⟩ := hsound.ready_of_thread (i := i) fun hp => by simp [Own.inside, hp] at hi
    obtain rfl := Option.some_inj.1 (hfile.symm.trans hr.file)
    obtain ⟨hmode, hreaders⟩ := hr.held.together hi hj hij
    rw [hr.mode, hmode]
    exact ⟨rfl, hreaders⟩
  · obtain ⟨hready, rfl⟩ := hsound.told p m hm
    cases hsound.setup with
    | fresh _ _ hunready | setting _ _ _ hunready =>
      rw [hunready] at hready
      cases hready
    | ready c' hr =>
      obtain rfl := Option.some_inj.1 (hfile.symm.trans hr.file)
      exact hr.mode
  · have hgood := hsound.threads i
    obtain ⟨c', hr⟩ := hsound.ready_of_thread (i := i) fun hp => by simp [hp] at hm
    obtain rfl := Option.some_inj.1 (hfile.symm.trans hr.file)
    unfold Own.Good at hgood
    rcases hm with hpc | hpc
    · simp only [hpc] at hgood
      rw [hgood.1, hr.mode]
    · simp only [hpc] at hgood
      rw [hgood.1, hr.mode]
  · rw [hsound.ended_iff hfile hargs, hlen]
    rfl
  · rw [← hlen]
    exact hsound.total_le

/-- The first process chooses the lock for readers, the second takes what it finds. -/
def twoArgs (p : Fin 2) : List String := if p = 0 then ["proc_rw", "rw"] else ["proc_rw"]

/-- The second finds that the file exists before the lock is initialised, and
opens it after that. -/
theorem shared_run_two :
    ∃ s, exec (step twoArgs false) inOrder start
        [.main 0, .main 1, .main 0, .main 0, .main 1, .main 0, .main 0, .main 1, .main 1, .main 1,
          .thread (0, 0), .thread (0, 0), .thread (1, 0), .thread (1, 0), .thread (1, 10)] = some s ∧
      (s.threads (0, 0)).inside ∧ (s.threads (1, 0)).inside ∧ s.told 1 = some true ∧ (∀ i, ¬ Fault s i) ∧
      ¬ (s.threads (1, 10)).inside := by
  obtain ⟨s, h⟩ : ∃ s, exec (step twoArgs false) inOrder start
        [.main 0, .main 1, .main 0, .main 0, .main 1, .main 0, .main 0, .main 1, .main 1, .main 1,
          .thread (0, 0), .thread (0, 0), .thread (1, 0), .thread (1, 0), .thread (1, 10)] = some s := ⟨_, rfl⟩
  have hs := h
  cases hs
  obtain ⟨hfault, hfile, -⟩ := shared_run h
  refine ⟨_, h, rfl, rfl, rfl, hfault, fun hin => ?_⟩
  have hwriter : role ((1, 10) : Fin 2 × Fin NUM_THREADS) = .reader :=
    ((hfile 0 rfl).1 (0, 0) (1, 10) rfl hin (by decide)).2.2
  cases hwriter

/-! ## When one opens it too early -/

theorem main_leaves {p : ι} (hm : Move argv prefer s (.main p) s') :
    s'.threads = s.threads ∧ ∃ pc, s'.mains = Function.update s.mains p pc ∧
      (pc.early = true → s.mains p = .create) := by
  cases hm with
  | «exists» _ hpc => exact ⟨rfl, _, rfl, fun _ => hpc⟩
  | create | reopen | mode | usage | tell | rwlock | mutex | spawn | spawned | join | joined =>
    exact ⟨rfl, _, rfl, Bool.noConfusion⟩

/-- In any run, the threads of a process that has not opened the file are where they start. -/
theorem top_of_early (h : Reach (step argv prefer) anyStep start s) {p : ι} (hpc : (s.mains p).early = true)
    (t : Fin NUM_THREADS) : s.threads (p, t) = ⟨.top, 0⟩ := by
  refine h.invariant (I := fun s => ∀ p, (s.mains p).early = true → ∀ t, s.threads (p, t) = ⟨.top, 0⟩)
    (fun s a s' hI _ hs q hq t => ?_) (fun _ _ _ => rfl) p hpc t
  cases a with
  | main p =>
    obtain ⟨hthreads, pc, hmains, hearly⟩ := main_leaves (move_of_step hs)
    rw [hmains] at hq
    rw [hthreads]
    by_cases hqp : q = p
    · rw [hqp, Function.update_self] at hq
      exact hI q (by rw [hqp, hearly hq]; rfl) t
    · rw [Function.update_of_ne hqp] at hq
      exact hI q hq t
  | thread i =>
    cases move_of_step hs with
    | thread _ _ hcreated ht =>
      obtain ⟨hmains, hothers⟩ := thread_leaves ht
      rw [hmains] at hq
      have hne : (q, t) ≠ i := by
        rintro rfl
        have hlater := later_of_created hcreated
        rw [not_later_of_early hq] at hlater
        cases hlater
      rw [hothers _ hne]
      exact hI q hq t

variable (argv prefer) in
/-- What a process does that has opened the file of another, until its writer is at the lock. -/
theorem writer_to_lock {p : ι} (hpc : s.mains p = .arguments false) (htop : s.threads (p, WRITER) = ⟨.top, 0⟩) :
    ∃ s', Reach (step argv prefer) anyStep s s' ∧ (s'.threads (p, WRITER)).pc = .lock s.locks.userwlock ∧
      s'.ready = s.ready := by
  obtain ⟨s₂, hs₂⟩ : ∃ s₂, s₂ =
      { s with told := Function.update s.told p (some s.locks.userwlock) }.go p (.spawn 0) := ⟨_, rfl⟩
  have htell : step argv prefer s (.main p) = some s₂ := by
    rw [hs₂]
    simp [step, main, hpc]
  have hspawn : step argv prefer s₂ (.main p) = some (s₂.go p (.spawn 1)) := by
    rw [hs₂]
    simp [step, main, State.go]
  have hwriter : step argv prefer (s₂.go p (.spawn 1)) (.thread (p, WRITER)) =
      some { s₂.go p (.spawn 1) with
        threads := Function.update s.threads (p, WRITER) ⟨.lock s.locks.userwlock, 0⟩ } := by
    rw [hs₂]
    simp [step, threadMain, State.go, MainPc.created, place, htop, LOOP_MAX]
  refine ⟨_, ((Relation.ReflTransGen.single ⟨_, trivial, htell⟩).tail ⟨_, trivial, hspawn⟩).tail
    ⟨_, trivial, hwriter⟩, ?_, ?_⟩
  · dsimp only
    rw [Function.update_self]
  · rw [hs₂]
    rfl

/-- When a process has opened the file before the lock is initialised, a thread
of it can come to a call on a lock that is not. -/
theorem opened_early (h : Reach (step argv prefer) anyStep start s) (hs : step argv prefer s a = some s')
    (ha : ¬ inOrder s a) :
    ∃ s'' i userwlock, Reach (step argv prefer) anyStep s' s'' ∧ (s''.threads i).pc = .lock userwlock ∧
      s''.ready userwlock = false := by
  cases a with
  | thread i => exact absurd trivial ha
  | main p =>
    obtain ⟨hpc, hunready⟩ : s.mains p = .reopen ∧ s.ready s.locks.userwlock = false := by simpa [inOrder] using ha
    have htop := top_of_early h (p := p) (by rw [hpc]; rfl) WRITER
    cases move_of_step hs with
    | reopen =>
      obtain ⟨s₂, hreach, hlock, hready⟩ :=
        writer_to_lock argv prefer (s := s.go p (.arguments false)) (Function.update_self ..) htop
      refine ⟨s₂, (p, WRITER), _, hreach, hlock, ?_⟩
      rw [hready]
      exact hunready
    | create _ h | «exists» _ h | mode _ _ h | usage _ h | tell _ h | rwlock _ h | mutex _ h | spawn _ _ h
    | spawned _ _ h | join _ _ h | joined _ _ h =>
      rw [hpc] at h
      cases h

/-- The second process opens the file before the first has looked at its arguments. -/
theorem opened_early_second :
    ∃ s : State (Fin 2), Reach (step (fun _ => ["proc_rw", "rw"]) false) anyStep start s ∧
      s.mains 1 = .reopen ∧ s.mains 0 = .arguments true ∧
      ∃ s'' i userwlock, Reach (step (fun _ => ["proc_rw", "rw"]) false) anyStep (s.go 1 (.arguments false)) s'' ∧
        (s''.threads i).pc = .lock userwlock ∧ s''.ready userwlock = false := by
  obtain ⟨s, h⟩ : ∃ s : State (Fin 2),
      exec (step (fun _ => ["proc_rw", "rw"]) false) anyStep start [.main 0, .main 1] = some s := ⟨_, rfl⟩
  have hs := h
  cases hs
  exact ⟨_, reach_of_exec h, rfl, rfl, opened_early (reach_of_exec h) (a := .main 1) rfl (by decide)⟩

end

end SysProg.ProcRw
