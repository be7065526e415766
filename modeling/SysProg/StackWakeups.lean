/-
Producers and consumers of the shared stack. Pushers and poppers sleep on one
condition variable, and an operation signals only one of the sleepers: it may
be one of its own kind, and the one it was meant for sleeps on.

What the threads can do is seen in the index and in the number of calls each
has left (`level`), and for what they cannot, in the numbers of threads of
each kind awake and asleep (`Census`).
-/
import Mathlib.Algebra.BigOperators.Group.Finset.Piecewise
import Mathlib.Algebra.BigOperators.Ring.Finset
import Mathlib.Data.DFinsupp.WellFounded
import SysProg.Stack

namespace SysProg.Stack

open Monitor

/-- Maximum iteration count. -/
def MAX_COUNT : Nat := 25

/-- It pushes its characters one after another. -/
def producer (chars : List Byte) : List Call := chars.map .push

/-- It pops so many characters. -/
def consumer (count : Nat) : List Call := List.replicate count .pop

/-- `m` threads of each kind, which make `k` calls each. -/
def mains {m k : Nat} (chars : Fin m → Fin k → Byte) : Fin m ⊕ Fin m → List Call
  | .inl i => producer (List.ofFn (chars i))
  | .inr _ => consumer k

/-- A thread that has calls to complete. -/
def Caller.Unfinished (me : Caller) : Prop := me.todo ≠ []

/-! ## The level of the stack -/

/-- What a call does. -/
inductive Kind where
  | push
  | pop
  deriving DecidableEq

/-- How many calls of its kind the stack has room for. -/
def Kind.room : Kind → Int → Int
  | .push, index => STACK_SIZE - index
  | .pop, index => index

/-- The index after the call. -/
def Kind.after : Kind → Int → Int
  | .push, index => index + 1
  | .pop, index => index - 1

/-- What the call does. -/
def Call.kind : Call → Kind
  | .push _ => .push
  | .pop => .pop

section

variable {ι : Type}

/-- Threads that each have a number of calls of one kind left. -/
def level (kind : ι → Kind) : Monitor ι Int Nat := fun i left index =>
  if left = 0 then none
  else if (kind i).room index = 0 then some .wait
  else some (.leave ((kind i).after index) (left - 1) true)

theorem level_eq_some {i : ι} {left : Nat} {index : Int} {sec : Section Int Nat}
    (h : level kind i left index = some sec) : left ≠ 0 ∧
      ((kind i).room index = 0 ∧ sec = .wait ∨
       (kind i).room index ≠ 0 ∧ sec = .leave ((kind i).after index) (left - 1) true) := by
  unfold level at h
  split at h
  · cases h
  · next hleft =>
    split at h
    · next hroom =>
      cases h
      exact ⟨hleft, .inl ⟨hroom, rfl⟩⟩
    · next hroom =>
      cases h
      exact ⟨hleft, .inr ⟨hroom, rfl⟩⟩

/-- The stack as its level shows it. -/
def onLevel : State ι (Shared ι) Caller → State ι Int Nat :=
  State.map (fun shared => shared.stack.index) (fun me => me.todo.length)

theorem level_eq [DecidableEq ι] {todo : ι → List Call} {kind : ι → Kind}
    (hkind : ∀ i, ∀ call ∈ todo i, call.kind = kind i) {shared : Shared ι} {owns : ι → Caller} {xs : List Byte}
    (h : Linear todo shared owns xs) (i : ι) :
    level kind i (owns i).todo.length shared.stack.index =
      (calls i (owns i) shared).map (Section.map (fun x _ => x.stack.index) fun me => me.todo.length) := by
  have hindex := h.stacked.index
  cases htodo : (owns i).todo with
  | nil =>
    rw [calls_nil htodo]
    rfl
  | cons call rest =>
    have hmem : call ∈ todo i := by
      rw [← h.called i, htodo]
      simp
    have hcall := hkind i call hmem
    cases call with
    | push oneChar =>
      rw [calls_push htodo]
      rcases push_stacked h.stacked oneChar with ⟨hfull, hpush⟩ | ⟨stack, hpush, hstacked, hop⟩
      · simp [level, ← hcall, Call.kind, Kind.room, hindex, hfull, hpush, Section.map]
      · have hindex' := hstacked.index
        have hlt : xs.length < 3 := (pushed_on.1 hop).1
        simp only [List.length_cons] at hindex'
        simp [level, ← hcall, Call.kind, Kind.room, Kind.after, hindex, hindex', hpush, Section.map]
        omega
    | pop =>
      rw [calls_pop htodo]
      rcases pop_stacked h.stacked with ⟨rfl, hpop⟩ | ⟨toReturn, ys, stack, hpop, hstacked, hop⟩
      · simp [level, ← hcall, Call.kind, Kind.room, hindex, hpop, Section.map]
      · have hindex' := hstacked.index
        obtain rfl := popped_on.1 hop
        simp [level, ← hcall, Call.kind, Kind.room, Kind.after, hindex, hindex', hpop, Section.map]
        omega

end

/-! ## Threads counted -/

/-- The index, and of each kind of thread how many are awake with calls left,
how many are asleep, and how many calls they have left. -/
structure Census where
  index : Int
  awake : Kind → Int
  asleep : Kind → Int
  left : Kind → Int

namespace Census

/-- One for the kind meant, 0 for the other. -/
def one (k k' : Kind) : Int := if k = k' then 1 else 0

/-- A thread of kind `k` goes to sleep. -/
def sleep (c : Census) (k : Kind) : Census :=
  { c with awake := fun k' => c.awake k' - one k k', asleep := fun k' => c.asleep k' + one k k' }

/-- A sleeper of the kind is woken. -/
def wake (c : Census) (k : Kind) : Census :=
  { c with awake := fun k' => c.awake k' + one k k', asleep := fun k' => c.asleep k' - one k k' }

/-- A thread of kind `k` completes a call, its last one where `last` is 1. -/
def act (c : Census) (k : Kind) (last : Int) : Census :=
  { c with index := k.after c.index
           awake := fun k' => c.awake k' - last * one k k'
           left := fun k' => c.left k' - one k k' }

/-- What a step of a thread does to the counts. -/
inductive Step (c : Census) : Census → Prop
  | sleep (k) (awake : 1 ≤ c.awake k) (full : k.room c.index = 0) : Step c (c.sleep k)
  | act (k last) (awake : 1 ≤ c.awake k) (room : k.room c.index ≠ 0) (hlast : last = 0 ∨ last = 1)
      (none : ∀ k', c.asleep k' = 0) : Step c (c.act k last)
  | signal (k last k') (awake : 1 ≤ c.awake k) (room : k.room c.index ≠ 0) (hlast : last = 0 ∨ last = 1)
      (asleep : 1 ≤ c.asleep k') : Step c ((c.act k last).wake k')
  | spurious (k) (asleep : 1 ≤ c.asleep k) : Step c (c.wake k)

/-- What holds of all censuses of `m` threads a kind. -/
structure Kept (m : Nat) (c : Census) : Prop where
  nonneg : ∀ k, 0 ≤ c.awake k ∧ 0 ≤ c.asleep k
  threads : ∀ k, c.awake k + c.asleep k ≤ m
  room : ∀ k : Kind, 0 ≤ k.room c.index
  balance : c.left .pop - c.left .push = c.index

theorem Kept.sleep {m : Nat} {c : Census} (h : c.Kept m) {k : Kind} (awake : 1 ≤ c.awake k) : (c.sleep k).Kept m where
  nonneg k' := by
    have := h.nonneg k'
    grind [Census.sleep, one]
  threads k' := by
    have := h.threads k'
    grind [Census.sleep, one]
  room := h.room
  balance := h.balance

theorem Kept.wake {m : Nat} {c : Census} (h : c.Kept m) {k : Kind} (asleep : 1 ≤ c.asleep k) : (c.wake k).Kept m where
  nonneg k' := by
    have := h.nonneg k'
    grind [Census.wake, one]
  threads k' := by
    have := h.threads k'
    grind [Census.wake, one]
  room := h.room
  balance := h.balance

theorem Kept.act {m : Nat} {c : Census} (h : c.Kept m) {k : Kind} {last : Int} (awake : 1 ≤ c.awake k)
    (room : k.room c.index ≠ 0) (hlast : last = 0 ∨ last = 1) : (c.act k last).Kept m where
  nonneg k' := by
    have := h.nonneg k'
    grind [Census.act, one]
  threads k' := by
    have := h.threads k'
    grind [Census.act, one]
  room k' := by
    have hpush := h.room .push
    have hpop := h.room .pop
    cases k <;> cases k' <;> simp only [Kind.room, Census.act, Kind.after] at * <;> omega
  balance := by
    have := h.balance
    cases k <;> simp [Census.act, Kind.after, one] <;> omega

theorem Kept.step {m : Nat} {c c' : Census} (h : c.Kept m) (hstep : c.Step c') : c'.Kept m := by
  cases hstep with
  | sleep k awake full => exact h.sleep awake
  | act k last awake room hlast none => exact h.act awake room hlast
  | signal k last k' awake room hlast asleep => exact (h.act awake room hlast).wake asleep
  | spurious k asleep => exact h.wake asleep

/-- Some threads are asleep, and no thread with calls left is awake. -/
def Stuck (c : Census) : Prop := (∃ k, 0 < c.asleep k) ∧ ∀ k, c.awake k = 0

/-- Where threads of one kind are asleep, those of the other are awake, and
there are enough of their own kind awake to use up the room. With at most
three threads a kind there are too few to fill or empty the stack and sleep
as well. -/
def Few (c : Census) : Prop :=
  (0 < c.asleep .push → c.asleep .pop = 0 ∧ Kind.push.room c.index ≤ c.awake .push) ∧
  (0 < c.asleep .pop → c.asleep .push = 0 ∧ Kind.pop.room c.index ≤ c.awake .pop)

theorem Few.step {m : Nat} (hm : m ≤ 3) {c c' : Census} (hkept : c.Kept m) (h : c.Few) (hstep : c.Step c') :
    c'.Few := by
  have hpush := hkept.nonneg .push
  have hpop := hkept.nonneg .pop
  have hpushes := hkept.threads .push
  have hpops := hkept.threads .pop
  unfold Few at h ⊢
  cases hstep with
  | sleep k awake full =>
    cases k <;> simp [Census.sleep, Kind.room, one] at * <;> omega
  | act k last awake room hlast none =>
    have hnone₁ := none .push
    have hnone₂ := none .pop
    simp only [Census.act]
    omega
  | signal k last k' awake room hlast asleep =>
    cases k <;> cases k' <;> simp [Census.wake, Census.act, Kind.room, Kind.after, one] at * <;> omega
  | spurious k asleep =>
    cases k <;> simp [Census.wake, Kind.room, one] at * <;> omega

/-- Threads with calls left have one or more each, and the others none. -/
def Owing (c : Census) : Prop :=
  ∀ k, c.awake k + c.asleep k ≤ c.left k ∧ (c.awake k + c.asleep k = 0 → c.left k = 0)

theorem Few.not_stuck {m : Nat} {c : Census} (hkept : c.Kept m) (howing : c.Owing) (h : c.Few) : ¬c.Stuck := by
  rintro ⟨⟨k, hk⟩, hawake⟩
  have hbalance := hkept.balance
  have hroom : 0 ≤ c.index := hkept.room .pop
  have hpush := howing .push
  have hpop := howing .pop
  rw [hawake .push] at hpush
  rw [hawake .pop] at hpop
  cases k with
  | push =>
    have := (h.1 hk).1
    omega
  | pop =>
    have := (h.2 hk).1
    have hlevel : c.index ≤ c.awake .pop := (h.2 hk).2
    rw [hawake .pop] at hlevel
    omega

/-- Four threads a kind with one call each. A pusher sleeps only when the
other three have pushed; the poppers are then too many to sleep as well. -/
def Single (c : Census) : Prop :=
  (0 < c.asleep .pop → c.index ≤ c.awake .pop) ∧
  (0 < c.asleep .push → 2 ≤ c.index ∧ c.left .push = 1 ∧ (c.index = 2 → c.asleep .pop = 0))

/-- Each thread has one call left or none. -/
def Ones (c : Census) : Prop := ∀ k, c.awake k + c.asleep k = c.left k

theorem Single.step {c c' : Census} (hkept : c.Kept 4) (hones : c.Ones) (h : c.Single) (hstep : c.Step c') :
    c'.Single := by
  have hbalance := hkept.balance
  have hpush := hkept.nonneg .push
  have hpop := hkept.nonneg .pop
  have hpushes := hkept.threads .push
  have hpops := hkept.threads .pop
  have hones₁ := hones .push
  have hones₂ := hones .pop
  unfold Single at h ⊢
  cases hstep with
  | sleep k awake full =>
    cases k <;> simp [Census.sleep, Kind.room, one] at * <;> omega
  | act k last awake room hlast none =>
    have hnone₁ := none .push
    have hnone₂ := none .pop
    simp only [Census.act]
    omega
  | signal k last k' awake room hlast asleep =>
    cases k <;> cases k' <;> simp [Census.wake, Census.act, Kind.room, Kind.after, one] at * <;> omega
  | spurious k asleep =>
    cases k <;> simp [Census.wake, one] at * <;> omega

theorem Single.not_stuck {c : Census} (hkept : c.Kept 4) (hones : c.Ones) (h : c.Single) : ¬c.Stuck := by
  rintro ⟨⟨k, hk⟩, hawake⟩
  have hbalance := hkept.balance
  have hroom : 0 ≤ c.index := hkept.room .pop
  have hpush := hones .push
  have hpop := hones .pop
  have hlevel := h.1
  have hfull := h.2
  rw [hawake .push] at hpush
  rw [hawake .pop] at hpop hlevel
  cases k <;> omega

end Census

/-- A thread that waits has a call to complete. -/
def Waiters {ι : Type} (s : State ι Int Nat) : Prop := ∀ i, (s.threads i).mode ≠ .ready → s.owns i ≠ 0

theorem Waiters.asleep {ι : Type} {s : State ι Int Nat} (h : Waiters s) {i : ι} (hi : (s.threads i).mode = .asleep) :
    (s.threads i).own ≠ 0 :=
  h i (by simp [hi])

section

variable {ι : Type} [Fintype ι] {kind : ι → Kind}

/-- One for a thread that has calls to make and does not sleep. -/
def Awake (th : Thread Nat) : Int := if th.own ≠ 0 ∧ th.mode ≠ .asleep then 1 else 0

/-- One for a thread that has calls to make and sleeps. -/
def Asleep (th : Thread Nat) : Int := if th.own ≠ 0 ∧ th.mode = .asleep then 1 else 0

/-- A sum over the threads of one kind. -/
def count (kind : ι → Kind) (s : State ι Int Nat) (w : Thread Nat → Int) (k : Kind) : Int :=
  s.total fun i th => if kind i = k then w th else 0

/-- The counts of a state. -/
def census (kind : ι → Kind) (s : State ι Int Nat) : Census :=
  ⟨s.shared, count kind s Awake, count kind s Asleep, count kind s fun th => th.own⟩

theorem awake_census (s : State ι Int Nat) (k : Kind) : (census kind s).awake k = count kind s Awake k := rfl

theorem asleep_census (s : State ι Int Nat) (k : Kind) : (census kind s).asleep k = count kind s Asleep k := rfl

theorem left_census (s : State ι Int Nat) (k : Kind) : (census kind s).left k = count kind s (fun th => th.own) k := rfl

theorem count_add (s : State ι Int Nat) (w w' : Thread Nat → Int) (k : Kind) :
    count kind s w k + count kind s w' k = count kind s (fun th => w th + w' th) k := by
  unfold count State.total
  rw [← Finset.sum_add_distrib]
  refine Finset.sum_congr rfl fun i _ => ?_
  dsimp only
  split
  · rfl
  · exact add_zero 0

theorem count_le {s : State ι Int Nat} {w w' : Thread Nat → Int} (h : ∀ i, w (s.threads i) ≤ w' (s.threads i))
    (k : Kind) : count kind s w k ≤ count kind s w' k := by
  refine Finset.sum_le_sum fun i _ => ?_
  dsimp only
  split
  · exact h i
  · exact le_refl _

theorem count_nonneg (kind : ι → Kind) (s : State ι Int Nat) {w : Thread Nat → Int} (h : ∀ th, 0 ≤ w th) (k : Kind) :
    0 ≤ count kind s w k := by
  refine s.total_nonneg fun i th => ?_
  split
  · exact h th
  · exact le_refl _

theorem count_eq_zero {s : State ι Int Nat} {w : Thread Nat → Int} {k : Kind}
    (h : ∀ i, kind i = k → w (s.threads i) = 0) : count kind s w k = 0 := by
  refine Finset.sum_eq_zero fun i _ => ?_
  dsimp only
  split
  · next hi => exact h i hi
  · rfl

theorem le_count (kind : ι → Kind) (s : State ι Int Nat) {w : Thread Nat → Int} (h : ∀ th, 0 ≤ w th) (i : ι) :
    w (s.threads i) ≤ count kind s w (kind i) := by
  have hle := s.le_total (w := fun i' th => if kind i' = kind i then w th else 0) (fun i' th => by split <;> simp [h]) i
  simpa only [count, if_pos] using hle

theorem awake_nonneg (th : Thread Nat) : 0 ≤ Awake th := by
  unfold Awake
  split <;> simp

theorem asleep_nonneg (th : Thread Nat) : 0 ≤ Asleep th := by
  unfold Asleep
  split <;> simp

theorem one_le_awake {s : State ι Int Nat} {i : ι} (hawake : (s.threads i).mode ≠ .asleep)
    (hown : (s.threads i).own ≠ 0) : 1 ≤ (census kind s).awake (kind i) := by
  have hle := le_count kind s awake_nonneg i
  rw [Awake, if_pos ⟨hown, hawake⟩] at hle
  exact hle

theorem one_le_asleep {s : State ι Int Nat} {i : ι} (hasleep : (s.threads i).mode = .asleep)
    (hown : (s.threads i).own ≠ 0) : 1 ≤ (census kind s).asleep (kind i) := by
  have hle := le_count kind s asleep_nonneg i
  rw [Asleep, if_pos ⟨hown, hasleep⟩] at hle
  exact hle

theorem awake_add_asleep (th : Thread Nat) : Awake th + Asleep th = if th.own = 0 then 0 else 1 := by
  by_cases hown : th.own = 0
  · simp [Awake, Asleep, hown]
  · by_cases hmode : th.mode = .asleep <;> simp [Awake, Asleep, hown, hmode]

theorem census_owing (kind : ι → Kind) (s : State ι Int Nat) : (census kind s).Owing := by
  intro k
  have hadd : (census kind s).awake k + (census kind s).asleep k =
      count kind s (fun th => if th.own = 0 then 0 else 1) k := by
    simp only [awake_census, asleep_census, count_add, awake_add_asleep]
  rw [hadd, left_census]
  constructor
  · refine count_le (fun i => ?_) k
    split <;> omega
  · intro hzero
    have hnonneg (i : ι) (th : Thread Nat) :
        0 ≤ (if kind i = k then (if th.own = 0 then 0 else 1) else 0 : Int) := by
      split
      · split <;> simp
      · simp
    refine count_eq_zero fun i hkind => ?_
    have hi := (s.total_eq_zero hnonneg).1 hzero i
    rw [if_pos hkind] at hi
    split at hi <;> omega

theorem census_ones {s : State ι Int Nat} (hown : ∀ i, s.owns i ≤ 1) : (census kind s).Ones := by
  intro k
  have hle := (census_owing kind s k).1
  have hge : count kind s (fun th => th.own) k ≤ count kind s (fun th => Awake th + Asleep th) k := by
    refine count_le (fun i => ?_) k
    have hi : (s.threads i).own ≤ 1 := hown i
    rw [awake_add_asleep]
    split <;> omega
  rw [← count_add] at hge
  exact le_antisymm hle hge

theorem census_stuck {s : State ι Int Nat} (h : s.Stuck (· ≠ 0)) : (census kind s).Stuck := by
  obtain ⟨⟨i, hi⟩, hall⟩ := h
  refine ⟨⟨kind i, one_le_asleep (hall i hi) hi⟩, fun k => ?_⟩
  rw [awake_census]
  refine count_eq_zero fun j _ => ?_
  by_cases hj : s.owns j = 0
  · have hj : (s.threads j).own = 0 := hj
    simp [Awake, hj]
  · simp [Awake, hall j hj]

theorem census_shared (s : State ι Int Nat) (index : Int) :
    census kind ⟨index, s.threads⟩ = { census kind s with index := index } := rfl

variable [DecidableEq ι]

theorem count_put (s : State ι Int Nat) (w : Thread Nat → Int) (i : ι) (th : Thread Nat) (k : Kind) :
    count kind (s.put i th) w k = count kind s w k + (w th - w (s.threads i)) * Census.one (kind i) k := by
  unfold count
  rw [State.total_put, Census.one]
  split
  · omega
  · omega

theorem census_put (s : State ι Int Nat) (i : ι) (th : Thread Nat) :
    census kind (s.put i th) =
      { index := s.shared
        awake := fun k => (census kind s).awake k + (Awake th - Awake (s.threads i)) * Census.one (kind i) k
        asleep := fun k => (census kind s).asleep k + (Asleep th - Asleep (s.threads i)) * Census.one (kind i) k
        left := fun k => (census kind s).left k + (th.own - (s.threads i).own) * Census.one (kind i) k } := by
  unfold census
  congr 1 <;> exact funext fun k => count_put s _ i th k

theorem census_wake {s : State ι Int Nat} {i : ι} (hasleep : (s.threads i).mode = .asleep)
    (hown : (s.threads i).own ≠ 0) : census kind (s.wake i) = (census kind s).wake (kind i) := by
  rw [State.wake, census_put]
  simp [Census.wake, Awake, Asleep, hasleep, hown, census, sub_eq_add_neg]

theorem census_sleep {s : State ι Int Nat} {i : ι} (hawake : (s.threads i).mode ≠ .asleep)
    (hown : (s.threads i).own ≠ 0) :
    census kind (s.put i ⟨(s.threads i).own, .asleep⟩) = (census kind s).sleep (kind i) := by
  rw [census_put]
  simp [Census.sleep, Awake, Asleep, hawake, hown, census, sub_eq_add_neg]

theorem census_left {s : State ι Int Nat} {i : ι} (hawake : (s.threads i).mode ≠ .asleep)
    (hown : (s.threads i).own ≠ 0) :
    census kind (s.left i ((kind i).after s.shared) ((s.threads i).own - 1)) =
      (census kind s).act (kind i) (if (s.threads i).own = 1 then 1 else 0) := by
  obtain ⟨n, hn⟩ : ∃ n, (s.threads i).own = n + 1 := ⟨(s.threads i).own - 1, by omega⟩
  have hput : census kind (s.left i ((kind i).after s.shared) ((s.threads i).own - 1)) = _ :=
    census_put ⟨(kind i).after s.shared, s.threads⟩ i ⟨(s.threads i).own - 1, .ready⟩
  rw [hput, census_shared]
  by_cases hlast : n = 0 <;> simp [Census.act, Awake, Asleep, hawake, hn, hlast, census, sub_eq_add_neg]

theorem waiters_step {s s' : State ι Int Nat} {a : Action ι} (hwaiters : Waiters s)
    (h : step (level kind) s a = some s') : Waiters s' :=
  waiting_step (P := fun left => left ≠ 0) (fun _ _ _ hwait => (level_eq_some hwait).1) hwaiters h

theorem census_step {s s' : State ι Int Nat} {a : Action ι} (hwaiters : Waiters s)
    (h : step (level kind) s a = some s') : (census kind s).Step (census kind s') := by
  have hlast (n : Nat) : (if n = 1 then (1 : Int) else 0) = 0 ∨ (if n = 1 then (1 : Int) else 0) = 1 := by
    split <;> simp
  cases move_of_step h with
  | @wait i awake enter =>
    obtain ⟨hown, ⟨hroom, -⟩ | ⟨-, hsec⟩⟩ := level_eq_some enter
    · rw [census_sleep awake hown]
      exact .sleep _ (one_le_awake awake hown) hroom
    · cases hsec
  | leave awake enter =>
    obtain ⟨-, ⟨-, hsec⟩ | ⟨-, hsec⟩⟩ := level_eq_some enter
    · cases hsec
    · cases hsec
  | @wake i j shared own awake enter asleep =>
    obtain ⟨hown, ⟨-, hsec⟩ | ⟨hroom, hsec⟩⟩ := level_eq_some enter
    · cases hsec
    · cases hsec
      have hj : ((s.left i ((kind i).after s.shared) ((s.threads i).own - 1)).threads j) = s.threads j :=
        State.put_of_ne ⟨_, s.threads⟩ (ne_of_asleep awake asleep) _
      rw [census_wake (by rw [hj]; exact asleep) (by rw [hj]; exact hwaiters.asleep asleep), census_left awake hown]
      exact .signal _ _ _ (one_le_awake awake hown) hroom (hlast _) (one_le_asleep asleep (hwaiters.asleep asleep))
  | @lost i shared own awake enter allAwake =>
    obtain ⟨hown, ⟨-, hsec⟩ | ⟨hroom, hsec⟩⟩ := level_eq_some enter
    · cases hsec
    · cases hsec
      have hnone (k : Kind) : (census kind s).asleep k = 0 := by
        rw [asleep_census]
        refine count_eq_zero fun j _ => ?_
        simp [Asleep, allAwake j]
      rw [census_left awake hown]
      exact .act _ _ (one_le_awake awake hown) hroom (hlast _) hnone
  | @spurious i asleep =>
    rw [census_wake asleep (hwaiters.asleep asleep)]
    exact .spurious _ (one_le_asleep asleep (hwaiters.asleep asleep))

theorem owns_step {s s' : State ι Int Nat} {a : Action ι} (h : step (level kind) s a = some s') (i : ι) :
    s'.owns i ≤ s.owns i := by
  rcases section_of_step h with ⟨-, howns⟩ | ⟨j, shared, own, signal, henter, -, howns⟩
  · rw [howns]
  · obtain ⟨-, ⟨-, hsec⟩ | ⟨-, hsec⟩⟩ := level_eq_some henter
    · cases hsec
    · cases hsec
      rw [howns]
      by_cases hi : i = j
      · subst hi
        rw [Function.update_self]
        exact Nat.sub_le _ 1
      · rw [Function.update_of_ne hi]

end

/-! ## The same number of threads of each kind -/

section

variable {m k : Nat} {spurious : Bool}

/-- Who pushes, and who pops. -/
def side : Fin m ⊕ Fin m → Kind
  | .inl _ => .push
  | .inr _ => .pop

/-- An empty stack, and so many calls left for the pusher and the popper of each pair. -/
def pairs (left : Fin m → Nat) : State (Fin m ⊕ Fin m) Int Nat :=
  ⟨0, fun i => ⟨i.elim left left, .ready⟩⟩

theorem asleep_pairs (left : Fin m → Nat) (kind : Kind) : (census side (pairs left)).asleep kind = 0 := by
  rw [asleep_census]
  refine count_eq_zero fun i _ => ?_
  simp [pairs, Asleep]

theorem kept_pairs (left : Fin m → Nat) : (census side (pairs left)).Kept m where
  nonneg kind := ⟨count_nonneg side _ awake_nonneg kind, count_nonneg side _ asleep_nonneg kind⟩
  threads kind := by
    have hle : count side (pairs left) Awake kind ≤ count side (pairs left) (fun _ => 1) kind := by
      refine count_le (fun i => ?_) kind
      unfold Awake
      split <;> simp
    have hm : count side (pairs left) (fun _ => 1) kind = m := by
      cases kind <;> simp [count, State.total, side]
    rw [asleep_pairs, add_zero, ← hm]
    exact hle
  room kind := by
    cases kind <;> simp [census, pairs, Kind.room]
  balance := by
    simp [census, count, State.total, pairs, side]

/-- What a run keeps of all threads, and of each. -/
theorem census_reach {P : Census → Prop}
    (hstep : ∀ c c', c.Kept m → (k = 1 → c.Ones) → c.Step c' → P c → P c')
    (hstart : P (census side (pairs fun _ : Fin m => k))) {s : State (Fin m ⊕ Fin m) Int Nat}
    (h : Reach (step (level side)) (mayWake spurious) (pairs fun _ : Fin m => k) s) :
    (census side s).Kept m ∧ (∀ i, s.owns i ≤ k) ∧ P (census side s) := by
  have hinv : Waiters s ∧ (∀ i, s.owns i ≤ k) ∧ (census side s).Kept m ∧ P (census side s) := by
    refine Reach.invariant (I := fun s => Waiters s ∧ (∀ i, s.owns i ≤ k) ∧ (census side s).Kept m ∧
      P (census side s)) ?_ ?_ h
    · rintro s a s' ⟨hwaiters, howns, hkept, hP⟩ _ hs
      have hcensus := census_step hwaiters hs
      refine ⟨waiters_step hwaiters hs, fun i => (owns_step hs i).trans (howns i), hkept.step hcensus, ?_⟩
      refine hstep _ _ hkept ?_ hcensus hP
      intro hk
      subst hk
      exact census_ones howns
    · refine ⟨?_, ?_, kept_pairs _, hstart⟩
      · intro i hi
        exact absurd rfl hi
      · intro i
        cases i <;> exact le_refl k
  exact ⟨hinv.2.2.1, hinv.2.1, hinv.2.2.2⟩

theorem level_not_stuck (hmk : m ≤ 3 ∨ k = 0 ∨ (m = 4 ∧ k = 1)) {s : State (Fin m ⊕ Fin m) Int Nat}
    (h : Reach (step (level side)) (mayWake spurious) (pairs fun _ : Fin m => k) s) : ¬s.Stuck (· ≠ 0) := by
  intro hstuck
  have hpush := asleep_pairs (fun _ : Fin m => k) .push
  have hpop := asleep_pairs (fun _ : Fin m => k) .pop
  rcases hmk with hm | rfl | ⟨rfl, rfl⟩
  · obtain ⟨hkept, -, hfew⟩ := census_reach (P := Census.Few)
      (fun c c' hkept _ hstep hfew => hfew.step hm hkept hstep)
      ⟨fun hlt => absurd hlt (by omega), fun hlt => absurd hlt (by omega)⟩ h
    exact hfew.not_stuck hkept (census_owing side s) (census_stuck hstuck)
  · obtain ⟨-, howns, -⟩ := census_reach (P := fun _ => True) (fun _ _ _ _ _ _ => trivial) trivial h
    obtain ⟨i, hi⟩ := hstuck.1
    exact hi (Nat.le_zero.1 (howns i))
  · obtain ⟨hkept, howns, hsingle⟩ := census_reach (P := Census.Single)
      (fun c c' hkept hones hstep hsingle => hsingle.step hkept (hones rfl) hstep)
      ⟨fun hlt => absurd hlt (by omega), fun hlt => absurd hlt (by omega)⟩ h
    exact hsingle.not_stuck hkept (census_ones howns) (census_stuck hstuck)

/-! Where there are more, runs that end with everyone asleep. -/

/-- A pusher and its popper take turns: nobody has to wait. -/
theorem pair_turn {left : Fin m → Nat} {i : Fin m} (hleft : 0 < left i) :
    Reach (step (level side)) (mayWake false) (pairs left) (pairs (Function.update left i (left i - 1))) := by
  have hne : left i ≠ 0 := by omega
  have hpush : step (level side) (pairs left) (.enter (.inl i) none) =
      some ((pairs left).left (.inl i) 1 (left i - 1)) := by
    have hsection : level side (.inl i) (left i) 0 = some (.leave 1 (left i - 1) true) := by
      simp [level, hne, side, Kind.room, Kind.after]
    simp [step, pairs, hsection, signal]
  have hpop : step (level side) ((pairs left).left (.inl i) 1 (left i - 1)) (.enter (.inr i) none) =
      some (((pairs left).left (.inl i) 1 (left i - 1)).left (.inr i) 0 (left i - 1)) := by
    have hsection : level side (.inr i) (left i) 1 = some (.leave 0 (left i - 1) true) := by
      simp [level, hne, side, Kind.room, Kind.after]
    have hready (j : Fin m ⊕ Fin m) : (((pairs left).left (.inl i) 1 (left i - 1)).threads j).mode ≠ .asleep := by
      by_cases hj : j = .inl i <;> simp [State.left, pairs, hj]
    have hown : (((pairs left).left (.inl i) 1 (left i - 1)).threads (.inr i)).own = left i := by
      simp [State.left, pairs]
    have hshared : ((pairs left).left (.inl i) 1 (left i - 1)).shared = 1 := rfl
    simp only [step, hready, if_false, hown, hshared, hsection, signal, ne_eq, not_false_eq_true, implies_true, if_true]
  have hpairs : ((pairs left).left (.inl i) 1 (left i - 1)).left (.inr i) 0 (left i - 1) =
      pairs (Function.update left i (left i - 1)) := by
    have hthreads (j : Fin m ⊕ Fin m) :
        (((pairs left).left (.inl i) 1 (left i - 1)).left (.inr i) 0 (left i - 1)).threads j =
          (pairs (Function.update left i (left i - 1))).threads j := by
      cases j <;> simp only [State.left, pairs, Function.update_apply, Sum.inl.injEq, Sum.inr.injEq, reduceCtorEq,
        if_false, Sum.elim_inl, Sum.elim_inr] <;> split <;> rfl
    exact congrArg (State.mk (0 : Int)) (funext hthreads)
  rw [hpairs] at hpop
  exact .head ⟨.enter (.inl i) none, trivial, hpush⟩ (.single ⟨.enter (.inr i) none, trivial, hpop⟩)

theorem pairs_reach {left left' : Fin m → Nat} (hle : left' ≤ left) :
    Reach (step (level side)) (mayWake false) (pairs left) (pairs left') := by
  induction left using WellFoundedLT.induction with
  | ind left ih =>
    by_cases he : left' = left
    · subst he
      exact .refl
    · obtain ⟨i, hi⟩ := (Pi.lt_def.1 (lt_of_le_of_ne hle he)).2
      have hlt : Function.update left i (left i - 1) < left := update_lt_self_iff.2 (by omega)
      have hle' : left' ≤ Function.update left i (left i - 1) :=
        le_update_iff.2 ⟨by omega, fun j _ => hle j⟩
      exact (pair_turn (by omega)).trans (ih _ hlt hle')

theorem stuck_of_exec {left : Fin m → Nat} (as : List (Action (Fin m ⊕ Fin m)))
    (h : ((exec (step (level side)) (mayWake false) (pairs left) as).any fun s => decide (s.Stuck (· ≠ 0))) = true) :
    ∃ s, Reach (step (level side)) (mayWake false) (pairs left) s ∧ s.Stuck (· ≠ 0) := by
  obtain ⟨s, hs, hstuck⟩ := (Option.any_eq_true _ _).1 h
  exact ⟨s, reach_of_exec hs, of_decide_eq_true hstuck⟩

/-- Five pushes and pops: the fourth pusher and two poppers wake at a time when one character is left. -/
theorem five_stuck : ∃ s, Reach (step (level side)) (mayWake false) (pairs fun _ : Fin 5 => 1) s ∧ s.Stuck (· ≠ 0) := by
  refine stuck_of_exec [
    .enter (.inr 0) none, .enter (.inr 1) none, .enter (.inr 2) none, .enter (.inr 3) none, .enter (.inr 4) none,
    .enter (.inl 0) (some (.inr 0)), .enter (.inl 1) (some (.inr 1)), .enter (.inl 2) (some (.inr 2)),
    .enter (.inl 3) none, .enter (.inl 4) none,
    .enter (.inr 0) (some (.inl 3)), .enter (.inr 1) (some (.inr 3)), .enter (.inr 2) (some (.inr 4)),
    .enter (.inr 3) none, .enter (.inr 4) none,
    .enter (.inl 3) (some (.inr 3)), .enter (.inr 3) (some (.inr 4)), .enter (.inr 4) none] ?_
  decide +kernel

/-- Two calls each for four threads of each kind. -/
theorem four_stuck : ∃ s, Reach (step (level side)) (mayWake false) (pairs fun _ : Fin 4 => 2) s ∧ s.Stuck (· ≠ 0) := by
  refine stuck_of_exec [
    .enter (.inl 0) none, .enter (.inl 1) none, .enter (.inl 2) none,
    .enter (.inl 0) none, .enter (.inl 1) none, .enter (.inl 2) none, .enter (.inl 3) none,
    .enter (.inr 0) (some (.inl 0)), .enter (.inr 0) (some (.inl 1)), .enter (.inr 1) (some (.inl 2)),
    .enter (.inr 1) none, .enter (.inr 2) none,
    .enter (.inl 0) (some (.inr 1)), .enter (.inr 1) (some (.inr 2)), .enter (.inr 2) none, .enter (.inr 3) none,
    .enter (.inl 1) (some (.inr 2)), .enter (.inr 2) (some (.inr 3)), .enter (.inr 2) none, .enter (.inr 3) none,
    .enter (.inl 2) (some (.inr 2)), .enter (.inr 2) (some (.inr 3)), .enter (.inr 3) none] ?_
  decide +kernel

/-- The first `n` pairs of `m`. -/
def firsts {n : Nat} (hn : n ≤ m) : Fin n ⊕ Fin n ↪ Fin m ⊕ Fin m := (Fin.castLEEmb hn).sumMap (Fin.castLEEmb hn)

/-- A thread without calls to make. -/
def finished (_ : Fin m ⊕ Fin m) : Thread Nat := ⟨0, .ready⟩

theorem pairs_among {n c : Nat} (hn : n ≤ m) :
    (pairs fun _ : Fin n => c).among (firsts hn) finished = pairs fun i : Fin m => if i < n then c else 0 := by
  have hthreads (j : Fin m ⊕ Fin m) : ((pairs fun _ : Fin n => c).among (firsts hn) finished).threads j =
      (pairs fun i : Fin m => if i < n then c else 0).threads j := by
    by_cases hj : ∃ j', firsts hn j' = j
    · obtain ⟨j', rfl⟩ := hj
      rw [State.among_threads]
      cases j' <;> simp [pairs, firsts]
    · have hj : ∀ j', firsts hn j' ≠ j := fun j' h => hj ⟨j', h⟩
      rw [State.among_idle hj]
      cases j with
      | inl i =>
        have hi : ¬i.val < n := fun hi => hj (.inl ⟨i, hi⟩) rfl
        simp [pairs, finished, hi]
      | inr i =>
        have hi : ¬i.val < n := fun hi => hj (.inr ⟨i, hi⟩) rfl
        simp [pairs, finished, hi]
  exact congrArg (State.mk (0 : Int)) (funext hthreads)

/-- Where `n` pairs can get stuck with `c` calls each, so can more with more:
what is too many is done first, by pairs that take turns. -/
theorem stuck_more {n c : Nat} (hn : n ≤ m) (hc : c ≤ k)
    (h : ∃ s, Reach (step (level side)) (mayWake false) (pairs fun _ : Fin n => c) s ∧ s.Stuck (· ≠ 0)) :
    ∃ s, Reach (step (level side)) (mayWake false) (pairs fun _ : Fin m => k) s ∧ s.Stuck (· ≠ 0) := by
  obtain ⟨s, hreach, ⟨i, hi⟩, hall⟩ := h
  have hlevel (j : Fin n ⊕ Fin n) : level side (firsts hn j) = level side j := by
    have hside : side (firsts hn j) = side j := by cases j <;> rfl
    funext left index
    simp only [level, hside]
  have hrest : Reach (step (level side)) (mayWake false) (pairs fun _ : Fin m => k)
      (pairs fun i : Fin m => if i < n then c else 0) := by
    refine pairs_reach fun i => ?_
    dsimp only
    split <;> omega
  refine ⟨s.among (firsts hn) finished, hrest.trans ?_, ⟨firsts hn i, ?_⟩, ?_⟩
  · rw [← pairs_among hn]
    exact reach_among hlevel (fun _ => by simp [finished]) hreach
  · rw [State.owns, State.among_threads]
    exact hi
  · intro j hj
    by_cases hin : ∃ j', firsts hn j' = j
    · obtain ⟨j', rfl⟩ := hin
      rw [State.owns, State.among_threads] at hj
      rw [State.among_threads]
      exact hall j' hj
    · rw [State.owns, State.among_idle fun j' h => hin ⟨j', h⟩] at hj
      exact absurd rfl hj

theorem level_stuck (hmk : ¬(m ≤ 3 ∨ k = 0 ∨ (m = 4 ∧ k = 1))) :
    ∃ s, Reach (step (level side)) (mayWake false) (pairs fun _ : Fin m => k) s ∧ s.Stuck (· ≠ 0) := by
  by_cases hm : 5 ≤ m
  · exact stuck_more hm (by omega) five_stuck
  · exact stuck_more (n := 4) (c := 2) (by omega) (by omega) four_stuck

end

/-! ## The threads of the programs -/

section

variable {m k : Nat} {chars : Fin m → Fin k → Byte} {buffer : Buf STACK_SIZE}

theorem onLevel_start : onLevel (start buffer (mains chars)) = pairs fun _ => k := by
  have hthreads (i : Fin m ⊕ Fin m) :
      (onLevel (start buffer (mains chars))).threads i = (pairs fun _ : Fin m => k).threads i := by
    cases i <;> simp [onLevel, State.map, start, pairs, mains, producer, consumer]
  exact congrArg (State.mk (0 : Int)) (funext hthreads)

theorem mains_kind (i : Fin m ⊕ Fin m) (call : Call) (h : call ∈ mains chars i) : call.kind = side i := by
  cases i with
  | inl i =>
    simp only [mains, producer, List.mem_map] at h
    obtain ⟨c, -, rfl⟩ := h
    rfl
  | inr i =>
    simp only [mains, consumer, List.mem_replicate] at h
    rw [h.2]
    rfl

theorem stuck_onLevel {s : State (Fin m ⊕ Fin m) (Shared (Fin m ⊕ Fin m)) Caller} :
    (onLevel s).Stuck (· ≠ 0) ↔ s.Stuck Caller.Unfinished := by
  simp [State.Stuck, State.owns, onLevel, State.map, Caller.Unfinished]

theorem linear_level (s : State (Fin m ⊕ Fin m) (Shared (Fin m ⊕ Fin m)) Caller)
    (h : ∃ xs, Linear (mains chars) s.shared s.owns xs) (i : Fin m ⊕ Fin m) :
    level side i (s.owns i).todo.length s.shared.stack.index =
      (calls i (s.owns i) s.shared).map (Section.map (fun x _ => x.stack.index) fun me => me.todo.length) := by
  obtain ⟨xs, hlinear⟩ := h
  exact level_eq mains_kind hlinear i

theorem mains_stuck (chars : Fin m → Fin k → Byte) (buffer : Buf STACK_SIZE) (spurious : Bool)
    (hmk : ¬(m ≤ 3 ∨ k = 0 ∨ (m = 4 ∧ k = 1))) :
    ∃ s, Reach (step calls) (mayWake spurious) (start buffer (mains chars)) s ∧ s.Stuck Caller.Unfinished := by
  obtain ⟨t, hreach, hstuck⟩ := level_stuck hmk
  have hstart : onLevel (start buffer (mains chars)) = pairs fun _ => k := onLevel_start
  rw [← hstart] at hreach
  obtain ⟨s, hs, -, rfl⟩ := reach_of_map (fun _ _ _ hlinear hstep => linear_step hlinear hstep)
    linear_level ⟨[], linear_start buffer (mains chars)⟩ (reach_mayWake spurious hreach)
  exact ⟨s, hs, stuck_onLevel.1 hstuck⟩

/-- With how many threads the stack does not get stuck, whatever the
characters are, with spurious wake-ups or without: there must be too few to
fill or empty it while others sleep. -/
theorem stack_not_stuck_iff (chars : Fin m → Fin k → Byte) (buffer : Buf STACK_SIZE) (spurious : Bool) :
    (∀ s, Reach (step calls) (mayWake spurious) (start buffer (mains chars)) s → ¬s.Stuck Caller.Unfinished) ↔
      m ≤ 3 ∨ k = 0 ∨ (m = 4 ∧ k = 1) := by
  constructor
  · intro hnever
    by_contra hmk
    obtain ⟨s, hreach, hstuck⟩ := mains_stuck chars buffer spurious hmk
    exact hnever s hreach hstuck
  · intro hmk s hreach hstuck
    have hlevel : Reach (step (level side)) (mayWake spurious) (onLevel (start buffer (mains chars))) (onLevel s) :=
      reach_map (fun _ _ _ hlinear hstep => linear_step hlinear hstep)
        linear_level ⟨[], linear_start buffer (mains chars)⟩ hreach
    rw [onLevel_start] at hlevel
    exact level_not_stuck hmk hlevel (stuck_onLevel.2 hstuck)

end

/-- Four programs, of one producer and one consumer each, can all end up asleep. -/
theorem four_programs_stuck : ¬∀ s, Reach (step calls) (mayWake false)
      (start (Buf.zero _) (mains fun (_ : Fin 4) (_ : Fin MAX_COUNT) => 65)) s → ¬s.Stuck Caller.Unfinished := by
  intro hnever
  obtain ⟨s, hreach, hstuck⟩ :=
    mains_stuck (fun (_ : Fin 4) (_ : Fin MAX_COUNT) => 65) (Buf.zero _) false (by decide)
  exact hnever s hreach hstuck

end SysProg.Stack
