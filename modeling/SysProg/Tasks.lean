/-
One thread a core, each incrementing `state` a million times: with nothing to
keep them apart (`exercise03`), and each with its whole loop under a mutex
(`exercise04`) or a spin lock (`exercise05`).

`state++` is taken as a load and a store, as it is compiled without optimisation.
Of the greatest `int` it is not defined.
-/
import SysProg.Lib.Increments
import SysProg.Lib.Threads

namespace SysProg.Tasks

open Threads

/-- How often a task increments. -/
def COUNT : Nat := 1000000

/-- The greatest `int`. -/
def INT_MAX : Nat := 2147483647

/-- Where a thread is in `task`. -/
inductive Own where
  | start
  /-- In iteration `i`, with the value of `state` it has read, if it has. -/
  | loop (i : Nat) (held : Option Nat)
  | exit

/-- `task`, under a lock of either kind or none. -/
def task (locked : Bool) (l : Own) (state : Nat) : Act Nat Own :=
  match l with
  | .start => if locked then .lock (.loop 0 none) else .go state (.loop 0 none)
  | .loop i none =>
    if i < COUNT then .go state (.loop i (some state))
    else if locked then .unlock .exit else .go state .exit
  | .loop i (some v) => if v < INT_MAX then .go (v + 1) (.loop (i + 1) none) else .stop
  | .exit => .stop

/-- `main` has created the threads. -/
def created {ι : Type} : State ι Nat Own := ⟨0, none, fun _ => .start⟩

/-- Every thread has exited. -/
def AllExited {ι : Type} (s : State ι Nat Own) : Prop := ∀ i, s.threads i = .exit

/-- The thread is in its loop. -/
def inside : Own → Bool
  | .loop _ _ => true
  | .start | .exit => false

/-- How many increments a thread has made. -/
def made : Own → Nat
  | .start => 0
  | .loop i _ => i
  | .exit => COUNT

/-- How many steps it has taken. -/
def pos : Own → Nat
  | .start => 0
  | .loop i none => 1 + 2 * i
  | .loop i (some _) => 2 + 2 * i
  | .exit => 2 + 2 * COUNT

/-- What the steps of a thread are. -/
inductive Acts (locked : Bool) (state : Nat) : Own → Act Nat Own → Prop
  | enter (lock : locked = true) : Acts locked state .start (.lock (.loop 0 none))
  | enterFree (lock : locked = false) : Acts locked state .start (.go state (.loop 0 none))
  | read {i} (lt : i < COUNT) : Acts locked state (.loop i none) (.go state (.loop i (some state)))
  | store {i v} (lt : v < INT_MAX) : Acts locked state (.loop i (some v)) (.go (v + 1) (.loop (i + 1) none))
  | overflow {i v} (ge : INT_MAX ≤ v) : Acts locked state (.loop i (some v)) .stop
  | leave {i} (ge : COUNT ≤ i) (lock : locked = true) : Acts locked state (.loop i none) (.unlock .exit)
  | leaveFree {i} (ge : COUNT ≤ i) (lock : locked = false) : Acts locked state (.loop i none) (.go state .exit)
  | stop : Acts locked state .exit .stop

theorem acts (locked : Bool) (l : Own) (state : Nat) : Acts locked state l (task locked l state) := by
  cases l with
  | start =>
    cases locked with
    | true => exact .enter rfl
    | false => exact .enterFree rfl
  | loop i held =>
    cases held with
    | none =>
      simp only [task]
      split
      · next hlt => exact .read hlt
      · next hge =>
        cases locked with
        | true => exact .leave (Nat.le_of_not_lt hge) rfl
        | false => exact .leaveFree (Nat.le_of_not_lt hge) rfl
    | some v =>
      simp only [task]
      split
      · next hlt => exact .store hlt
      · next hge => exact .overflow (Nat.le_of_not_lt hge)
  | exit => exact .stop

/-- Where a thread can be. -/
def Within : Own → Prop
  | .loop i none => i ≤ COUNT
  | .loop i (some _) => i < COUNT
  | .start | .exit => True

theorem within_go {locked : Bool} {l l' : Own} {state state' : Nat} (h : Within l)
    (hn : task locked l state = .go state' l') : Within l' := by
  have ha := acts locked l state
  rw [hn] at ha
  cases ha with
  | enterFree => exact Nat.zero_le _
  | read hlt => exact hlt
  | store => exact h
  | leaveFree => trivial

theorem Within.made_le {l : Own} (h : Within l) : made l ≤ COUNT := by
  match l with
  | .start => exact Nat.zero_le _
  | .loop _ none => exact h
  | .loop _ (some _) => exact Nat.le_of_lt h
  | .exit => exact Nat.le_refl _

/-! ## Under a lock -/

theorem bracketed : Bracketed (task true) inside where
  go l sh sh' l' h := by
    have ha := acts true l sh
    rw [h] at ha
    cases ha with
    | read | store => rfl
    | enterFree hlock | leaveFree _ hlock => cases hlock
  lock l sh l' h := by
    have ha := acts true l sh
    rw [h] at ha
    cases ha
    exact ⟨rfl, rfl⟩
  unlock l sh l' h := by
    have ha := acts true l sh
    rw [h] at ha
    cases ha
    exact ⟨rfl, rfl⟩

theorem paced : Paced (task true) Within pos where
  go l sh sh' l' hl h := by
    have ha := acts true l sh
    rw [h] at ha
    cases ha with
    | read | store =>
      simp only [pos]
      omega
    | enterFree hlock | leaveFree _ hlock => cases hlock
  lock l sh l' _ h := by
    have ha := acts true l sh
    rw [h] at ha
    cases ha
    rfl
  unlock l sh l' hl h := by
    have ha := acts true l sh
    rw [h] at ha
    cases ha with
    | leave hge =>
      have hle : _ ≤ COUNT := hl
      simp only [pos]
      omega

section

variable {ι : Type} [DecidableEq ι] [Fintype ι] {s s' : State ι Nat Own} {i : ι}

/-- No increment is lost: each thread's loop is run by itself. -/
structure Sound (s : State ι Nat Own) : Prop where
  exclusive : Exclusive inside s
  state : s.shared = total made s
  held : ∀ i k v, s.threads i = .loop k (some v) → v = s.shared
  within : ∀ i, Within (s.threads i)

theorem Sound.put (h : Sound s) {shared : Nat} {holder : Option ι} {own : Own}
    (hex : Exclusive inside (s.put i shared holder own)) (hstate : shared + made (s.threads i) = s.shared + made own)
    (hheld : ∀ k v, own = .loop k (some v) → v = shared) (hothers : shared = s.shared ∨ inside (s.threads i))
    (hwithin : Within own) : Sound (s.put i shared holder own) where
  exclusive := hex
  state := by
    have := total_put made s i shared holder own
    have := h.state
    rw [put_shared]
    omega
  held j k v hj := by
    by_cases hji : j = i
    · subst hji
      rw [put_self] at hj
      exact hheld k v hj
    · rw [put_of_ne s hji] at hj
      rcases hothers with rfl | hin
      · exact h.held j k v hj
      · exact absurd (h.exclusive.one (by rw [hj]; rfl) hin) hji
  within j := by
    by_cases hji : j = i
    · subst hji
      rwa [put_self]
    · rw [put_of_ne s hji]
      exact h.within j

theorem Sound.move (h : Sound s) (hm : Move (task true) s i s') : Sound s' := by
  have hex := h.exclusive.move bracketed hm
  have ha := acts true (s.threads i) s.shared
  have hwithin := h.within i
  have hheld := h.held i
  cases hm with
  | go hn =>
    have hw := within_go hwithin hn
    rw [hn] at ha
    generalize hl : s.threads i = l at ha hwithin hheld
    cases ha with
    | read =>
      exact h.put hex (by rw [hl]; rfl) (fun k v he => by cases he; rfl) (.inl rfl) hw
    | store =>
      obtain rfl := hheld _ _ rfl
      refine h.put hex ?_ (fun k v he => by cases he) (.inr (by rw [hl]; rfl)) hw
      rw [hl]
      simp only [made]
      omega
    | enterFree hlock | leaveFree _ hlock => cases hlock
  | lock hn =>
    rw [hn] at ha
    generalize hl : s.threads i = l at ha
    cases ha with
    | enter => exact h.put hex (by rw [hl]; rfl) (fun k v he => by cases he) (.inl rfl) (Nat.zero_le _)
  | unlock hn =>
    rw [hn] at ha
    generalize hl : s.threads i = l at ha hwithin
    cases ha with
    | leave hge =>
      have hle : _ ≤ COUNT := hwithin
      refine h.put hex ?_ (fun k v he => by cases he) (.inl rfl) trivial
      rw [hl]
      simp only [made]
      omega

omit [DecidableEq ι] in
theorem sound_created : Sound (created : State ι Nat Own) where
  exclusive _ := iff_of_false Bool.false_ne_true (Option.some_ne_none _).symm
  state := by simp [created, total, made]
  held _ _ _ h := by cases h
  within _ := trivial

omit [DecidableEq ι] in
theorem sum_le {f : Own → Nat} {m : Nat} (h : ∀ i, f (s.threads i) ≤ m) : total f s ≤ Fintype.card ι * m := by
  rw [← smul_eq_mul, ← Finset.card_univ]
  exact Finset.sum_le_card_nsmul _ _ _ fun i _ => h i

theorem pos_le {l : Own} (h : Within l) : pos l ≤ 2 + 2 * COUNT := by
  match l with
  | .start => exact Nat.zero_le _
  | .loop i none =>
    have hle : i ≤ COUNT := h
    simp only [pos]
    omega
  | .loop i (some _) =>
    have hlt : i < COUNT := h
    simp only [pos]
    omega
  | .exit => exact Nat.le_refl _

omit [DecidableEq ι] in
/-- A thread that could store more than an `int` holds would have had to read
more than all make. -/
theorem Sound.fits (h : Sound s) (hfit : Fintype.card ι * COUNT ≤ INT_MAX) {k v : Nat}
    (hi : s.threads i = .loop k (some v)) : v < INT_MAX := by
  have hv := h.held i k v hi
  have hlt : total made s < Fintype.card ι * COUNT := by
    have hall : ∑ _ : ι, COUNT = Fintype.card ι * COUNT := by rw [Finset.sum_const, Finset.card_univ, smul_eq_mul]
    rw [← hall]
    refine Finset.sum_lt_sum (fun j _ => (h.within j).made_le) ⟨i, Finset.mem_univ i, ?_⟩
    have hk := h.within i
    rw [hi] at hk ⊢
    exact hk
  rw [hv, h.state]
  omega

end

/-- With a lock of either kind around the loop, and as many cores as an `int`
has room for: no two threads are in their loops together, all of their
increments count, and one of them can go on until all have exited. -/
theorem locked_run {cores : Nat} (hfit : cores * COUNT ≤ INT_MAX) {as : List (Fin cores)}
    {s : State (Fin cores) Nat Own}
    (h : exec (step (task true)) anyStep created as = some s) :
    as.length ≤ cores * (2 + 2 * COUNT) ∧
      (∀ i j, inside (s.threads i) → inside (s.threads j) → i = j) ∧
      (AllExited s → s.shared = cores * COUNT) ∧
      (AllExited s ∨ ∃ i s', step (task true) s i = some s') := by
  have hs : Sound s := (reach_of_exec h).invariant (I := Sound)
    (fun _ _ _ hi _ hs => hi.move (move_of_step hs)) sound_created
  have hfit' : Fintype.card (Fin cores) * COUNT ≤ INT_MAX := by rwa [Fintype.card_fin]
  refine ⟨?_, fun i j hi hj => hs.exclusive.one hi hj, ?_, ?_⟩
  · have hlen := length_exec paced (fun _ hs i => Sound.within hs i) (fun _ _ _ hi hm => Sound.move hi hm)
      sound_created h
    have hzero : total pos (created : State (Fin cores) Nat Own) = 0 := by simp [created, total, pos]
    have hle := sum_le (s := s) fun i => pos_le (hs.within i)
    rw [Fintype.card_fin] at hle
    omega
  · intro hall
    have hmade : ∀ i, made (s.threads i) = COUNT := fun i => by rw [hall i]; rfl
    rw [hs.state, total, Finset.sum_congr rfl fun i _ => hmade i, Finset.sum_const, Finset.card_univ, smul_eq_mul,
      Fintype.card_fin]
  · have hstop : ∀ i, task true (s.threads i) s.shared = .stop → s.threads i = .exit := by
      intro i hi
      have ha := acts true (s.threads i) s.shared
      rw [hi] at ha
      generalize hl : s.threads i = l at ha
      cases ha with
      | overflow hge => exact absurd (hs.fits hfit' hl) (Nat.not_lt.2 hge)
      | stop => rfl
    rcases hs.exclusive.goes_on bracketed with ⟨i, hin, hn⟩ | hall | hgo
    · rw [hstop i hn] at hin
      cases hin
    · exact .inl fun i => hstop i (hall i)
    · exact .inr hgo

/-- On two cores they come to two million. -/
theorem locked_run_two : ∃ as, ∃ s : State (Fin 2) Nat Own,
    exec (step (task true)) anyStep created as = some s ∧ s.shared = 2000000 := by
  have hrun : ∀ as s, exec (step (task true)) anyStep (created : State (Fin 2) Nat Own) as = some s →
      as.length ≤ 2 * (2 + 2 * COUNT) ∧
        ((AllExited s ∧ s.shared = 2 * COUNT) ∨ ∃ i s', step (task true) s i = some s') := by
    intro as s h
    obtain ⟨hlen, -, hend, hall | hgo⟩ := locked_run (by decide) h
    · exact ⟨hlen, .inl ⟨hall, hend hall⟩⟩
    · exact ⟨hlen, .inr hgo⟩
  obtain ⟨as, s, h, -, hs⟩ := exec_completes hrun
  exact ⟨as, s, h, hs⟩

/-! ## Without one -/

/-- A thread by what it has made and holds. -/
def worker : Own → Increments.Worker
  | .start => ⟨0, none⟩
  | .loop i held => ⟨i, held⟩
  | .exit => ⟨COUNT, none⟩

/-- The threads as workers on one counter. -/
def seen {ι : Type} (s : State ι Nat Own) : Increments.State ι := ⟨s.shared, fun i => worker (s.threads i)⟩

section

variable {ι : Type} [DecidableEq ι] {s s' : State ι Nat Own} {i : ι}

theorem seen_put (s : State ι Nat Own) (i : ι) (shared : Nat) (holder : Option ι) (own : Own) :
    seen (s.put i shared holder own) = (seen s).put i shared (worker own) := by
  unfold seen Increments.State.put
  congr 1
  exact put_seen worker s i _ holder own

theorem seen_put_same {holder : Option ι} {own : Own} (hw : worker own = worker (s.threads i)) :
    seen (s.put i s.shared holder own) = seen s := by
  rw [seen_put, hw]
  exact congrArg (Increments.State.mk _) (Function.update_eq_self ..)

/-- A step is one of an increment, or is not seen. -/
theorem seen_move (hw : ∀ i, Within (s.threads i)) (hm : Move (task false) s i s') :
    (∀ i, Within (s'.threads i)) ∧
      (seen s' = seen s ∨ Increments.step COUNT INT_MAX (seen s) i = some (seen s')) := by
  have ha := acts false (s.threads i) s.shared
  cases hm with
  | @go shared own hn =>
    refine ⟨fun j => ?_, ?_⟩
    · by_cases hj : j = i
      · subst hj
        rw [put_self]
        exact within_go (hw j) hn
      · rw [put_of_ne s hj]
        exact hw j
    · have hwi := hw i
      rw [hn] at ha
      generalize hl : s.threads i = l at ha hwi
      cases ha with
      | enterFree => exact .inl (seen_put_same (by rw [hl]; rfl))
      | read hlt =>
        refine .inr ?_
        rw [seen_put]
        simp [Increments.step, seen, worker, hl, hlt]
      | store hlt =>
        refine .inr ?_
        rw [seen_put]
        simp [Increments.step, seen, worker, hl, hlt]
      | leaveFree hge =>
        have hle : _ ≤ COUNT := hwi
        refine .inl (seen_put_same ?_)
        rw [hl]
        simp only [worker]
        congr 1
        omega
  | lock hn =>
    rw [hn] at ha
    generalize s.threads i = l at ha
    cases ha with
    | enter hlock => cases hlock
  | unlock hn =>
    rw [hn] at ha
    generalize s.threads i = l at ha
    cases ha with
    | leave _ hlock => cases hlock

/-- No thread has left its loop. -/
def Looping (s : State ι Nat Own) : Prop := ∀ i, s.threads i ≠ .exit

/-- Each step of an increment is made by some of the thread's. -/
theorem seen_lift {t : Increments.State ι} (hs : Looping s)
    (ht : Steps (Increments.step COUNT INT_MAX) anyStep (seen s) t) :
    ∃ s', Reach (step (task false)) anyStep s s' ∧ Looping s' ∧ seen s' = t := by
  obtain ⟨i, -, ht⟩ := ht
  have hloops (shared k : Nat) (held : Option Nat) (holder : Option ι) :
      Looping (s.put i shared holder (.loop k held)) := by
    intro j
    by_cases hj : j = i
    · subst hj
      rw [put_self]
      exact Own.noConfusion
    · rw [put_of_ne s hj]
      exact hs j
  cases Increments.move_of_step ht with
  | read hheld hlt =>
    cases hl : s.threads i with
    | exit => exact absurd hl (hs i)
    | start =>
      have hread : task false (.loop 0 none) s.shared = .go s.shared (.loop 0 (some s.shared))  := by
        simp only [task, if_pos (show 0 < COUNT by decide)]
      refine ⟨_, (step_go (by rw [hl]; rfl)).trans (put_go hread), hloops _ _ _ _, ?_⟩
      rw [seen_put]
      simp [seen, worker, hl]
    | loop k held =>
      simp only [seen, worker, hl] at hheld hlt
      subst hheld
      refine ⟨_, step_go (by rw [hl]; exact if_pos hlt), hloops _ _ _ _, ?_⟩
      rw [seen_put]
      simp [seen, worker, hl]
  | @store v hheld hlt =>
    cases hl : s.threads i with
    | exit => exact absurd hl (hs i)
    | start => simp [seen, worker, hl] at hheld
    | loop k held =>
      simp only [seen, worker, hl] at hheld
      subst hheld
      refine ⟨_, step_go (by rw [hl]; exact if_pos hlt), hloops _ _ _ _, ?_⟩
      rw [seen_put]
      simp [seen, worker, hl]

end

/-- With nothing to keep them apart, two threads or more can end at anything
from 2 to all their increments. -/
theorem unlocked_finals {cores : Nat} (htwo : 1 < cores) (hfit : cores * COUNT ≤ INT_MAX) (v : Nat) :
    (∃ s : State (Fin cores) Nat Own, Reach (step (task false)) anyStep created s ∧ AllExited s ∧ s.shared = v) ↔
      2 ≤ v ∧ v ≤ cores * COUNT := by
  have hcard : Fintype.card (Fin cores) = cores := Fintype.card_fin cores
  have hmax : Fintype.card (Fin cores) * COUNT ≤ INT_MAX := by rwa [hcard]
  have hiff := Increments.finals hmax (by rwa [hcard]) v
  rw [hcard] at hiff
  refine .trans ?_ (hiff.trans (by rfl))
  constructor
  · rintro ⟨s, hreach, hall, rfl⟩
    have hboth : (∀ i, Within (s.threads i)) ∧ Reach (Increments.step COUNT INT_MAX) anyStep Increments.init (seen s) :=
      hreach.invariant (s := created) (I := fun s => (∀ i, Within (s.threads i)) ∧
          Reach (Increments.step COUNT INT_MAX) anyStep Increments.init (seen s))
        (fun s i s' hi _ hs => by
          obtain ⟨hw, he | hstep⟩ := seen_move hi.1 (move_of_step hs)
          · exact ⟨hw, he ▸ hi.2⟩
          · exact ⟨hw, hi.2.tail ⟨i, trivial, hstep⟩⟩) ⟨fun _ => trivial, .refl⟩
    exact ⟨seen s, hboth.2, fun i => by simp [seen, hall i, worker], rfl⟩
  · rintro ⟨t, hreach, hfin, rfl⟩
    obtain ⟨s, hs, hloops, rfl⟩ := Reach.lift_many (f := seen) (I := Looping) (s := created)
      (fun s t hs ht => seen_lift hs ht) (fun _ => Own.noConfusion) hreach
    have hend : ∀ i, s.threads i = .loop COUNT none := by
      intro i
      have hw := hfin i
      cases hl : s.threads i with
      | exit => exact absurd hl (hloops i)
      | start => simp [seen, worker, hl, COUNT] at hw
      | loop k held =>
        simp only [seen, worker, hl, Increments.Worker.mk.injEq] at hw
        rw [hw.1, hw.2]
    have hleave : ∀ i, task false (s.threads i) s.shared = .go s.shared .exit := by
      intro i
      rw [hend i]
      simp only [task, if_neg (Nat.lt_irrefl COUNT)]
      rfl
    obtain ⟨s', hs', hshared, hexit, -⟩ := each_go (fun _ => Own.exit) hleave Finset.univ
    exact ⟨s', hs.trans hs', fun i => hexit i (Finset.mem_univ i), hshared⟩

/-- Two cores can end at two. -/
theorem unlocked_finals_two :
    ∃ s : State (Fin 2) Nat Own, Reach (step (task false)) anyStep created s ∧ AllExited s ∧ s.shared = 2 :=
  (unlocked_finals (by decide) (by decide) 2).2 (by decide)

end SysProg.Tasks
