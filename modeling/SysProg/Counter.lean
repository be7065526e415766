/-
Threads that increment one counter (`mutex.c`): what it comes to, and what is
printed, when each increment is made under the mutex, and what it can come to
when none is.

A `%d` and the `write` of its text are one step. The pauses are left out, as
any thread may be the next to go on, and so is the banner of `main`, which stands
before what the threads write, or after it: stdio keeps it for the exit where
stdout is no terminal.
-/
import SysProg.Lib.Decimal
import SysProg.Lib.Increments
import SysProg.Lib.Threads

namespace SysProg.Counter

open Threads

/-- How often each thread increments. -/
def LOOP_MAX : Nat := 20

/-- Where a thread is in an iteration. -/
inductive Pc where
  /-- At the test of the loop, before the lock. -/
  | top
  | tell
  | read
  | store
  | tellNew
  | unlock
  | exit
  deriving DecidableEq

/-- What a thread has of its own. -/
structure Own where
  pc : Pc
  loopCount : Nat
  temp : Nat

/-- What the two threads share. -/
structure Shared where
  commonCounter : Nat
  /-- What the threads have written to stdout. -/
  output : List Byte

/-- What a thread prints before it stores. -/
def incrementedFrom (n : Nat) : List Byte := ascii "Common counter incremented from " ++ decimal n ++ ascii " to "

/-- What a thread prints after it has stored. -/
def incrementedTo (n : Nat) : List Byte := decimal n ++ ascii "\n"

/-- The next step of a thread, with the mutex where it is used. -/
def threadMain (synchronized : Bool) (l : Own) (sh : Shared) : Act Shared Own :=
  match l.pc with
  | .top =>
    if l.loopCount < LOOP_MAX then
      if synchronized then .lock { l with pc := .tell } else .go sh { l with pc := .tell }
    else .go sh { l with pc := .exit }
  | .tell => .go { sh with output := sh.output ++ incrementedFrom sh.commonCounter } { l with pc := .read }
  | .read => .go sh { l with pc := .store, temp := sh.commonCounter }
  | .store => .go { sh with commonCounter := l.temp + 1 } { l with pc := .tellNew }
  | .tellNew => .go { sh with output := sh.output ++ incrementedTo sh.commonCounter } { l with pc := .unlock }
  | .unlock =>
    if synchronized then .unlock { l with pc := .top, loopCount := l.loopCount + 1 }
    else .go sh { l with pc := .top, loopCount := l.loopCount + 1 }
  | .exit => .stop

/-- `main` has created the threads. -/
def start {ι : Type} : State ι Shared Own := ⟨⟨0, []⟩, none, fun _ => ⟨.top, 0, 0⟩⟩

/-- Both threads have exited. -/
def AllExited {ι : Type} (s : State ι Shared Own) : Prop := ∀ i, (s.threads i).pc = .exit

/-- Between lock and unlock. -/
def inside (l : Own) : Bool := l.pc ≠ .top ∧ l.pc ≠ .exit

/-- How many increments a thread has made. -/
def made (l : Own) : Nat := l.loopCount + if l.pc = .tellNew ∨ l.pc = .unlock then 1 else 0

/-- How many steps it has taken. -/
def pos (l : Own) : Nat :=
  6 * l.loopCount + match l.pc with
    | .top => 0
    | .tell | .exit => 1
    | .read => 2
    | .store => 3
    | .tellNew => 4
    | .unlock => 5

/-- What the steps of a thread are. -/
inductive Acts (synchronized : Bool) (l : Own) (sh : Shared) : Act Shared Own → Prop
  | enter (pc : l.pc = .top) (lt : l.loopCount < LOOP_MAX) (sync : synchronized = true) :
      Acts synchronized l sh (.lock { l with pc := .tell })
  | enterFree (pc : l.pc = .top) (lt : l.loopCount < LOOP_MAX) (sync : synchronized = false) :
      Acts synchronized l sh (.go sh { l with pc := .tell })
  | exit (pc : l.pc = .top) (ge : LOOP_MAX ≤ l.loopCount) : Acts synchronized l sh (.go sh { l with pc := .exit })
  | tell (pc : l.pc = .tell) : Acts synchronized l sh
      (.go { sh with output := sh.output ++ incrementedFrom sh.commonCounter } { l with pc := .read })
  | read (pc : l.pc = .read) : Acts synchronized l sh (.go sh { l with pc := .store, temp := sh.commonCounter })
  | store (pc : l.pc = .store) :
      Acts synchronized l sh (.go { sh with commonCounter := l.temp + 1 } { l with pc := .tellNew })
  | tellNew (pc : l.pc = .tellNew) : Acts synchronized l sh
      (.go { sh with output := sh.output ++ incrementedTo sh.commonCounter } { l with pc := .unlock })
  | leave (pc : l.pc = .unlock) (sync : synchronized = true) :
      Acts synchronized l sh (.unlock { l with pc := .top, loopCount := l.loopCount + 1 })
  | leaveFree (pc : l.pc = .unlock) (sync : synchronized = false) :
      Acts synchronized l sh (.go sh { l with pc := .top, loopCount := l.loopCount + 1 })
  | stop (pc : l.pc = .exit) : Acts synchronized l sh .stop

theorem acts (synchronized : Bool) (l : Own) (sh : Shared) : Acts synchronized l sh (threadMain synchronized l sh) := by
  unfold threadMain
  cases hpc : l.pc with
  | top =>
    dsimp only
    split
    · next hlt =>
      cases synchronized with
      | true => exact .enter hpc hlt rfl
      | false => exact .enterFree hpc hlt rfl
    · next hge => exact .exit hpc (Nat.le_of_not_lt hge)
  | tell => exact .tell hpc
  | read => exact .read hpc
  | store => exact .store hpc
  | tellNew => exact .tellNew hpc
  | unlock =>
    cases synchronized with
    | true => exact .leave hpc rfl
    | false => exact .leaveFree hpc rfl
  | exit => exact .stop hpc

theorem bracketed : Bracketed (threadMain true) inside where
  go l sh sh' l' h := by
    have ha := acts true l sh
    rw [h] at ha
    cases ha <;> simp_all [inside]
  lock l sh l' h := by
    have ha := acts true l sh
    rw [h] at ha
    cases ha
    simp_all [inside]
  unlock l sh l' h := by
    have ha := acts true l sh
    rw [h] at ha
    cases ha
    simp_all [inside]

theorem paced (synchronized : Bool) : Paced (threadMain synchronized) (fun _ => True) pos where
  go l sh sh' l' _ h := by
    have ha := acts synchronized l sh
    rw [h] at ha
    cases ha <;> (simp_all [pos]; try omega)
  lock l sh l' _ h := by
    have ha := acts synchronized l sh
    rw [h] at ha
    cases ha
    simp_all [pos]
  unlock l sh l' _ h := by
    have ha := acts synchronized l sh
    rw [h] at ha
    cases ha
    simp_all [pos]
    omega

/-! ## Under the mutex -/

/-- What is printed for the first `n` increments, one after the other. -/
def lines (n : Nat) : List Byte := (List.range n).flatMap fun v => incrementedFrom v ++ incrementedTo (v + 1)

/-- What has been printed when the thread inside is at `l`. -/
def printed (l : Own) (n : Nat) : List Byte :=
  match l.pc with
  | .read | .store => lines n ++ incrementedFrom n
  | .tellNew => lines (n - 1) ++ incrementedFrom (n - 1)
  | _ => lines n

theorem lines_succ (n : Nat) : lines (n + 1) = lines n ++ incrementedFrom n ++ incrementedTo (n + 1) := by
  rw [lines, List.range_succ, List.flatMap_append, List.flatMap_singleton, List.append_assoc]
  rfl

theorem lines_of_fewer {m n : Nat} (h : m ≤ n) : lines m <+: lines n := by
  induction h with
  | refl => exact List.prefix_rfl
  | step _ ih =>
    rw [lines_succ, List.append_assoc]
    exact ih.trans (List.prefix_append ..)

section

variable {ι : Type} [DecidableEq ι] {s s' : State ι Shared Own} {i : ι}

/-- The loop of each thread. -/
def Loops (s : State ι Shared Own) : Prop :=
  ∀ i, (s.threads i).loopCount ≤ LOOP_MAX ∧ (inside (s.threads i) → (s.threads i).loopCount < LOOP_MAX) ∧
    ((s.threads i).pc = .exit → (s.threads i).loopCount = LOOP_MAX)

theorem loops_put {sh : Shared} {holder : Option ι} {own : Own} (h : Loops s) (hle : own.loopCount ≤ LOOP_MAX)
    (hlt : inside own → own.loopCount < LOOP_MAX) (hexit : own.pc = .exit → own.loopCount = LOOP_MAX) :
    Loops (s.put i sh holder own) := by
  intro j
  by_cases hj : j = i
  · subst hj
    rw [put_self]
    exact ⟨hle, hlt, hexit⟩
  · rw [put_of_ne s hj]
    exact h j

theorem Loops.move {synchronized : Bool} (h : Loops s) (hm : Move (threadMain synchronized) s i s') : Loops s' := by
  obtain ⟨hle, hlt, -⟩ := h i
  have ha := acts synchronized (s.threads i) s.shared
  cases hm with
  | go hn =>
    rw [hn] at ha
    cases ha with
    | enterFree _ h' => exact loops_put h hle (fun _ => h') (fun h => by cases h)
    | exit _ hge => exact loops_put h hle (fun hin => absurd hin (by simp [inside])) fun _ => le_antisymm hle hge
    | tell hpc | read hpc | store hpc | tellNew hpc =>
      exact loops_put h hle (fun _ => hlt (by simp [inside, hpc])) (fun h => by cases h)
    | leaveFree hpc =>
      exact loops_put h (hlt (by simp [inside, hpc])) (fun hin => absurd hin (by simp [inside])) (fun h => by cases h)
  | lock hn =>
    rw [hn] at ha
    cases ha with
    | enter _ h' => exact loops_put h hle (fun _ => h') (fun h => by cases h)
  | unlock hn =>
    rw [hn] at ha
    cases ha with
    | leave hpc =>
      exact loops_put h (hlt (by simp [inside, hpc])) (fun hin => absurd hin (by simp [inside])) (fun h => by cases h)

variable [Fintype ι]

/-- All that has been made and printed is whole increments, but for what the
thread inside is at. -/
structure Sound (s : State ι Shared Own) : Prop where
  exclusive : Exclusive inside s
  count : s.shared.commonCounter = total made s
  temp : ∀ i, (s.threads i).pc = .store → (s.threads i).temp = s.shared.commonCounter
  free : s.holder = none → s.shared.output = lines s.shared.commonCounter
  held : ∀ i, s.holder = some i → s.shared.output = printed (s.threads i) s.shared.commonCounter

/-- A step of the thread inside. -/
theorem Sound.go (h : Sound s) (hin : inside (s.threads i)) {sh : Shared} {own : Own}
    (hex : Exclusive inside (s.put i sh s.holder own))
    (hcount : sh.commonCounter + made (s.threads i) = s.shared.commonCounter + made own)
    (htemp : own.pc = .store → own.temp = sh.commonCounter) (hout : sh.output = printed own sh.commonCounter) :
    Sound (s.put i sh s.holder own) where
  exclusive := hex
  count := by
    have := total_put made s i sh s.holder own
    have := h.count
    rw [put_shared]
    omega
  temp j hj := by
    by_cases hji : j = i
    · subst hji
      rw [put_self] at hj ⊢
      exact htemp hj
    · rw [put_of_ne s hji] at hj
      exact absurd (h.exclusive.one (by simp [inside, hj]) hin) hji
  free hfree := by
    rw [put_holder, (h.exclusive i).1 hin] at hfree
    cases hfree
  held j hj := by
    rw [put_holder, (h.exclusive i).1 hin] at hj
    cases hj
    rw [put_self]
    exact hout

/-- A step at which the shared data stays as it is and the thread is not, or
no longer, at a store. -/
theorem Sound.outside (h : Sound s) {holder : Option ι} {own : Own}
    (hex : Exclusive inside (s.put i s.shared holder own)) (hmade : made own = made (s.threads i))
    (hpc : own.pc ≠ .store) (hfree : holder = none → s.shared.output = lines s.shared.commonCounter)
    (hheld : ∀ j, holder = some j →
      s.shared.output = printed ((s.put i s.shared holder own).threads j) s.shared.commonCounter) :
    Sound (s.put i s.shared holder own) where
  exclusive := hex
  count := by
    have := total_put made s i s.shared holder own
    have := h.count
    rw [put_shared]
    omega
  temp j hj := by
    by_cases hji : j = i
    · subst hji
      rw [put_self] at hj
      exact absurd hj hpc
    · rw [put_of_ne s hji] at hj ⊢
      exact h.temp j hj
  free := hfree
  held := hheld

omit [DecidableEq ι] in
theorem made_le_total (s : State ι Shared Own) (i : ι) : made (s.threads i) ≤ total made s :=
  Finset.single_le_sum (fun j _ => Nat.zero_le (made (s.threads j))) (Finset.mem_univ i)

theorem Sound.move (h : Sound s) (hm : Move (threadMain true) s i s') : Sound s' := by
  have hex := h.exclusive.move bracketed hm
  have ha := acts true (s.threads i) s.shared
  have hin (hpc : (s.threads i).pc ≠ .top ∧ (s.threads i).pc ≠ .exit) : inside (s.threads i) := by simp [inside, hpc]
  have hout (hpc : (s.threads i).pc ≠ .top ∧ (s.threads i).pc ≠ .exit) :
      s.shared.output = printed (s.threads i) s.shared.commonCounter :=
    h.held i ((h.exclusive i).1 (hin hpc))
  cases hm with
  | go hn =>
    rw [hn] at ha
    cases ha with
    | exit hpc hge =>
      refine h.outside hex (by simp [made, hpc]) (by simp) h.free fun j hj => ?_
      have hji : j ≠ i := by
        intro he
        have := (h.exclusive j).2 hj
        simp [inside, he, hpc] at this
      rw [put_of_ne s hji]
      exact h.held j hj
    | tell hpc =>
      refine h.go (hin (by simp [hpc])) hex ?_ (by simp) ?_
      · simp [made, hpc]
      · rw [hout (by simp [hpc])]
        simp [printed, hpc]
    | read hpc =>
      refine h.go (hin (by simp [hpc])) hex ?_ (fun _ => rfl) ?_
      · simp [made, hpc]
      · rw [hout (by simp [hpc])]
        simp [printed, hpc]
    | store hpc =>
      refine h.go (hin (by simp [hpc])) hex ?_ (by simp) ?_
      · simp [made, hpc, h.temp i hpc]
        omega
      · dsimp only
        rw [hout (by simp [hpc])]
        simp [printed, hpc, h.temp i hpc]
    | tellNew hpc =>
      refine h.go (hin (by simp [hpc])) hex ?_ (by simp) ?_
      · simp [made, hpc]
      · have hpos : 0 < made (s.threads i) := by simp [made, hpc]
        have hle := made_le_total s i
        rw [← h.count] at hle
        obtain ⟨n, hn⟩ : ∃ n, s.shared.commonCounter = n + 1 := ⟨s.shared.commonCounter - 1, by omega⟩
        dsimp only
        rw [hout (by simp [hpc])]
        simp [printed, hpc, hn, lines_succ]
    | enterFree _ _ hsync | leaveFree _ hsync => cases hsync
  | lock hn hfree =>
    rw [hn] at ha
    cases ha with
    | enter hpc _ =>
      refine h.outside hex (by simp [made, hpc]) (by simp) (fun he => by cases he) fun j hj => ?_
      cases hj
      rw [put_self]
      exact h.free hfree
  | unlock hn =>
    rw [hn] at ha
    cases ha with
    | leave hpc _ =>
      refine h.outside hex (by simp [made, hpc]) (by simp) (fun _ => ?_) fun j hj => by cases hj
      rw [hout (by simp [hpc])]
      simp [printed, hpc]

omit [DecidableEq ι] [Fintype ι] in
theorem loops_start : Loops (start : State ι Shared Own) := by
  intro i
  refine ⟨Nat.zero_le _, ?_, ?_⟩
  · intro h
    cases h
  · intro h
    cases h

omit [DecidableEq ι] in
theorem sound_start : Sound (start : State ι Shared Own) where
  exclusive _ := iff_of_false Bool.false_ne_true (Option.some_ne_none _).symm
  count := by simp [start, total, made]
  temp _ h := by cases h
  free _ := rfl
  held _ h := by cases h

omit [DecidableEq ι] [Fintype ι] in
theorem Loops.made_le (h : Loops s) (i : ι) : made (s.threads i) ≤ LOOP_MAX := by
  obtain ⟨hle, hlt, -⟩ := h i
  unfold made
  split
  · next hpc =>
    have := hlt (by rcases hpc with hpc | hpc <;> simp [inside, hpc])
    omega
  · omega

omit [DecidableEq ι] in
theorem Loops.total_le (h : Loops s) : total made s ≤ Fintype.card ι * LOOP_MAX := by
  rw [← smul_eq_mul, ← Finset.card_univ]
  exact Finset.sum_le_card_nsmul _ _ _ fun i _ => h.made_le i

omit [DecidableEq ι] in
theorem Loops.total_lt (h : Loops s) {i : ι} (hi : made (s.threads i) < LOOP_MAX) :
    total made s < Fintype.card ι * LOOP_MAX := by
  have hall : ∑ _ : ι, LOOP_MAX = Fintype.card ι * LOOP_MAX := by rw [Finset.sum_const, Finset.card_univ, smul_eq_mul]
  rw [← hall]
  exact Finset.sum_lt_sum (fun j _ => h.made_le j) ⟨i, Finset.mem_univ i, hi⟩

omit [DecidableEq ι] in
/-- What is printed is at any time the beginning of the lines. -/
theorem Sound.printed_prefix (h : Sound s) (hl : Loops s) : s.shared.output <+: lines (Fintype.card ι * LOOP_MAX) := by
  have hle : s.shared.commonCounter ≤ Fintype.card ι * LOOP_MAX := by
    rw [h.count]
    exact hl.total_le
  cases hh : s.holder with
  | none =>
    rw [h.free hh]
    exact lines_of_fewer hle
  | some i =>
    have hin := (h.exclusive i).2 hh
    have hlt := (hl i).2.1 hin
    -- the line that has been begun
    have hbegun (n : Nat) : lines n ++ incrementedFrom n <+: lines (n + 1) := by
      rw [lines_succ]
      exact List.prefix_append ..
    rw [h.held i hh, printed]
    split
    · next hpc =>
      refine (hbegun _).trans (lines_of_fewer ?_)
      rw [h.count]
      exact hl.total_lt (i := i) (by simpa [made, hpc] using hlt)
    · next hpc =>
      refine (hbegun _).trans (lines_of_fewer ?_)
      rw [h.count]
      exact hl.total_lt (i := i) (by simpa [made, hpc] using hlt)
    · next hpc =>
      have hpos : 0 < made (s.threads i) := by simp [made, hpc]
      have := made_le_total s i
      rw [← h.count] at this
      refine (hbegun _).trans (lines_of_fewer ?_)
      omega
    · exact lines_of_fewer hle

omit [DecidableEq ι] [Fintype ι] in
theorem Loops.pos_le (h : Loops s) (i : ι) : pos (s.threads i) ≤ 6 * LOOP_MAX + 1 := by
  obtain ⟨hle, hlt, -⟩ := h i
  unfold pos
  cases hpc : (s.threads i).pc with
  | top | exit => dsimp only; omega
  | tell | read | store | tellNew | unlock =>
    have := hlt (by simp [inside, hpc])
    dsimp only
    omega

/-- With the mutex, in any run of any number of threads: they are never two
between lock and unlock, each increment is made and printed as one, and a
thread can go on until all have exited. -/
theorem Sound.run {as : List ι} (h : exec (step (threadMain true)) anyStep start as = some s) :
    Sound s ∧ Loops s ∧ as.length ≤ Fintype.card ι * (6 * LOOP_MAX + 1) ∧
      (AllExited s → s.shared.commonCounter = Fintype.card ι * LOOP_MAX) ∧
      (AllExited s ∨ ∃ i s', step (threadMain true) s i = some s') := by
  have hboth : Sound s ∧ Loops s := (reach_of_exec h).invariant (I := fun s => Sound s ∧ Loops s)
    (fun _ _ _ hi _ hs => ⟨hi.1.move (move_of_step hs), hi.2.move (move_of_step hs)⟩) ⟨sound_start, loops_start⟩
  obtain ⟨hs, hl⟩ := hboth
  refine ⟨hs, hl, ?_, ?_, ?_⟩
  · have hlen := length_exec (paced true) (fun _ _ _ => trivial) (fun _ _ _ _ _ => trivial) trivial h
    have hzero : total pos (start : State ι Shared Own) = 0 := by simp [start, total, pos]
    have hle : total pos s ≤ Fintype.card ι * (6 * LOOP_MAX + 1) := by
      rw [← smul_eq_mul, ← Finset.card_univ]
      exact Finset.sum_le_card_nsmul _ _ _ fun i _ => hl.pos_le i
    omega
  · intro hall
    have hmade : ∀ i, made (s.threads i) = LOOP_MAX := by
      intro i
      simp [made, hall i, (hl i).2.2 (hall i)]
    rw [hs.count, total, Finset.sum_congr rfl fun i _ => hmade i, Finset.sum_const, Finset.card_univ, smul_eq_mul]
  · have hstop : ∀ i, threadMain true (s.threads i) s.shared = .stop → (s.threads i).pc = .exit := by
      intro i hi
      have ha := acts true (s.threads i) s.shared
      rw [hi] at ha
      cases ha with
      | stop hpc => exact hpc
    rcases hs.exclusive.goes_on bracketed with ⟨i, hin, hn⟩ | hall | hgo
    · simp [inside, hstop i hn] at hin
    · exact .inl fun i => hstop i (hall i)
    · exact .inr hgo

end

/-- With `sync`, both threads together make 40 increments, one after the other,
and print them so: at any time what they have written is the beginning of these
lines. -/
theorem synchronized_output {as : List (Fin 2)} {s : State (Fin 2) Shared Own}
    (h : exec (step (threadMain true)) anyStep start as = some s) :
    as.length ≤ 242 ∧ s.shared.output <+: lines 40 ∧
      (AllExited s → s.shared.commonCounter = 40 ∧ s.shared.output = lines 40) ∧
      (AllExited s ∨ ∃ i s', step (threadMain true) s i = some s') := by
  obtain ⟨hs, hl, hlen, hcount, hgo⟩ := Sound.run h
  refine ⟨hlen, hs.printed_prefix hl, fun hall => ⟨hcount hall, ?_⟩, hgo⟩
  have hfree : s.holder = none := by
    rw [Option.eq_none_iff_forall_ne_some]
    intro i hi
    have hin := (hs.exclusive i).2 hi
    simp [inside, hall i] at hin
  rw [hs.free hfree, hcount hall]
  rfl

/-- One thread makes all its increments before the other begins. -/
theorem synchronized_output_in_turn : ∃ s,
    exec (step (threadMain true)) anyStep start (List.replicate 121 (0 : Fin 2) ++ List.replicate 121 1) = some s ∧
      s.shared.commonCounter = 40 ∧ s.shared.output = lines 40 := by
  have hrun : (exec (step (threadMain true)) anyStep start
      (List.replicate 121 (0 : Fin 2) ++ List.replicate 121 1)).map
        (fun s => decide (∀ i, (s.threads i).pc = .exit)) = some true := by
    decide +kernel
  obtain ⟨s, hs, hall⟩ := Option.map_eq_some_iff.1 hrun
  have hall : ∀ i, (s.threads i).pc = .exit := of_decide_eq_true hall
  obtain ⟨-, -, hend, -⟩ := synchronized_output hs
  exact ⟨s, hs, hend hall⟩

/-! ## Without it -/

/-- A thread by what it has made and, at its store, holds. -/
def worker (l : Own) : Increments.Worker := ⟨made l, if l.pc = .store then some l.temp else none⟩

/-- The state by its increments. -/
def seen {ι : Type} (s : State ι Shared Own) : Increments.State ι :=
  ⟨s.shared.commonCounter, fun i => worker (s.threads i)⟩

section

variable {ι : Type} [DecidableEq ι] {s s' : State ι Shared Own} {i : ι}

theorem seen_put (s : State ι Shared Own) (i : ι) (sh : Shared) (holder : Option ι) (own : Own) :
    seen (s.put i sh holder own) = (seen s).put i sh.commonCounter (worker own) := by
  unfold seen Increments.State.put
  congr 1
  exact put_seen worker s i _ holder own

theorem seen_put_same {sh : Shared} {holder : Option ι} {own : Own} (hc : sh.commonCounter = s.shared.commonCounter)
    (hw : worker own = worker (s.threads i)) : seen (s.put i sh holder own) = seen s := by
  rw [seen_put, hc, hw]
  exact congrArg (Increments.State.mk _) (Function.update_eq_self ..)

/-- A step is one of an increment, or is not seen. -/
theorem seen_move {max : Nat} (hl : Loops s) (hm : Move (threadMain false) s i s')
    (hstore : ∀ v, ((seen s).workers i).held = some v → v < max) :
    seen s' = seen s ∨ Increments.step LOOP_MAX max (seen s) i = some (seen s') := by
  have ha := acts false (s.threads i) s.shared
  cases hm with
  | go hn =>
    rw [hn] at ha
    cases ha with
    | enterFree hpc _ _ | exit hpc _ | tell hpc | tellNew hpc | leaveFree hpc _ =>
      exact .inl (seen_put_same rfl (by simp [worker, made, hpc]))
    | read hpc =>
      refine .inr ?_
      have hlt := (hl i).2.1 (by simp [inside, hpc])
      rw [seen_put]
      simp [Increments.step, seen, worker, made, hpc, hlt]
    | store hpc =>
      refine .inr ?_
      have hlt := hstore (s.threads i).temp (by simp [seen, worker, hpc])
      rw [seen_put]
      simp [Increments.step, seen, worker, made, hpc, hlt]
  | lock hn =>
    rw [hn] at ha
    cases ha with
    | enter _ _ hsync => cases hsync
  | unlock hn =>
    rw [hn] at ha
    cases ha with
    | leave _ hsync => cases hsync

/-- No thread is further in an iteration than to its store. -/
def AtEnds (s : State ι Shared Own) : Prop := ∀ i, (s.threads i).pc = .top ∨ (s.threads i).pc = .store

/-- Each step of an increment is made by some of the thread's. -/
theorem seen_lift {max : Nat} {t : Increments.State ι} (hs : AtEnds s)
    (ht : Steps (Increments.step LOOP_MAX max) anyStep (seen s) t) :
    ∃ s', Reach (step (threadMain false)) anyStep s s' ∧ AtEnds s' ∧ seen s' = t := by
  obtain ⟨i, -, ht⟩ := ht
  have hends (sh : Shared) (own : Own) (hown : own.pc = .top ∨ own.pc = .store) (holder : Option ι) :
      AtEnds (s.put i sh holder own) := by
    intro j
    by_cases hj : j = i
    · subst hj
      rwa [put_self]
    · rw [put_of_ne s hj]
      exact hs j
  cases Increments.move_of_step ht with
  | read hheld hlt =>
    have hpc : (s.threads i).pc = .top := by
      rcases hs i with hpc | hpc
      · exact hpc
      · simp [seen, worker, hpc] at hheld
    have hlt : (s.threads i).loopCount < LOOP_MAX := by simpa [seen, worker, made, hpc] using hlt
    have henter : threadMain false (s.threads i) s.shared = .go s.shared { s.threads i with pc := .tell } := by
      simp [threadMain, hpc, hlt]
    refine ⟨_, ((step_go henter).trans (put_go rfl)).trans (put_go rfl), hends _ _ (.inr rfl) _, ?_⟩
    rw [seen_put]
    simp [worker, seen, made, hpc]
  | @store v hheld hlt =>
    have hpc : (s.threads i).pc = .store := by
      rcases hs i with hpc | hpc
      · simp [seen, worker, hpc] at hheld
      · exact hpc
    have hv : (s.threads i).temp = v := by simpa [seen, worker, hpc] using hheld
    have hstore : threadMain false (s.threads i) s.shared =
        .go { s.shared with commonCounter := (s.threads i).temp + 1 } { s.threads i with pc := .tellNew } := by
      simp [threadMain, hpc]
    refine ⟨_, ((step_go hstore).trans (put_go rfl)).trans (put_go rfl), hends _ _ (.inl rfl) _, ?_⟩
    rw [seen_put]
    simp [worker, seen, made, hpc, hv]

variable [Fintype ι]

/-- What threads can end at without the mutex is what increments can that
nothing keeps apart. -/
theorem unsynchronized_iff {max : Nat} (hmax : Fintype.card ι * LOOP_MAX ≤ max) (v : Nat) :
    (∃ s : State ι Shared Own, Reach (step (threadMain false)) anyStep start s ∧ AllExited s ∧
        s.shared.commonCounter = v) ↔
      ∃ t : Increments.State ι, Reach (Increments.step LOOP_MAX max) anyStep Increments.init t ∧
        Increments.Finished LOOP_MAX t ∧ t.counter = v := by
  constructor
  · rintro ⟨s, hreach, hall, rfl⟩
    have hboth : Loops s ∧ Reach (Increments.step LOOP_MAX max) anyStep Increments.init (seen s) :=
      hreach.invariant (I := fun s => Loops s ∧ Reach (Increments.step LOOP_MAX max) anyStep Increments.init (seen s))
        (fun s i s' hi _ hs => by
          have hm := move_of_step hs
          refine ⟨hi.1.move hm, ?_⟩
          have hcounted := Increments.counted_reached hi.2
          rcases seen_move hi.1 hm fun v hv => Increments.store_lt hmax hcounted hv with he | hstep
          · rw [he]
            exact hi.2
          · exact hi.2.tail ⟨i, trivial, hstep⟩) ⟨loops_start, .refl⟩
    refine ⟨seen s, hboth.2, fun i => ?_, rfl⟩
    simp [seen, worker, made, hall i, (hboth.1 i).2.2 (hall i)]
  · rintro ⟨t, hreach, hfin, rfl⟩
    obtain ⟨s, hs, hends, rfl⟩ := Reach.lift_many (f := seen) (I := AtEnds) (s := start)
      (fun s t hs ht => seen_lift hs ht) (fun _ => .inl rfl) hreach
    have htop : ∀ i, (s.threads i).pc = .top ∧ (s.threads i).loopCount = LOOP_MAX := by
      intro i
      have hw := hfin i
      rcases hends i with hpc | hpc
      · exact ⟨hpc, by simpa [seen, worker, made, hpc] using congrArg Increments.Worker.done hw⟩
      · simp [seen, worker, hpc] at hw
    have hleave : ∀ i, threadMain false (s.threads i) s.shared = .go s.shared { s.threads i with pc := .exit } := by
      intro i
      simp [threadMain, (htop i).1, (htop i).2]
    obtain ⟨s', hs', hshared, hexit, -⟩ := each_go (fun l : Own => { l with pc := .exit }) hleave Finset.univ
    exact ⟨s', hs.trans hs', fun i => by rw [hexit i (Finset.mem_univ i)], by rw [hshared]; rfl⟩

end

/-- Without `sync`, both threads together can end at anything from 2 to 40. -/
theorem unsynchronized_finals (v : Nat) :
    (∃ s : State (Fin 2) Shared Own, Reach (step (threadMain false)) anyStep start s ∧ AllExited s ∧
        s.shared.commonCounter = v) ↔ 2 ≤ v ∧ v ≤ 40 := by
  have hmax : Fintype.card (Fin 2) * LOOP_MAX ≤ 40 := by decide
  exact (unsynchronized_iff hmax v).trans (Increments.finals hmax (by decide) v)

end SysProg.Counter
