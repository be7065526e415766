/-
The bank of sem.c and proc_sem.c: clients, some of them in a hurry, who share
a number of tellers. With `REPORT_NUM_SEM_FREE` a mutex makes taking a teller
and reading how many are left one action, and clients who have to wait sleep
on a condition variable. (The two programs differ only in where the area lies
and in the clients' names.)
-/
import SysProg.Lib.Monitor

namespace SysProg.Tellers

open Monitor

/-- What all clients share, and what they have reported. -/
structure Area where
  /-- The value of the semaphore `bankLine`. -/
  bankLine : Nat
  /-- Each `availableTellers`, in the order in which they were read. -/
  reports : List Nat

/-- Where a client is. -/
inductive Place where
  /-- Without a teller yet. -/
  | arriving
  /-- Doing business. -/
  | served
  | gone
  deriving DecidableEq

/-- A client. -/
structure Client where
  inaHurry : Bool
  place : Place

/-- `none` is EAGAIN. -/
def semTrywait (bankLine : Nat) : Option Nat := if bankLine = 0 then none else some (bankLine - 1)

/-- A client has got a teller, or has given one back, and reports the count. -/
def Area.report (area : Area) (bankLine : Nat) : Area := ⟨bankLine, area.reports ++ [bankLine]⟩

@[simp] theorem report_bankLine (area : Area) (bankLine : Nat) : (area.report bankLine).bankLine = bankLine := rfl

/-- The critical sections of a client. -/
def clientMain {ι : Type} : Monitor ι Area Client := fun _ me area =>
  match me.place with
  | .arriving =>
    if me.inaHurry then
      match semTrywait area.bankLine with
      | none => some (.leave area ⟨me.inaHurry, .gone⟩ false)
      | some bankLine => some (.leave (area.report bankLine) ⟨me.inaHurry, .served⟩ false)
    else
      match semTrywait area.bankLine with
      | none => some .wait
      | some bankLine => some (.leave (area.report bankLine) ⟨me.inaHurry, .served⟩ false)
  | .served => some (.leave (area.report (area.bankLine + 1)) ⟨me.inaHurry, .gone⟩ true)
  | .gone => none

/-- A bank with `tellers` free tellers, and its clients at the door. -/
def opening {ι : Type} (tellers : Nat) (inaHurry : ι → Bool) : State ι Area Client :=
  ⟨⟨tellers, []⟩, fun i => ⟨⟨inaHurry i, .arriving⟩, .ready⟩⟩

/-- The client has a teller. -/
def Served (th : Thread Client) : Prop := th.own.place = .served

/-- The client has been woken, and has not gone on. -/
def Woken (th : Thread Client) : Prop := th.mode = .woken

instance : DecidablePred Served := fun th => inferInstanceAs (Decidable (th.own.place = .served))

instance : DecidablePred Woken := fun th => inferInstanceAs (Decidable (th.mode = .woken))

/-- A client who waits, or is to try again, has no teller and is not in a hurry. -/
def Patient (me : Client) : Prop := me.place = .arriving ∧ me.inaHurry = false

/-- What a section of a client comes to. -/
inductive Outcome (me : Client) (area : Area) : Section Area Client → Prop
  | skip (hurry : me.inaHurry = true) (place : me.place = .arriving) (none : area.bankLine = 0) :
      Outcome me area (.leave area ⟨me.inaHurry, .gone⟩ false)
  | wait (patient : Patient me) (none : area.bankLine = 0) : Outcome me area .wait
  | take (place : me.place = .arriving) (left : Nat) (free : area.bankLine = left + 1) :
      Outcome me area (.leave (area.report left) ⟨me.inaHurry, .served⟩ false)
  | give (place : me.place = .served) :
      Outcome me area (.leave (area.report (area.bankLine + 1)) ⟨me.inaHurry, .gone⟩ true)

theorem outcome_of_clientMain {ι : Type} {i : ι} {me : Client} {area : Area} {sec : Section Area Client}
    (h : clientMain i me area = some sec) : Outcome me area sec := by
  have htry (bankLine : Nat) : (bankLine = 0 ∧ semTrywait bankLine = none) ∨
      ∃ left, bankLine = left + 1 ∧ semTrywait bankLine = some left := by
    cases bankLine with
    | zero => exact .inl ⟨rfl, rfl⟩
    | succ left => exact .inr ⟨left, rfl, rfl⟩
  unfold clientMain at h
  split at h
  · next place =>
    split at h
    · next hurry =>
      rcases htry area.bankLine with ⟨hzero, hnone⟩ | ⟨left, hfree, hsome⟩
      · simp only [hnone] at h
        cases h
        exact .skip hurry place hzero
      · simp only [hsome] at h
        cases h
        exact .take place left hfree
    · next hurry =>
      rcases htry area.bankLine with ⟨hzero, hnone⟩ | ⟨left, hfree, hsome⟩
      · simp only [hnone] at h
        cases h
        exact .wait ⟨place, by simpa using hurry⟩ hzero
      · simp only [hsome] at h
        cases h
        exact .take place left hfree
  · next place =>
    cases h
    exact .give place
  · cases h

section

variable {ι : Type} [DecidableEq ι] [Fintype ι]

/-- What every step keeps: no teller is lost, only patient clients wait, and
while one is asleep there is a woken one for each free teller. -/
structure Kept (tellers : Nat) (s : State ι Area Client) : Prop where
  conserved : s.shared.bankLine + s.number Served = tellers
  patient : ∀ i, (s.threads i).mode ≠ .ready → Patient (s.owns i)
  woken : (∃ i, (s.threads i).mode = .asleep) → s.shared.bankLine ≤ s.number Woken

theorem served_left (s : State ι Area Client) (i : ι) (area : Area) (me : Client) :
    ((s.left i area me).number Served : ℤ) = s.number Served - (if (s.owns i).place = .served then 1 else 0) +
      if me.place = .served then 1 else 0 :=
  State.number_put ⟨area, s.threads⟩ Served i ⟨me, .ready⟩

theorem woken_left (s : State ι Area Client) (i : ι) (area : Area) (me : Client) :
    ((s.left i area me).number Woken : ℤ) = s.number Woken - if (s.threads i).mode = .woken then 1 else 0 := by
  have hput := State.number_put ⟨area, s.threads⟩ Woken i ⟨me, .ready⟩
  have hready : ¬Woken (⟨me, .ready⟩ : Thread Client) := by simp [Woken]
  rw [if_neg hready, add_zero] at hput
  exact hput

theorem numbers_wake {s : State ι Area Client} {i : ι} (hasleep : (s.threads i).mode = .asleep) :
    (s.wake i).number Served = s.number Served ∧ (s.wake i).number Woken = s.number Woken + 1 := by
  have hserved := s.number_put Served i ⟨(s.threads i).own, .woken⟩
  have hwoken := s.number_put Woken i ⟨(s.threads i).own, .woken⟩
  have hsame : Served ⟨(s.threads i).own, .woken⟩ ↔ Served (s.threads i) := Iff.rfl
  simp only [hsame, Woken, hasleep] at hserved hwoken
  constructor
  · unfold State.wake
    omega
  · unfold State.wake
    simp at hwoken
    omega

omit [DecidableEq ι] in
theorem Kept.ready {tellers : Nat} {s : State ι Area Client} (h : Kept tellers s) {i : ι}
    (hi : ¬Patient (s.owns i)) : (s.threads i).mode = .ready := by
  by_contra hmode
  exact hi (h.patient i hmode)

theorem Kept.step {tellers : Nat} {s s' : State ι Area Client} {a : Action ι} (h : Kept tellers s)
    (hstep : step clientMain s a = some s') : Kept tellers s' := by
  have hconserved := h.conserved
  have hpatient := waiting_step (P := Patient) (fun i own area hwait => by
    cases outcome_of_clientMain hwait with
    | wait patient none => exact patient) h.patient hstep
  cases move_of_step hstep with
  | @wait i awake enter =>
    cases outcome_of_clientMain enter with
    | wait patient none =>
      have hserved := s.number_put Served i ⟨(s.threads i).own, .asleep⟩
      have hsame : Served ⟨(s.threads i).own, .asleep⟩ ↔ Served (s.threads i) := Iff.rfl
      simp only [hsame] at hserved
      have hshared : (s.put i ⟨(s.threads i).own, .asleep⟩).shared = s.shared := rfl
      refine ⟨?_, hpatient, fun _ => ?_⟩
      · rw [hshared]
        omega
      · rw [hshared, none]
        exact Nat.zero_le _
  | @leave i shared own awake enter =>
    have hserved := served_left s i shared own
    have hwoken := woken_left s i shared own
    have hshared : (s.left i shared own).shared = shared := rfl
    cases outcome_of_clientMain enter with
    | skip hurry place none =>
      rw [State.owns, place] at hserved
      simp at hserved
      refine ⟨?_, hpatient, fun _ => ?_⟩
      · rw [hshared]
        omega
      · rw [hshared, none]
        exact Nat.zero_le _
    | take place left free =>
      rw [State.owns, place] at hserved
      simp at hserved
      refine ⟨?_, hpatient, ?_⟩
      · rw [hshared, report_bankLine]
        omega
      · rintro ⟨j, hj⟩
        have := h.woken ⟨j, State.asleep_of_left hj⟩
        rw [hshared, report_bankLine]
        split at hwoken <;> omega
  | @wake i j shared own awake enter asleep =>
    cases outcome_of_clientMain enter with
    | give place =>
      -- Who has a teller does not wait, so there is one woken client more.
      have hready : (s.threads i).mode = .ready := h.ready fun hp => by
        have harriving : (s.threads i).own.place = .arriving := hp.1
        rw [place] at harriving
        cases harriving
      have hj : (s.left i (s.shared.report (s.shared.bankLine + 1)) ⟨(s.threads i).own.inaHurry, .gone⟩).threads j =
          s.threads j :=
        State.put_of_ne ⟨_, s.threads⟩ (ne_of_asleep awake asleep) _
      obtain ⟨hserved, hwoken⟩ := numbers_wake (by rw [hj]; exact asleep)
      have hserved₁ := served_left s i (s.shared.report (s.shared.bankLine + 1)) ⟨(s.threads i).own.inaHurry, .gone⟩
      have hwoken₁ := woken_left s i (s.shared.report (s.shared.bankLine + 1)) ⟨(s.threads i).own.inaHurry, .gone⟩
      rw [State.owns, place] at hserved₁
      simp at hserved₁
      rw [hready] at hwoken₁
      simp at hwoken₁
      have hbefore := h.woken ⟨j, asleep⟩
      refine ⟨?_, hpatient, fun _ => ?_⟩
      · rw [hserved]
        show s.shared.bankLine + 1 + _ = tellers
        omega
      · rw [hwoken]
        show s.shared.bankLine + 1 ≤ _
        omega
  | @lost i shared own awake enter allAwake =>
    cases outcome_of_clientMain enter with
    | give place =>
      have hserved := served_left s i (s.shared.report (s.shared.bankLine + 1)) ⟨(s.threads i).own.inaHurry, .gone⟩
      rw [State.owns, place] at hserved
      simp at hserved
      refine ⟨?_, hpatient, ?_⟩
      · show s.shared.bankLine + 1 + _ = tellers
        omega
      · rintro ⟨j, hj⟩
        exact absurd (State.asleep_of_left hj) (allAwake j)
  | @spurious i asleep =>
    obtain ⟨hserved, hwoken⟩ := numbers_wake asleep
    refine ⟨?_, hpatient, fun _ => ?_⟩
    · rw [hserved]
      exact hconserved
    · rw [hwoken]
      have := h.woken ⟨i, asleep⟩
      exact Nat.le_succ_of_le this

omit [DecidableEq ι] in
theorem kept_opening (tellers : Nat) (inaHurry : ι → Bool) : Kept tellers (opening tellers inaHurry) where
  conserved := by
    have hnone : (opening tellers inaHurry).number Served = 0 :=
      (State.number_eq_zero _ _).2 fun i hi => by cases hi
    rw [hnone]
    rfl
  patient i hi := absurd rfl hi
  woken := by
    rintro ⟨i, hi⟩
    cases hi

theorem kept_reach {tellers : Nat} {inaHurry : ι → Bool} {s : State ι Area Client}
    (h : Reach (step clientMain) anyStep (opening tellers inaHurry) s) : Kept tellers s :=
  Reach.invariant (I := Kept tellers) (fun _ _ _ hkept _ hstep => hkept.step hstep) (kept_opening tellers inaHurry) h

theorem reports_step {s s' : State ι Area Client} {a : Action ι} {r : Nat} (h : step clientMain s a = some s')
    (hr : s'.shared.reports = s.shared.reports ++ [r]) : s'.shared.bankLine = r := by
  rcases section_of_step h with ⟨hshared, -⟩ | ⟨i, shared, own, signal, henter, hshared, -⟩
  · rw [hshared] at hr
    simp at hr
  · rw [hshared] at hr ⊢
    cases outcome_of_clientMain henter with
    | skip hurry place none => simp at hr
    | take place left free =>
      have hlast := List.append_cancel_left hr
      simpa using hlast
    | give place =>
      have hlast := List.append_cancel_left hr
      simpa using hlast

omit [DecidableEq ι] in
/-- Clients never all sleep while they have business left to do. -/
theorem Kept.not_stuck {tellers : Nat} (htellers : 1 ≤ tellers) {s : State ι Area Client} (h : Kept tellers s) :
    ¬s.Stuck (·.place ≠ .gone) := by
  rintro ⟨⟨i, hi⟩, hall⟩
  have hserved : s.number Served = 0 := by
    refine (State.number_eq_zero s Served).2 fun j hj => ?_
    have hj : (s.owns j).place = .served := hj
    have hpatient := h.patient j (by rw [hall j (by simp [hj])]; simp)
    rw [hpatient.1] at hj
    cases hj
  have hwoken : s.number Woken = 0 := by
    refine (State.number_eq_zero s Woken).2 fun j hj => ?_
    have hj : (s.threads j).mode = .woken := hj
    have hpatient := h.patient j (by simp [hj])
    rw [hall j (by simp [hpatient.1])] at hj
    cases hj
  have hconserved := h.conserved
  have hfree := h.woken ⟨i, hall i hi⟩
  omega

/-- The tellers are accounted for in every state, and no wake-up is lost. -/
theorem tellers_accounted {tellers : Nat} (htellers : 1 ≤ tellers) {inaHurry : ι → Bool} {s : State ι Area Client}
    (h : Reach (step clientMain) anyStep (opening tellers inaHurry) s) :
    s.shared.bankLine + s.number Served = tellers ∧
    (∀ a s' r, step clientMain s a = some s' → s'.shared.reports = s.shared.reports ++ [r] →
      r + s'.number Served = tellers) ∧
    ((∃ i, (s.threads i).mode = .asleep) → s.shared.bankLine ≤ s.number Woken) ∧
    ¬s.Stuck (·.place ≠ .gone) := by
  have hkept := kept_reach h
  refine ⟨hkept.conserved, ?_, hkept.woken, hkept.not_stuck htellers⟩
  intro a s' r hstep hr
  have hconserved := (hkept.step hstep).conserved
  rw [reports_step hstep hr] at hconserved
  exact hconserved

end

/-- One teller: a patient client sleeps and is woken when the other is done. -/
theorem tellers_accounted_two : ∃ s : State (Fin 2) Area Client,
    Reach (step clientMain) anyStep (opening 1 fun _ => false) s ∧ s.shared.reports = [0, 1] ∧
      s.shared.bankLine + s.number Served = 1 := by
  have hrun : (exec (step clientMain) anyStep (opening 1 fun _ : Fin 2 => false)
      [.enter 0 none, .enter 1 none, .enter 0 (some 1)]).map (·.shared.reports) = some [0, 1] := by
    decide
  obtain ⟨s, hs, hreports⟩ := Option.map_eq_some_iff.1 hrun
  have hreach := reach_of_exec hs
  exact ⟨s, hreach, hreports, (tellers_accounted (by decide) hreach).1⟩

end SysProg.Tellers
