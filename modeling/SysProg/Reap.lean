/-
The children of the shell: `run_command` forks them and waits for the one in
the foreground, `child_handler` is called for SIGCHLD and reaps all that have
terminated. Both report what they reap through `display_status`.

A step is a system call of the shell, a call of `display_status`, the
termination of a child or the delivery of the signal. The signal is blocked
while its handler runs, and pending at most once.
-/
import SysProg.Lib.Lts
import Mathlib.Data.List.Perm.Basic

namespace SysProg.Reap

/-- The number of a process. -/
abbrev Pid := Nat

/-- A wait status, as `waitpid` stores it. -/
abbrev Stat := Nat

/-- A child that has terminated, and its status. -/
abbrev Ended := Pid × Stat

/-- A call of `display_status`. Its status is `none` when the variable passed
was never stored. -/
abbrev Display := Pid × Option Stat

/-- Where the shell is outside the handler. -/
inductive MainPc where
  | prompt
  /-- At `waitpid(pid,&stat,0)`. -/
  | wait (pid : Pid)
  /-- At `display_status(pid, stat)`. -/
  | display (d : Display)
  deriving DecidableEq

/-- Where the handler is. -/
inductive HandlerPc where
  | off
  /-- At `waitpid(-1, &status, WNOHANG)`. -/
  | poll
  /-- At `display_status(pid,status)`. -/
  | display (z : Ended)
  deriving DecidableEq

/-- The shell and its children. -/
structure State where
  main : MainPc
  handler : HandlerPc
  /-- SIGCHLD is pending. -/
  pending : Bool
  /-- The children that run. -/
  running : List Pid
  /-- The children that have terminated and that no `waitpid` has returned. -/
  zombies : List Ended
  /-- All that have terminated, in their order. -/
  exited : List Ended
  /-- All that a `waitpid` has returned. -/
  reaped : List Ended
  /-- All calls of `display_status`. -/
  shown : List Display
  deriving DecidableEq

/-- What can happen next. -/
inductive Action where
  /-- The shell forks, for the foreground or the background. -/
  | fork (pid : Pid) (background : Bool)
  /-- A child terminates. -/
  | exit (pid : Pid) (stat : Stat)
  /-- SIGCHLD is delivered. -/
  | deliver
  /-- The handler's `waitpid` returns this child. -/
  | poll (pid : Pid)
  /-- It finds none. -/
  | pollNone
  /-- The handler's call of `display_status`. -/
  | report
  /-- The `waitpid` of `run_command` returns. -/
  | wait
  /-- The call of `display_status` of `run_command`. -/
  | reportMain
  deriving DecidableEq

/-- A `waitpid` returns a terminated child. -/
def State.reap (s : State) (z : Ended) : State :=
  { s with zombies := s.zombies.erase z, reaped := s.reaped ++ [z] }

/-- The next state, where the action can happen. -/
def step (s : State) : Action → Option State
  | .fork pid background =>
    if s.main = .prompt ∧ s.handler = .off ∧ pid ∉ s.running ∧ pid ∉ s.zombies.map (·.1) then
      some { s with main := if background then .prompt else .wait pid, running := pid :: s.running }
    else none
  | .exit pid stat =>
    if pid ∈ s.running then
      some { s with
        running := s.running.erase pid, zombies := s.zombies ++ [(pid, stat)], exited := s.exited ++ [(pid, stat)]
        pending := true }
    else none
  | .deliver =>
    if s.pending ∧ s.handler = .off then some { s with pending := false, handler := .poll } else none
  | .poll pid =>
    if s.handler = .poll then
      (s.zombies.find? (·.1 = pid)).map fun z => { s.reap z with handler := .display z }
    else none
  | .pollNone => if s.handler = .poll ∧ s.zombies = [] then some { s with handler := .off } else none
  | .report =>
    match s.handler with
    | .display z => some { s with handler := .poll, shown := s.shown ++ [(z.1, some z.2)] }
    | _ => none
  | .wait =>
    match s.main, s.handler with
    | .wait pid, .off =>
      match s.zombies.find? (·.1 = pid) with
      | some z => some { s.reap z with main := .display (pid, some z.2) }
      -- Not a child any more: `waitpid` fails with ECHILD, and `stat` is not stored.
      | none => if pid ∈ s.running then none else some { s with main := .display (pid, none) }
    | _, _ => none
  | .reportMain =>
    match s.main, s.handler with
    | .display d, .off => some { s with main := .prompt, shown := s.shown ++ [d] }
    | _, _ => none

/-- The shell at its prompt, without children. -/
def State.init : State := ⟨.prompt, .off, false, [], [], [], [], []⟩

/-- What the steps do. -/
inductive Move (s : State) : Action → State → Prop
  | fork {pid background} (main : s.main = .prompt) :
      Move s (.fork pid background)
        { s with main := if background then .prompt else .wait pid, running := pid :: s.running }
  | exit {pid stat} (mem : pid ∈ s.running) :
      Move s (.exit pid stat) { s with
        running := s.running.erase pid, zombies := s.zombies ++ [(pid, stat)], exited := s.exited ++ [(pid, stat)]
        pending := true }
  | deliver (off : s.handler = .off) : Move s .deliver { s with pending := false, handler := .poll }
  | poll {pid z} (at_poll : s.handler = .poll) (mem : z ∈ s.zombies) :
      Move s (.poll pid) { s.reap z with handler := .display z }
  | pollNone (at_poll : s.handler = .poll) (none : s.zombies = []) : Move s .pollNone { s with handler := .off }
  | report {z} (at_display : s.handler = .display z) :
      Move s .report { s with handler := .poll, shown := s.shown ++ [(z.1, some z.2)] }
  | wait {z} (main : s.main = .wait z.1) (off : s.handler = .off) (mem : z ∈ s.zombies) :
      Move s .wait { s.reap z with main := .display (z.1, some z.2) }
  | waitFails {pid} (main : s.main = .wait pid) (off : s.handler = .off) (running : pid ∉ s.running)
      (zombies : ∀ stat, (pid, stat) ∉ s.zombies) : Move s .wait { s with main := .display (pid, none) }
  | reportMain {d} (main : s.main = .display d) (off : s.handler = .off) :
      Move s .reportMain { s with main := .prompt, shown := s.shown ++ [d] }

theorem move_of_step {s s' : State} {a : Action} (hs : step s a = some s') : Move s a s' := by
  cases a with
  | fork pid background =>
    simp only [step] at hs
    split at hs
    · next hc => cases hs; exact .fork hc.1
    · cases hs
  | exit pid stat =>
    simp only [step] at hs
    split at hs
    · next hc => cases hs; exact .exit hc
    · cases hs
  | deliver =>
    simp only [step] at hs
    split at hs
    · next hc => cases hs; exact .deliver hc.2
    · cases hs
  | poll pid =>
    simp only [step] at hs
    split at hs
    · next hc =>
      obtain ⟨z, hz, rfl⟩ := Option.map_eq_some_iff.1 hs
      exact .poll hc (List.mem_of_find?_eq_some hz)
    · cases hs
  | pollNone =>
    simp only [step] at hs
    split at hs
    · next hc => cases hs; exact .pollNone hc.1 hc.2
    · cases hs
  | report =>
    simp only [step] at hs
    split at hs
    · next hc => cases hs; exact .report hc
    · cases hs
  | wait =>
    simp only [step] at hs
    split at hs
    · next pid hmain hoff =>
      split at hs
      · next z hz =>
        cases hs
        obtain rfl : z.1 = pid := by simpa using List.find?_some hz
        exact .wait hmain hoff (List.mem_of_find?_eq_some hz)
      · next hz =>
        split at hs
        · cases hs
        · next hr =>
          cases hs
          refine .waitFails hmain hoff hr ?_
          intro stat hm
          simpa using List.find?_eq_none.1 hz _ hm
    · cases hs
  | reportMain =>
    simp only [step] at hs
    split at hs
    · next hmain hoff => cases hs; exact .reportMain hmain hoff
    · cases hs

/-! ## Every child is reaped once -/

/-- Each child that has terminated has been reaped, once, or is yet to be: a
handler is running then, or the signal is pending. -/
structure Accounted (s : State) : Prop where
  exited : s.exited.Perm (s.reaped ++ s.zombies)
  ahead : s.zombies ≠ [] → s.pending = true ∨ s.handler ≠ .off

theorem Accounted.reap {s : State} (h : Accounted s) {z : Ended} (hz : z ∈ s.zombies) :
    s.exited.Perm ((s.reaped ++ [z]) ++ s.zombies.erase z) := by
  rw [List.append_assoc]
  exact h.exited.trans ((List.perm_cons_erase hz).append_left _)

theorem Accounted.move {s s' : State} {a : Action} (h : Accounted s) (hm : Move s a s') :
    Accounted s' := by
  cases hm with
  | fork | waitFails | reportMain => exact ⟨h.exited, h.ahead⟩
  | exit =>
    refine ⟨?_, fun _ => .inl rfl⟩
    rw [← List.append_assoc]
    exact h.exited.append_right _
  | deliver => exact ⟨h.exited, fun _ => .inr (by simp)⟩
  | poll _ mem => exact ⟨h.reap mem, fun _ => .inr (by simp)⟩
  | pollNone _ none => exact ⟨h.exited, fun hz => absurd none hz⟩
  | report => exact ⟨h.exited, fun _ => .inr (by simp)⟩
  | wait _ _ mem => exact ⟨h.reap mem, fun _ => h.ahead (List.ne_nil_of_mem mem)⟩

/-- Whoever reaps first, no child is reaped twice, and none is left for good. -/
theorem accounted_reached {s : State} {ok : State → Action → Prop} (h : Reach step ok .init s) :
    Accounted s :=
  h.invariant (fun _ _ _ hi _ hs => hi.move (move_of_step hs)) ⟨.rfl, fun hz => absurd rfl hz⟩

/-- No two children have the same pid, those not yet reaped included. -/
def Distinct (s : State) : Prop := (s.running ++ s.zombies.map (·.1)).Nodup

theorem Distinct.step {s s' : State} {a : Action} (h : Distinct s) (hs : step s a = some s') : Distinct s' := by
  have herase (z : Ended) : (s.running ++ (s.zombies.erase z).map (·.1)).Sublist (s.running ++ s.zombies.map (·.1)) :=
    (List.Sublist.map _ List.erase_sublist).append_left _
  unfold Distinct at *
  cases move_of_step hs with
  | @fork pid background =>
    simp only [Reap.step] at hs
    split at hs
    · next hc => exact List.nodup_cons.2 ⟨by simpa using hc.2.2, h⟩
    · cases hs
  | @exit pid stat mem =>
    refine (List.Perm.nodup_iff ?_).1 h
    rw [List.map_append, ← List.append_assoc]
    refine .trans ?_ List.perm_append_comm
    exact (List.perm_cons_erase mem).append_right _
  | @poll _ z => exact h.sublist (herase z)
  | @wait z => exact h.sublist (herase z)
  | deliver | pollNone | report | waitFails | reportMain => exact h

theorem distinct_reached {s : State} {ok : State → Action → Prop} (h : Reach step ok .init s) : Distinct s := by
  refine h.invariant (I := Distinct) ?_ ?_
  · intro s a s' hi _ hs
    exact hi.step hs
  · exact List.nodup_nil

/-! ## What is displayed -/

/-- The call of `display_status` that `run_command` is about to make. -/
def MainPc.next : MainPc → List Display
  | .prompt | .wait _ => []
  | .display d => [d]

/-- The call of `display_status` that the handler is about to make. -/
def HandlerPc.next : HandlerPc → List Display
  | .off | .poll => []
  | .display z => [(z.1, some z.2)]

/-- Each child reaped is displayed once, or is about to be, with the status
reaped; nothing else is. -/
def Displayed (s : State) : Prop :=
  (s.reaped.map fun z => (z.1, some z.2)).Perm (s.shown ++ (s.main.next ++ s.handler.next))

/-- What is promised: all children are reaped once, and reported as reaped. -/
structure Reported (s : State) : Prop where
  accounted : Accounted s
  displayed : Displayed s

/-- The child `run_command` has still to wait for has not terminated when the
handler calls `waitpid`. -/
def Unraced (s : State) : Action → Prop
  | .poll _ => ∀ z ∈ s.zombies, s.main ≠ .wait z.1
  | _ => True

instance (s : State) : (a : Action) → Decidable (Unraced s a)
  | .poll _ => inferInstanceAs (Decidable (∀ z ∈ s.zombies, s.main ≠ .wait z.1))
  | .fork .. | .exit .. | .deliver | .pollNone | .report | .wait | .reportMain => inferInstanceAs (Decidable True)

/-- The foreground child is still one of the shell's. -/
def Awaited (s : State) : Prop := ∀ pid, s.main = .wait pid → pid ∈ s.running ∨ ∃ stat, (pid, stat) ∈ s.zombies

theorem Awaited.move {s s' : State} {a : Action} (h : Awaited s) (hok : Unraced s a)
    (hm : Move s a s') :
    Awaited s' := by
  intro pid hw
  cases hm with
  | @fork pid' background =>
    cases background with
    | true => cases hw
    | false => cases hw; exact .inl List.mem_cons_self
  | @exit pid' stat =>
    rcases h pid hw with hr | ⟨stat', hz⟩
    · by_cases he : pid = pid'
      · subst he
        exact .inr ⟨stat, List.mem_append_right _ List.mem_cons_self⟩
      · exact .inl ((List.mem_erase_of_ne he).2 hr)
    · exact .inr ⟨stat', List.mem_append_left _ hz⟩
  | poll _ mem =>
    rcases h pid hw with hr | ⟨stat, hz⟩
    · exact .inl hr
    · exact absurd hw (hok _ hz)
  | deliver | pollNone | report => exact h pid hw
  | wait | waitFails | reportMain => cases hw

theorem Displayed.move {s s' : State} {a : Action} (h : Displayed s) (ha : Awaited s)
    (hm : Move s a s') :
    Displayed s' := by
  unfold Displayed at *
  cases hm with
  | @fork pid background main =>
    rw [main] at h
    cases background <;> exact h
  | exit => exact h
  | deliver off => rwa [off] at h
  | @poll pid z at_poll =>
    rw [at_poll, HandlerPc.next, List.append_nil] at h
    simpa only [State.reap, HandlerPc.next, List.map_append, List.map_singleton, ← List.append_assoc] using
      h.append_right [(z.1, some z.2)]
  | pollNone at_poll => rwa [at_poll] at h
  | @report z at_display =>
    rw [at_display] at h
    refine h.trans ?_
    simp only [HandlerPc.next, List.append_nil, List.append_assoc]
    exact List.perm_append_comm.append_left _
  | @wait z main off =>
    rw [main, off, MainPc.next, HandlerPc.next, List.append_nil, List.append_nil] at h
    simpa only [State.reap, off, MainPc.next, HandlerPc.next, List.map_append, List.map_singleton, List.append_nil]
      using h.append_right [(z.1, some z.2)]
  | waitFails main _ running zombies =>
    rcases ha _ main with hr | ⟨stat, hz⟩
    · exact absurd hr running
    · exact absurd hz (zombies stat)
  | @reportMain d main off =>
    rw [main, off] at h
    simpa only [off, MainPc.next, HandlerPc.next, List.append_nil] using h

/-- As long as the handler never polls while the foreground child is there to
be reaped, every child is reaped once and its own status reported once. -/
theorem reported_of_unraced {s : State} (h : Reach step Unraced .init s) : Reported s := by
  have hinv : Awaited s ∧ Displayed s := by
    refine h.invariant (I := fun s => Awaited s ∧ Displayed s) ?_ ⟨?_, ?_⟩
    · intro s a s' hi hok hs
      have hm := move_of_step hs
      exact ⟨hi.1.move hok hm, hi.2.move hi.1 hm⟩
    · intro pid hw
      cases hw
    · exact .rfl
  exact ⟨accounted_reached h, hinv.2⟩

/-- A background child reaped by the handler while a foreground one runs,
which `run_command` reaps. -/
theorem reported_of_unraced_both :
    ∃ s, exec step Unraced .init [.fork 7 true, .fork 8 false, .exit 7 1, .deliver, .poll 7, .report, .pollNone,
        .exit 8 2, .wait, .reportMain] = some s ∧
      s.shown = [(7, some 1), (8, some 2)] ∧ Reported s := by
  have hrun : (exec step Unraced .init [.fork 7 true, .fork 8 false, .exit 7 1, .deliver, .poll 7, .report, .pollNone,
      .exit 8 2, .wait, .reportMain]).map (·.shown) = some [(7, some 1), (8, some 2)] := by
    decide +kernel
  obtain ⟨s, hs, hshown⟩ := Option.map_eq_some_iff.1 hrun
  exact ⟨s, hs, hshown, reported_of_unraced (reach_of_exec hs)⟩

/-- A foreground child that ends before `run_command` comes to wait for it:
the handler reaps it, and `run_command` reports it again, with a status no
`waitpid` stored. -/
theorem foreground_not_reported : ¬ ∀ s, Reach step anyStep .init s → Reported s := by
  have hrun : (exec step anyStep .init [.fork 7 false, .exit 7 1, .deliver, .poll 7, .report, .pollNone, .wait,
      .reportMain]).map (fun s => (s.reaped, s.shown, s.main, s.handler)) =
        some ([(7, 1)], [(7, some 1), (7, none)], .prompt, .off) := by
    decide +kernel
  obtain ⟨s, hs, hs'⟩ := Option.map_eq_some_iff.1 hrun
  simp only [Prod.mk.injEq] at hs'
  obtain ⟨hreaped, hshown, hmain, hoff⟩ := hs'
  intro h
  have hd := (h s (reach_of_exec hs)).displayed.length_eq
  simp [hreaped, hshown, hmain, hoff, MainPc.next, HandlerPc.next] at hd

end SysProg.Reap
