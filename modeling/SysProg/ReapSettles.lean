/-
What becomes of the shell's children in any run, the ones in which the handler
is first with the foreground child included: signals that come together are
delivered once, but once the shell has nothing more to do, all children that
have terminated have been reaped and reported as they ended.
-/
import SysProg.Reap
import Mathlib.Data.List.Perm.Subperm

namespace SysProg.Reap

/-- What the shell does by itself: it starts no command, and no child terminates. -/
def Action.own : Action → Bool
  | .fork .. | .exit .. => false
  | .deliver | .poll _ | .pollNone | .report | .wait | .reportMain => true

/-- A run of the shell by itself. -/
def ownStep (_ : State) (a : Action) : Prop := a.own = true

instance (s : State) (a : Action) : Decidable (ownStep s a) := inferInstanceAs (Decidable (a.own = true))

/-- Nothing is left to be done: the shell is at its prompt, or waits for a child that runs. -/
structure Settled (s : State) : Prop where
  handler : s.handler = .off
  pending : s.pending = false
  zombies : s.zombies = []
  main : s.main = .prompt ∨ ∃ pid ∈ s.running, s.main = .wait pid

/-- The child the handler's `waitpid` returns here, if `run_command` is still to
wait for it. -/
def first (s : State) : Action → List Pid
  | .poll pid => if s.main = .wait pid then [pid] else []
  | .fork .. | .exit .. | .deliver | .pollNone | .report | .wait | .reportMain => []

/-- Those of a run: the foreground children the handler was first with. -/
def firsts : State → List Action → List Pid
  | _, [] => []
  | s, a :: as => first s a ++
    match step s a with
    | some s' => firsts s' as
    | none => []

/-- The foreground child, if the handler has reaped it before `run_command` has. -/
def State.raced (s : State) : List Pid :=
  match s.main with
  | .wait pid => if pid ∈ s.running ∨ pid ∈ s.zombies.map (·.1) then [] else [pid]
  | .prompt | .display _ => []

/-- A call of `display_status` that is as it is to be, -/
def told (z : Ended) : Display := (z.1, some z.2)

/-- and one with a status that was never stored. -/
def untold (pid : Pid) : Display := (pid, none)

/-- All that is reaped is reported, or about to be; what is reported besides, or
will be, is each foreground child the handler was first with. -/
structure Reports (s : State) (fs : List Pid) : Prop where
  shown : (s.shown ++ (s.main.next ++ s.handler.next) ++ s.raced.map untold).Perm
    (s.reaped.map told ++ fs.map untold)
  reaped : fs.Subperm (s.reaped.map (·.1))

theorem raced_prompt {s : State} (h : s.main = .prompt) : s.raced = [] := by rw [State.raced, h]

theorem raced_running {s : State} {pid : Pid} (h : s.main = .wait pid) (hr : pid ∈ s.running) : s.raced = [] := by
  simp [State.raced, h, hr]

/-- The handler's `waitpid` is first with the foreground child if it returns it. -/
theorem raced_reap {s : State} {z : Ended} (hd : Distinct s) (hz : z ∈ s.zombies) (handler : HandlerPc) :
    ({ s.reap z with handler } : State).raced = s.raced ++ first s (.poll z.1) := by
  have hpid : z.1 ∈ s.zombies.map (·.1) := List.mem_map_of_mem hz
  obtain ⟨-, hnodup, hapart⟩ := List.nodup_append.1 hd
  have hgone : z.1 ∉ (s.zombies.erase z).map (·.1) := by
    have hperm := (List.perm_cons_erase hz).map (·.1)
    exact (List.nodup_cons.1 (hperm.nodup_iff.1 hnodup)).1
  unfold State.raced State.reap first
  dsimp only
  cases hmain : s.main with
  | prompt | display d => rfl
  | wait pid =>
    dsimp only
    by_cases he : pid = z.1
    · subst he
      have hrun : z.1 ∉ s.running := fun hr => hapart _ hr _ hpid rfl
      simp [hrun, hgone, hpid]
    · have hiff : pid ∈ (s.zombies.erase z).map (·.1) ↔ pid ∈ s.zombies.map (·.1) := by
        refine ⟨fun h => (List.Sublist.map _ List.erase_sublist).subset h, fun h => ?_⟩
        obtain ⟨w, hw, rfl⟩ := List.mem_map.1 h
        exact List.mem_map_of_mem ((List.mem_erase_of_ne fun hwz => he (congrArg _ hwz)).2 hw)
      simp only [hiff, MainPc.wait.injEq, he, if_false, List.append_nil]

theorem raced_exit {s : State} {pid : Pid} {stat : Stat} (hmem : pid ∈ s.running) :
    ({ s with
      running := s.running.erase pid, zombies := s.zombies ++ [(pid, stat)], exited := s.exited ++ [(pid, stat)]
      pending := true } : State).raced = s.raced := by
  unfold State.raced
  dsimp only
  split
  · next q _ =>
    by_cases hq : q = pid
    · subst hq
      simp [hmem]
    · simp only [List.mem_erase_of_ne hq, List.map_append, List.mem_append, List.map_cons, List.map_nil,
        List.mem_singleton, hq, or_false]
  · rfl
  · rfl

theorem shown_told {shown next raced : List Display} {reaped : List Ended} {fs : List Pid} (z : Ended)
    (h : (shown ++ next ++ raced).Perm (reaped.map told ++ fs.map untold)) :
    (shown ++ (next ++ [told z]) ++ raced).Perm ((reaped ++ [z]).map told ++ fs.map untold) := by
  have hl : (shown ++ (next ++ [told z]) ++ raced).Perm (shown ++ next ++ raced ++ [told z]) := by
    simp only [List.append_assoc]
    exact (List.perm_append_comm.append_left _).append_left _
  have hr : (reaped.map told ++ fs.map untold ++ [told z]).Perm ((reaped ++ [z]).map told ++ fs.map untold) := by
    rw [List.map_append, List.append_assoc, List.append_assoc]
    exact List.perm_append_comm.append_left _
  exact hl.trans ((h.append_right _).trans hr)

theorem Reports.poll {s : State} {z : Ended} {fs : List Pid} (h : Reports s fs) (hd : Distinct s)
    (hpoll : s.handler = .poll) (hz : z ∈ s.zombies) :
    Reports { s.reap z with handler := .display z } (fs ++ first s (.poll z.1)) := by
  obtain ⟨hshown, hreaped⟩ := h
  rw [hpoll, HandlerPc.next, List.append_nil] at hshown
  refine ⟨?_, ?_⟩
  · have hmore := (shown_told z hshown).append_right ((first s (.poll z.1)).map untold)
    rw [raced_reap hd hz, List.map_append, List.map_append, ← List.append_assoc (List.map told _)]
    rw [List.append_assoc _ (s.raced.map untold)] at hmore
    exact hmore
  · have hsub : (first s (.poll z.1)).Subperm [z.1] := by
      show (if s.main = .wait z.1 then [z.1] else []).Subperm [z.1]
      split
      · exact .refl _
      · exact List.nil_subperm
    rw [State.reap, List.map_append]
    exact hreaped.append hsub

theorem Reports.step {s s' : State} {a : Action} {fs : List Pid} (h : Reports s fs) (hd : Distinct s)
    (hs : step s a = some s') : Reports s' (fs ++ first s a) := by
  obtain ⟨hshown, hreaped⟩ := h
  have hmove := move_of_step hs
  cases hmove with
  | @fork pid background hmain =>
    rw [raced_prompt hmain, hmain] at hshown
    rw [first, List.append_nil]
    refine ⟨?_, hreaped⟩
    cases background with
    | true => simpa [State.raced] using hshown
    | false => simpa [State.raced, MainPc.next] using hshown
  | exit hmem =>
    rw [first, List.append_nil]
    refine ⟨?_, hreaped⟩
    rw [raced_exit hmem]
    exact hshown
  | deliver hoff =>
    rw [hoff] at hshown
    rw [first, List.append_nil]
    exact ⟨hshown, hreaped⟩
  | @poll pid z hpoll hmem =>
    -- the step is the return of this child
    obtain rfl : z.1 = pid := by
      simp only [Reap.step, if_pos hpoll] at hs
      obtain ⟨w, hw, he⟩ := Option.map_eq_some_iff.1 hs
      have hhandler := congrArg State.handler he
      cases hhandler
      simpa using List.find?_some hw
    exact .poll ⟨hshown, hreaped⟩ hd hpoll hmem
  | pollNone hpoll =>
    rw [hpoll] at hshown
    rw [first, List.append_nil]
    exact ⟨hshown, hreaped⟩
  | @report z hdisplay =>
    rw [hdisplay] at hshown
    rw [first, List.append_nil]
    refine ⟨.trans ?_ hshown, hreaped⟩
    simp only [HandlerPc.next, List.append_nil, List.append_assoc]
    exact (List.perm_append_comm_assoc [(z.1, some z.2)] s.main.next _).append_left _
  | @wait z hmain hoff hmem =>
    have hraced : s.raced = [] := by
      have hpid : z.1 ∈ s.zombies.map (·.1) := List.mem_map_of_mem hmem
      simp only [State.raced, hmain, if_pos (Or.inr hpid)]
    rw [hraced, hmain, hoff, MainPc.next, HandlerPc.next] at hshown
    rw [first, List.append_nil]
    refine ⟨?_, hreaped.trans ?_⟩
    · simpa [State.raced, State.reap, hoff, MainPc.next, HandlerPc.next, told] using shown_told z hshown
    · exact ((List.sublist_append_left _ _).map _).subperm
  | @waitFails pid hmain hoff hrunning hzombies =>
    have hz : pid ∉ s.zombies.map (·.1) := by
      rintro h
      obtain ⟨⟨_, stat⟩, hmem, rfl⟩ := List.mem_map.1 h
      exact hzombies stat hmem
    have hraced : s.raced = [pid] := by
      rw [State.raced, hmain]
      exact if_neg (by simp [hrunning, hz])
    rw [hraced, hmain, hoff, MainPc.next, HandlerPc.next] at hshown
    rw [first, List.append_nil]
    exact ⟨by simpa [State.raced, hoff, MainPc.next, HandlerPc.next, untold] using hshown, hreaped⟩
  | @reportMain d hmain hoff =>
    have hraced : s.raced = [] := by rw [State.raced, hmain]
    rw [hraced, hmain, hoff] at hshown
    rw [first, List.append_nil]
    exact ⟨by simpa [State.raced, hoff, MainPc.next, HandlerPc.next] using hshown, hreaped⟩

theorem Reports.run {s s' : State} {as : List Action} {fs : List Pid} {ok : State → Action → Prop}
    [∀ s a, Decidable (ok s a)] (h : Reports s fs) (hd : Distinct s) (hrun : exec Reap.step ok s as = some s') :
    Reports s' (fs ++ firsts s as) := by
  induction as generalizing s fs with
  | nil =>
    cases hrun
    rw [firsts, List.append_nil]
    exact h
  | cons a as ih =>
    unfold exec at hrun
    split at hrun
    · obtain ⟨s₁, h₁, hrun⟩ := Option.bind_eq_some_iff.1 hrun
      have hmore := ih (h.step hd h₁) (hd.step h₁) hrun
      rw [firsts, h₁]
      rwa [List.append_assoc] at hmore
    · cases hrun

/-- What is left to be done. -/
def toGo (s : State) : Nat :=
  2 * s.zombies.length + (if s.pending then 2 else 0) +
    (match s.handler with
    | .off => 0
    | .poll => 1
    | .display _ => 2) +
    match s.main with
    | .prompt => 0
    | .display _ => 1
    | .wait _ => 2

theorem toGo_own {s s' : State} {a : Action} (ha : a.own = true) (hs : step s a = some s') : toGo s' < toGo s := by
  have hpending {s s' : State} (hs : step s .deliver = some s') : s.pending = true := by
    simp only [step] at hs
    split at hs
    · next hc => exact hc.1
    · cases hs
  cases move_of_step hs with
  | fork | exit => cases ha
  | deliver hoff => simp [toGo, hoff, hpending hs]
  | @poll pid z hpoll hmem =>
    have hlen := List.length_erase_add_one hmem
    simp only [toGo, State.reap, hpoll]
    omega
  | pollNone hpoll => simp [toGo, hpoll]
  | report hdisplay => simp [toGo, hdisplay]
  | @wait z hmain hoff hmem =>
    have hlen := List.length_erase_add_one hmem
    simp only [toGo, State.reap, hmain, hoff]
    omega
  | waitFails hmain hoff => simp [toGo, hmain, hoff]
  | reportMain hmain hoff => simp [toGo, hmain, hoff]

/-- Where the shell cannot go on by itself, there is nothing left to be done. -/
theorem settled_iff {s : State} (hacc : Accounted s) : Settled s ↔ ∀ a, a.own = true → step s a = none := by
  constructor
  · rintro ⟨hoff, hpending, hzombies, hmain⟩ a ha
    cases a with
    | fork | exit => cases ha
    | deliver => simp [step, hpending]
    | poll | pollNone | report => simp [step, hoff]
    | wait | reportMain =>
      rcases hmain with hmain | ⟨pid, hrunning, hmain⟩
      · simp [step, hmain]
      · simp [step, hmain, hoff, hzombies, hrunning]
  · intro hnone
    have hoff : s.handler = .off := by
      cases hh : s.handler with
      | off => rfl
      | poll =>
        cases hz : s.zombies with
        | nil =>
          have := hnone .pollNone rfl
          simp [step, hh, hz] at this
        | cons z zs =>
          have := hnone (.poll z.1) rfl
          simp [step, hh, hz] at this
      | display z =>
        have := hnone .report rfl
        simp [step, hh] at this
    have hpending : s.pending = false := by
      have := hnone .deliver rfl
      simpa [step, hoff] using this
    have hzombies : s.zombies = [] := by
      by_contra hz
      rcases hacc.ahead hz with h | h
      · rw [hpending] at h
        cases h
      · exact h hoff
    refine ⟨hoff, hpending, hzombies, ?_⟩
    cases hmain : s.main with
    | prompt => exact .inl rfl
    | wait pid =>
      have := hnone .wait rfl
      simp only [step, hmain, hoff, hzombies, List.find?_nil] at this
      exact .inr ⟨pid, by simpa using this, rfl⟩
    | display d =>
      have := hnone .reportMain rfl
      simp [step, hmain, hoff] at this

theorem Reports.settled {s : State} {fs : List Pid} (h : Reports s fs) (hacc : Accounted s) (hs : Settled s) :
    s.shown.Perm (s.exited.map told ++ fs.map untold) ∧ fs.Subperm (s.exited.map (·.1)) := by
  have hexited : s.exited.Perm s.reaped := by simpa [hs.zombies] using hacc.exited
  refine ⟨?_, h.reaped.trans (hexited.map _).symm.subperm⟩
  have hraced : s.main.next = [] ∧ s.raced = [] := by
    rcases hs.main with hmain | ⟨pid, hrunning, hmain⟩
    · exact ⟨by rw [hmain, MainPc.next], raced_prompt hmain⟩
    · exact ⟨by rw [hmain, MainPc.next], raced_running hmain hrunning⟩
  have hshown := h.shown
  rw [hraced.1, hraced.2, hs.handler, HandlerPc.next, List.map_nil, List.append_nil, List.append_nil,
    List.append_nil] at hshown
  exact hshown.trans ((hexited.map _).symm.append_right _)

/-- From whatever state it has come to, and in whatever order it goes on by
itself, the shell soon has nothing left to do. Then each child that has
terminated has been reported once with its own status; and besides, with a
status never stored, each time the handler's `waitpid` has returned a child that
`run_command` was still to wait for, that child. -/
theorem settles {s s' : State} {before as : List Action} (h : exec step anyStep .init before = some s)
    (hrun : exec step ownStep s as = some s') :
    as.length ≤ 2 * s.zombies.length + 6 ∧ (Settled s' ↔ ∀ a, a.own = true → step s' a = none) ∧
      (Settled s' → s'.shown.Perm (s'.exited.map told ++ (firsts .init before ++ firsts s as).map untold) ∧
        (firsts .init before ++ firsts s as).Subperm (s'.exited.map (·.1))) := by
  have hreach := reach_of_exec h
  have hacc := accounted_reached (hreach.trans (reach_of_exec hrun).unconditional)
  refine ⟨?_, settled_iff hacc, fun hs => ?_⟩
  · have hstep : ∀ n s a s', toGo s ≤ n → ownStep s a → step s a = some s' → ∃ m < n, toGo s' ≤ m :=
      fun n s a s' hn ha hs => ⟨toGo s', Nat.lt_of_lt_of_le (toGo_own ha hs) hn, Nat.le_refl _⟩
    obtain ⟨left, -, hle⟩ := exec_spends (I := fun n s => toGo s ≤ n) hstep (Nat.le_refl (toGo s)) hrun
    have hbound : toGo s ≤ 2 * s.zombies.length + 6 := by
      unfold toGo
      split <;> split <;> split <;> omega
    omega
  · have hinit : Reports .init [] := ⟨.rfl, .refl []⟩
    have hreports := (hinit.run List.nodup_nil h).run (distinct_reached hreach) hrun
    rw [List.nil_append] at hreports
    exact hreports.settled hacc hs

/-- Two children end before one signal is delivered, the one waited for among
them: it is reported twice. -/
theorem settles_both :
    ∃ s s', exec step anyStep .init [.fork 7 true, .fork 8 false, .exit 8 2, .exit 7 1] = some s ∧
      exec step ownStep s [.deliver, .poll 8, .report, .poll 7, .report, .pollNone, .wait, .reportMain] = some s' ∧
      s'.shown.Perm [(8, some 2), (7, some 1), (8, none)] ∧ ∀ a, a.own = true → step s' a = none := by
  obtain ⟨s, hs⟩ : ∃ s, exec step anyStep .init [.fork 7 true, .fork 8 false, .exit 8 2, .exit 7 1] = some s :=
    ⟨_, rfl⟩
  obtain ⟨s', hrun⟩ : ∃ s', exec step ownStep s [.deliver, .poll 8, .report, .poll 7, .report, .pollNone, .wait,
      .reportMain] = some s' := by
    cases hs
    exact ⟨_, rfl⟩
  have hsettled : Settled s' := by
    cases hs
    cases hrun
    exact ⟨rfl, rfl, rfl, .inl rfl⟩
  obtain ⟨-, hiff, hreports⟩ := settles hs hrun
  refine ⟨s, s', hs, hrun, ?_, hiff.1 hsettled⟩
  have hperm := (hreports hsettled).1
  cases hs
  cases hrun
  exact hperm

end SysProg.Reap
