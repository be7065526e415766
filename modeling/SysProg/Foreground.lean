/-
The prompt after a pipeline (`sh9`). `run_command` forks one child and waits
for it. Of the pipeline's processes each but the last forks the next one
before it executes its own stage, so the shell's child becomes the first
stage, and the others are no children of the shell's.

The shell takes the steps of `Reap`. Between two of them the processes of the
command go on: to the next call of `pipe_and_exec`, to `execvp` or `exit`, and
to their end, by a signal perhaps, at any time. Of earlier commands only the
shell's own children are kept.
-/
import SysProg.Pipeline
import SysProg.Reap
import Mathlib.Algebra.BigOperators.Group.List.Basic

namespace SysProg.Foreground

open Shell Reap

/-! ## The processes of a command -/

/-- Where a process of a command is. -/
inductive Place where
  /-- In `run_command`, just forked: before its redirections. -/
  | child (a : Argv)
  /-- At a call of `pipe_and_exec`. -/
  | pipes (id : Nat) (a : Argv) (t : Fds Desc)
  /-- Past its `execvp`, or at its `exit`. -/
  | has (p : Proc)

/-- Where a process goes on to, and where the child starts that it forks on
the way, if any. -/
def Place.next (env : Env) (t : Fds Desc) : Place → Option (List Place)
  | .child a =>
    match redirect_in env a t with
    | .error e => some [.has (env.exit e)]
    | .ok (a, t, _) =>
      match redirect_out env a t with
      | .error e => some [.has (env.exit e)]
      | .ok (a, t, _) => some [.pipes 0 a t]
  | .pipes id a t =>
    if pipe_present a = -1 then some [.has (env.exit EINVAL)]
    else if pipe_present a = 0 then some [.has (env.execvp a.vector t)]
    else
      let i := (pipe_present a).toNat
      let a' : Argv := a.set i none
      let (t, r, w) := t.pipe (.pipeRead id) (.pipeWrite id)
      match env.forkFails id with
      | some e => some [.has (env.exit e)]
      | none =>
        some [.has (env.execvp a'.vector (((t.dup2 w 1).close w).close r)),
          .pipes (id + 1) (a'.drop (i + 1)) (((t.dup2 r 0).close r).close w)]
  | .has _ => none

/-- What a process and those it is yet to fork come to. -/
def Place.comesTo (env : Env) (t : Fds Desc) : Place → List Proc
  | .child a => (runChild env a t).procs
  | .pipes id a t => pipe_and_exec env id a t
  | .has p => [p]

/-- A process of a line. -/
structure Process where
  place : Place
  ended : Bool

/-- A process that has not ended. -/
def Place.alive (place : Place) : Process := ⟨place, false⟩

/-- A command that `run_command` runs, as `pid`, and its processes so far. -/
structure Job where
  pid : Pid
  line : List Token
  env : Env
  procs : List Process

namespace Job

/-- The line just after the shell's `fork`. -/
def start (pid : Pid) (line : List Token) (env : Env) : Job where
  pid := pid
  line := line
  env := env
  procs := [(Place.child (is_background (parsed line)).2).alive]

/-- The shell waits: the line does not end in `&`. -/
def awaited (job : Job) : Bool := !(is_background (parsed job.line)).1

/-- What `run_command` makes of the line. -/
def comesTo (t : Fds Desc) (job : Job) : List Proc := (run_command job.env (parsed job.line) t).2.procs

/-- The process the shell has forked has terminated. -/
def firstEnded (job : Job) : Bool := job.procs.head?.any (·.ended)

/-- All processes of the command have terminated. -/
structure Finished (t : Fds Desc) (job : Job) : Prop where
  all : job.procs.length = (job.comesTo t).length
  ended : ∀ p ∈ job.procs, p.ended

/-- Process `k` goes on. -/
def go (t : Fds Desc) (job : Job) (k : Nat) : Option Job :=
  match job.procs[k]? with
  | some ⟨place, false⟩ =>
    (place.next job.env t).map fun ps =>
      { job with procs := job.procs.take k ++ ps.map Place.alive ++ job.procs.drop (k + 1) }
  | _ => none

/-- Process `k` terminates. -/
def exit (job : Job) (k : Nat) : Option Job :=
  match job.procs[k]? with
  | some ⟨place, false⟩ => some { job with procs := job.procs.take k ++ ⟨place, true⟩ :: job.procs.drop (k + 1) }
  | _ => none

end Job

/-! ## The shell and the command -/

/-- The shell, and the line it runs. -/
structure State where
  shell : Reap.State
  /-- The last command. -/
  last : Option Job

/-- What can happen next. -/
inductive Action where
  /-- `run_command` is called, and forks. -/
  | run (pid : Pid) (line : List Token) (env : Env)
  /-- Another step of the shell, or the end of an earlier child. -/
  | shell (a : Reap.Action)
  /-- A process of the command goes on. -/
  | go (k : Nat)
  /-- A process of the command terminates. The shell's child is the first. -/
  | exit (k : Nat) (stat : Stat)

/-- The step is not one of the last command: not its fork, nor the end of its
first process. -/
def State.apart (s : State) : Reap.Action → Bool
  | .fork .. => false
  | .exit pid _ => s.last.all fun job => job.pid ≠ pid ∨ job.firstEnded
  | _ => true

/-- `t` are the shell's descriptors. -/
def step (t : Fds Desc) (s : State) : Action → Option State
  | .run pid line env =>
    let job := Job.start pid line env
    (Reap.step s.shell (.fork pid !job.awaited)).map fun shell => ⟨shell, some job⟩
  | .shell a => if s.apart a then (Reap.step s.shell a).map fun shell => { s with shell := shell } else none
  | .go k => (s.last.bind (·.go t k)).map fun job => { s with last := some job }
  | .exit k stat =>
    (s.last.bind (·.exit k)).bind fun job =>
      if k = 0 then (Reap.step s.shell (.exit job.pid stat)).map fun shell => ⟨shell, some job⟩
      else some { s with last := some job }

/-- Before the first line. -/
def State.init : State := ⟨.init, none⟩

/-- What the steps do. -/
inductive Move (t : Fds Desc) (s : State) : Action → State → Prop
  | run {pid line env shell} (fork : Reap.step s.shell (.fork pid !(Job.start pid line env).awaited) = some shell) :
      Move t s (.run pid line env) ⟨shell, some (.start pid line env)⟩
  | shell {a shell} (apart : s.apart a) (step : Reap.step s.shell a = some shell) :
      Move t s (.shell a) { s with shell := shell }
  | go {job pre post place ps} (last : s.last = some job) (procs : job.procs = pre ++ Place.alive place :: post)
      (next : place.next job.env t = some ps) :
      Move t s (.go pre.length) { s with last := some { job with procs := pre ++ ps.map Place.alive ++ post } }
  | exitFirst {job post place stat shell} (last : s.last = some job) (procs : job.procs = Place.alive place :: post)
      (exit : Reap.step s.shell (.exit job.pid stat) = some shell) :
      Move t s (.exit 0 stat) ⟨shell, some { job with procs := ⟨place, true⟩ :: post }⟩
  | exit {job p pre post place stat} (last : s.last = some job)
      (procs : job.procs = p :: pre ++ Place.alive place :: post) :
      Move t s (.exit (pre.length + 1) stat)
        { s with last := some { job with procs := p :: pre ++ ⟨place, true⟩ :: post } }

theorem procs_at {ps : List Process} {k : Nat} {p : Process} (h : ps[k]? = some p) :
    ps = ps.take k ++ p :: ps.drop (k + 1) ∧ (ps.take k).length = k := by
  obtain ⟨hk, rfl⟩ := List.getElem?_eq_some_iff.1 h
  refine ⟨?_, List.length_take_of_le (by omega)⟩
  rw [List.getElem_cons_drop, List.take_append_drop]

theorem Job.go_eq {t : Fds Desc} {job job' : Job} {k : Nat} (h : job.go t k = some job') :
    ∃ pre place post ps, job.procs = pre ++ Place.alive place :: post ∧ pre.length = k ∧
      place.next job.env t = some ps ∧ job' = { job with procs := pre ++ ps.map Place.alive ++ post } := by
  unfold Job.go at h
  split at h
  · next place hp =>
    obtain ⟨ps, hps, rfl⟩ := Option.map_eq_some_iff.1 h
    obtain ⟨hprocs, hlen⟩ := procs_at hp
    exact ⟨_, place, _, ps, hprocs, hlen, hps, rfl⟩
  · cases h

theorem Job.exit_eq {job job' : Job} {k : Nat} (h : job.exit k = some job') :
    ∃ pre place post, job.procs = pre ++ Place.alive place :: post ∧ pre.length = k ∧
      job' = { job with procs := pre ++ ⟨place, true⟩ :: post } := by
  unfold Job.exit at h
  split at h
  · next place hp =>
    cases h
    obtain ⟨hprocs, hlen⟩ := procs_at hp
    exact ⟨_, place, _, hprocs, hlen, rfl⟩
  · cases h

theorem move_of_step {t : Fds Desc} {s s' : State} {a : Action} (hs : step t s a = some s') : Move t s a s' := by
  cases a with
  | run pid line env =>
    obtain ⟨shell, hfork, rfl⟩ := Option.map_eq_some_iff.1 hs
    exact .run hfork
  | shell a =>
    simp only [step] at hs
    split at hs
    · next hapart =>
      obtain ⟨shell, hstep, rfl⟩ := Option.map_eq_some_iff.1 hs
      exact .shell hapart hstep
    · cases hs
  | go k =>
    obtain ⟨job', hgo, rfl⟩ := Option.map_eq_some_iff.1 hs
    obtain ⟨job, hlast, hgo⟩ := Option.bind_eq_some_iff.1 hgo
    obtain ⟨pre, place, post, ps, hprocs, rfl, hnext, rfl⟩ := Job.go_eq hgo
    exact .go hlast hprocs hnext
  | exit k stat =>
    obtain ⟨job', hexit, hs⟩ := Option.bind_eq_some_iff.1 hs
    obtain ⟨job, hlast, hexit⟩ := Option.bind_eq_some_iff.1 hexit
    obtain ⟨pre, place, post, hprocs, rfl, rfl⟩ := Job.exit_eq hexit
    cases pre with
    | nil =>
      obtain ⟨shell, hstep, rfl⟩ := Option.map_eq_some_iff.1 hs
      exact .exitFirst hlast hprocs hstep
    | cons p pre =>
      cases hs
      exact .exit hlast hprocs

/-! ## Its processes are those of the big step -/

/-- A step of a process changes nothing in what it and its children come to. -/
theorem Place.next_comesTo {env : Env} {t : Fds Desc} {place : Place} {ps : List Place}
    (h : place.next env t = some ps) : ps.flatMap (·.comesTo env t) = place.comesTo env t := by
  cases place with
  | child a =>
    show _ = (runChild env a t).procs
    simp only [Place.next] at h
    unfold runChild
    cases hin : redirect_in env a t with
    | error e =>
      simp only [hin] at h ⊢
      cases h
      rfl
    | ok r =>
      obtain ⟨a₁, t₁, o₁⟩ := r
      cases hout : redirect_out env a₁ t₁ with
      | error e =>
        simp only [hin, hout] at h ⊢
        cases h
        rfl
      | ok r =>
        simp only [hin, hout] at h ⊢
        cases h
        exact List.flatMap_singleton ..
  | pipes id a u =>
    show _ = pipe_and_exec env id a u
    simp only [Place.next] at h
    rw [pipe_and_exec]
    split at h
    · next hbad =>
      cases h
      rw [dif_pos hbad]
      rfl
    · next hbad =>
      rw [dif_neg hbad]
      split at h
      · next hlast =>
        cases h
        rw [if_pos hlast]
        rfl
      · next hlast =>
        rw [if_neg hlast]
        cases hfork : env.forkFails id with
        | some e =>
          simp only [hfork] at h ⊢
          cases h
          rfl
        | none =>
          simp only [hfork] at h ⊢
          cases h
          rw [List.flatMap_cons, List.flatMap_singleton]
          rfl
  | has p => cases h

theorem Place.next_ne_nil {env : Env} {t : Fds Desc} {place : Place} : place.next env t ≠ some [] := by
  intro h
  cases place with
  | child a =>
    simp only [Place.next] at h
    split at h
    · cases h
    · split at h <;> cases h
  | pipes id a u =>
    simp only [Place.next] at h
    split at h
    · cases h
    · split at h
      · cases h
      · split at h <;> cases h
  | has p => cases h

theorem pipe_and_exec_ne_nil (env : Env) (id : Nat) (a : Argv) (t : Fds Desc) : pipe_and_exec env id a t ≠ [] := by
  rw [pipe_and_exec]
  split
  · exact List.cons_ne_nil _ _
  · split
    · exact List.cons_ne_nil _ _
    · dsimp only
      split <;> exact List.cons_ne_nil _ _

theorem Place.comesTo_ne_nil (env : Env) (t : Fds Desc) (place : Place) : place.comesTo env t ≠ [] := by
  cases place with
  | child a =>
    rw [Place.comesTo, runChild]
    split
    · exact List.cons_ne_nil _ _
    · split
      · exact List.cons_ne_nil _ _
      · exact pipe_and_exec_ne_nil _ _ _ _
  | pipes id a u => exact pipe_and_exec_ne_nil _ _ _ _
  | has p => exact List.cons_ne_nil _ _

/-- The processes a command has are on the way to those of `run_command`. -/
def Comes (t : Fds Desc) (job : Job) : Prop :=
  job.procs.flatMap (·.place.comesTo job.env t) = job.comesTo t

theorem Comes.length_le {t : Fds Desc} {job : Job} (h : Comes t job) : job.procs.length ≤ (job.comesTo t).length := by
  rw [← h, List.length_flatMap]
  conv_lhs => rw [← List.length_map (fun p : Process => (p.place.comesTo job.env t).length)]
  refine List.length_le_sum_of_one_le _ ?_
  intro n hn
  obtain ⟨p, -, rfl⟩ := List.mem_map.1 hn
  exact List.length_pos_iff.2 (Place.comesTo_ne_nil _ _ _)

theorem comes_start (t : Fds Desc) (pid : Pid) (line : List Token) (env : Env) : Comes t (.start pid line env) :=
  List.flatMap_singleton ..

theorem Comes.move {t : Fds Desc} {s s' : State} {a : Action} (h : ∀ job ∈ s.last, Comes t job) (hm : Move t s a s') :
    ∀ job ∈ s'.last, Comes t job := by
  intro job' hj
  cases hm with
  | run =>
    cases hj
    exact comes_start ..
  | shell => exact h job' hj
  | @go job _ _ _ _ last procs next =>
    cases hj
    have hc : _ = job.comesTo t := h job last
    refine .trans ?_ hc
    simp only [procs, List.flatMap_append, List.flatMap_cons, List.flatMap_map, Place.alive, Place.next_comesTo next,
      List.append_assoc]
  | @exitFirst job _ _ _ _ last procs =>
    cases hj
    have hc : _ = job.comesTo t := h job last
    refine .trans ?_ hc
    simp only [procs, List.flatMap_cons, Place.alive]
  | @exit job _ _ _ _ _ last procs =>
    cases hj
    have hc : _ = job.comesTo t := h job last
    refine .trans ?_ hc
    simp only [procs, List.flatMap_append, List.flatMap_cons, Place.alive]

theorem comes_reached {t : Fds Desc} {s : State} {ok : State → Action → Prop} (h : Reach (step t) ok .init s) :
    ∀ job ∈ s.last, Comes t job := by
  refine h.invariant (I := fun s => ∀ job ∈ s.last, Comes t job) ?_ ?_
  · intro s a s' hi _ hs
    exact Comes.move hi (move_of_step hs)
  · intro job hj
    cases hj

/-! ## What the shell waits for -/

/-- A step is one of the shell and its children, or leaves them as they are. -/
theorem shell_move {t : Fds Desc} {s s' : State} {a : Action} (hm : Move t s a s') :
    s'.shell = s.shell ∨ Steps Reap.step anyStep s.shell s'.shell := by
  cases hm with
  | run fork => exact .inr ⟨_, trivial, fork⟩
  | shell _ step => exact .inr ⟨_, trivial, step⟩
  | exitFirst _ _ exit => exact .inr ⟨_, trivial, exit⟩
  | go | exit => exact .inl rfl

/-- The shell's part of a run is one of `Reap`. -/
theorem shell_reached {t : Fds Desc} {s : State} {ok : State → Action → Prop} (h : Reach (step t) ok .init s) :
    Reach Reap.step anyStep .init s.shell :=
  h.project State.shell fun _ _ _ _ hs => shell_move (move_of_step hs)

/-- The shell's child, as long as it has not terminated. In the foreground the
shell is at its `waitpid`. -/
structure Waits (s : State) (job : Job) : Prop where
  running : job.pid ∈ s.shell.running
  wait : job.awaited → s.shell.main = .wait job.pid

theorem Waits.shell {s : State} {job : Job} {a : Reap.Action} {shell : Reap.State} (h : Waits s job)
    (hd : Distinct s.shell) (hlast : s.last = some job) (hf : ¬ job.firstEnded) (hap : s.apart a)
    (hs : Reap.step s.shell a = some shell) : Waits { s with shell := shell } job := by
  -- the child is not one that a `waitpid` has returned or can return
  have hz (stat : Stat) : (job.pid, stat) ∉ s.shell.zombies := by
    intro hm
    exact (List.nodup_append.1 hd).2.2 _ h.running _ (List.mem_map_of_mem hm) rfl
  cases Reap.move_of_step hs with
  | fork => cases hap
  | @exit pid stat =>
    have hne : job.pid ≠ pid := by simpa [State.apart, hlast, hf] using hap
    exact ⟨(List.mem_erase_of_ne hne).2 h.running, h.wait⟩
  | deliver | poll | pollNone | report => exact ⟨h.running, h.wait⟩
  | @wait z main off mem =>
    refine ⟨h.running, fun hw => ?_⟩
    have hpid : z.1 = job.pid := MainPc.wait.inj (main.symm.trans (h.wait hw))
    exact absurd (hpid ▸ mem) (hz z.2)
  | waitFails main _ running =>
    refine ⟨h.running, fun hw => ?_⟩
    have hpid := MainPc.wait.inj (main.symm.trans (h.wait hw))
    exact absurd h.running (hpid ▸ running)
  | reportMain main =>
    refine ⟨h.running, fun hw => ?_⟩
    cases main.symm.trans (h.wait hw)

theorem firstEnded_go {job : Job} {pre post : List Process} {place : Place} (ps : List Place)
    (procs : job.procs = pre ++ place.alive :: post) (h : job.firstEnded) :
    { job with procs := pre ++ ps.map Place.alive ++ post }.firstEnded := by
  rw [Job.firstEnded, procs] at h
  cases pre with
  | nil => cases h
  | cons p pre => exact h

theorem firstEnded_exit {job : Job} {p : Process} {pre post post' : List Process}
    (procs : job.procs = p :: pre ++ post) (h : job.firstEnded) :
    { job with procs := p :: pre ++ post' }.firstEnded := by
  rw [Job.firstEnded, procs] at h
  exact h

/-- Until the first stage of the last line has ended, the shell waits for it if the line is not in
the background. -/
def Waiting (s : State) : Prop := ∀ job ∈ s.last, ¬ job.firstEnded → Waits s job

theorem Waiting.move {t : Fds Desc} {s s' : State} {a : Action} (h : Waiting s) (hd : Distinct s.shell)
    (hm : Move t s a s') : Waiting s' := by
  intro job' hj hf
  cases hm with
  | run fork =>
    cases hj
    cases Reap.move_of_step fork
    refine ⟨List.mem_cons_self, fun hw => ?_⟩
    simp only [hw, Bool.not_true, Bool.false_eq_true, if_false]
    rfl
  | shell apart step => exact (h job' hj hf).shell hd hj hf apart step
  | @go job _ _ _ ps last procs =>
    cases hj
    have hw := h job last fun he => hf (firstEnded_go ps procs he)
    exact ⟨hw.running, hw.wait⟩
  | exitFirst =>
    cases hj
    exact absurd rfl hf
  | @exit job _ _ _ _ _ last procs =>
    cases hj
    have hw := h job last fun he => hf (firstEnded_exit procs he)
    exact ⟨hw.running, hw.wait⟩

theorem waiting_reached {t : Fds Desc} {s : State} {ok : State → Action → Prop} (h : Reach (step t) ok .init s) :
    Waiting s := by
  refine h.invariant_reached (I := Waiting) ?_ ?_
  · intro s a s' hreach hi _ hs
    exact hi.move (distinct_reached (shell_reached hreach)) (move_of_step hs)
  · intro job hj
    cases hj

/-! ## The prompt -/

/-- The first process terminates when the other stages have. -/
def FirstLast (t : Fds Desc) (s : State) : Action → Prop
  | .exit 0 _ => ∀ job ∈ s.last,
    job.procs.length = (job.comesTo t).length ∧ ∀ p ∈ job.procs.tail, p.ended
  | _ => True

instance (t : Fds Desc) (s : State) : (a : Action) → Decidable (FirstLast t s a)
  | .exit 0 _ => inferInstanceAs (Decidable (∀ job ∈ s.last,
    job.procs.length = (job.comesTo t).length ∧ ∀ p ∈ job.procs.tail, p.ended = true))
  | .exit (_ + 1) _ | .run .. | .shell _ | .go _ => inferInstanceAs (Decidable True)

/-- Of a command whose first process has terminated all have. -/
def AllEnded (t : Fds Desc) (s : State) : Prop := ∀ job ∈ s.last, job.firstEnded → job.Finished t

theorem AllEnded.move {t : Fds Desc} {s s' : State} {a : Action} (h : AllEnded t s) (hok : FirstLast t s a)
    (hm : Move t s a s') : AllEnded t s' := by
  intro job' hj hf
  cases hm with
  | run =>
    cases hj
    cases hf
  | shell => exact h job' hj hf
  | @go job pre post place ps last procs next =>
    cases hj
    have hfirst : job.firstEnded := by
      rw [Job.firstEnded, procs]
      cases pre with
      | nil =>
        cases ps with
        | nil => exact absurd next Place.next_ne_nil
        | cons q ps => cases hf
      | cons p pre => exact hf
    -- the process that goes on has not terminated
    have hended := (h job last hfirst).ended place.alive (by rw [procs]; simp)
    cases hended
  | @exitFirst job post place _ _ last procs =>
    cases hj
    obtain ⟨hall, htail⟩ := hok job last
    rw [procs] at hall htail
    refine ⟨hall, ?_⟩
    intro p hp
    rcases List.mem_cons.1 hp with rfl | hp
    · rfl
    · exact htail p hp
  | @exit job p pre post place _ last procs =>
    cases hj
    have hfirst : job.firstEnded := by
      rw [Job.firstEnded, procs]
      exact hf
    have hended := (h job last hfirst).ended place.alive (by rw [procs]; simp)
    cases hended

theorem allEnded_reached {t : Fds Desc} {s : State} (h : Reach (step t) (FirstLast t) .init s) : AllEnded t s := by
  refine h.invariant (I := AllEnded t) ?_ ?_
  · intro s a s' hi hok hs
    exact hi.move hok (move_of_step hs)
  · intro job hj
    cases hj

theorem Comes.finished {t : Fds Desc} {job : Job} (h : Comes t job) (hone : (job.comesTo t).length = 1)
    (hf : job.firstEnded) : job.Finished t := by
  have hle := h.length_le
  rw [Job.firstEnded] at hf
  match hp : job.procs with
  | [] => rw [hp] at hf; cases hf
  | [p] =>
    rw [hp] at hf
    refine ⟨by rw [hp, hone]; rfl, fun q hq => ?_⟩
    rw [hp, List.mem_singleton] at hq
    subst hq
    exact hf
  | _ :: _ :: _ => rw [hp, hone] at hle; simp at hle

/-- When `run_command` returns to the prompt, the first stage of a pipeline in
the foreground has terminated; all of them have when there is no other, or
when it is the last to terminate. -/
theorem first_stage_reached {t : Fds Desc} {s : State} {job : Job} (hlast : s.last = some job) (hw : job.awaited)
    (hp : s.shell.main = .prompt) :
    (Reach (step t) anyStep .init s → job.firstEnded ∧ ((job.comesTo t).length = 1 → job.Finished t)) ∧
    (Reach (step t) (FirstLast t) .init s → job.Finished t) := by
  have hfirst {ok : State → Action → Prop} (h : Reach (step t) ok .init s) : job.firstEnded := by
    by_contra hf
    have hwait := (waiting_reached h job hlast hf).wait hw
    cases hp.symm.trans hwait
  constructor
  · intro h
    exact ⟨hfirst h, fun hone => (comes_reached h job hlast).finished hone (hfirst h)⟩
  · intro h
    exact allEnded_reached h job hlast (hfirst h)

/-- Two stages, the second of which terminates first. -/
theorem first_stage_reached_last :
    ∃ s job, exec (step terminalFds.table) (FirstLast terminalFds.table) .init
        [.run 7 [[97], PIPE, [98]] .fine, .go 0, .go 0, .go 1, .exit 1 0, .exit 0 0, .shell .wait,
          .shell .reportMain] = some s ∧
      s.last = some job ∧ job.procs.length = 2 ∧ job.Finished terminalFds.table := by
  have hrun : (exec (step terminalFds.table) (FirstLast terminalFds.table) .init
      [.run 7 [[97], PIPE, [98]] .fine, .go 0, .go 0, .go 1, .exit 1 0, .exit 0 0, .shell .wait,
        .shell .reportMain]).map (fun s => (s.shell.main, s.last.map fun job => (job.awaited, job.procs.length))) =
        some (.prompt, some (true, 2)) := by
    decide +kernel
  obtain ⟨s, hs, hs'⟩ := Option.map_eq_some_iff.1 hrun
  obtain ⟨hp, hjob⟩ := Prod.mk.inj hs'
  obtain ⟨job, hlast, hjob⟩ := Option.map_eq_some_iff.1 hjob
  obtain ⟨hw, hlen⟩ := Prod.mk.inj hjob
  exact ⟨s, job, hs, hlast, hlen, (first_stage_reached hlast hw hp).2 (reach_of_exec hs)⟩

/-- In `a | b` the shell is back at its prompt while `b` still runs, when `a`
terminates first. -/
theorem second_stage_runs :
    ¬ ∀ (c : Stage) (cs : List Stage) (s : State) (job : Job), Reach (step terminalFds.table) anyStep .init s →
      s.last = some job → job.line = pipelineOf c cs → job.awaited → s.shell.main = .prompt →
      job.Finished terminalFds.table := by
  have hrun : (exec (step terminalFds.table) anyStep .init
      [.run 7 [[97], PIPE, [98]] .fine, .go 0, .go 0, .go 1, .exit 0 0, .shell .wait, .shell .reportMain]).map
        (fun s => (decide (s.shell.main = .prompt),
          s.last.map fun job => (job.line, job.awaited, job.procs.map (·.ended)))) =
        some (true, some ([[97], PIPE, [98]], true, [true, false])) := by
    decide +kernel
  obtain ⟨s, hs, hs'⟩ := Option.map_eq_some_iff.1 hrun
  obtain ⟨hp, hjob⟩ := Prod.mk.inj hs'
  obtain ⟨job, hlast, hjob⟩ := Option.map_eq_some_iff.1 hjob
  simp only [Prod.mk.injEq] at hjob
  obtain ⟨hline, hw, hended⟩ := hjob
  intro h
  have hfin := h ⟨[[97]], by decide, by decide⟩ [⟨[[98]], by decide, by decide⟩] s job (reach_of_exec hs) hlast hline hw
    (of_decide_eq_true hp)
  have hall : ∀ b ∈ job.procs.map (·.ended), b = true := by
    intro b hb
    obtain ⟨p, hpm, rfl⟩ := List.mem_map.1 hb
    exact hfin.ended p hpm
  rw [hended] at hall
  exact absurd (hall false (by decide)) (by decide)

end SysProg.Foreground
