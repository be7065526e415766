/-
Command lines that are not well formed. The shell checks a line as it goes, so
what a bad one does depends on what was done before the check it fails: it
has no effect exactly when the first operator of each kind is already refused,
or there is no program for what stands before it.
-/
import SysProg.Pipeline

namespace SysProg.Shell

/-- Stages that are not empty, and after each `<` and `>` in them the file. -/
def WellFormed (ts : List Token) : Prop :=
  (∀ c ∈ ts.splitOn PIPE, c ≠ []) ∧ ∀ i (hi : i < ts.length), ts[i] = LT ∨ ts[i] = GT →
    ∃ f, ts[i + 1]? = some f ∧ f ≠ LT ∧ f ≠ GT ∧ f ≠ PIPE

/-- A process that executes nothing and ends in an error exit. -/
def Proc.Fails : Proc → Prop
  | .exec _ _ fails => ∃ status ∈ fails, status ≠ 0
  | .exit status => status ≠ 0

/-- All its processes do, and no file is created or truncated. -/
def Command.NoEffect (c : Command) : Prop := (∀ p ∈ c.procs, p.Fails) ∧ c.created = []

/-! ## What is refused -/

/-- The vector is refused, its pipes numbered from `id`: it is empty, or has a
pipe first, or its first pipe last; or the fork for that fails; or `execvp` fails
with what stands before it, and what stands after it is refused as well. -/
def CaughtAtPipe (env : Env) (id : Nat) (ts : List Token) : Prop :=
  ts = [] ∨ ts.head? = some PIPE ∨
    match _h : ts.dropWhile (· ≠ PIPE) with
    | [] => (env.execFails ts).isSome
    | [_] => True
    | _ :: s =>
      (env.forkFails id).isSome ∨ (env.execFails (ts.takeWhile (· ≠ PIPE))).isSome ∧ CaughtAtPipe env (id + 1) s
termination_by ts.length
decreasing_by
  have hle := (List.dropWhile_sublist (l := ts) (· ≠ PIPE)).length_le
  rw [_h, List.length_cons] at hle
  exact hle

/-- It is refused at its first `>`, where it has one, or later. -/
def CaughtAtOut (env : Env) (ts : List Token) : Prop :=
  match ts.dropWhile (· ≠ GT) with
  | [] => CaughtAtPipe env 0 ts
  | [_] => True
  | _ :: f :: _ => (env.openFails .write f).isSome

/-- It is refused at its first `<`, where it has one, or later. -/
def Caught (env : Env) (ts : List Token) : Prop :=
  match ts.dropWhile (· ≠ LT) with
  | [] => CaughtAtOut env ts
  | [_] => True
  | _ :: f :: s => (env.openFails .read f).isSome ∨ CaughtAtOut env (ts.takeWhile (· ≠ LT) ++ s)

section

variable {env : Env} {a : Argv} {t : Fds Desc} {ts : List Token}

theorem fails_exit (env : Env) (e : Errno) : (env.exit e).Fails := Nat.ne_of_gt (env.message e).pos

theorem fails_execvp (env : Env) (argv : List Token) (fds : Fds Desc) :
    (env.execvp argv fds).Fails ↔ (env.execFails argv).isSome := by
  rw [Env.execvp, Proc.Fails]
  cases env.execFails argv with
  | none => simp
  | some e => simpa using Nat.ne_of_gt (env.message e).pos

theorem noEffect_exit {c : Command} {e : Errno} (h : c = ⟨[env.exit e], []⟩) : c.NoEffect := by
  subst h
  refine ⟨fun p hp => ?_, rfl⟩
  rw [List.mem_singleton.1 hp]
  exact fails_exit env e

theorem caughtAtPipe_last (id : Nat) (hne : ts ≠ []) (hp : PIPE ∉ ts) :
    CaughtAtPipe env id ts ↔ (env.execFails ts).isSome := by
  have hhead : ts.head? ≠ some PIPE := fun hh => hp (List.mem_of_mem_head? hh)
  rw [CaughtAtPipe, dropWhile_absent hp]
  simp [hne, hhead]

theorem caughtAtPipe_pipe (id : Nat) {p s : List Token} (hne : p ≠ []) (hp : PIPE ∉ p) (hs : s ≠ []) :
    CaughtAtPipe env id (p ++ PIPE :: s) ↔
      (env.forkFails id).isSome ∨ (env.execFails p).isSome ∧ CaughtAtPipe env (id + 1) s := by
  have hhead : (p ++ PIPE :: s).head? ≠ some PIPE := by
    rw [List.head?_append_of_ne_nil _ hne]
    exact fun hh => hp (List.mem_of_mem_head? hh)
  obtain ⟨f, s, rfl⟩ := List.exists_cons_of_ne_nil hs
  rw [CaughtAtPipe, or_iff_right (by simp), or_iff_right hhead, (dropWhile_first hp).1, (dropWhile_first hp).2]

/-- All processes of the pipes fail exactly when the vector is refused. -/
theorem fails_pipe (id : Nat) (h : Vec a ts) : (∀ p ∈ pipe_and_exec env id a t, p.Fails) ↔ CaughtAtPipe env id ts := by
  induction hn : ts.length using Nat.strongRecOn generalizing ts a t id with
  | ind n ih =>
    rcases pipe_cases ts with hbad | ⟨hne, hp⟩ | ⟨p, s, hne, hp, hs, rfl⟩
    · rw [pipe_and_exec_bad h hbad, List.forall_mem_singleton, CaughtAtPipe]
      refine iff_of_true (fails_exit env _) ?_
      rcases hbad with hnil | hhead | ⟨p, hp, rfl⟩
      · exact .inl hnil
      · exact .inr (.inl hhead)
      · rw [(dropWhile_first hp).1]
        exact .inr (.inr trivial)
    · rw [pipe_and_exec_last h hne hp, List.forall_mem_singleton, fails_execvp, caughtAtPipe_last id hne hp]
    · rw [caughtAtPipe_pipe id hne hp hs]
      cases hf : env.forkFails id with
      | some e =>
        rw [(pipe_and_exec_pipe h hne hp hs).1 e hf, List.forall_mem_singleton]
        exact iff_of_true (fails_exit env e) (.inl rfl)
      | none =>
        obtain ⟨a', ha', hrun⟩ := (pipe_and_exec_pipe (t := t) h hne hp hs).2 hf
        have hlt : s.length < n := by
          rw [← hn, List.length_append, List.length_cons]
          omega
        rw [hrun, List.forall_mem_cons, fails_execvp, ih s.length hlt (id + 1) ha' rfl]
        simp

theorem noEffect_pipe (h : Vec a ts) :
    Command.NoEffect ⟨pipe_and_exec env 0 a t, []⟩ ↔ CaughtAtPipe env 0 ts := by
  rw [← fails_pipe (t := t) 0 h, Command.NoEffect, and_iff_left rfl]

/-- The rest of the child, from `redirect_out` on. -/
def runOut (env : Env) (a : Argv) (t : Fds Desc) : Command :=
  match redirect_out env a t with
  | .error e => ⟨[env.exit e], []⟩
  | .ok (a, t, f) => ⟨pipe_and_exec env 0 a t, f.toList⟩

theorem noEffect_out (h : Vec a ts) : (runOut env a t).NoEffect ↔ CaughtAtOut env ts := by
  rcases first_cases GT ts with hop | ⟨p, s, hop, rfl⟩
  · unfold CaughtAtOut runOut redirect_out
    rw [dropWhile_absent hop, redirect_absent h hop]
    exact noEffect_pipe h
  · rw [CaughtAtOut, (dropWhile_first hop).1]
    cases s with
    | nil => exact iff_of_true (noEffect_exit (by rw [runOut, redirect_out, redirect_missing h hop])) trivial
    | cons f s =>
      cases hopen : env.openFails .write f with
      | some e =>
        refine iff_of_true (noEffect_exit (by rw [runOut, redirect_out, redirect_refused h hop hopen])) ?_
        simp only [hopen, Option.isSome_some]
      | none =>
        obtain ⟨a', -, hr⟩ := redirect_file 1 t h hop hopen
        refine iff_of_false ?_ (by simp [hopen])
        intro hn
        have := hn.2
        rw [runOut, redirect_out, hr] at this
        cases this

theorem noEffect_child (h : Vec a ts) : (runChild env a t).NoEffect ↔ Caught env ts := by
  rcases first_cases LT ts with hop | ⟨p, s, hop, rfl⟩
  · unfold Caught runChild redirect_in
    rw [dropWhile_absent hop, redirect_absent h hop]
    exact noEffect_out h
  · rw [Caught, (dropWhile_first hop).1, (dropWhile_first hop).2]
    cases s with
    | nil => exact iff_of_true (noEffect_exit (by rw [runChild, redirect_in, redirect_missing h hop])) trivial
    | cons f s =>
      cases hopen : env.openFails .read f with
      | some e =>
        refine iff_of_true (noEffect_exit (by rw [runChild, redirect_in, redirect_refused h hop hopen])) ?_
        exact .inl (by rw [hopen]; rfl)
      | none =>
        obtain ⟨a', ha', hr⟩ := redirect_file 0 t h hop hopen
        rw [runChild, redirect_in, hr]
        refine (noEffect_out ha').trans ?_
        simp [hopen]

end

end SysProg.Shell
