/-
Running a command line in the last shell (`sh9`): its argument vector as
`parse` makes it, the functions that look for the operators in it and cut it
in place, and the processes it ends in.

A process ends in `execvp`, which returns only if it fails, or in `exit`. What
the system decides (which files open, which forks succeed, which programs there
are) is an `Env`; `pipe` and `dup2` succeed.
-/
import SysProg.Lib.Buffer
import SysProg.Lib.Fds

namespace SysProg.Shell

/-- A string of an argument vector. -/
abbrev Token := List Byte

/-- The token `|`. -/
def PIPE : Token := [124]

/-- The token `<`. -/
def LT : Token := [60]

/-- The token `>`. -/
def GT : Token := [62]

/-- The character `&`. -/
def AMP : Byte := 38

/-! ## Argument vectors -/

/-- The slots of an argument vector, NULL and what lies beyond it included. -/
abbrev Argv := List (Option Token)

namespace Argv

/-- `argv[i]`. -/
def slot (a : Argv) (i : Nat) : Option Token := a[i]?.join

/-- The strings before the first NULL. -/
def vector : Argv → List Token
  | some t :: a => t :: vector a
  | _ => []

/-- The index of the first slot that is NULL. -/
def nullAt : Argv → Nat
  | some _ :: a => nullAt a + 1
  | _ => 0

/-- The index of the first slot that holds `op` or is NULL. -/
def search (op : Token) : Argv → Nat
  | some t :: a => if t = op then 0 else search op a + 1
  | _ => 0

end Argv

theorem Argv.lt_of_slot {a : Argv} {i : Nat} {t : Token} (h : a.slot i = some t) :
    i < a.length := by
  by_contra hi
  rw [Argv.slot, List.getElem?_eq_none (by omega)] at h
  cases h

/-- The vector as `parse` returns it. -/
def parsed (ts : List Token) : Argv := ts.map some ++ [none]

/-! ## What a process holds and comes to -/

/-- How a file is opened. -/
inductive Mode where
  | read
  | write
  deriving DecidableEq

/-- What a descriptor stands for: one the shell had, a file opened for a
redirection, an end of the `id`-th pipe of the command. -/
inductive Desc where
  | inherited (n : Nat)
  | file (path : Token) (mode : Mode)
  | pipeRead (id : Nat)
  | pipeWrite (id : Nat)
  deriving DecidableEq

/-- A value of `errno`. -/
structure Errno where
  val : Nat
  pos : 0 < val
  lt : val < 256
  deriving DecidableEq

/-- Invalid argument. -/
def EINVAL : Errno := ⟨22, by decide, by decide⟩

/-- What the system decides. -/
structure Env where
  /-- How `open` fails on a file, if it does. -/
  openFails : Mode → Token → Option Errno
  /-- How the `fork` for the `id`-th pipe fails, if it does. -/
  forkFails : Nat → Option Errno
  /-- How `execvp` fails with a vector, if it does. -/
  execFails : List Token → Option Errno
  /-- What a message on stderr leaves of `errno`, which no call sets to 0. -/
  message : Errno → Errno

/-- An environment in which every fork succeeds. -/
def Env.forking (openFails : Mode → Token → Option Errno) (execFails : List Token → Option Errno)
    (message : Errno → Errno) : Env := ⟨openFails, fun _ => none, execFails, message⟩

/-- One in which nothing fails. -/
def Env.fine : Env := .forking (fun _ _ => none) (fun _ => none) id

/-- What a process comes to. -/
inductive Proc where
  /-- Its `execvp`; where that returns, the status it exits with. -/
  | exec (argv : List Token) (fds : Fds Desc) (fails : Option Nat)
  | exit (status : Nat)
  deriving DecidableEq

/-- The exit after a message, with what is then in `errno`. -/
def Env.exit (env : Env) (e : Errno) : Proc := .exit (env.message e).val

/-- `execvp`, and the exit where it fails. -/
def Env.execvp (env : Env) (argv : List Token) (fds : Fds Desc) : Proc :=
  .exec argv fds ((env.execFails argv).map fun e => (env.message e).val)

/-! ## is_background -/

/-- Whether the last string begins with `&`; it is removed then. -/
def is_background (a : Argv) : Bool × Argv :=
  match a.slot 0 with
  | none => (false, a)
  | some _ =>
    let last := a.nullAt - 1
    if ((a.slot last).getD []).headD NUL = AMP then (true, a.set last none) else (false, a)

/-! ## redirect_in, redirect_out -/

/-- The closing up of the vector, from slot `j` on: each string moves two
slots down, and NULL after them. -/
def closeUp (a : Argv) (j : Nat) : Argv :=
  match _h : a.slot j with
  | some t => closeUp (a.set (j - 2) (some t)) (j + 1)
  | none => a.set (j - 2) none
termination_by a.length - j
decreasing_by
  have := Argv.lt_of_slot _h
  simp only [List.length_set]
  omega

/-- The search for `op`, and the redirection of `fd` to the file after it:
the vector, the descriptors, and the file opened, if any; or `errno`. -/
def redirect (op : Token) (mode : Mode) (fd : Nat) (env : Env) (a : Argv) (t : Fds Desc) :
    Except Errno (Argv × Fds Desc × Option Token) :=
  let i := a.search op
  match a.slot i with
  | none => .ok (a, t, none)
  | some _ =>
    match a.slot (i + 1) with
    -- File for redirection has not been provided.
    | none => .error EINVAL
    | some f =>
      match env.openFails mode f with
      | some e => .error (env.message e)
      | none =>
        let d := t.lowest
        .ok (closeUp a (i + 2), ((t.put d (some (.file f mode))).dup2 d fd).close d, some f)

/-- The function of `<`. -/
def redirect_in : Env → Argv → Fds Desc → Except Errno (Argv × Fds Desc × Option Token) := redirect LT .read 0

/-- The function of `>`. -/
def redirect_out : Env → Argv → Fds Desc → Except Errno (Argv × Fds Desc × Option Token) := redirect GT .write 1

/-! ## pipe_present, pipe_and_exec -/

/-- Where the first `|` is: 0 if there is none, -1 if it is out of place. -/
def pipe_present (a : Argv) : Int :=
  let index := a.search PIPE
  -- At the beginning or at the end.
  if index = 0 ∨ a.slot index ≠ none ∧ a.slot (index + 1) = none then -1
  -- Off the end.
  else if a.slot index = none then 0
  else index

theorem ne_nil_of_pipe_present {a : Argv} (h : pipe_present a ≠ -1) : a ≠ [] := by
  intro ha
  subst ha
  exact h rfl

/-- The processes a vector is run in, the talking parent of each pipe before
its listening child. Their pipes are numbered from `id`. -/
def pipe_and_exec (env : Env) (id : Nat) (a : Argv) (t : Fds Desc) : List Proc :=
  if _h : pipe_present a = -1 then [env.exit EINVAL]
  else if pipe_present a = 0 then [env.execvp a.vector t]
  else
    let i := (pipe_present a).toNat
    let a' : Argv := a.set i none
    let (t, r, w) := t.pipe (.pipeRead id) (.pipeWrite id)
    match env.forkFails id with
    | some e => [env.exit e]
    | none =>
      env.execvp a'.vector (((t.dup2 w 1).close w).close r) ::
        pipe_and_exec env (id + 1) (a'.drop (i + 1)) (((t.dup2 r 0).close r).close w)
termination_by a.length
decreasing_by
  have := List.length_pos_iff.2 (ne_nil_of_pipe_present _h)
  simp only [List.length_drop, List.length_set]
  omega

/-! ## run_command -/

/-- What a command line comes to: its processes, and the files it created or
truncated. -/
structure Command where
  procs : List Proc
  created : List Token

/-- The child `run_command` forks. -/
def runChild (env : Env) (a : Argv) (t : Fds Desc) : Command :=
  match redirect_in env a t with
  | .error e => ⟨[env.exit e], []⟩
  | .ok (a, t, _) =>
    match redirect_out env a t with
    | .error e => ⟨[env.exit e], []⟩
    | .ok (a, t, f) => ⟨pipe_and_exec env 0 a t, f.toList⟩

/-- Whether the shell waits for the command, and what the command comes to. -/
def run_command (env : Env) (a : Argv) (t : Fds Desc) : Bool × Command :=
  let (run_in_background, a) := is_background a
  (!run_in_background, runChild env a t)

end SysProg.Shell
