/-
The wiring of a pipeline: which process each stage becomes, and what its
descriptors stand for when it is executed.
-/
import SysProg.ShellFacts

namespace SysProg.Shell

/-- A stage of a pipeline: the strings between two pipe symbols. -/
structure Stage where
  words : List Token
  nonempty : words ≠ []
  noPipe : PIPE ∉ words

/-- The strings of a pipeline of a first stage and the others. -/
def pipelineOf : Stage → List Stage → List Token
  | c, [] => c.words
  | c, c' :: cs => c.words ++ PIPE :: pipelineOf c' cs

/-- The descriptors of the shell: the standard ones open, none of them a pipe
or file of the command. -/
structure ShellFds where
  table : Fds Desc
  std : ∀ n < 3, (table.get n).isSome
  inherited : ∀ n d, table.get n = some d → ∃ k, d = .inherited k

/-- The descriptors of a shell at a terminal: just the standard ones. -/
def terminalFds : ShellFds where
  table := [some (.inherited 0), some (.inherited 1), some (.inherited 2)]
  std := by decide
  inherited n d h := by
    match n with
    | 0 | 1 | 2 => cases h; exact ⟨_, rfl⟩
    | _ + 3 => cases h

theorem pipelineOf_ne_nil (c : Stage) (cs : List Stage) : pipelineOf c cs ≠ [] := by
  cases cs with
  | nil => exact c.nonempty
  | cons c' cs => simp [pipelineOf]

theorem get_talking (t : Fds Desc) (h : (t.get 1).isSome) (id m : Nat) :
    (talking t id).get m = if m = 1 then some (.pipeWrite id) else t.get m :=
  Fds.get_talking h _ _ m

theorem get_listening (t : Fds Desc) (h : (t.get 0).isSome) (id m : Nat) :
    (listening t id).get m = if m = 0 then some (.pipeRead id) else t.get m :=
  Fds.get_listening h _ _ m

/-- The descriptors of stage `k` of `n`, the pipes numbered from `id` and the
first process's descriptors `t`. -/
structure Wired (t : Fds Desc) (id n k : Nat) (fds : Fds Desc) : Prop where
  stdin : fds.get 0 = if k = 0 then t.get 0 else some (.pipeRead (id + k - 1))
  stdout : fds.get 1 = if k + 1 = n then t.get 1 else some (.pipeWrite (id + k))
  others : ∀ m, 2 ≤ m → fds.get m = t.get m

theorem Wired.first {t : Fds Desc} (h : (t.get 1).isSome) (id n : Nat) :
    Wired t id (n + 2) 0 (talking t id) where
  stdin := get_talking t h id 0
  stdout := by rw [get_talking t h, if_pos rfl, if_neg (by omega), Nat.add_zero]
  others m hm := by rw [get_talking t h, if_neg (by omega)]

/-- The other stages are wired from the reader of the first pipe on. -/
theorem Wired.next {t fds : Fds Desc} {id n k : Nat} (h : (t.get 0).isSome)
    (hw : Wired (listening t id) (id + 1) (n + 1) k fds) : Wired t id (n + 2) (k + 1) fds where
  stdin := by
    rw [hw.stdin, if_neg (Nat.succ_ne_zero k), get_listening t h, if_pos rfl]
    by_cases hk : k = 0
    · rw [if_pos hk, hk, Nat.zero_add, Nat.add_sub_cancel]
    · rw [if_neg hk]
      congr 2
      omega
  stdout := by
    by_cases hk : k + 1 = n + 1
    · rw [hw.stdout, if_pos hk, get_listening t h, if_neg (by decide), if_pos (by omega)]
    · rw [hw.stdout, if_neg hk, if_neg (by omega)]
      congr 2
      omega
  others m hm := by rw [hw.others m hm, get_listening t h, if_neg (by omega)]

/-- The processes of a pipeline, from the first process's descriptors `t` on. -/
theorem pipe_and_exec_wired {env : Env} (hfork : ∀ id, env.forkFails id = none) {a : Argv}
    {t : Fds Desc} {c : Stage} {cs : List Stage} (h : Vec a (pipelineOf c cs))
    (h0 : (t.get 0).isSome) (h1 : (t.get 1).isSome) (id : Nat) :
    (pipe_and_exec env id a t).length = (c :: cs).length ∧ ∀ k (hk : k < (c :: cs).length),
      ∃ fds, (pipe_and_exec env id a t)[k]? = some (env.execvp (c :: cs)[k].words fds) ∧
        Wired t id (c :: cs).length k fds := by
  induction cs generalizing a t c id with
  | nil =>
    rw [pipe_and_exec_last h c.nonempty c.noPipe]
    refine ⟨rfl, fun k hk => ⟨t, ?_⟩⟩
    obtain rfl : k = 0 := by simpa using hk
    exact ⟨rfl, rfl, rfl, fun _ _ => rfl⟩
  | cons c' cs ih =>
    obtain ⟨a', ha', hrun⟩ := (pipe_and_exec_pipe h c.nonempty c.noPipe (pipelineOf_ne_nil c' cs)).2 (hfork id)
    have hl0 : ((listening t id).get 0).isSome := by rw [get_listening t h0, if_pos rfl]; rfl
    have hl1 : ((listening t id).get 1).isSome := by
      rw [get_listening t h0, if_neg (by decide)]
      exact h1
    obtain ⟨hlen, hstages⟩ := ih (t := listening t id) ha' hl0 hl1 (id + 1)
    rw [hrun]
    refine ⟨by rw [List.length_cons, hlen]; rfl, ?_⟩
    intro k hk
    cases k with
    | zero => exact ⟨talking t id, rfl, Wired.first h1 id cs.length⟩
    | succ k =>
      obtain ⟨fds, hget, hw⟩ := hstages k (by simpa using hk)
      exact ⟨fds, hget, hw.next h0⟩

/-- Stage `k` of a pipeline of `n` stages, with its own pipes' ends at 0 and 1
and no pipe's end anywhere else. -/
structure StageFds (t : Fds Desc) (n k : Nat) (fds : Fds Desc) : Prop where
  stdin : fds.get 0 = if k = 0 then t.get 0 else some (.pipeRead (k - 1))
  stdout : fds.get 1 = if k + 1 = n then t.get 1 else some (.pipeWrite k)
  noPipe : ∀ m, 2 ≤ m → ∀ id, fds.get m ≠ some (.pipeRead id) ∧ fds.get m ≠ some (.pipeWrite id)

/-- A pipeline of any stages ends in one process a stage, at the `execvp` of its
strings: the first with the shell's stdin, the last with its stdout, each
other stdout the pipe that is the next one's stdin, no other end open. -/
theorem pipeline_wired (openFails : Mode → Token → Option Errno) (execFails : List Token → Option Errno)
    (message : Errno → Errno) (t : ShellFds) (c : Stage) (cs : List Stage) :
    let env : Env := .forking openFails execFails message
    (pipe_and_exec env 0 (parsed (pipelineOf c cs)) t.table).length = (c :: cs).length ∧
      ∀ k (hk : k < (c :: cs).length), ∃ fds,
        (pipe_and_exec env 0 (parsed (pipelineOf c cs)) t.table)[k]? = some (env.execvp (c :: cs)[k].words fds) ∧
          StageFds t.table (c :: cs).length k fds := by
  intro env
  obtain ⟨hlen, hstages⟩ := pipe_and_exec_wired (show ∀ id, env.forkFails id = none from fun _ => rfl)
    (Vec.parsed (pipelineOf c cs)) (t.std 0 (by decide)) (t.std 1 (by decide)) 0
  refine ⟨hlen, ?_⟩
  intro k hk
  obtain ⟨fds, hget, hw⟩ := hstages k hk
  refine ⟨fds, hget, ?_, ?_, ?_⟩
  · rw [hw.stdin, Nat.zero_add]
  · rw [hw.stdout, Nat.zero_add]
  · intro m hm id
    rw [hw.others m hm]
    constructor <;> intro he <;> obtain ⟨n, hn⟩ := t.inherited m _ he <;> cases hn

end SysProg.Shell
