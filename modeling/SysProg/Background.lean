/-
Commands in the background. `is_background` looks at the first character of
the last string only, where the functions for the other operators compare the
whole string.
-/
import SysProg.Pipeline

namespace SysProg.Shell

/-- No string of the vector is an operator for redirections or pipes. -/
def Plain (ts : List Token) : Prop := ∀ op ∈ [LT, GT, PIPE], op ∉ ts

theorem runChild_plain (env : Env) (t : Fds Desc) {a : Argv} {ts : List Token} (h : Vec a ts) (hne : ts ≠ [])
    (hplain : Plain ts) : runChild env a t = ⟨[env.execvp ts t], []⟩ := by
  have hLT := hplain LT (by simp)
  have hGT := hplain GT (by simp)
  have hPIPE := hplain PIPE (by simp)
  unfold runChild redirect_in redirect_out
  rw [redirect_absent h hLT]
  dsimp only
  rw [redirect_absent h hGT]
  dsimp only
  rw [pipe_and_exec_last h hne hPIPE]
  rfl

/-- The shell does not wait exactly when the last string is `&`, and what its
child runs is the vector without that string then, and else the whole vector. -/
def BackgroundExact (env : Env) (t : Fds Desc) (ts : List Token) : Prop :=
  run_command env (parsed ts) t =
    if ts.getLast? = some [AMP] then (false, runChild env (parsed ts.dropLast) t)
    else (true, runChild env (parsed ts) t)

theorem run_command_eq (env : Env) (t : Fds Desc) (ts : List Token) :
    run_command env (parsed ts) t =
      if (ts.getLast?.getD []).headD NUL = AMP then (false, runChild env (parsed ts.dropLast) t)
      else (true, runChild env (parsed ts) t) := by
  obtain ⟨hback, hvec⟩ := is_background_eq (Vec.parsed ts)
  have hcommand := runChild_congr env t hvec (Vec.parsed (foreground ts))
  have hrun : run_command env (parsed ts) t =
      (!decide ((ts.getLast?.getD []).headD NUL = AMP), runChild env (parsed (foreground ts)) t) := by
    rw [← hback, ← hcommand]
    rfl
  rw [hrun, foreground]
  split
  · next hamp => rw [decide_eq_true hamp, Bool.not_true]
  · next hamp => rw [decide_eq_false hamp, Bool.not_false]

/-- A vector is run as its last string says exactly when that, if it begins
with `&`, is `&`. -/
theorem background_exact_iff (env : Env) (t : Fds Desc) (ts : List Token) :
    BackgroundExact env t ts ↔ ∀ last ∈ ts.getLast?, last.headD NUL = AMP → last = [AMP] := by
  rw [BackgroundExact, run_command_eq]
  cases hlast : ts.getLast? with
  | none =>
    rw [List.getLast?_eq_none_iff.1 hlast]
    exact iff_of_true rfl (by simp)
  | some last =>
    simp only [Option.getD_some, Option.mem_def, Option.some.injEq, forall_eq']
    by_cases hamp : last = [AMP]
    · rw [hamp]
      exact iff_of_true rfl fun _ => rfl
    · by_cases hhead : last.headD NUL = AMP
      · rw [if_pos hhead, if_neg hamp]
        -- the shell waits, or does not
        refine iff_of_false (fun he => ?_) fun h => hamp (h hhead)
        cases congrArg Prod.fst he
      · rw [if_neg hhead, if_neg hamp]
        exact iff_of_true rfl fun h => absurd h hhead

/-- `cat &x` is executed as `cat`, and not waited for. -/
theorem argument_backgrounds :
    run_command .fine (parsed [[99, 97, 116], [AMP, 120]]) terminalFds.table =
      (false, ⟨[.exec [[99, 97, 116]] terminalFds.table none], []⟩) ∧
    ¬ BackgroundExact .fine terminalFds.table [[99, 97, 116], [AMP, 120]] := by
  constructor
  · rw [run_command_eq, if_pos (by decide)]
    exact congrArg _ (runChild_plain .fine terminalFds.table (Vec.parsed _) (by decide) (by unfold Plain; decide))
  · rw [background_exact_iff]
    intro h
    exact absurd (h [AMP, 120] rfl rfl) (by decide)

end SysProg.Shell
