/-
Systems that take steps: a step function, what may be assumed of the steps
of a run, the states such runs reach, and what is kept along them.

The actions are all that is not determined by the state: which process takes
its next step, and what the system answers it. `step s a = none` when `a` is
not possible in `s` (a process that blocks).
-/
import Mathlib.Logic.Relation

namespace SysProg

variable {σ α : Type*}

/-- One step, by an action for which `ok` holds in the state it is taken in. -/
def Steps (step : σ → α → Option σ) (ok : σ → α → Prop) (s s' : σ) : Prop :=
  ∃ a, ok s a ∧ step s a = some s'

/-- `s'` is reached from `s` by steps for which `ok` holds. -/
def Reach (step : σ → α → Option σ) (ok : σ → α → Prop) : σ → σ → Prop :=
  Relation.ReflTransGen (Steps step ok)

/-- No condition on the steps. -/
def anyStep (_ : σ) (_ : α) : Prop := True

instance (s : σ) (a : α) : Decidable (anyStep s a) := .isTrue trivial

namespace Reach

variable {step : σ → α → Option σ} {ok : σ → α → Prop} {s s' : σ}

/-- What holds at the start of a run and is kept by its steps, holds at its end. -/
theorem invariant {I : σ → Prop} (hstep : ∀ s a s', I s → ok s a → step s a = some s' → I s')
    (hs : I s) (h : Reach step ok s s') : I s' := by
  induction h with
  | refl => exact hs
  | tail _ h ih =>
    obtain ⟨a, ha, h⟩ := h
    exact hstep _ a _ ih ha h

/-- The same, when a step keeps it in the states that are reached. -/
theorem invariant_reached {I : σ → Prop}
    (hstep : ∀ s₁ a s₂, Reach step ok s s₁ → I s₁ → ok s₁ a → step s₁ a = some s₂ → I s₂)
    (hs : I s) (h : Reach step ok s s') : I s' := by
  induction h with
  | refl => exact hs
  | tail hreach h ih =>
    obtain ⟨a, ha, h⟩ := h
    exact hstep _ a _ hreach ih ha h

/-- What is assumed of the steps can be left out. -/
theorem unconditional {ok : σ → α → Prop} (h : Reach step ok s s') : Reach step anyStep s s' := by
  induction h with
  | refl => exact .refl
  | tail _ h ih =>
    obtain ⟨a, -, h⟩ := h
    exact .tail ih ⟨a, trivial, h⟩

/-- A part of the system, each of whose steps is one of its own or leaves it
as it is, takes a run of its own. -/
theorem project {τ β : Type*} {part : τ → β → Option τ} {ok' : τ → β → Prop} (f : σ → τ)
    (hstep : ∀ s a s', ok s a → step s a = some s' → f s' = f s ∨ Steps part ok' (f s) (f s'))
    (h : Reach step ok s s') : Reach part ok' (f s) (f s') := by
  induction h with
  | refl => exact .refl
  | tail _ h ih =>
    obtain ⟨a, ha, h⟩ := h
    rcases hstep _ a _ ha h with he | hs
    · rw [he]
      exact ih
    · exact .tail ih hs

/-- Where every step seen through `f` can be taken by the system itself, so
can every run. -/
theorem lift {τ β : Type*} {part : τ → β → Option τ} {ok' : τ → β → Prop} {f : σ → τ} {I : σ → Prop} {t : τ}
    (hstep : ∀ s t, I s → Steps part ok' (f s) t → ∃ s', Steps step ok s s' ∧ I s' ∧ f s' = t)
    (hs : I s) (h : Reach part ok' (f s) t) : ∃ s', Reach step ok s s' ∧ I s' ∧ f s' = t := by
  induction h with
  | refl => exact ⟨s, .refl, hs, rfl⟩
  | tail _ h ih =>
    obtain ⟨s₁, hreach, hI, rfl⟩ := ih
    obtain ⟨s₂, h₂, hI, rfl⟩ := hstep _ _ hI h
    exact ⟨s₂, hreach.tail h₂, hI, rfl⟩

theorem lift_many {τ β : Type*} {part : τ → β → Option τ} {ok' : τ → β → Prop} {f : σ → τ} {I : σ → Prop} {t : τ}
    (hstep : ∀ s t, I s → Steps part ok' (f s) t → ∃ s', Reach step ok s s' ∧ I s' ∧ f s' = t)
    (hs : I s) (h : Reach part ok' (f s) t) : ∃ s', Reach step ok s s' ∧ I s' ∧ f s' = t := by
  induction h with
  | refl => exact ⟨s, .refl, hs, rfl⟩
  | tail _ h ih =>
    obtain ⟨s₁, hreach, hI, rfl⟩ := ih
    obtain ⟨s₂, h₂, hI, rfl⟩ := hstep _ _ hI h
    exact ⟨s₂, hreach.trans h₂, hI, rfl⟩

theorem ahead {step : σ → Unit → Option σ} {s t v : σ} (hst : Reach step anyStep s t) (hsv : Reach step anyStep s v)
    (hv : step v () = none) : Reach step anyStep t v := by
  have hunique : Relator.RightUnique (Steps step (anyStep (α := Unit))) := by
    rintro a b c ⟨_, _, hb⟩ ⟨_, _, hc⟩
    exact Option.some_inj.1 (hb.symm.trans hc)
  rcases Relation.ReflTransGen.total_of_right_unique hunique hst hsv with h | h
  · exact h
  · rcases h.cases_head with rfl | ⟨w, ⟨_, _, hw⟩, -⟩
    · exact .refl
    · exact absurd (hv.symm.trans hw) (Option.some_ne_none _).symm

end Reach

/-- The run of a list of actions, as far as `ok` holds of its steps. -/
def exec (step : σ → α → Option σ) (ok : σ → α → Prop) [∀ s a, Decidable (ok s a)] :
    σ → List α → Option σ
  | s, [] => some s
  | s, a :: as => if ok s a then (step s a).bind fun s => exec step ok s as else none

theorem reach_of_exec {step : σ → α → Option σ} {ok : σ → α → Prop} [∀ s a, Decidable (ok s a)]
    {as : List α} {s s' : σ} (h : exec step ok s as = some s') : Reach step ok s s' := by
  induction as generalizing s with
  | nil =>
    cases h
    exact .refl
  | cons a as ih =>
    unfold exec at h
    split at h
    · next ha =>
      obtain ⟨s₁, h₁, h⟩ := Option.bind_eq_some_iff.1 h
      exact .head ⟨a, ha, h₁⟩ (ih h)
    · cases h

theorem exec_concat {step : σ → α → Option σ} {as : List α} {a : α} {s s' s'' : σ}
    (h : exec step anyStep s as = some s') (ha : step s' a = some s'') :
    exec step anyStep s (as ++ [a]) = some s'' := by
  induction as generalizing s with
  | nil =>
    cases h
    rw [List.nil_append, exec, if_pos (show anyStep _ _ from trivial), ha]
    rfl
  | cons b as ih =>
    rw [exec, if_pos (show anyStep _ _ from trivial)] at h
    obtain ⟨s₁, h₁, h⟩ := Option.bind_eq_some_iff.1 h
    rw [List.cons_append, exec, if_pos (show anyStep _ _ from trivial), h₁]
    exact ih h

/-- A system whose runs are bounded, and go on as long as they are not at an
end, has a run to an end. -/
theorem exec_completes {step : σ → α → Option σ} {P : σ → Prop} {n : Nat} {s : σ}
    (hrun : ∀ as s', exec step anyStep s as = some s' → as.length ≤ n ∧ (P s' ∨ ∃ a s'', step s' a = some s'')) :
    ∃ as s', exec step anyStep s as = some s' ∧ P s' := by
  refine Classical.byContradiction fun hno => ?_
  have hlong : ∀ k, ∃ as s', exec step anyStep s as = some s' ∧ as.length = k := by
    intro k
    induction k with
    | zero => exact ⟨[], s, rfl, rfl⟩
    | succ k ih =>
      obtain ⟨as, s', h, rfl⟩ := ih
      rcases (hrun as s' h).2 with hP | ⟨a, s'', ha⟩
      · exact absurd ⟨as, s', h, hP⟩ hno
      · exact ⟨as ++ [a], s'', exec_concat h ha, by rw [List.length_append]; rfl⟩
  obtain ⟨as, s', h, hlen⟩ := hlong (n + 1)
  have := (hrun as s' h).1
  omega

/-- Where each step adds one to a count, a run adds the number of its steps. -/
theorem exec_count_of {step : σ → α → Option σ} {ok : σ → α → Prop} [∀ s a, Decidable (ok s a)] {I : σ → Prop}
    {count : σ → Nat} (hstep : ∀ s a s', I s → ok s a → step s a = some s' → I s' ∧ count s' = count s + 1)
    {as : List α} {s s' : σ} (hs : I s) (h : exec step ok s as = some s') : count s' = count s + as.length := by
  induction as generalizing s with
  | nil =>
    cases h
    rfl
  | cons a as ih =>
    unfold exec at h
    split at h
    · next ha =>
      obtain ⟨s₁, h₁, h⟩ := Option.bind_eq_some_iff.1 h
      obtain ⟨hI, hcount⟩ := hstep s a s₁ hs ha h₁
      rw [ih hI h, hcount, List.length_cons]
      omega
    · cases h

theorem exec_count {step : σ → α → Option σ} {ok : σ → α → Prop} [∀ s a, Decidable (ok s a)] {I : σ → Prop}
    {count : σ → Nat} (hstep : ∀ s a s', I s → step s a = some s' → I s' ∧ count s' = count s + 1) {as : List α}
    {s s' : σ} (hs : I s) (h : exec step ok s as = some s') : count s' = count s + as.length :=
  exec_count_of (fun s a s' hI _ => hstep s a s' hI) hs h

/-- Where the steps of one kind add one to a count and the others nothing, a run
adds the number of those steps. -/
theorem exec_countP {step : σ → α → Option σ} {ok : σ → α → Prop} [∀ s a, Decidable (ok s a)] {I : σ → Prop}
    {count : σ → Nat} {kind : α → Bool} (hstep : ∀ s a s', I s → step s a = some s' →
      I s' ∧ count s' = count s + if kind a then 1 else 0) {as : List α}
    {s s' : σ} (hs : I s) (h : exec step ok s as = some s') : count s' = count s + as.countP kind := by
  induction as generalizing s with
  | nil =>
    cases h
    rfl
  | cons a as ih =>
    unfold exec at h
    split at h
    · obtain ⟨s₁, h₁, h⟩ := Option.bind_eq_some_iff.1 h
      obtain ⟨hI, hcount⟩ := hstep s a s₁ hs h₁
      rw [ih hI h, hcount, List.countP_cons]
      omega
    · cases h

/-- Where each step takes from what is to go, a run is no longer than that. -/
theorem exec_spends {step : σ → α → Option σ} {ok : σ → α → Prop} [∀ s a, Decidable (ok s a)] {I : Nat → σ → Prop}
    (hstep : ∀ n s a s', I n s → ok s a → step s a = some s' → ∃ m < n, I m s') {as : List α} {n : Nat} {s s' : σ}
    (hs : I n s) (h : exec step ok s as = some s') : ∃ m, I m s' ∧ m + as.length ≤ n := by
  induction as generalizing n s with
  | nil =>
    cases h
    exact ⟨n, hs, Nat.le_refl n⟩
  | cons a as ih =>
    unfold exec at h
    split at h
    · next ha =>
      obtain ⟨s₁, h₁, h⟩ := Option.bind_eq_some_iff.1 h
      obtain ⟨m, hm, hI⟩ := hstep n s a s₁ hs ha h₁
      obtain ⟨k, hk, hle⟩ := ih hI h
      refine ⟨k, hk, ?_⟩
      rw [List.length_cons]
      omega
    · cases h

/-- If the count is bounded, and there is a step wherever the end is not
reached, then the end can be reached. -/
theorem Reach.comes_to {step : σ → α → Option σ} {ok : σ → α → Prop} {I P : σ → Prop} {count : σ → Nat} {bound : Nat}
    (hstep : ∀ s a s', I s → step s a = some s' → I s' ∧ count s' = count s + 1) (hbound : ∀ s, I s → count s ≤ bound)
    (hgo : ∀ s, I s → P s ∨ ∃ a s', ok s a ∧ step s a = some s') {s : σ} (hs : I s) :
    ∃ s', Reach step ok s s' ∧ P s' := by
  induction hn : bound - count s generalizing s with
  | zero =>
    rcases hgo s hs with hP | ⟨a, s', -, h⟩
    · exact ⟨s, .refl, hP⟩
    · obtain ⟨hI, hcount⟩ := hstep s a s' hs h
      have := hbound s' hI
      omega
  | succ n ih =>
    rcases hgo s hs with hP | ⟨a, s', ha, h⟩
    · exact ⟨s, .refl, hP⟩
    · obtain ⟨hI, hcount⟩ := hstep s a s' hs h
      obtain ⟨s₂, hreach, hP⟩ := ih hI (by omega)
      exact ⟨s₂, .head ⟨a, ha, h⟩ hreach, hP⟩

end SysProg
