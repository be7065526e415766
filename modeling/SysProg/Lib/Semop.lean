/-
System V semaphores: one operation of `semop` on a set, with the adjustment
the kernel keeps of it for the caller's exit (`SEM_UNDO`).
-/
import Mathlib.Order.MinMax
import Mathlib.Tactic.Common

namespace SysProg

/-- The largest value of a semaphore, and of an adjustment. -/
def SEMVMX : Nat := 32767

/-- `struct sembuf`, whose amounts fit the short it has for them. `undo` is its
flag `SEM_UNDO`. -/
structure Sembuf where
  sem_num : Nat
  sem_op : Int
  undo : Bool

/-- The values of a set. -/
abbrev Sems := Nat → Nat

/-- A process's adjustments of a set, to be added to its values when it exits. -/
abbrev Semadj := Nat → Int

/-- What a call of `semop` comes to. -/
inductive Semop where
  /-- It succeeds. -/
  | done (sems : Sems) (adj : Semadj)
  /-- The caller sleeps. -/
  | blocks
  /-- It fails, nothing changed: a value or an adjustment would be out of range. -/
  | fails

/-- `semop(semid, op, 1)`. -/
def semop (op : Sembuf) (sems : Sems) (adj : Semadj) : Semop :=
  let value : Int := sems op.sem_num + op.sem_op
  let undo := adj op.sem_num - op.sem_op
  if op.sem_op = 0 ∧ sems op.sem_num ≠ 0 ∨ value < 0 then .blocks
  else if SEMVMX < value ∨ op.undo ∧ (undo < -SEMVMX - 1 ∨ SEMVMX < undo) then .fails
  else .done (Function.update sems op.sem_num value.toNat)
    (if op.undo then Function.update adj op.sem_num undo else adj)

variable {op : Sembuf} {sems : Sems} {adj : Semadj}

theorem semop_blocks (h : op.sem_op = 0 ∧ sems op.sem_num ≠ 0 ∨ (sems op.sem_num : Int) + op.sem_op < 0) :
    semop op sems adj = .blocks := by
  simp only [semop, if_pos h]

theorem semop_zero (ho : op.sem_op = 0) (hu : op.undo = false) (h : sems op.sem_num = 0) :
    semop op sems adj = .done sems adj := by
  have hsame : Function.update sems op.sem_num 0 = sems := by rw [← h, Function.update_eq_self]
  simp [semop, ho, hu, h, SEMVMX, hsame]

/-- An operation with an adjustment that gives its semaphore the value `v` in
range: it succeeds exactly when its adjustment is in range too. -/
theorem semop_undo {v : Nat} (ho : op.sem_op ≠ 0) (hu : op.undo = true)
    (hv : (sems op.sem_num : Int) + op.sem_op = v) (hmax : v ≤ SEMVMX) :
    semop op sems adj =
      if -SEMVMX - 1 ≤ adj op.sem_num - op.sem_op ∧ adj op.sem_num - op.sem_op ≤ SEMVMX then
        .done (Function.update sems op.sem_num v) (Function.update adj op.sem_num (adj op.sem_num - op.sem_op))
      else .fails := by
  have hb : ¬ (op.sem_op = 0 ∧ sems op.sem_num ≠ 0 ∨ (v : Int) < 0) := fun h =>
    h.elim (fun h => ho h.1) (by omega)
  have hm : ¬ (SEMVMX : Int) < v := by omega
  simp only [semop, hv, if_neg hb, hm, false_or, hu, true_and, Int.toNat_natCast, if_true]
  by_cases h : -SEMVMX - 1 ≤ adj op.sem_num - op.sem_op ∧ adj op.sem_num - op.sem_op ≤ SEMVMX
  · rw [if_pos h, if_neg (by omega)]
  · rw [if_neg h, if_pos (by omega)]

theorem semop_undo_fails {v : Nat} (ho : op.sem_op ≠ 0) (hu : op.undo = true)
    (hv : (sems op.sem_num : Int) + op.sem_op = v) (hmax : v ≤ SEMVMX) :
    semop op sems adj = .fails ↔
      ¬ (-SEMVMX - 1 ≤ adj op.sem_num - op.sem_op ∧ adj op.sem_num - op.sem_op ≤ SEMVMX) := by
  rw [semop_undo ho hu hv hmax]
  split
  · next h => exact ⟨fun hd => (nomatch hd), fun hn => absurd h hn⟩
  · next h => exact ⟨fun _ => h, fun _ => rfl⟩

/-- An operation that would take its semaphore beyond its largest value. -/
theorem semop_fails {v : Nat} (ho : op.sem_op ≠ 0) (hv : (sems op.sem_num : Int) + op.sem_op = v)
    (hmax : SEMVMX < v) : semop op sems adj = .fails := by
  have hb : ¬ (op.sem_op = 0 ∧ sems op.sem_num ≠ 0 ∨ (v : Int) < 0) := fun h =>
    h.elim (fun h => ho h.1) (by omega)
  have hm : (SEMVMX : Int) < v := by omega
  simp only [semop, hv, if_neg hb, hm, true_or, if_true]

theorem semop_le {sems' : Sems} {adj' : Semadj} {i : Nat} (h : semop op sems adj = .done sems' adj')
    (hi : sems i ≤ SEMVMX) : sems' i ≤ SEMVMX := by
  simp only [semop] at h
  split at h
  · cases h
  · split at h
    · cases h
    · next hn =>
      cases h
      rw [not_or, not_lt] at hn
      by_cases he : i = op.sem_num
      · rw [he, Function.update_self]
        omega
      · rwa [Function.update_of_ne he]

/-! ## Several operations in one call -/

/-- `semop(semid, ops, n)`: one operation after the other, and all of them or none. -/
def semops : List Sembuf → Sems → Semadj → Semop
  | [], sems, adj => .done sems adj
  | op :: ops, sems, adj =>
    match semop op sems adj with
    | .done sems adj => semops ops sems adj
    | .blocks => .blocks
    | .fails => .fails

/-- The operation can be done: a wait for zero at zero, and any other one that
leaves a value in range. -/
def Sembuf.Can (op : Sembuf) (sems : Sems) : Prop :=
  (op.sem_op = 0 → sems op.sem_num = 0) ∧ 0 ≤ sems op.sem_num + op.sem_op ∧ sems op.sem_num + op.sem_op ≤ SEMVMX

/-- One operation that leaves no adjustment. -/
theorem semop_done_iff {sems' : Sems} {adj' : Semadj} (hu : op.undo = false) :
    semop op sems adj = .done sems' adj' ↔ op.Can sems ∧
      Function.update sems op.sem_num (sems op.sem_num + op.sem_op).toNat = sems' ∧ adj = adj' := by
  unfold semop Sembuf.Can
  simp only [hu, Bool.false_eq_true, false_and, or_false, if_false]
  split
  · next hb =>
    constructor
    · intro h
      cases h
    · rintro ⟨hcan, -⟩
      omega
  · next hb =>
    split
    · next hm =>
      constructor
      · intro h
        cases h
      · rintro ⟨hcan, -⟩
        omega
    · next hm =>
      rw [Semop.done.injEq]
      constructor
      · rintro ⟨hsems, hadj⟩
        exact ⟨by omega, hsems, hadj⟩
      · rintro ⟨-, hsems, hadj⟩
        exact ⟨hsems, hadj⟩

theorem semops_cons {ops : List Sembuf} {sems' : Sems} {adj' : Semadj} :
    semops (op :: ops) sems adj = .done sems' adj' ↔
      ∃ sems₁ adj₁, semop op sems adj = .done sems₁ adj₁ ∧ semops ops sems₁ adj₁ = .done sems' adj' := by
  rw [semops]
  cases semop op sems adj <;> simp

/-- Operations on different semaphores that leave no adjustment: they are
done if each can be by itself. -/
theorem semops_done_iff {ops : List Sembuf} {sems' : Sems} {adj' : Semadj} (hu : ∀ op ∈ ops, op.undo = false)
    (hn : (ops.map Sembuf.sem_num).Nodup) :
    semops ops sems adj = .done sems' adj' ↔ adj = adj' ∧ (∀ op ∈ ops, op.Can sems) ∧
      (∀ op ∈ ops, (sems' op.sem_num : Int) = sems op.sem_num + op.sem_op) ∧
      ∀ n, n ∉ ops.map Sembuf.sem_num → sems' n = sems n := by
  induction ops generalizing sems with
  | nil =>
    simp only [semops, Semop.done.injEq]
    constructor
    · rintro ⟨rfl, rfl⟩
      simp
    · rintro ⟨rfl, -, -, hsame⟩
      exact ⟨funext fun n => (hsame n (by simp)).symm, rfl⟩
  | cons op ops ih =>
    simp only [List.map_cons, List.nodup_cons] at hn
    obtain ⟨hfirst, hn⟩ := hn
    have hne (op' : Sembuf) (h : op' ∈ ops) : op'.sem_num ≠ op.sem_num := by
      intro he
      exact hfirst (he ▸ List.mem_map_of_mem h)
    -- What the first operation does to its semaphore the others do not see.
    have hother (op' : Sembuf) (h : op' ∈ ops) (v : Nat) :
        Function.update sems op.sem_num v op'.sem_num = sems op'.sem_num :=
      Function.update_of_ne (hne op' h) ..
    have ih := fun sems : Sems => @ih sems (fun op' h => hu op' (.tail _ h)) hn
    rw [semops_cons]
    constructor
    · rintro ⟨sems₁, adj₁, h₁, h⟩
      obtain ⟨hcan, rfl, rfl⟩ := (semop_done_iff (hu op (.head _))).1 h₁
      obtain ⟨hadj, hcans, hvalues, hsame⟩ := (ih _).1 h
      refine ⟨hadj, ?_, ?_, ?_⟩
      · intro op' h'
        rcases List.mem_cons.1 h' with rfl | h'
        · exact hcan
        · have := hcans op' h'
          rwa [Sembuf.Can, hother op' h'] at this
      · intro op' h'
        rcases List.mem_cons.1 h' with rfl | h'
        · rw [hsame _ hfirst, Function.update_self]
          exact Int.toNat_of_nonneg hcan.2.1
        · rw [hvalues op' h', hother op' h']
      · intro n h'
        simp only [List.map_cons, List.mem_cons, not_or] at h'
        rw [hsame n h'.2, Function.update_of_ne h'.1]
    · rintro ⟨hadj, hcans, hvalues, hsame⟩
      have hcan := hcans op (.head _)
      refine ⟨_, adj, (semop_done_iff (hu op (.head _))).2 ⟨hcan, rfl, rfl⟩, (ih _).2 ⟨hadj, ?_, ?_, ?_⟩⟩
      · intro op' h'
        rw [Sembuf.Can, hother op' h']
        exact hcans op' (.tail _ h')
      · intro op' h'
        rw [hother op' h']
        exact hvalues op' (.tail _ h')
      · intro n h'
        by_cases hop : n = op.sem_num
        · subst hop
          have := hvalues op (.head _)
          rw [Function.update_self]
          omega
        · rw [Function.update_of_ne hop]
          exact hsame n (by simp [hop, h'])

/-- Nothing fails that leaves no adjustment and no value too large. -/
theorem semops_ne_fails {ops : List Sembuf} (hu : ∀ op ∈ ops, op.undo = false) (hn : (ops.map Sembuf.sem_num).Nodup)
    (hmax : ∀ op ∈ ops, (sems op.sem_num : Int) + op.sem_op ≤ SEMVMX) : semops ops sems adj ≠ .fails := by
  induction ops generalizing sems adj with
  | nil => simp [semops]
  | cons op ops ih =>
    simp only [List.map_cons, List.nodup_cons] at hn
    have hfirst := hmax op (.head _)
    intro h
    rw [semops] at h
    split at h
    · next sems₁ adj₁ h₁ =>
      obtain ⟨-, rfl, rfl⟩ := (semop_done_iff (hu op (.head _))).1 h₁
      refine ih (fun op' h' => hu op' (.tail _ h')) hn.2 (fun op' h' => ?_) h
      have hne : op'.sem_num ≠ op.sem_num := fun he => hn.1 (he ▸ List.mem_map_of_mem h')
      rw [Function.update_of_ne hne]
      exact hmax op' (.tail _ h')
    · cases h
    · next hfails =>
      unfold semop at hfails
      simp only [hu op (.head _), Bool.false_eq_true, false_and, or_false, if_neg (not_lt.2 hfirst)] at hfails
      split at hfails <;> cases hfails

/-! ## When a process exits -/

/-- The values once a process has exited: its adjustments are added, a result
below zero becomes zero and one too large the largest. -/
def exitUndo (sems : Sems) (adj : Semadj) : Sems := fun i => min SEMVMX (sems i + adj i).toNat

theorem exitUndo_le (i : Nat) : exitUndo sems adj i ≤ SEMVMX := min_le_left _ _

theorem exitUndo_zero {i : Nat} (h : sems i ≤ SEMVMX) (ha : adj i = 0) : exitUndo sems adj i = sems i := by
  simp only [exitUndo, ha, Int.add_zero, Int.toNat_natCast]
  omega

theorem exitUndo_le_self {i : Nat} (ha : adj i ≤ 0) : exitUndo sems adj i ≤ sems i := by
  simp only [exitUndo]
  omega

/-- An adjustment that is not positive leaves a value as it was when either
is zero. -/
theorem exitUndo_eq_iff {i : Nat} (h : sems i ≤ SEMVMX) (ha : adj i ≤ 0) :
    exitUndo sems adj i = sems i ↔ sems i = 0 ∨ adj i = 0 := by
  simp only [exitUndo]
  omega

end SysProg
