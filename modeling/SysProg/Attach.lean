/-
The variables of `lookup` in `lookup6.c` over the calls of one process: what
each call uses of them, when the one that says that this was done before
outlives a call and those it was done for do not.

Which variables keep their values is a parameter of the model; the source's
choice is `declared`.
-/
import SysProg.Encoding
import SysProg.Shm
import Mathlib.Logic.Function.Basic

namespace SysProg.Attach

open SysProg.Shm (grab release alert await)

/-! ## Variables -/

/-- A variable of `lookup`. -/
inductive Var where
  | first_time
  | shmid
  | semid
  | shm
  deriving DecidableEq

/-- The values of the variables, `none` where none has been given. -/
abbrev Vars := Var → Option Int

/-- An assignment to a variable. -/
def Vars.set (v : Vars) (x : Var) (n : Int) : Vars := Function.update v x (some n)

/-- `static int first_time = 1`, and nothing in the others. -/
def Vars.start : Vars := Vars.set (fun _ => none) .first_time 1

/-- `first_time` is static, the others are automatic. -/
def declared : Var → Bool
  | .first_time => true
  | .shmid | .semid | .shm => false

/-- The variables at the start of a call, of which only some have kept their values. -/
def Vars.enter (keeps : Var → Bool) (v : Vars) : Vars := fun x => if keeps x then v x else none

/-- A use of a variable, with its value. -/
inductive Use where
  /-- `if (first_time)` -/
  | test (first_time : Option Int)
  /-- `shmat(shmid,NULL,0)` -/
  | shmat (shmid : Option Int)
  /-- `semop(semid,&op,1)` -/
  | semop (semid : Option Int) (op : Sembuf)
  /-- `strcpy(shm->word,sought->word)` -/
  | copyWord (shm : Option Int)
  /-- `strcmp(shm->text,"XXXX")` -/
  | compare (shm : Option Int)
  /-- `strcpy(sought->text,shm->text)` -/
  | copyText (shm : Option Int)

/-! ## Calls -/

/-- How the system calls end, `none` for a failure. -/
structure Os where
  shmget : Int → Option Nat
  /-- An address. -/
  shmat : Nat → Option Nat
  semget : Int → Option Nat

/-- The result of a system call: -1 for a failure. -/
def result : Option Nat → Int
  | some n => n
  | none => -1

/-- The attaching under `if (first_time)`: the uses made, whether all went
well, and the variables. A failure of `shmat` is not NULL. -/
def attach (os : Os) (key : Int) (v : Vars) : List Use × Bool × Vars :=
  let v := (v.set .first_time 0).set .shmid (result (os.shmget key))
  match os.shmget key with
  | none => ([], false, v)
  | some shmid =>
    let use := Use.shmat (v .shmid)
    let v := v.set .shm (result (os.shmat shmid))
    if os.shmat shmid = some 0 then ([use], false, v)
    else ([use], (os.semget key).isSome, v.set .semid (result (os.semget key)))

/-- What the rest of the function uses, where the segment holds this text after `await`. -/
def talk (text : Buf TEXT) (v : Vars) : List Use :=
  [.semop (v .semid) grab, .copyWord (v .shm), .semop (v .semid) alert, .semop (v .semid) await,
    .semop (v .semid) release, .compare (v .shm)] ++
    if text.str ≠ XXXX.chars then [.copyText (v .shm)] else []

/-- What a call meets: the caller's record, the system, and the text that is
in the segment when the server has answered. -/
structure Query where
  sought : Dictrec
  os : Os
  text : Buf TEXT

/-- A call: its uses, what it returns, and the variables. -/
def lookup (keeps : Var → Bool) (key : Int) (q : Query) (v : Vars) : List Use × (Status × Dictrec) × Vars :=
  let v := v.enter keeps
  let test := Use.test (v .first_time)
  if v .first_time ≠ some 0 then
    let (uses, ok, v) := attach q.os key v
    if ok then (test :: uses ++ talk q.text v, Encoding.lookup6 q.text q.sought, v)
    else (test :: uses, (.UNAVAIL, q.sought), v)
  else (test :: talk q.text v, Encoding.lookup6 q.text q.sought, v)

/-- The uses made in a process's calls. -/
def run (keeps : Var → Bool) (key : Int) : List Query → Vars → List (List Use)
  | [], _ => []
  | q :: qs, v => (lookup keeps key q v).1 :: run keeps key qs (lookup keeps key q v).2.2

/-! ## What is asked of them -/

/-- The segment and the set that are attached, if they are. -/
def attached (os : Os) (key : Int) : Option (Int × Int) :=
  (os.shmget key).bind fun shmid => (os.shmat shmid).bind fun shm => (os.semget key).bind fun semid =>
    if shm = 0 then none else some (shm, semid)

/-- The variable used has a value: of these two, if it stands for one of them. -/
def Use.Good (a : Option (Int × Int)) : Use → Prop
  | .test x | .shmat x => x.isSome
  | .semop semid _ => ∃ p ∈ a, semid = some p.2
  | .copyWord shm | .compare shm | .copyText shm => ∃ p ∈ a, shm = some p.1

/-- All the calls use only what the first has attached. -/
def Sound (a : Option (Int × Int)) (calls : List (List Use)) : Prop := ∀ uses ∈ calls, ∀ u ∈ uses, u.Good a

/-- A failure of `shmat` that is taken for an address. -/
def Unnoticed (os : Os) (key : Int) : Prop :=
  ∃ shmid, os.shmget key = some shmid ∧ os.shmat shmid = none ∧ (os.semget key).isSome

/-! ## One call -/

theorem Vars.set_self (v : Vars) (x : Var) (n : Int) : v.set x n x = some n := Function.update_self ..

theorem Vars.set_ne (v : Vars) {x y : Var} (n : Int) (h : y ≠ x) : v.set x n y = v y := Function.update_of_ne h ..

theorem enter_enter (keeps : Var → Bool) (v : Vars) : (v.enter keeps).enter keeps = v.enter keeps := by
  funext x
  simp only [Vars.enter]
  split <;> rfl

/-- The conversation is with what is attached exactly when the variables say so. -/
theorem talk_good {a : Option (Int × Int)} (text : Buf TEXT) (v : Vars) :
    (∀ u ∈ talk text v, u.Good a) ↔ ∃ p ∈ a, v .semid = some p.2 ∧ v .shm = some p.1 := by
  constructor
  · intro h
    obtain ⟨p, hp, hsem⟩ : ∃ p ∈ a, v .semid = some p.2 := h (.semop (v .semid) grab) (by simp [talk])
    obtain ⟨q, hq, hshm⟩ : ∃ p ∈ a, v .shm = some p.1 := h (.copyWord (v .shm)) (by simp [talk])
    rw [Option.mem_def] at hp hq
    rw [hp, Option.some.injEq] at hq
    exact ⟨p, hp, hsem, hq ▸ hshm⟩
  · intro hvars u hu
    obtain ⟨p, hp, hsem, hshm⟩ := hvars
    rw [talk, List.mem_append] at hu
    rcases hu with hu | hu
    · simp only [List.mem_cons, List.not_mem_nil, or_false] at hu
      rcases hu with rfl | rfl | rfl | rfl | rfl | rfl
      all_goals exact ⟨p, hp, by assumption⟩
    · split at hu
      · obtain rfl := List.mem_singleton.1 hu
        exact ⟨p, hp, hshm⟩
      · cases hu

/-- How the first call ends: it has attached what it talks through, or
returned UNAVAIL, or talks through what `shmat` returned for a failure. -/
inductive First (keeps : Var → Bool) (key : Int) (q : Query) : Prop
  | attached (p : Int × Int) (att : attached q.os key = some p) (noticed : ¬ Unnoticed q.os key)
      (good : ∀ u ∈ (lookup keeps key q .start).1, u.Good (some p))
      (semid : (lookup keeps key q .start).2.2 .semid = some p.2)
      (shm : (lookup keeps key q .start).2.2 .shm = some p.1)
  | unavail (att : Attach.attached q.os key = none) (noticed : ¬ Unnoticed q.os key)
      (good : ∀ u ∈ (lookup keeps key q .start).1, u.Good none)
  | unnoticed (att : Attach.attached q.os key = none) (un : Unnoticed q.os key)
      (bad : ¬ ∀ u ∈ (lookup keeps key q .start).1, u.Good none)

section

variable {keeps : Var → Bool}

theorem enter_start (hk : keeps .first_time = true) : Vars.start.enter keeps .first_time = some 1 := by
  rw [Vars.enter, if_pos hk, Vars.start, Vars.set_self]

theorem lookup_start (hk : keeps .first_time = true) (key : Int) (q : Query) :
    lookup keeps key q .start =
      let r := attach q.os key (Vars.start.enter keeps)
      if r.2.1 then (.test (some 1) :: r.1 ++ talk q.text r.2.2, Encoding.lookup6 q.text q.sought, r.2.2)
      else (.test (some 1) :: r.1, (.UNAVAIL, q.sought), r.2.2) := by
  rw [lookup, enter_start hk]
  exact if_pos (by decide)

theorem first_cases (hk : keeps .first_time = true) (key : Int) (q : Query) : First keeps key q := by
  have hlookup := lookup_start hk key q
  cases hget : q.os.shmget key with
  | none =>
    refine .unavail (by simp [attached, hget]) (by simp [Unnoticed, hget]) ?_
    simp [hlookup, attach, hget, Use.Good]
  | some shmid =>
    cases hat : q.os.shmat shmid with
    | none =>
      have hatt : attached q.os key = none := by simp [attached, hget, hat]
      cases hsem : q.os.semget key with
      | none =>
        refine .unavail hatt (by simp [Unnoticed, hget, hsem]) ?_
        simp [hlookup, attach, hget, hat, hsem, Use.Good, Vars.set_self]
      | some semid =>
        refine .unnoticed hatt ⟨shmid, hget, hat, by rw [hsem]; rfl⟩ fun h => ?_
        have htalk := (talk_good (a := none) q.text _).1 fun u hu => h u (by
          simp only [hlookup, attach, hget, hat, hsem, Option.isSome_some]
          exact List.mem_append_right _ hu)
        simp at htalk
    | some shm =>
      have hun : ¬ Unnoticed q.os key := by simp [Unnoticed, hget, hat]
      by_cases h0 : shm = 0
      · subst h0
        refine .unavail ?_ hun ?_
        · simp [attached, hget, hat]
        · simp [hlookup, attach, hget, hat, Use.Good, Vars.set_self]
      · cases hsem : q.os.semget key with
        | none =>
          refine .unavail (by simp [attached, hget, hsem]) hun ?_
          simp [hlookup, attach, hget, hat, h0, hsem, Use.Good, Vars.set_self]
        | some semid =>
          have hvars : (lookup keeps key q .start).2.2 .semid = some (semid : Int) ∧
              (lookup keeps key q .start).2.2 .shm = some (shm : Int) := by
            simp [hlookup, attach, hget, hat, h0, hsem, result, Vars.set]
          refine .attached (shm, semid) (by simp [attached, hget, hat, hsem, h0]) hun (fun u hu => ?_) hvars.1 hvars.2
          simp only [hlookup, attach, hget, hat, Option.some.injEq, h0, if_false, hsem, Option.isSome_some, if_true,
            List.cons_append, List.nil_append, List.mem_cons] at hu
          rcases hu with rfl | rfl | hu
          · exact rfl
          · rw [Vars.set_self]
            exact rfl
          · refine (talk_good q.text _).2 ⟨(shm, semid), rfl, ?_, ?_⟩ u hu
            · rw [Vars.set_self]
              rfl
            · rw [Vars.set_ne _ _ (by decide), Vars.set_self]
              rfl

theorem first_time_after (key : Int) (q : Query) (v : Vars) :
    (lookup keeps key q v).2.2 .first_time = some 0 := by
  by_cases hfirst : v.enter keeps .first_time ≠ some 0
  · have hattach : (attach q.os key (v.enter keeps)).2.2 .first_time = some 0 := by
      unfold attach
      split
      · simp [Vars.set]
      · dsimp only
        split <;> simp [Vars.set]
    simp only [lookup, if_pos hfirst]
    split <;> exact hattach
  · simp only [lookup, if_neg hfirst]
    exact not_not.1 hfirst

theorem lookup_later (hk : keeps .first_time = true) (key : Int) (q : Query) {v : Vars}
    (hv : v .first_time = some 0) :
    lookup keeps key q v =
      (.test (some 0) :: talk q.text (v.enter keeps), Encoding.lookup6 q.text q.sought, v.enter keeps) := by
  have henter : v.enter keeps .first_time = some 0 := by rw [Vars.enter, if_pos hk, hv]
  rw [lookup, henter]
  exact if_neg (by decide)

/-! ## All the calls -/

/-- The later calls talk through what was attached exactly when both variables
kept say so, if there is such a call. -/
theorem later_sound (hk : keeps .first_time = true) (a : Option (Int × Int)) (key : Int) (qs : List Query) {v : Vars}
    (hv : v .first_time = some 0) : Sound a (run keeps key qs v) ↔
      qs = [] ∨ ∃ p ∈ a, v.enter keeps .semid = some p.2 ∧ v.enter keeps .shm = some p.1 := by
  induction qs generalizing v with
  | nil => simp [run, Sound]
  | cons q qs ih =>
    have hv' : v.enter keeps .first_time = some 0 := by rw [Vars.enter, if_pos hk, hv]
    have hrest := ih hv'
    rw [enter_enter] at hrest
    simp only [Sound, run, lookup_later hk key q hv, List.forall_mem_cons, talk_good, reduceCtorEq, false_or] at hrest ⊢
    rw [hrest]
    exact ⟨fun h => h.1.2, fun h => ⟨⟨rfl, h⟩, .inr h⟩⟩

/-- Every call of a process talks through what its first call has attached,
exactly when that call took no failure for an address and is the only one,
or has attached something and the variables that say what are kept. -/
theorem sound_iff (hk : keeps .first_time = true) (key : Int) (q : Query) (qs : List Query) :
    Sound (attached q.os key) (run keeps key (q :: qs) .start) ↔
      ¬ Unnoticed q.os key ∧
        (qs = [] ∨ (attached q.os key).isSome ∧ keeps .semid = true ∧ keeps .shm = true) := by
  have hsplit : Sound (attached q.os key) (run keeps key (q :: qs) .start) ↔
      (∀ u ∈ (lookup keeps key q .start).1, u.Good (attached q.os key)) ∧
        Sound (attached q.os key) (run keeps key qs (lookup keeps key q .start).2.2) := List.forall_mem_cons
  rw [hsplit, later_sound hk _ key qs (first_time_after key q .start)]
  rcases first_cases hk key q with ⟨p, att, noticed, good, semid, shm⟩ | ⟨att, noticed, good⟩ | ⟨att, un, bad⟩
  · rw [att, and_iff_right good, and_iff_right noticed]
    simp only [Vars.enter, semid, shm]
    cases keeps .semid <;> cases keeps .shm <;> simp
  · rw [att, and_iff_right good, and_iff_right noticed]
    simp
  · rw [att]
    exact iff_of_false (fun h => bad h.1) fun h => h.1 un

end

/-- A process's calls of `lookup` all talk through what the first one has
attached exactly when there is but one, and no failure of `shmat` in it was
taken for an address. -/
theorem repeats_iff (key : Int) (q : Query) (qs : List Query) :
    Sound (attached q.os key) (run declared key (q :: qs) .start) ↔ qs = [] ∧ ¬ Unnoticed q.os key := by
  rw [sound_iff rfl]
  simp only [declared, Bool.false_eq_true, and_false, or_false]
  exact and_comm

/-- A segment and a set that are there. -/
def attaches : Query := ⟨Dictrec.blank, ⟨fun _ => some 1, fun _ => some 4096, fun _ => some 2⟩, Buf.zero TEXT⟩

/-- The second call's first operation is on a set that no variable names. -/
theorem second_call_unset :
    (run declared 7 [attaches, attaches] .start)[1]?.bind (·[1]?) = some (.semop none grab) ∧
    ¬ Sound (attached attaches.os 7) (run declared 7 [attaches, attaches] .start) := by
  have hsecond : (run declared 7 [attaches, attaches] .start)[1]?.bind (·[1]?) = some (.semop none grab) := rfl
  refine ⟨hsecond, fun h => ?_⟩
  obtain ⟨uses, huses, hu⟩ := Option.bind_eq_some_iff.1 hsecond
  obtain ⟨p, -, hp⟩ := h uses (List.mem_of_getElem? huses) _ (List.mem_of_getElem? hu)
  cases hp

end SysProg.Attach
