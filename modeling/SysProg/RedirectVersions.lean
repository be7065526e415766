/-
The redirections of the first shell (`sh6`) beside those of the last (`sh9`).

The older ones close the vector up by one slot where it takes two, and fail on
a missing file without saying why. The two agree on a vector exactly when
neither shows.
-/
import SysProg.RedirectArgv

namespace SysProg.Shell.Sh6

/-! ## redirect_in, redirect_out -/

/-- The closing up of the vector, from slot `j` on: each string moves one
slot down, and NULL goes two below the old one. -/
def closeUp (a : Argv) (j : Nat) : Argv :=
  match _h : a.slot j with
  | some t => closeUp (a.set (j - 1) (some t)) (j + 1)
  | none => a.set (j - 2) none
termination_by a.length - j
decreasing_by
  have := Argv.lt_of_slot _h
  simp only [List.length_set]
  omega

/-- The two functions differ in the operator, the mode and the descriptor. -/
def redirect (op : Token) (mode : Mode) (fd : Nat) (env : Env) (a : Argv) (t : Fds Desc) (errno : Nat) : RedirectCall :=
  -- Search forward for the operator.
  let i := a.search op
  match a.slot i with
  | none => ⟨0, a, t, errno⟩
  | some _ =>
    match a.slot (i + 1) with
    -- There is no file, and errno is what it was.
    | none => ⟨-1, a, t, errno⟩
    | some f =>
      match env.openFails mode f with
      | some e => ⟨-1, a, t, (env.message e).val⟩
      | none =>
        let d := t.lowest
        ⟨0, closeUp a (i + 2), ((t.put d (some (.file f mode))).dup2 d fd).close d, errno⟩

/-- The function of `<`. -/
def redirect_in : Env → Argv → Fds Desc → Nat → RedirectCall := redirect LT .read 0

/-- The function of `>`. -/
def redirect_out : Env → Argv → Fds Desc → Nat → RedirectCall := redirect GT .write 1

/-- The operator stays, and of the strings after its file all but the last. -/
theorem closeUp_slots (p s : List Token) (x y : Token) (beyond : Argv) :
    closeUp (slots (p ++ x :: y :: s) beyond) (p.length + 2) =
      slots (p ++ (x :: s).dropLast) ((y :: s).getLast? :: none :: beyond) := by
  induction s generalizing p x y with
  | nil =>
    rw [closeUp]
    split
    · next t ht => rw [slot_slots_two] at ht; cases ht
    · rw [Nat.add_sub_cancel, slots_set_none, List.dropLast_singleton, List.append_nil]
      rfl
  | cons z s ih =>
    rw [closeUp]
    split
    · next t ht =>
      rw [slot_slots_two] at ht
      cases ht
      have hset : (slots (p ++ x :: y :: z :: s) beyond).set (p.length + 1) (some z) =
          slots ((p ++ [x]) ++ z :: z :: s) beyond := by
        simpa using slots_set_some (p ++ [x]) (z :: s) y z beyond
      have := ih (p ++ [x]) z z
      rw [Nat.add_sub_assoc (by decide), hset, List.getLast?_cons_cons, List.dropLast_cons_cons]
      simpa [Nat.add_right_comm] using this
    · next hn => rw [slot_slots_two] at hn; cases hn

section

variable {op : Token} {mode : Mode} {fd : Nat} {env : Env} {t : Fds Desc} {errno : Nat}

theorem redirect_absent {ts : List Token} {beyond : Argv} (hop : op ∉ ts) :
    redirect op mode fd env (slots ts beyond) t errno = ⟨0, slots ts beyond, t, errno⟩ := by
  simp only [redirect, slots_absent hop]

/-- What a call comes to at the first operator of the vector, by what follows it. -/
theorem redirect_found {p s : List Token} {beyond : Argv} (hop : op ∉ p) :
    redirect op mode fd env (slots (p ++ op :: s) beyond) t errno =
      match s with
      | [] => ⟨-1, slots (p ++ op :: s) beyond, t, errno⟩
      | f :: s =>
        match env.openFails mode f with
        | some e => ⟨-1, slots (p ++ op :: f :: s) beyond, t, (env.message e).val⟩
        | none => ⟨0, slots (p ++ (op :: s).dropLast) ((f :: s).getLast? :: none :: beyond),
            redirected t (.file f mode) fd, errno⟩ := by
  obtain ⟨hi, hslot, hnext⟩ := slots_found hop s beyond
  simp only [redirect, hi, hslot, hnext]
  cases s with
  | nil => rfl
  | cons f s =>
    dsimp only [List.head?_cons]
    cases env.openFails mode f with
    | some e => rfl
    | none => simp only [closeUp_slots, redirected]

end

/-! ## The two versions -/

/-- Two calls return the same and leave the same vector, and say why where
they fail. -/
structure Agree (c d : RedirectCall) : Prop where
  ret : c.ret = d.ret
  argv : c.argv.vector = d.argv.vector
  errno : c.ret = -1 → c.errno ≠ 0 ∧ d.errno ≠ 0

/-- Neither fault of the older version shows on the vector `ts`: a file that
is missing finds `errno` set already, and after a file that opens there is
nothing but the operator again. -/
def Unaffected (op : Token) (mode : Mode) (env : Env) (errno : Nat) (ts : List Token) : Prop :=
  match ts.dropWhile (· ≠ op) with
  | [] => True
  | [_] => errno ≠ 0
  | _ :: f :: s => env.openFails mode f = none → ∀ x ∈ s, x = op

/-- The operator before some strings and the last of these removed leave the
same strings when all of them are the operator. -/
theorem dropLast_cons_eq_iff (x : Token) (s : List Token) : (x :: s).dropLast = s ↔ ∀ y ∈ s, y = x := by
  induction s generalizing x with
  | nil => simp
  | cons y s ih =>
    rw [List.dropLast_cons_cons, List.cons.injEq, List.forall_mem_cons, eq_comm (a := x)]
    refine and_congr_right ?_
    rintro rfl
    exact ih y

theorem redirect_agrees_iff (op : Token) (mode : Mode) (fd : Nat) (env : Env) (ts : List Token) (beyond : Argv)
    (t : Fds Desc) (errno : Nat) :
    Agree (redirect op mode fd env (slots ts beyond) t errno) (Sh9.redirect op mode fd env (slots ts beyond) t errno) ↔
      Unaffected op mode env errno ts := by
  unfold Unaffected
  rcases first_cases op ts with hop | ⟨p, s, hop, rfl⟩
  · rw [redirect_absent hop, Sh9.redirect_absent hop, dropWhile_absent hop]
    exact ⟨fun _ => trivial, fun _ => ⟨rfl, rfl, fun (h : (0 : Int) = -1) => absurd h (by decide)⟩⟩
  · rw [redirect_found hop, Sh9.redirect_found hop, (dropWhile_first hop).1]
    cases s with
    | nil =>
      have hE : EINVAL.val ≠ 0 := by decide
      exact ⟨fun h => (h.errno rfl).1, fun h => ⟨rfl, rfl, fun _ => ⟨h, hE⟩⟩⟩
    | cons f s =>
      cases hopen : env.openFails mode f with
      | some e =>
        have he : (env.message e).val ≠ 0 := Nat.ne_of_gt (env.message e).pos
        simp only [hopen]
        exact ⟨fun _ => nofun, fun _ => ⟨rfl, rfl, fun _ => ⟨he, he⟩⟩⟩
      | none =>
        simp only [hopen, forall_const, ← dropLast_cons_eq_iff]
        constructor
        · intro h
          have hargv := h.argv
          rw [(Vec.slots _ _).vector, (Vec.slots _ _).vector] at hargv
          exact List.append_cancel_left hargv
        · intro h
          refine ⟨rfl, ?_, fun (h : (0 : Int) = -1) => absurd h (by decide)⟩
          rw [(Vec.slots _ _).vector, (Vec.slots _ _).vector, h]

/-- The redirections of `sh6` do as those of `sh9` exactly where their faults do not show. -/
theorem redirections_agree_iff (env : Env) (ts : List Token) (beyond : Argv) (t : Fds Desc) (errno : Nat) :
    (Agree (redirect_in env (slots ts beyond) t errno) (Sh9.redirect_in env (slots ts beyond) t errno) ↔
      Unaffected LT .read env errno ts) ∧
    (Agree (redirect_out env (slots ts beyond) t errno) (Sh9.redirect_out env (slots ts beyond) t errno) ↔
      Unaffected GT .write env errno ts) :=
  ⟨redirect_agrees_iff LT .read 0 env ts beyond t errno, redirect_agrees_iff GT .write 1 env ts beyond t errno⟩

/-- `cat < f x` loses its last argument and keeps its operator, and `cat <`
fails without an error. -/
theorem argument_lost :
    ¬ Agree (redirect_in .fine (slots [[99, 97, 116], LT, [102], [120]] []) Sh9.stdio 0)
      (Sh9.redirect_in .fine (slots [[99, 97, 116], LT, [102], [120]] []) Sh9.stdio 0) ∧
    ¬ Agree (redirect_in .fine (slots [[99, 97, 116], LT] []) Sh9.stdio 0)
      (Sh9.redirect_in .fine (slots [[99, 97, 116], LT] []) Sh9.stdio 0) := by
  unfold redirect_in Sh9.redirect_in
  rw [redirect_agrees_iff, redirect_agrees_iff]
  constructor
  · intro h
    exact absurd (h rfl [120] (by simp)) (by decide)
  · intro h
    exact h rfl

end SysProg.Shell.Sh6
