/-
The redirections of the last shell (`sh9`) as calls: what each returns, and
the vector, the descriptors and `errno` it leaves, also when it fails.

A call cuts its operator and the file after it out of the vector in place and
touches nothing beyond the NULL that was there. When a vector has one pair of
each kind the two calls can be made in either order.
-/
import SysProg.ShellFacts

namespace SysProg.Shell

/-- What a call of a redirection returns and leaves. -/
structure RedirectCall where
  ret : Int
  argv : Argv
  fds : Fds Desc
  errno : Nat

namespace Sh9

/-! ## redirect_in, redirect_out -/

/-- The redirection `run_command` makes, as a call: a failing one has changed
`errno` only. -/
def redirect (op : Token) (mode : Mode) (fd : Nat) (env : Env) (a : Argv) (t : Fds Desc) (errno : Nat) : RedirectCall :=
  match Shell.redirect op mode fd env a t with
  | .ok (a, t, _) => ⟨0, a, t, errno⟩
  | .error e => ⟨-1, a, t, e.val⟩

/-- The function of `<`. -/
def redirect_in : Env → Argv → Fds Desc → Nat → RedirectCall := redirect LT .read 0

/-- The function of `>`. -/
def redirect_out : Env → Argv → Fds Desc → Nat → RedirectCall := redirect GT .write 1

section

variable {op : Token} {mode : Mode} {fd : Nat} {env : Env} {t : Fds Desc} {errno : Nat}

theorem redirect_absent {ts : List Token} {beyond : Argv} (hop : op ∉ ts) :
    redirect op mode fd env (slots ts beyond) t errno = ⟨0, slots ts beyond, t, errno⟩ := by
  rw [redirect, Shell.redirect_absent (Vec.slots ts beyond) hop]

/-- What a call comes to at the first operator of the vector, by what follows it. -/
theorem redirect_found {p s : List Token} {beyond : Argv} (hop : op ∉ p) :
    redirect op mode fd env (slots (p ++ op :: s) beyond) t errno =
      match s with
      | [] => ⟨-1, slots (p ++ op :: s) beyond, t, EINVAL.val⟩
      | f :: s =>
        match env.openFails mode f with
        | some e => ⟨-1, slots (p ++ op :: f :: s) beyond, t, (env.message e).val⟩
        | none => ⟨0, slots (p ++ s) ((f :: s).getLast? :: none :: beyond), redirected t (.file f mode) fd, errno⟩ := by
  obtain ⟨hi, hslot, hnext⟩ := slots_found hop s beyond
  simp only [redirect, Shell.redirect, hi, hslot, hnext]
  cases s with
  | nil => rfl
  | cons f s =>
    dsimp only [List.head?_cons]
    cases env.openFails mode f with
    | some e => rfl
    | none => simp only [closeUp_slots, redirected]

end

/-! ## What is removed -/

/-- A call on the vector `ts` left it, or removed exactly the first `op` and
the string after it. The slot of the old NULL and those `beyond` it are as
they were; the slot after the new NULL, one of the vector's own, keeps a
string. -/
structure Removes (op : Token) (ts : List Token) (beyond : Argv) (c : RedirectCall) : Prop where
  returns : c.ret = 0 ∨ c.ret = -1
  failed : c.ret = -1 → c.argv = slots ts beyond
  absent : op ∉ ts → c.argv = slots ts beyond
  removed : c.ret ≠ -1 → op ∈ ts → ∃ p f s last, op ∉ p ∧ ts = p ++ op :: f :: s ∧
    c.argv = slots (p ++ s) (last :: none :: beyond)

theorem redirect_removes (op : Token) (mode : Mode) (fd : Nat) (env : Env) (ts : List Token) (beyond : Argv)
    (t : Fds Desc) (errno : Nat) : Removes op ts beyond (redirect op mode fd env (slots ts beyond) t errno) := by
  rcases first_cases op ts with hop | ⟨p, s, hop, rfl⟩
  · rw [redirect_absent hop]
    exact ⟨.inl rfl, fun _ => rfl, fun _ => rfl, fun _ h => absurd h hop⟩
  · have hmem : op ∈ p ++ op :: s := by simp
    rw [redirect_found hop]
    cases s with
    | nil => exact ⟨.inr rfl, fun _ => rfl, fun _ => rfl, fun h => absurd rfl h⟩
    | cons f s =>
      cases hopen : env.openFails mode f with
      | some e =>
        simp only [hopen]
        exact ⟨.inr rfl, fun _ => rfl, fun _ => rfl, fun h => absurd rfl h⟩
      | none =>
        simp only [hopen]
        exact ⟨.inl rfl, fun (h : (0 : Int) = -1) => absurd h (by decide), fun h => absurd hmem h,
          fun _ _ => ⟨p, f, s, _, hop, rfl, rfl⟩⟩

/-! ## Both redirections -/

/-- One redirection and then another, on what the first leaves, unless it fails. -/
def andThen (r₁ r₂ : Argv → Fds Desc → Nat → RedirectCall) (a : Argv) (t : Fds Desc) (errno : Nat) : RedirectCall :=
  let c := r₁ a t errno
  if c.ret = 0 then r₂ c.argv c.fds c.errno else c

section

variable {x y f g : Token} {m n : Mode} {env : Env} {p q : List Token}

theorem redirect_pair (hx : x ∉ p) (hf : env.openFails m f = none) (i : Nat) (s : List Token) (beyond : Argv)
    (t : Fds Desc) (errno : Nat) : ∃ b,
    redirect x m i env (slots (p ++ x :: f :: s) beyond) t errno =
      ⟨0, slots (p ++ s) b, redirected t (.file f m) i, errno⟩ := by
  rw [redirect_found hx]
  simp only [hf]
  exact ⟨_, rfl⟩

/-- Two redirections in the order in which their pairs stand. -/
theorem andThen_along (hx : x ∉ p) (hy : y ∉ p ++ q) (hf : env.openFails m f = none)
    (hg : env.openFails n g = none) (i j : Nat) (s : List Token) (beyond : Argv) (t : Fds Desc) (errno : Nat) : ∃ b,
    andThen (redirect x m i env) (redirect y n j env) (slots (p ++ x :: f :: (q ++ y :: g :: s)) beyond) t errno =
      ⟨0, slots (p ++ q ++ s) b, redirected (redirected t (.file f m) i) (.file g n) j, errno⟩ := by
  obtain ⟨b, hfirst⟩ := redirect_pair hx hf i (q ++ y :: g :: s) beyond t errno
  rw [← List.append_assoc] at hfirst
  obtain ⟨b', hsecond⟩ := redirect_pair hy hg j s b (redirected t (.file f m) i) errno
  refine ⟨b', ?_⟩
  simp only [andThen, hfirst, if_pos, hsecond]

/-- Two redirections in the other order. -/
theorem andThen_against (hx : x ∉ p) (hy : y ∉ p ++ x :: f :: q) (hf : env.openFails m f = none)
    (hg : env.openFails n g = none) (i j : Nat) (s : List Token) (beyond : Argv) (t : Fds Desc) (errno : Nat) : ∃ b,
    andThen (redirect y n j env) (redirect x m i env) (slots (p ++ x :: f :: (q ++ y :: g :: s)) beyond) t errno =
      ⟨0, slots (p ++ q ++ s) b, redirected (redirected t (.file g n) j) (.file f m) i, errno⟩ := by
  obtain ⟨b, hfirst⟩ := redirect_pair hy hg j s beyond t errno
  rw [List.append_assoc, List.append_assoc, List.cons_append, List.cons_append, List.cons_append,
    List.cons_append] at hfirst
  obtain ⟨b', hsecond⟩ := redirect_pair hx hf i (q ++ s) b (redirected t (.file g n) j) errno
  refine ⟨b', ?_⟩
  simp only [andThen, hfirst, if_pos, hsecond, List.append_assoc]

end

/-- Redirections of different descriptors can be made in either order, whatever is open. -/
theorem redirected_comm (t : Fds Desc) {i j : Nat} (hij : i ≠ j) (d e : Desc) (k : Nat) :
    (redirected (redirected t d i) e j).get k = (redirected (redirected t e j) d i).get k := by
  have hlowest (d : Desc) (i : Nat) : (redirected t d i).lowest = t.lowest := t.lowest_opened i d
  have hget (t : Fds Desc) (d : Desc) (i : Nat) :
      (redirected t d i).get k = if k = t.lowest then none else if k = i then some d else t.get k :=
    t.get_opened i d k
  rw [hget, hget, hget, hget, hlowest, hlowest]
  by_cases hl : k = t.lowest
  · rw [if_pos hl, if_pos hl]
  · by_cases hi : k = i
    · have hj : k ≠ j := by
        rw [hi]
        exact hij
      rw [if_neg hl, if_neg hl, if_neg hl, if_neg hl, if_neg hj, if_pos hi, if_pos hi]
    · rw [if_neg hl, if_neg hl, if_neg hl, if_neg hl, if_neg hi, if_neg hi]

/-- The vector has exactly one `<` and one `>`, each with a file after it that
is not an operator. -/
structure TwoPairs (f g : Token) (ts : List Token) : Prop where
  oneLT : ts.count LT = 1
  oneGT : ts.count GT = 1
  pairLT : [LT, f] <:+: ts
  pairGT : [GT, g] <:+: ts
  plain : ∀ op ∈ [LT, GT], f ≠ op ∧ g ≠ op

/-- A pair stands on one side of another that it has no string in common with. -/
theorem pair_cases {x y f g : Token} {u v : List Token} (h : [y, g] <:+: u ++ x :: f :: v)
    (hyx : y ≠ x) (hyf : y ≠ f) (hgx : g ≠ x) :
    (∃ q s, v = q ++ y :: g :: s) ∨ ∃ p q, u = p ++ y :: g :: q := by
  obtain ⟨u', v', h⟩ := h
  rw [List.append_assoc] at h
  rcases List.append_eq_append_iff.1 h with ⟨c, hu, hc⟩ | ⟨c, hu, hc⟩
  · rcases c with _ | ⟨c₁, _ | ⟨c₂, q⟩⟩
    · cases hc; exact absurd rfl hyx
    · cases hc; exact absurd rfl hgx
    · cases hc
      exact .inr ⟨u', q, hu⟩
  · rcases c with _ | ⟨c₁, _ | ⟨c₂, q⟩⟩
    · cases hc; exact absurd rfl hyx
    · cases hc; exact absurd rfl hyf
    · cases hc
      exact .inl ⟨q, v', rfl⟩

theorem not_mem_of_count {x : Token} {ts p s : List Token} (h : ts.count x = 1) (hts : ts = p ++ x :: s) :
    x ∉ p ∧ x ∉ s := by
  rw [hts, List.count_append, List.count_cons_self] at h
  exact ⟨List.count_eq_zero.1 (by omega), List.count_eq_zero.1 (by omega)⟩

/-- Where the two pairs stand. -/
theorem TwoPairs.order {f g : Token} {ts : List Token} (h : TwoPairs f g ts) : ∃ p q s,
    (LT ∉ p ++ q ∧ GT ∉ p ++ q) ∧
      (ts = p ++ LT :: f :: (q ++ GT :: g :: s) ∨ ts = p ++ GT :: g :: (q ++ LT :: f :: s)) := by
  obtain ⟨u, v, hts⟩ := h.pairLT
  rw [List.append_assoc, List.cons_append, List.cons_append, List.nil_append] at hts
  have hf := (h.plain GT (by simp)).1
  have hg := (h.plain LT (by simp)).2
  obtain ⟨hu, hv⟩ := not_mem_of_count h.oneLT hts.symm
  rcases pair_cases (hts ▸ h.pairGT) (by decide) hf.symm hg with ⟨q, s, rfl⟩ | ⟨p, q, rfl⟩
  · obtain ⟨hGT, -⟩ := not_mem_of_count (p := u ++ LT :: f :: q) (s := g :: s) h.oneGT (by simp [← hts])
    refine ⟨u, q, s, ⟨?_, ?_⟩, .inl hts.symm⟩
    · simp only [List.mem_cons, List.mem_append, not_or] at hu hv ⊢
      exact ⟨hu, hv.2.1⟩
    · simp only [List.mem_cons, List.mem_append, not_or] at hGT ⊢
      exact ⟨hGT.1, hGT.2.2.2⟩
  · obtain ⟨hp, hs⟩ := not_mem_of_count (p := p) (s := g :: (q ++ LT :: f :: v)) h.oneGT (by simp [← hts])
    refine ⟨p, q, v, ⟨?_, ?_⟩, .inr (by simp [← hts])⟩
    · simp only [List.mem_cons, List.mem_append, not_or] at hu ⊢
      exact ⟨hu.1, hu.2.2.2⟩
    · simp only [List.mem_cons, List.mem_append, not_or] at hs ⊢
      exact ⟨hp, hs.2.1⟩

/-- Two ways of redirecting succeed with the same vector and the same descriptors. -/
structure Same (c d : RedirectCall) : Prop where
  ret : c.ret = 0 ∧ d.ret = 0
  argv : c.argv.vector = d.argv.vector
  fds : ∀ k, c.fds.get k = d.fds.get k

theorem same_runs {ts : List Token} {b b' : Argv} (t : Fds Desc) {i j : Nat} (hij : i ≠ j) (d e : Desc) (errno : Nat) :
    Same ⟨0, slots ts b, redirected (redirected t d i) e j, errno⟩
      ⟨0, slots ts b', redirected (redirected t e j) d i, errno⟩ := by
  refine ⟨⟨rfl, rfl⟩, ?_, fun k => ?_⟩
  · rw [(Vec.slots ts b).vector, (Vec.slots ts b').vector]
  · dsimp only
    exact redirected_comm t hij d e k

theorem pairs_either_order {f g : Token} {ts : List Token} (h : TwoPairs f g ts) {env : Env}
    (hf : env.openFails .read f = none) (hg : env.openFails .write g = none) (beyond : Argv) (t : Fds Desc)
    (errno : Nat) : Same (andThen (redirect_in env) (redirect_out env) (slots ts beyond) t errno)
      (andThen (redirect_out env) (redirect_in env) (slots ts beyond) t errno) := by
  have hfGT := (h.plain GT (by simp)).1
  have hgLT := (h.plain LT (by simp)).2
  unfold redirect_in redirect_out
  obtain ⟨p, q, s, ⟨hLT, hGT⟩, rfl | rfl⟩ := h.order
  · have hx : LT ∉ p := fun hm => hLT (List.mem_append_left q hm)
    have hy : GT ∉ p ++ LT :: f :: q := by
      simp only [List.mem_append, List.mem_cons, not_or] at hGT ⊢
      exact ⟨hGT.1, by decide, hfGT.symm, hGT.2⟩
    obtain ⟨b, hin⟩ := andThen_along hx hGT hf hg 0 1 s beyond t errno
    obtain ⟨b', hout⟩ := andThen_against hx hy hf hg 0 1 s beyond t errno
    rw [hin, hout]
    exact same_runs t (by decide) _ _ errno
  · have hx : GT ∉ p := fun hm => hGT (List.mem_append_left q hm)
    have hy : LT ∉ p ++ GT :: g :: q := by
      simp only [List.mem_append, List.mem_cons, not_or] at hLT ⊢
      exact ⟨hLT.1, by decide, hgLT.symm, hLT.2⟩
    obtain ⟨b, hin⟩ := andThen_against hx hy hg hf 1 0 s beyond t errno
    obtain ⟨b', hout⟩ := andThen_along hx hLT hg hf 1 0 s beyond t errno
    rw [hin, hout]
    exact same_runs t (by decide) _ _ errno

/-- A redirection removes its operator and file and nothing else, and those of
a vector with one pair of each kind can be made in either order. -/
theorem redirections_exact (env : Env) (t : Fds Desc) (errno : Nat) :
    (∀ ts beyond, Removes LT ts beyond (redirect_in env (slots ts beyond) t errno)) ∧
    (∀ ts beyond, Removes GT ts beyond (redirect_out env (slots ts beyond) t errno)) ∧
    ∀ f g ts beyond, TwoPairs f g ts → env.openFails .read f = none → env.openFails .write g = none →
      Same (andThen (redirect_in env) (redirect_out env) (slots ts beyond) t errno)
        (andThen (redirect_out env) (redirect_in env) (slots ts beyond) t errno) :=
  ⟨fun ts beyond => redirect_removes LT .read 0 env ts beyond t errno,
    fun ts beyond => redirect_removes GT .write 1 env ts beyond t errno,
    fun _ _ _ beyond h hf hg => pairs_either_order h hf hg beyond t errno⟩

/-- The descriptors a shell is given. -/
def stdio : Fds Desc := [some (.inherited 0), some (.inherited 1), some (.inherited 2)]

/-- `> b wc < a -l`, run with stdin and stdout open. -/
theorem redirections_exact_wc :
    Same (andThen (redirect_in .fine) (redirect_out .fine)
        (slots [GT, [98], [119, 99], LT, [97], [45, 108]] []) stdio 0)
      (andThen (redirect_out .fine) (redirect_in .fine)
        (slots [GT, [98], [119, 99], LT, [97], [45, 108]] []) stdio 0) :=
  (redirections_exact .fine stdio 0).2.2 [97] [98] _ []
    ⟨by decide, by decide, ⟨[GT, [98], [119, 99]], [[45, 108]], rfl⟩,
      ⟨[], [[119, 99], LT, [97], [45, 108]], rfl⟩, by decide⟩ rfl rfl

end Sh9

end SysProg.Shell
