/-
The functions of the shell on the strings of a vector, where the model runs
them on its slots: what each one finds, what it leaves of the vector and
which processes it comes to.
-/
import SysProg.Shell
import Mathlib.Algebra.Ring.Nat
import Mathlib.Data.List.Basic

namespace SysProg.Shell

/-! ## Slots and strings -/

/-- The strings of a vector, its NULL, and what lies beyond. -/
def slots (ts : List Token) (beyond : Argv) : Argv := ts.map some ++ none :: beyond

theorem slot_slots (p s : List Token) (beyond : Argv) : (slots (p ++ s) beyond).slot p.length = s.head? := by
  rw [slots, List.map_append, List.append_assoc, Argv.slot, List.getElem?_append_right (by simp)]
  cases s <;> simp

theorem slot_slots_two (p s : List Token) (x y : Token) (beyond : Argv) :
    (slots (p ++ x :: y :: s) beyond).slot (p.length + 2) = s.head? := by
  simpa using slot_slots (p ++ [x, y]) s beyond

theorem slots_set_some (p s : List Token) (x z : Token) (beyond : Argv) :
    (slots (p ++ x :: s) beyond).set p.length (some z) = slots (p ++ z :: s) beyond := by
  rw [slots, slots, List.map_append, List.append_assoc, List.set_append_right _ _ (by simp)]
  simp

theorem slots_set_none (p s : List Token) (x : Token) (beyond : Argv) :
    (slots (p ++ x :: s) beyond).set p.length none = slots p (s.map some ++ none :: beyond) := by
  rw [slots, slots, List.map_append, List.append_assoc, List.set_append_right _ _ (by simp)]
  simp

/-- Closing up removes two strings. The slot after the new NULL keeps the last
string it held, and the old NULL and the slots beyond it are as they were. -/
theorem closeUp_slots (p s : List Token) (x y : Token) (beyond : Argv) :
    closeUp (slots (p ++ x :: y :: s) beyond) (p.length + 2) =
      slots (p ++ s) ((y :: s).getLast? :: none :: beyond) := by
  induction s generalizing p x y with
  | nil =>
    rw [closeUp]
    split
    · next t ht => rw [slot_slots_two] at ht; cases ht
    · rw [Nat.add_sub_cancel, slots_set_none, List.append_nil]
      rfl
  | cons z s ih =>
    rw [closeUp]
    split
    · next t ht =>
      rw [slot_slots_two] at ht
      cases ht
      have := ih (p ++ [z]) y z
      rw [Nat.add_sub_cancel, slots_set_some, List.getLast?_cons_cons]
      simpa [Nat.add_right_comm] using this
    · next hn => rw [slot_slots_two] at hn; cases hn

/-- The vector in `a` is `ts`: its strings, NULL, and whatever lies beyond. -/
def Vec (a : Argv) (ts : List Token) : Prop := ∃ beyond, a = ts.map some ++ none :: beyond

namespace Vec

variable {a : Argv} {ts : List Token}

theorem parsed (ts : List Token) : Vec (parsed ts) ts := ⟨[], rfl⟩

theorem slots (ts : List Token) (beyond : Argv) : Vec (slots ts beyond) ts := ⟨beyond, rfl⟩

theorem vector (h : Vec a ts) : a.vector = ts := by
  obtain ⟨beyond, rfl⟩ := h
  induction ts with
  | nil => rfl
  | cons t ts ih => exact congrArg (t :: ·) ih

theorem nullAt (h : Vec a ts) : a.nullAt = ts.length := by
  obtain ⟨beyond, rfl⟩ := h
  induction ts with
  | nil => rfl
  | cons t ts ih => exact congrArg (· + 1) ih

theorem slot_lt (h : Vec a ts) {i : Nat} (hi : i < ts.length) : a.slot i = some ts[i] := by
  obtain ⟨beyond, rfl⟩ := h
  rw [Argv.slot, List.getElem?_append_left (by simpa using hi)]
  simp [hi]

theorem slot_end (h : Vec a ts) : a.slot ts.length = none := by
  obtain ⟨beyond, rfl⟩ := h
  rw [Argv.slot, List.getElem?_append_right (by simp)]
  simp

theorem search (h : Vec a ts) (op : Token) : a.search op = ts.idxOf op := by
  obtain ⟨beyond, rfl⟩ := h
  induction ts with
  | nil => rfl
  | cons t ts ih =>
    by_cases ht : t = op
    · simp [Argv.search, ht]
    · rw [List.idxOf_cons_ne _ ht, List.map_cons, List.cons_append, Argv.search, if_neg ht, ih]

theorem cut {p s : List Token} {t : Token} (h : Vec a (p ++ t :: s)) :
    Vec (a.set p.length none) p ∧ Vec ((a.set p.length none).drop (p.length + 1)) s := by
  obtain ⟨beyond, rfl⟩ := h
  have hset := slots_set_none p s t beyond
  unfold Shell.slots at hset
  refine ⟨⟨_, hset⟩, ⟨beyond, ?_⟩⟩
  rw [hset, ← List.drop_drop, List.drop_left' (by simp)]
  rfl

theorem closeUp {p s : List Token} {x y : Token} (h : Vec a (p ++ x :: y :: s)) :
    Vec (closeUp a (p.length + 2)) (p ++ s) := by
  obtain ⟨beyond, rfl⟩ := h
  exact ⟨_, closeUp_slots p s x y beyond⟩

end Vec

theorem first_cases (op : Token) (ts : List Token) :
    op ∉ ts ∨ ∃ p s, op ∉ p ∧ ts = p ++ op :: s := by
  by_cases h : op ∈ ts
  · obtain ⟨p, s, rfl, hp⟩ := List.eq_append_cons_of_mem h
    exact .inr ⟨p, s, hp, rfl⟩
  · exact .inl h

theorem idxOf_first {op : Token} {p s : List Token} (hp : op ∉ p) :
    (p ++ op :: s).idxOf op = p.length := by
  rw [List.idxOf_append_of_notMem hp, List.idxOf_cons_self, Nat.add_zero]

theorem decide_ne_of_not_mem {op : Token} {ts : List Token} (h : op ∉ ts) : ∀ t ∈ ts, decide (t ≠ op) = true := by
  intro t ht
  have hne : t ≠ op := fun he => h (he ▸ ht)
  exact decide_eq_true hne

theorem dropWhile_absent {op : Token} {ts : List Token} (h : op ∉ ts) : ts.dropWhile (· ≠ op) = [] :=
  List.dropWhile_eq_nil_iff.2 (decide_ne_of_not_mem h)

theorem dropWhile_first {op : Token} {p s : List Token} (h : op ∉ p) :
    (p ++ op :: s).dropWhile (· ≠ op) = op :: s ∧ (p ++ op :: s).takeWhile (· ≠ op) = p := by
  have hp := decide_ne_of_not_mem h
  rw [List.dropWhile_append_of_pos hp, List.takeWhile_append_of_pos hp]
  simp

theorem slots_absent {op : Token} {ts : List Token} (hop : op ∉ ts) (beyond : Argv) :
    (slots ts beyond).slot ((slots ts beyond).search op) = none := by
  have h := Vec.slots ts beyond
  rw [h.search, List.idxOf_eq_length hop, h.slot_end]

theorem slots_found {op : Token} {p : List Token} (hop : op ∉ p) (s : List Token) (beyond : Argv) :
    (slots (p ++ op :: s) beyond).search op = p.length ∧ (slots (p ++ op :: s) beyond).slot p.length = some op ∧
      (slots (p ++ op :: s) beyond).slot (p.length + 1) = s.head? := by
  refine ⟨?_, slot_slots p _ beyond, ?_⟩
  · rw [(Vec.slots _ beyond).search, idxOf_first hop]
  · simpa using slot_slots (p ++ [op]) s beyond

/-! ## is_background -/

/-- The strings `is_background` leaves: all, or all but a last one that begins with `&`. -/
def foreground (ts : List Token) : List Token :=
  if (ts.getLast?.getD []).headD NUL = AMP then ts.dropLast else ts

theorem is_background_eq {a : Argv} {ts : List Token} (h : Vec a ts) :
    (is_background a).1 = decide ((ts.getLast?.getD []).headD NUL = AMP) ∧ Vec (is_background a).2 (foreground ts) := by
  rcases List.eq_nil_or_concat ts with rfl | ⟨p, t, rfl⟩
  · have : a.slot 0 = none := h.slot_end
    simp only [is_background, this]
    exact ⟨rfl, h⟩
  · rw [List.concat_eq_append] at h ⊢
    have h0 : ∃ t, a.slot 0 = some t := ⟨_, h.slot_lt (by simp)⟩
    have hlast : a.slot (a.nullAt - 1) = some t := by
      rw [h.nullAt, h.slot_lt (by simp)]
      simp
    obtain ⟨t₀, h0⟩ := h0
    have hn : a.nullAt - 1 = p.length := by rw [h.nullAt]; simp
    have ht : (p ++ [t]).getLast?.getD [] = t := by simp
    simp only [is_background, h0, hlast, Option.getD_some, foreground, ht, List.dropLast_concat]
    by_cases hamp : t.headD NUL = AMP
    · rw [if_pos hamp, if_pos hamp, hn]
      exact ⟨(decide_eq_true hamp).symm, h.cut.1⟩
    · rw [if_neg hamp, if_neg hamp]
      exact ⟨(decide_eq_false hamp).symm, h⟩

/-! ## redirect_in, redirect_out -/

section

variable {op : Token} {mode : Mode} {fd : Nat} {env : Env} {a : Argv} {t : Fds Desc} {p s : List Token}

theorem redirect_absent {ts : List Token} (h : Vec a ts) (hop : op ∉ ts) :
    redirect op mode fd env a t = .ok (a, t, none) := by
  have : a.slot (a.search op) = none := by rw [h.search, List.idxOf_eq_length hop, h.slot_end]
  simp only [redirect, this]

theorem Vec.found (h : Vec a (p ++ op :: s)) (hop : op ∉ p) :
    a.search op = p.length ∧ a.slot p.length = some op ∧ a.slot (p.length + 1) = s.head? := by
  obtain ⟨beyond, rfl⟩ := h
  exact slots_found hop s beyond

theorem redirect_missing (h : Vec a (p ++ [op])) (hop : op ∉ p) :
    redirect op mode fd env a t = .error EINVAL := by
  obtain ⟨hi, hslot, hend⟩ := h.found hop
  simp only [redirect, hi, hslot, hend, List.head?_nil]

/-- The descriptors after a redirection of `fd`. -/
def redirected (t : Fds Desc) (d : Desc) (fd : Nat) : Fds Desc :=
  ((t.put t.lowest (some d)).dup2 t.lowest fd).close t.lowest

theorem redirect_refused {f : Token} {e : Errno} (h : Vec a (p ++ op :: f :: s)) (hop : op ∉ p)
    (hopen : env.openFails mode f = some e) : redirect op mode fd env a t = .error (env.message e) := by
  obtain ⟨hi, hslot, hfile⟩ := h.found hop
  simp only [redirect, hi, hslot, hfile, List.head?_cons, hopen]

theorem redirect_file (fd : Nat) (t : Fds Desc) {f : Token} (h : Vec a (p ++ op :: f :: s))
    (hop : op ∉ p) (hopen : env.openFails mode f = none) : ∃ a', Vec a' (p ++ s) ∧
      redirect op mode fd env a t = .ok (a', redirected t (.file f mode) fd, some f) := by
  obtain ⟨hi, hslot, hfile⟩ := h.found hop
  refine ⟨closeUp a (p.length + 2), h.closeUp, ?_⟩
  simp only [redirect, hi, hslot, hfile, List.head?_cons, hopen, redirected]

/-- A redirection that succeeds has found no operator, or one with a file. -/
theorem redirect_ok_cases {ts : List Token} {a' : Argv} {u : Fds Desc} {o : Option Token}
    (h : Vec a ts) (hr : redirect op mode fd env a t = .ok (a', u, o)) :
    (op ∉ ts ∧ a' = a ∧ u = t ∧ o = none) ∨
    ∃ p f s, op ∉ p ∧ ts = p ++ op :: f :: s ∧ Vec a' (p ++ s) ∧ u = redirected t (.file f mode) fd ∧ o = some f := by
  rcases first_cases op ts with hop | ⟨p, s, hop, rfl⟩
  · rw [redirect_absent h hop] at hr
    cases hr
    exact .inl ⟨hop, rfl, rfl, rfl⟩
  · cases s with
    | nil => rw [redirect_missing h hop] at hr; cases hr
    | cons f s =>
      cases hopen : env.openFails mode f with
      | some e => rw [redirect_refused h hop hopen] at hr; cases hr
      | none =>
        obtain ⟨a₁, ha₁, hr₁⟩ := redirect_file fd t h hop hopen
        rw [hr₁] at hr
        cases hr
        exact .inr ⟨p, f, s, hop, rfl, ha₁, rfl, rfl⟩

/-- A redirection that succeeds removes nothing, or the operator and a file:
two strings, `r` times. -/
theorem redirect_removes {ts : List Token} {a' : Argv} {u : Fds Desc} {o : Option Token}
    (h : Vec a ts) (hr : redirect op mode fd env a t = .ok (a', u, o)) :
    ∃ ts' r, Vec a' ts' ∧ ts'.length + 2 * r = ts.length ∧
      r ≤ 1 ∧ (r = 1 → op ∈ ts) ∧ ts' ⊆ ts := by
  rcases redirect_ok_cases h hr with ⟨-, rfl, -, -⟩ | ⟨p, f, s, -, rfl, ha', -, -⟩
  · exact ⟨ts, 0, h, rfl, by decide, by simp, List.Subset.refl ts⟩
  · refine ⟨p ++ s, 1, ha', ?_, le_rfl, fun _ => by simp, ?_⟩
    · simp only [List.length_append, List.length_cons]
      omega
    · intro x hx
      rcases List.mem_append.1 hx with hx | hx <;> simp [hx]

/-- On two vectors of the same strings a redirection does the same. -/
theorem redirect_congr (op : Token) (mode : Mode) (fd : Nat) (env : Env) (t : Fds Desc) {b : Argv} {ts : List Token}
    (h : Vec a ts) (h' : Vec b ts) :
    (∃ e, redirect op mode fd env a t = .error e ∧ redirect op mode fd env b t = .error e) ∨
    ∃ a' b' u o ts', redirect op mode fd env a t = .ok (a', u, o) ∧ redirect op mode fd env b t = .ok (b', u, o) ∧
      Vec a' ts' ∧ Vec b' ts' := by
  rcases first_cases op ts with hop | ⟨p, s, hop, rfl⟩
  · exact .inr ⟨a, b, t, none, ts, redirect_absent h hop, redirect_absent h' hop, h, h'⟩
  · cases s with
    | nil => exact .inl ⟨EINVAL, redirect_missing h hop, redirect_missing h' hop⟩
    | cons f s =>
      cases hopen : env.openFails mode f with
      | some e => exact .inl ⟨env.message e, redirect_refused h hop hopen, redirect_refused h' hop hopen⟩
      | none =>
        obtain ⟨a', ha', hr⟩ := redirect_file fd t h hop hopen
        obtain ⟨b', hb', hr'⟩ := redirect_file fd t h' hop hopen
        exact .inr ⟨a', b', _, _, p ++ s, hr, hr', ha', hb'⟩

end

/-! ## pipe_present, pipe_and_exec -/

/-- The descriptors of the process that writes to pipe `id`. -/
def talking (t : Fds Desc) (id : Nat) : Fds Desc :=
  let (u, r, w) := t.pipe (.pipeRead id) (.pipeWrite id)
  ((u.dup2 w 1).close w).close r

/-- The descriptors of the process that reads from pipe `id`. -/
def listening (t : Fds Desc) (id : Nat) : Fds Desc :=
  let (u, r, w) := t.pipe (.pipeRead id) (.pipeWrite id)
  ((u.dup2 r 0).close r).close w

section

variable {env : Env} {id : Nat} {a : Argv} {t : Fds Desc} {c s : List Token}

theorem pipe_present_none (h : Vec a c) (hne : c ≠ []) (hc : PIPE ∉ c) : pipe_present a = 0 := by
  have hi : a.search PIPE = c.length := by rw [h.search, List.idxOf_eq_length hc]
  have hpos := List.length_pos_iff.2 hne
  simp only [pipe_present, hi, h.slot_end]
  rw [if_neg (by simp; omega)]
  simp

/-- An empty vector, or one with a pipe first, or its first pipe last. -/
def PipeRefused (ts : List Token) : Prop := ts = [] ∨ ts.head? = some PIPE ∨ ∃ p, PIPE ∉ p ∧ ts = p ++ [PIPE]

theorem pipe_cases (ts : List Token) : PipeRefused ts ∨ (ts ≠ [] ∧ PIPE ∉ ts) ∨
    ∃ c s, c ≠ [] ∧ PIPE ∉ c ∧ s ≠ [] ∧ ts = c ++ PIPE :: s := by
  rcases first_cases PIPE ts with hp | ⟨c, s, hc, rfl⟩
  · by_cases hne : ts = []
    · exact .inl (.inl hne)
    · exact .inr (.inl ⟨hne, hp⟩)
  · by_cases hne : c = []
    · exact .inl (.inr (.inl (by rw [hne]; rfl)))
    · by_cases hs : s = []
      · exact .inl (.inr (.inr ⟨c, hc, by rw [hs]⟩))
      · exact .inr (.inr ⟨c, s, hne, hc, hs, rfl⟩)

theorem pipe_present_bad (h : Vec a c) (hc : PipeRefused c) : pipe_present a = -1 := by
  have hbad : a.search PIPE = 0 ∨ a.slot (a.search PIPE) ≠ none ∧ a.slot (a.search PIPE + 1) = none := by
    rcases hc with rfl | hc | ⟨p, hp, rfl⟩
    · exact .inl (h.search PIPE)
    · cases c with
      | nil => cases hc
      | cons x c =>
        cases hc
        exact .inl (by rw [h.search, List.idxOf_cons_self])
    · right
      rw [h.search, idxOf_first hp, h.slot_lt (by simp)]
      exact ⟨by simp, by simpa using h.slot_end⟩
  simp only [pipe_present, if_pos hbad]

theorem pipe_present_first (h : Vec a (c ++ PIPE :: s)) (hne : c ≠ []) (hc : PIPE ∉ c)
    (hs : s ≠ []) :
    pipe_present a = c.length := by
  have hi : a.search PIPE = c.length := by rw [h.search, idxOf_first hc]
  have hpos := List.length_pos_iff.2 hne
  have hspos := List.length_pos_iff.2 hs
  have hslot : a.slot c.length ≠ none := by rw [h.slot_lt (by simp)]; simp
  have hnext : a.slot (c.length + 1) ≠ none := by rw [h.slot_lt (by simp; omega)]; simp
  simp only [pipe_present, hi]
  rw [if_neg (by simp [hnext]; omega), if_neg hslot]

theorem pipe_and_exec_last (h : Vec a c) (hne : c ≠ []) (hc : PIPE ∉ c) :
    pipe_and_exec env id a t = [env.execvp c t] := by
  have hp := pipe_present_none h hne hc
  rw [pipe_and_exec, hp, h.vector]
  rfl

theorem pipe_and_exec_bad (h : Vec a c) (hc : PipeRefused c) : pipe_and_exec env id a t = [env.exit EINVAL] := by
  rw [pipe_and_exec, dif_pos (pipe_present_bad h hc)]

/-- At a pipe that is neither, the process forks; if it can, it executes what
stands before the pipe, and its child goes on with what stands after. -/
theorem pipe_and_exec_pipe (h : Vec a (c ++ PIPE :: s)) (hne : c ≠ []) (hc : PIPE ∉ c)
    (hs : s ≠ []) :
    (∀ e, env.forkFails id = some e → pipe_and_exec env id a t = [env.exit e]) ∧
      (env.forkFails id = none → ∃ a', Vec a' s ∧ pipe_and_exec env id a t =
        env.execvp c (talking t id) :: pipe_and_exec env (id + 1) a' (listening t id)) := by
  have hp := pipe_present_first h hne hc hs
  have hpos := List.length_pos_iff.2 hne
  obtain ⟨hcut, hrest⟩ := h.cut
  rw [pipe_and_exec, hp, dif_neg (by omega), if_neg (by omega)]
  refine ⟨fun e he => by simp only [he], fun he => ⟨_, hrest, ?_⟩⟩
  simp only [he, Int.toNat_natCast, hcut.vector]
  rfl

theorem Env.execvp_inj {argv argv' : List Token} {u : Fds Desc} (h : env.execvp argv t = env.execvp argv' u) :
    argv = argv' ∧ t = u :=
  ⟨(Proc.exec.inj h).1, (Proc.exec.inj h).2.1⟩

/-- The slots an executed vector takes, its NULL included. -/
def Proc.size : Proc → Nat
  | .exec argv _ _ => argv.length + 1
  | .exit _ => 0

/-- When all processes of the child execute something, both redirections have
succeeded and the processes are those of what is left. -/
theorem runChild_ok (h : ∀ p ∈ (runChild env a t).procs, p.size ≠ 0) : ∃ a₁ t₁ o₁ a₂ t₂ o₂,
    redirect_in env a t = .ok (a₁, t₁, o₁) ∧ redirect_out env a₁ t₁ = .ok (a₂, t₂, o₂) ∧
      (runChild env a t).procs = pipe_and_exec env 0 a₂ t₂ := by
  unfold runChild at h ⊢
  split at h
  · exact absurd rfl (h _ (List.mem_singleton_self _))
  · next a₁ t₁ o₁ hr₁ =>
    split at h
    · exact absurd rfl (h _ (List.mem_singleton_self _))
    · next a₂ t₂ o₂ hr₂ => exact ⟨a₁, t₁, o₁, a₂, t₂, o₂, hr₁, hr₂, rfl⟩

/-- When all its processes execute something, they divide the vector among them. -/
theorem pipe_and_exec_size {ts : List Token} (h : Vec a ts)
    (hexec : ∀ p ∈ pipe_and_exec env id a t, p.size ≠ 0) :
    ((pipe_and_exec env id a t).map Proc.size).sum = ts.length + 1 := by
  induction hn : ts.length using Nat.strongRecOn generalizing ts a t id with
  | ind n ih =>
    rcases pipe_cases ts with hbad | ⟨hne, hp⟩ | ⟨c, s, hne, hc, hs, rfl⟩
    · rw [pipe_and_exec_bad h hbad] at hexec
      exact absurd rfl (hexec _ (List.mem_singleton_self _))
    · rw [pipe_and_exec_last h hne hp]
      simp [Env.execvp, Proc.size, hn]
    · cases hf : env.forkFails id with
      | some e =>
        rw [(pipe_and_exec_pipe h hne hc hs).1 e hf] at hexec
        exact absurd rfl (hexec _ (List.mem_singleton_self _))
      | none =>
        obtain ⟨a', ha', hrun⟩ := (pipe_and_exec_pipe (t := t) h hne hc hs).2 hf
        rw [hrun] at hexec ⊢
        have hlen : (c ++ PIPE :: s).length = c.length + (s.length + 1) := by simp
        rw [List.map_cons, List.sum_cons, ih s.length (by omega) ha'
          (fun p hm => hexec p (List.mem_cons_of_mem _ hm)) rfl, Env.execvp, Proc.size]
        omega

theorem pipe_and_exec_congr (env : Env) (id : Nat) (t : Fds Desc) {b : Argv} {ts : List Token} (h : Vec a ts)
    (h' : Vec b ts) : pipe_and_exec env id a t = pipe_and_exec env id b t := by
  induction hn : ts.length using Nat.strongRecOn generalizing ts a b t id with
  | ind n ih =>
    rcases pipe_cases ts with hbad | ⟨hne, hp⟩ | ⟨c, s, hne, hc, hs, rfl⟩
    · rw [pipe_and_exec_bad h hbad, pipe_and_exec_bad h' hbad]
    · rw [pipe_and_exec_last h hne hp, pipe_and_exec_last h' hne hp]
    · cases hf : env.forkFails id with
      | some e => rw [(pipe_and_exec_pipe h hne hc hs).1 e hf, (pipe_and_exec_pipe h' hne hc hs).1 e hf]
      | none =>
        obtain ⟨a', ha', hrun⟩ := (pipe_and_exec_pipe (t := t) h hne hc hs).2 hf
        obtain ⟨b', hb', hrun'⟩ := (pipe_and_exec_pipe (t := t) h' hne hc hs).2 hf
        have hlen : (c ++ PIPE :: s).length = c.length + (s.length + 1) := by simp
        rw [hrun, hrun', ih s.length (by omega) (id + 1) _ ha' hb' rfl]

theorem runChild_congr (env : Env) (t : Fds Desc) {b : Argv} {ts : List Token} (h : Vec a ts) (h' : Vec b ts) :
    runChild env a t = runChild env b t := by
  unfold runChild redirect_in redirect_out
  rcases redirect_congr LT .read 0 env t h h' with ⟨e, hr, hr'⟩ | ⟨a₁, b₁, t₁, o₁, ts₁, hr, hr', ha₁, hb₁⟩
  · rw [hr, hr']
  · rw [hr, hr']
    dsimp only
    rcases redirect_congr GT .write 1 env t₁ ha₁ hb₁ with ⟨e, hr, hr'⟩ | ⟨a₂, b₂, t₂, o₂, ts₂, hr, hr', ha₂, hb₂⟩
    · rw [hr, hr']
    · rw [hr, hr']
      dsimp only
      rw [pipe_and_exec_congr env 0 t₂ ha₂ hb₂]

end

end SysProg.Shell
