/-
Programs in a row, each reading what the one before it writes, over pipes that
hold so much and no more. A reader is told of the end when the pipe is empty
and its writer gone; a writer whose reader is gone is killed when it writes.

A program is what it does next, from its state. What it makes of an input must
not depend on how the input is cut up into the pieces it reads: `Yields`.
-/
import SysProg.Lib.Lts
import Mathlib.Algebra.BigOperators.Group.Finset.Basic
import Mathlib.Algebra.Order.BigOperators.Group.Finset
import Mathlib.Data.List.Infix

namespace SysProg.Stream

/-- What a program does next. -/
inductive Next (σ β : Type) where
  /-- It reads at most `max` of what there is, and nothing at the end. -/
  | read (max : Nat) (f : List β → σ)
  | write (b : β) (p : σ)
  | exit

/-- A stage that runs, or how it has ended. -/
inductive Life (σ : Type) where
  | running (p : σ)
  | exited
  /-- By writing what nobody is left to read. -/
  | killed

/-- The stage has ended. -/
def Life.gone {σ : Type} : Life σ → Bool
  | .running _ => false
  | .exited | .killed => true

section

variable {σ β : Type} (next : σ → Next σ β)

/-- A program, given `inp`, writes `out` and exits, in at most so many steps
and whatever the pieces it gets `inp` in. -/
inductive Yields : σ → List β → List β → Nat → Prop
  | exit {p inp n} (h : next p = .exit) : Yields p inp [] n
  | write {p inp b q out n} (h : next p = .write b q) (hq : Yields q inp out n) : Yields p inp (b :: out) (n + 1)
  | read {p inp max f out n} (h : next p = .read max f) (hmax : 0 < max)
      (hdata : ∀ c rest, c ≠ [] → c.length ≤ max → inp = c ++ rest → Yields (f c) rest out n)
      (hend : inp = [] → Yields (f []) [] out n) : Yields p inp out (n + 1)

/-- Program `k` reads from buffer `k`, and writes to the next one. The first
buffer is what there is to read, the last what has been written. -/
@[ext]
structure State (σ β : Type) where
  stages : Nat → Life σ
  bufs : Nat → List β

/-- Which stage is next. -/
structure Action where
  stage : Nat
  /-- How much is read, if it reads. -/
  size : Nat

namespace State

variable {σ β : Type}

/-- The state with one stage changed. -/
def put (s : State σ β) (k : Nat) (l : Life σ) : State σ β := { s with stages := Function.update s.stages k l }

/-- Stage `k` has written `b`. -/
def wrote (s : State σ β) (k : Nat) (b : β) (p : σ) : State σ β :=
  { stages := Function.update s.stages k (.running p)
    bufs := Function.update s.bufs (k + 1) (s.bufs (k + 1) ++ [b]) }

/-- Stage `k` has read `m` elements. -/
def took (s : State σ β) (k m : Nat) (p : σ) : State σ β :=
  { stages := Function.update s.stages k (.running p)
    bufs := Function.update s.bufs k ((s.bufs k).drop m) }

end State

/-- `n` programs, over pipes that hold `cap`. -/
def step (n cap : Nat) (s : State σ β) (a : Action) : Option (State σ β) :=
  if a.stage < n then
    match s.stages a.stage with
    | .running p =>
      match next p with
      | .exit => some (s.put a.stage .exited)
      | .write b q =>
        if a.stage + 1 < n ∧ (s.stages (a.stage + 1)).gone then some (s.put a.stage .killed)
        else if a.stage + 1 < n ∧ cap ≤ (s.bufs (a.stage + 1)).length then none
        else some (s.wrote a.stage b q)
      | .read max f =>
        if (s.bufs a.stage).isEmpty then
          if a.stage = 0 ∨ (s.stages (a.stage - 1)).gone then some (s.put a.stage (.running (f []))) else none
        else if 0 < a.size ∧ a.size ≤ max ∧ a.size ≤ (s.bufs a.stage).length then
          some (s.took a.stage a.size (f ((s.bufs a.stage).take a.size)))
        else none
    | _ => none
  else none

/-- What the steps do. -/
inductive Move (n cap : Nat) (s : State σ β) : Action → State σ β → Prop
  | exit {a p} (lt : a.stage < n) (runs : s.stages a.stage = .running p) (next : next p = .exit) :
      Move n cap s a (s.put a.stage .exited)
  | killed {a p b q} (lt : a.stage + 1 < n) (runs : s.stages a.stage = .running p) (next : next p = .write b q)
      (gone : (s.stages (a.stage + 1)).gone) : Move n cap s a (s.put a.stage .killed)
  | write {a p b q} (lt : a.stage < n) (runs : s.stages a.stage = .running p) (next : next p = .write b q)
      (room : a.stage + 1 < n → (s.bufs (a.stage + 1)).length < cap) : Move n cap s a (s.wrote a.stage b q)
  | atEnd {a p max f} (lt : a.stage < n) (runs : s.stages a.stage = .running p) (next : next p = .read max f)
      (empty : s.bufs a.stage = []) (last : a.stage = 0 ∨ (s.stages (a.stage - 1)).gone) :
      Move n cap s a (s.put a.stage (.running (f [])))
  | read {a p max f} (lt : a.stage < n) (runs : s.stages a.stage = .running p) (next : next p = .read max f)
      (pos : 0 < a.size) (le : a.size ≤ max) (avail : a.size ≤ (s.bufs a.stage).length) :
      Move n cap s a (s.took a.stage a.size (f ((s.bufs a.stage).take a.size)))

end

section

variable {σ β : Type} {next : σ → Next σ β} {n cap : Nat} {s s' : State σ β} {a : Action}

theorem move_of_step (h : step next n cap s a = some s') : Move next n cap s a s' := by
  unfold step at h
  split at h
  · next hlt =>
    split at h
    · next p hp =>
      split at h
      · next hn =>
        cases h
        exact .exit hlt hp hn
      · next b q hn =>
        split at h
        · next hgone =>
          cases h
          exact .killed hgone.1 hp hn hgone.2
        · split at h
          · cases h
          · next hfull =>
            cases h
            exact .write hlt hp hn fun hk => Nat.lt_of_not_le fun hle => hfull ⟨hk, hle⟩
      · next max f hn =>
        split at h
        · next hempty =>
          split at h
          · next hlast =>
            cases h
            exact .atEnd hlt hp hn (List.isEmpty_iff.1 hempty) hlast
          · cases h
        · split at h
          · next hsize =>
            cases h
            exact .read hlt hp hn hsize.1 hsize.2.1 hsize.2.2
          · cases h
    · cases h
  · cases h

/-! ## What is still to come -/

/-- The state on the way to `out`: `rest k` is still to be written to buffer
`k`, and stage `k` has at most `fuel k` steps to go. -/
structure Coming (next : σ → Next σ β) (n : Nat) (out : List β) (rest : Nat → List β) (fuel : Nat → Nat)
    (s : State σ β) : Prop where
  input : rest 0 = []
  runs : ∀ k < n, ∀ p, s.stages k = .running p → Yields next p (s.bufs k ++ rest k) (rest (k + 1)) (fuel k)
  exited : ∀ k < n, s.stages k = .exited → rest (k + 1) = []
  killed : ∀ k < n, s.stages k = .killed → k + 1 < n ∧ (s.stages (k + 1)).gone
  output : s.bufs n ++ rest n = out

/-- How many steps are to go at most. -/
def weight (n : Nat) (fuel : Nat → Nat) (s : State σ β) : Nat :=
  ∑ k ∈ Finset.range n, if (s.stages k).gone then 0 else fuel k + 1

theorem running_of_not_gone {l : Life σ} (h : ¬ l.gone) : ∃ p, l = .running p := by
  cases l with
  | running p => exact ⟨p, rfl⟩
  | exited | killed => exact absurd rfl h

/-- A stage whose writer is gone has all it will get. -/
theorem Coming.rest_nil {out : List β} {rest : Nat → List β} {fuel : Nat → Nat} (h : Coming next n out rest fuel s)
    {k : Nat} {p : σ} (hk : k < n) (hp : s.stages k = .running p) (hlast : k = 0 ∨ (s.stages (k - 1)).gone) :
    rest k = [] := by
  cases k with
  | zero => exact h.input
  | succ k =>
    have hgone : (s.stages k).gone := hlast.resolve_left (Nat.succ_ne_zero k)
    cases hl : s.stages k with
    | running q =>
      rw [hl] at hgone
      cases hgone
    | exited => exact h.exited k (by omega) hl
    | killed =>
      have := (h.killed k (by omega) hl).2
      rw [hp] at this
      cases this

/-- What has become of the stage that took the step. -/
def Stands (next : σ → Next σ β) (n : Nat) (s : State σ β) (k : Nat) (inp out : List β) (m : Nat) : Life σ → Prop
  | .running q => Yields next q inp out m
  | .exited => out = []
  | .killed => k + 1 < n ∧ (s.stages (k + 1)).gone

theorem weight_lt {k m : Nat} {l : Life σ} {fuel : Nat → Nat} (hk : k < n) (hrun : ¬ (s.stages k).gone)
    (hs : s'.stages = Function.update s.stages k l) (hm : l.gone ∨ m < fuel k) :
    weight n (Function.update fuel k m) s' < weight n fuel s := by
  unfold weight
  rw [hs]
  refine Finset.sum_lt_sum ?_ ⟨k, Finset.mem_range.2 hk, ?_⟩
  · intro j _
    by_cases hj : j = k
    · subst hj
      rw [Function.update_self, Function.update_self, if_neg hrun]
      split
      · exact Nat.zero_le _
      · next hl => have := hm.resolve_left hl; omega
    · rw [Function.update_of_ne hj, Function.update_of_ne hj]
  · rw [Function.update_self, Function.update_self, if_neg hrun]
    split
    · exact Nat.succ_pos _
    · next hl => have := hm.resolve_left hl; omega

/-- One stage's step, and what it has to keep for the others. -/
theorem Coming.after {out : List β} {rest rest' : Nat → List β} {fuel : Nat → Nat} (h : Coming next n out rest fuel s)
    {k m : Nat} {l : Life σ} (hk : k < n) (hrun : ¬ (s.stages k).gone) (hs : s'.stages = Function.update s.stages k l)
    (hinput : rest' 0 = [])
    (hothers : ∀ j ≠ k, s'.bufs j ++ rest' j = s.bufs j ++ rest j ∧ rest' (j + 1) = rest (j + 1))
    (hstands : Stands next n s k (s'.bufs k ++ rest' k) (rest' (k + 1)) m l) :
    Coming next n out rest' (Function.update fuel k m) s' where
  input := hinput
  runs j hj p hp := by
    by_cases hjk : j = k
    · subst hjk
      rw [hs, Function.update_self] at hp
      subst hp
      rw [Function.update_self]
      exact hstands
    · rw [hs, Function.update_of_ne hjk] at hp
      rw [Function.update_of_ne hjk, (hothers j hjk).1, (hothers j hjk).2]
      exact h.runs j hj p hp
  exited j hj hp := by
    by_cases hjk : j = k
    · subst hjk
      rw [hs, Function.update_self] at hp
      subst hp
      exact hstands
    · rw [hs, Function.update_of_ne hjk] at hp
      rw [(hothers j hjk).2]
      exact h.exited j hj hp
  killed j hj hp := by
    -- what was gone is so still
    have hgone : ∀ i, (s.stages i).gone → (s'.stages i).gone := by
      intro i hi
      have hik : i ≠ k := by
        intro he
        exact hrun (he ▸ hi)
      rwa [hs, Function.update_of_ne hik]
    by_cases hjk : j = k
    · subst hjk
      rw [hs, Function.update_self] at hp
      subst hp
      exact ⟨hstands.1, hgone _ hstands.2⟩
    · rw [hs, Function.update_of_ne hjk] at hp
      exact ⟨(h.killed j hj hp).1, hgone _ (h.killed j hj hp).2⟩
  output := by
    rw [(hothers n (by omega)).1]
    exact h.output

/-! ## The steps -/

theorem Yields.of_exit {p : σ} {inp out : List β} {m : Nat} (h : Yields next p inp out m) (hn : next p = .exit) :
    out = [] := by
  cases h with
  | exit => rfl
  | write h' => cases hn.symm.trans h'
  | read h' => cases hn.symm.trans h'

theorem Yields.of_write {p q : σ} {b : β} {inp out : List β} {m : Nat} (h : Yields next p inp out m)
    (hn : next p = .write b q) : ∃ r k, out = b :: r ∧ m = k + 1 ∧ Yields next q inp r k := by
  cases h with
  | exit h' => cases hn.symm.trans h'
  | write h' hq =>
    cases hn.symm.trans h'
    exact ⟨_, _, rfl, rfl, hq⟩
  | read h' => cases hn.symm.trans h'

theorem Yields.of_read {p : σ} {max : Nat} {f : List β → σ} {inp out : List β} {m : Nat} (h : Yields next p inp out m)
    (hn : next p = .read max f) :
    ∃ k, m = k + 1 ∧ 0 < max ∧
      (∀ c rest, c ≠ [] → c.length ≤ max → inp = c ++ rest → Yields next (f c) rest out k) ∧
      (inp = [] → Yields next (f []) [] out k) := by
  cases h with
  | exit h' => cases hn.symm.trans h'
  | write h' => cases hn.symm.trans h'
  | read h' hmax hdata hend =>
    cases hn.symm.trans h'
    exact ⟨_, rfl, hmax, hdata, hend⟩

theorem Yields.mono {p : σ} {inp out : List β} {m k : Nat} (h : Yields next p inp out m) (hle : m ≤ k) :
    Yields next p inp out k := by
  induction h generalizing k with
  | exit h => exact .exit h
  | write h _ ih =>
    obtain ⟨k, rfl⟩ : ∃ j, k = j + 1 := ⟨k - 1, by omega⟩
    exact .write h (ih (by omega))
  | read h hmax _ _ ih ihEnd =>
    obtain ⟨k, rfl⟩ : ∃ j, k = j + 1 := ⟨k - 1, by omega⟩
    exact .read h hmax (fun c rest hc hle' hinp => ih c rest hc hle' hinp (by omega)) fun hnil => ihEnd hnil (by omega)

theorem not_gone {k : Nat} {p : σ} (h : s.stages k = .running p) : ¬ (s.stages k).gone := by
  rw [h]
  exact Bool.false_ne_true

/-- Each step takes the state on its way. -/
theorem Coming.move {out : List β} {rest : Nat → List β} {fuel : Nat → Nat} (h : Coming next n out rest fuel s)
    (hm : Move next n cap s a s') :
    ∃ rest' fuel', Coming next n out rest' fuel' s' ∧ weight n fuel' s' < weight n fuel s := by
  cases hm with
  | @exit p hlt hp hn =>
    have hnil := (h.runs _ hlt p hp).of_exit hn
    exact ⟨rest, _, h.after (m := 0) hlt (not_gone hp) rfl h.input (fun _ _ => ⟨rfl, rfl⟩) hnil,
      weight_lt hlt (not_gone hp) rfl (.inl rfl)⟩
  | @killed p b q hlt hp hn hgone =>
    exact ⟨rest, _, h.after (m := 0) (by omega) (not_gone hp) rfl h.input (fun _ _ => ⟨rfl, rfl⟩) ⟨hlt, hgone⟩,
      weight_lt (by omega) (not_gone hp) rfl (.inl rfl)⟩
  | @write p b q hlt hp hn _ =>
    obtain ⟨r, m, hr, hm, hq⟩ := (h.runs _ hlt p hp).of_write hn
    refine ⟨Function.update rest (a.stage + 1) r, Function.update fuel a.stage m,
      h.after hlt (not_gone hp) rfl ?_ ?_ ?_, weight_lt hlt (not_gone hp) rfl (.inr (by omega))⟩
    · rw [Function.update_of_ne (by omega)]
      exact h.input
    · intro j hj
      refine ⟨?_, by rw [Function.update_of_ne (by omega)]⟩
      by_cases hjk : j = a.stage + 1
      · subst hjk
        simp [State.wrote, hr]
      · simp [State.wrote, Function.update_of_ne hjk]
    · simpa [State.wrote, Stands] using hq
  | @atEnd p max f hlt hp hn hempty hlast =>
    have hrest := h.rest_nil hlt hp hlast
    obtain ⟨m, hm, -, -, hend⟩ := (h.runs _ hlt p hp).of_read hn
    have hq := hend (by rw [hempty, hrest, List.append_nil])
    refine ⟨rest, _, h.after (m := m) hlt (not_gone hp) rfl h.input (fun _ _ => ⟨rfl, rfl⟩) ?_,
      weight_lt hlt (not_gone hp) rfl (.inr (by omega))⟩
    show Yields next (f []) (s.bufs a.stage ++ rest a.stage) _ m
    rw [hempty, hrest]
    exact hq
  | @read p max f hlt hp hn hpos hle havail =>
    obtain ⟨m, hm, -, hdata, -⟩ := (h.runs _ hlt p hp).of_read hn
    have hlen : ((s.bufs a.stage).take a.size).length = a.size := List.length_take_of_le havail
    have hq := hdata ((s.bufs a.stage).take a.size) ((s.bufs a.stage).drop a.size ++ rest a.stage)
      (List.ne_nil_of_length_pos (by omega)) (by omega) (by rw [← List.append_assoc, List.take_append_drop])
    refine ⟨rest, _, h.after (m := m) hlt (not_gone hp) rfl h.input ?_ ?_,
      weight_lt hlt (not_gone hp) rfl (.inr (by omega))⟩
    · intro j hj
      simp [State.took, Function.update_of_ne hj]
    · simpa [State.took, Stands] using hq

/-! ## Whole runs -/

/-- Programs `k`, each in its initial state `init k` and given what the one
before it yields, with nothing in the pipes yet. -/
def start (init : Nat → σ) (inp : List β) : State σ β where
  stages k := .running (init k)
  bufs k := if k = 0 then inp else []

theorem coming_start {init : Nat → σ} {data : Nat → List β} {fuel : Nat → Nat}
    (h : ∀ k < n, Yields next (init k) (data k) (data (k + 1)) (fuel k)) :
    Coming next n (data n) (fun k => if k = 0 then [] else data k) fuel (start init (data 0)) where
  input := rfl
  runs k hk p hp := by
    cases hp
    have hin : (start init (data 0)).bufs k ++ (if k = 0 then [] else data k) = data k := by
      by_cases hk0 : k = 0 <;> simp [start, hk0]
    rw [hin]
    exact h k hk
  exited k hk hp := by cases hp
  killed k hk hp := by cases hp
  output := by
    by_cases hn : n = 0 <;> simp [start, hn]

/-- What has been written is the beginning of what the programs yield, and all
of it once the last of them is gone. -/
theorem Coming.written {out : List β} {rest : Nat → List β} {fuel : Nat → Nat} (h : Coming next n out rest fuel s)
    (hn : 0 < n) : s.bufs n <+: out ∧ ((s.stages (n - 1)).gone → s.bufs n = out) := by
  refine ⟨⟨_, h.output⟩, fun hgone => ?_⟩
  have hlast : n - 1 + 1 = n := by omega
  rw [← h.output]
  cases hl : s.stages (n - 1) with
  | running p =>
    rw [hl] at hgone
    cases hgone
  | exited =>
    have := h.exited (n - 1) (by omega) hl
    rw [hlast] at this
    rw [this, List.append_nil]
  | killed =>
    have := (h.killed (n - 1) (by omega) hl).1
    omega

/-- A stage that has something to read, or whose writer is gone, can go on, or
one after it can. -/
theorem can_go {out : List β} {rest : Nat → List β} {fuel : Nat → Nat} (h : Coming next n out rest fuel s)
    (hcap : 0 < cap) {k : Nat} {p : σ} (hk : k < n) (hp : s.stages k = .running p)
    (hin : s.bufs k ≠ [] ∨ k = 0 ∨ (s.stages (k - 1)).gone) : ∃ a s', step next n cap s a = some s' := by
  induction hd : n - k generalizing k p with
  | zero => omega
  | succ d ih =>
    cases hn : next p with
    | exit => exact ⟨⟨k, 0⟩, _, by simp only [step, hp, hn, if_pos hk]; rfl⟩
    | read max f =>
      obtain ⟨m, hm, hmax, -⟩ := (h.runs k hk p hp).of_read hn
      cases hb : s.bufs k with
      | nil =>
        have hlast := hin.resolve_left (fun hne => hne hb)
        exact ⟨⟨k, 0⟩, _, by simp only [step, hp, hn, if_pos hk, hb, List.isEmpty_nil, if_pos hlast, ite_true]; rfl⟩
      | cons b bs =>
        have hsize : 0 < 1 ∧ 1 ≤ max ∧ 1 ≤ (b :: bs).length := ⟨Nat.one_pos, hmax, by simp⟩
        exact ⟨⟨k, 1⟩, _, by
          simp only [step, hp, hn, if_pos hk, hb, List.isEmpty_cons, Bool.false_eq_true, if_false, if_pos hsize]; rfl⟩
    | write b q =>
      by_cases hgone : k + 1 < n ∧ (s.stages (k + 1)).gone
      · exact ⟨⟨k, 0⟩, _, by simp only [step, hp, hn, if_pos hk, if_pos hgone]; rfl⟩
      · by_cases hfull : k + 1 < n ∧ cap ≤ (s.bufs (k + 1)).length
        · -- it waits for the next stage, which has something to read
          obtain ⟨q, hq⟩ := running_of_not_gone fun hg => hgone ⟨hfull.1, hg⟩
          exact ih hfull.1 hq (.inl (List.ne_nil_of_length_pos (by omega))) (by omega)
        · exact ⟨⟨k, 0⟩, _, by simp only [step, hp, hn, if_pos hk, if_neg hgone, if_neg hfull]; rfl⟩

/-- As long as a stage runs, some stage can go on. -/
theorem Coming.goes_on {out : List β} {rest : Nat → List β} {fuel : Nat → Nat} (h : Coming next n out rest fuel s)
    (hcap : 0 < cap) {k : Nat} (hk : k < n) (hrun : ¬ (s.stages k).gone) : ∃ a s', step next n cap s a = some s' := by
  -- the first of those that run
  induction k using Nat.strongRecOn with
  | ind k ih =>
    obtain ⟨p, hp⟩ := running_of_not_gone hrun
    by_cases hin : k = 0 ∨ (s.stages (k - 1)).gone
    · exact can_go h hcap hk hp (.inr hin)
    · exact ih (k - 1) (by omega) (by omega) fun hg => hin (.inr hg)

end

/-! ## Filters -/

section

variable {β : Type}

/-- A program that writes `f b` for each `b` it reads, `max` of them at a time. -/
structure Filter (β : Type) where
  f : β → List β
  max : Nat
  pending : List β
  ended : Bool

/-- A filter writes what is pending, reads when nothing is, and exits at the end of its input. -/
def Filter.next (p : Filter β) : Next (Filter β) β :=
  match p.pending with
  | b :: bs => .write b { p with pending := bs }
  | [] =>
    if p.ended then .exit
    else .read p.max fun c => { p with pending := c.flatMap p.f, ended := c.isEmpty }

theorem Filter.yields_pending {f : β → List β} {max m : Nat} {ended : Bool} {inp out : List β} (bs : List β)
    (h : Yields Filter.next ⟨f, max, [], ended⟩ inp out m) :
    Yields Filter.next ⟨f, max, bs, ended⟩ inp (bs ++ out) (m + bs.length) := by
  induction bs with
  | nil => exact h
  | cons b bs ih => exact .write rfl ih

/-- It yields the same whatever the pieces. -/
theorem Filter.yields (f : β → List β) {max : Nat} (hmax : 0 < max) (inp : List β) :
    Yields Filter.next ⟨f, max, [], false⟩ inp (inp.flatMap f) (inp.length + (inp.flatMap f).length + 1) := by
  induction hn : inp.length using Nat.strongRecOn generalizing inp with
  | ind n ih =>
    subst hn
    refine .read rfl hmax ?_ ?_
    · intro c rest hc _ hinp
      have hpos := List.length_pos_iff.2 hc
      have hlen : inp.length = c.length + rest.length := by rw [hinp, List.length_append]
      have hrest := Filter.yields_pending (c.flatMap f) (ih rest.length (by omega) rest rfl)
      have hend : c.isEmpty = false := by simpa using hc
      rw [hend, hinp, List.flatMap_append, List.length_append]
      exact hrest.mono (by rw [List.length_append]; omega)
    · intro hnil
      subst hnil
      exact .exit rfl

end

end SysProg.Stream
