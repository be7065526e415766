/-
A counter that each of several workers increments so many times, reading it
and storing one more with nothing to keep the others out in between: what it
can end at.

An increment of the greatest value is not defined.
-/
import SysProg.Lib.Lts
import SysProg.Lib.Sum
import Mathlib.Algebra.Group.Action.Defs
import Mathlib.Algebra.Order.BigOperators.Group.Finset
import Mathlib.Algebra.Ring.Nat
import Mathlib.Data.Fintype.EquivFin
import Mathlib.Order.Interval.Set.Basic

namespace SysProg.Increments

/-- A worker, with the number of its increments. -/
structure Worker where
  done : Nat
  /-- What it has read, before it stores. -/
  held : Option Nat

/-- The counter and its workers. -/
structure State (ι : Type) where
  counter : Nat
  workers : ι → Worker

/-- Nothing has been done. -/
def init {ι : Type} : State ι := ⟨0, fun _ => ⟨0, none⟩⟩

/-- Every worker has made its `K` increments. -/
def Finished {ι : Type} (K : Nat) (s : State ι) : Prop := ∀ i, s.workers i = ⟨K, none⟩

section

variable {ι : Type} [DecidableEq ι]

/-- A worker's step, with what it makes of the counter. -/
def State.put (s : State ι) (i : ι) (counter : Nat) (w : Worker) : State ι :=
  ⟨counter, Function.update s.workers i w⟩

/-- Each worker makes `K` increments. -/
def step (K max : Nat) (s : State ι) (i : ι) : Option (State ι) :=
  match (s.workers i).held with
  | none => if (s.workers i).done < K then some (s.put i s.counter ⟨(s.workers i).done, some s.counter⟩) else none
  | some v => if v < max then some (s.put i (v + 1) ⟨(s.workers i).done + 1, none⟩) else none

/-- What the steps do. -/
inductive Move (K max : Nat) (s : State ι) (i : ι) : State ι → Prop
  | read (held : (s.workers i).held = none) (lt : (s.workers i).done < K) :
      Move K max s i (s.put i s.counter ⟨(s.workers i).done, some s.counter⟩)
  | store {v} (held : (s.workers i).held = some v) (lt : v < max) :
      Move K max s i (s.put i (v + 1) ⟨(s.workers i).done + 1, none⟩)

theorem move_of_step {K max : Nat} {s s' : State ι} {i : ι} (h : step K max s i = some s') : Move K max s i s' := by
  unfold step at h
  split at h
  · next hheld =>
    split at h
    · next hlt =>
      cases h
      exact .read hheld hlt
    · cases h
  · next v hheld =>
    split at h
    · next hlt =>
      cases h
      exact .store hheld hlt
    · cases h

@[simp] theorem put_self (s : State ι) (i : ι) (c : Nat) (w : Worker) : (s.put i c w).workers i = w :=
  Function.update_self ..

theorem put_of_ne (s : State ι) {i j : ι} (h : j ≠ i) (c : Nat) (w : Worker) :
    (s.put i c w).workers j = s.workers j :=
  Function.update_of_ne h ..

end

/-! ## Within which bounds -/

section

variable {ι : Type} [DecidableEq ι] [Fintype ι] {K max : Nat} {s s' : State ι}

/-- How many increments have been made. -/
def total (s : State ι) : Nat := ∑ i, (s.workers i).done

theorem total_put (s : State ι) (i : ι) (c : Nat) (w : Worker) :
    total (s.put i c w) + (s.workers i).done = total s + w.done :=
  sum_update_nat Worker.done s.workers (Finset.mem_univ i) w

/-- No increment makes the counter more than there have been; and it cannot be
less than two once a worker has made a second one, nor less than one after any. -/
structure Counted (K : Nat) (s : State ι) : Prop where
  within : ∀ i, (s.workers i).done + (if (s.workers i).held.isSome then 1 else 0) ≤ K
  counter : s.counter ≤ total s
  held : ∀ i v, (s.workers i).held = some v → v ≤ total s ∧ (0 < (s.workers i).done → 0 < v)
  begun : 0 < total s → 0 < s.counter
  last : total s = 0 ∨ ∃ i, min 2 (s.workers i).done ≤ s.counter

omit [DecidableEq ι] in
theorem done_le_total (s : State ι) (i : ι) : (s.workers i).done ≤ total s :=
  Finset.single_le_sum (fun j _ => Nat.zero_le (s.workers j).done) (Finset.mem_univ i)

omit [DecidableEq ι] in
theorem Counted.total_le (h : Counted K s) : total s ≤ Fintype.card ι * K := by
  unfold total
  rw [← smul_eq_mul, ← Finset.card_univ]
  exact Finset.sum_le_card_nsmul _ _ _ fun i _ => le_trans (Nat.le_add_right ..) (h.within i)

omit [DecidableEq ι] in
theorem counted_init : Counted K (init : State ι) where
  within i := by simp [init]
  counter := Nat.zero_le _
  held i v h := by cases h
  begun h := by simp [total, init] at h
  last := .inl (by simp [total, init])

theorem Counted.move {i : ι} (h : Counted K s) (hm : Move K max s i s') : Counted K s' := by
  cases hm with
  | read hheld hlt =>
    have htotal : total (s.put i s.counter ⟨(s.workers i).done, some s.counter⟩) = total s := by
      have := total_put s i s.counter ⟨(s.workers i).done, some s.counter⟩
      dsimp only at this
      omega
    refine ⟨fun j => ?_, ?_, fun j v hv => ?_, ?_, ?_⟩
    · by_cases hj : j = i
      · subst hj
        rw [put_self]
        exact hlt
      · rw [put_of_ne s hj]
        exact h.within j
    · rw [htotal]
      exact h.counter
    · rw [htotal]
      by_cases hj : j = i
      · subst hj
        rw [put_self] at hv ⊢
        cases hv
        exact ⟨h.counter, fun hd => h.begun (lt_of_lt_of_le hd (done_le_total s j))⟩
      · rw [put_of_ne s hj] at hv ⊢
        exact h.held j v hv
    · rw [htotal]
      exact h.begun
    · rw [htotal]
      rcases h.last with h0 | ⟨j, hj⟩
      · exact .inl h0
      · refine .inr ⟨j, ?_⟩
        by_cases hji : j = i
        · subst hji
          rwa [put_self]
        · rwa [put_of_ne s hji]
  | @store v hheld _ =>
    have htotal : total (s.put i (v + 1) ⟨(s.workers i).done + 1, none⟩) = total s + 1 := by
      have := total_put s i (v + 1) ⟨(s.workers i).done + 1, none⟩
      dsimp only at this
      omega
    obtain ⟨hle, hpos⟩ := h.held i v hheld
    refine ⟨fun j => ?_, ?_, fun j u hu => ?_, fun _ => Nat.succ_pos v, .inr ⟨i, ?_⟩⟩
    · by_cases hj : j = i
      · subst hj
        have := h.within j
        rw [hheld] at this
        rw [put_self]
        exact this
      · rw [put_of_ne s hj]
        exact h.within j
    · rw [htotal]
      exact Nat.succ_le_succ hle
    · by_cases hj : j = i
      · subst hj
        rw [put_self] at hu
        cases hu
      · rw [put_of_ne s hj] at hu ⊢
        rw [htotal]
        exact ⟨Nat.le_succ_of_le (h.held j u hu).1, (h.held j u hu).2⟩
    · -- a second increment of this worker has read what one of its own has left at least
      rw [put_self]
      show min 2 ((s.workers i).done + 1) ≤ v + 1
      omega

theorem counted_reached (h : Reach (step K max) anyStep init s) : Counted K s :=
  h.invariant (I := Counted K) (fun _ _ _ hi _ hs => hi.move (move_of_step hs)) counted_init

omit [DecidableEq ι] in
theorem Counted.finished (h : Counted K s) (hf : Finished K s) :
    s.counter ≤ Fintype.card ι * K ∧ (Nonempty ι → min 2 K ≤ s.counter) := by
  refine ⟨le_trans h.counter h.total_le, ?_⟩
  rintro ⟨i⟩
  rcases h.last with h0 | ⟨j, hj⟩
  · have := done_le_total s i
    rw [hf i] at this
    dsimp only at this
    omega
  · rwa [hf j] at hj

end

/-! ## Everything within the bounds -/

section

variable {ι : Type} [DecidableEq ι] [Fintype ι] {K max : Nat} {s s' : State ι}

/-- What the workers of a set have still to do. -/
def remaining (K : Nat) (S : Finset ι) (s : State ι) : Nat := ∑ i ∈ S, (K - (s.workers i).done)

/-- A store is defined as long as all increments fit. -/
theorem store_lt (hmax : Fintype.card ι * K ≤ max) (h : Counted K s) {i : ι} {v : Nat}
    (hv : (s.workers i).held = some v) : v < max := by
  have htotal := (h.move (.store hv (Nat.lt_succ_self v))).counter
  have hle := (h.move (.store hv (Nat.lt_succ_self v))).total_le
  have : v + 1 ≤ Fintype.card ι * K := le_trans htotal hle
  omega

theorem increment (hmax : Fintype.card ι * K ≤ max) (h : Counted K s) {i : ι} (hheld : (s.workers i).held = none)
    (hlt : (s.workers i).done < K) :
    Reach (step K max) anyStep s (s.put i (s.counter + 1) ⟨(s.workers i).done + 1, none⟩) := by
  have hread : step K max s i = some (s.put i s.counter ⟨(s.workers i).done, some s.counter⟩) := by
    simp only [step, hheld, if_pos hlt]
  have hstore : s.counter < max :=
    store_lt hmax (h.move (move_of_step hread)) (show (State.workers _ i).held = _ by rw [put_self])
  refine .tail (.single ⟨i, trivial, hread⟩) ⟨i, trivial, ?_⟩
  rw [step, put_self]
  simp only [if_pos hstore, State.put, Function.update_idem]

omit [Fintype ι] in
theorem remaining_put (S : Finset ι) (s : State ι) {i : ι} (hi : i ∈ S) (c : Nat) (w : Worker) :
    remaining K S (s.put i c w) + (K - (s.workers i).done) = remaining K S s + (K - w.done) :=
  sum_update_nat (fun w => K - w.done) s.workers hi w

/-- What the workers of `S` come to by `m` increments among them, without the
others. -/
structure Burst (K max : Nat) (S : Finset ι) (m : Nat) (s s' : State ι) : Prop where
  reach : Reach (step K max) anyStep s s'
  counted : Counted K s'
  counter : s'.counter = s.counter + m
  remaining : remaining K S s' + m = remaining K S s
  others : ∀ i ∉ S, s'.workers i = s.workers i
  free : ∀ i ∈ S, (s'.workers i).held = none

theorem burst (hmax : Fintype.card ι * K ≤ max) {S : Finset ι} (h : Counted K s)
    (hfree : ∀ i ∈ S, (s.workers i).held = none) {m : Nat} (hm : m ≤ remaining K S s) :
    ∃ s', Burst K max S m s s' := by
  induction m with
  | zero => exact ⟨s, .refl, h, rfl, rfl, fun _ _ => rfl, hfree⟩
  | succ m ih =>
    obtain ⟨s₁, hb⟩ := ih (by omega)
    have hleft : 0 < remaining K S s₁ := by
      have := hb.remaining
      omega
    obtain ⟨i, hi, hne⟩ := Finset.exists_ne_zero_of_sum_ne_zero (Nat.ne_of_gt hleft)
    have hlt : (s₁.workers i).done < K := by omega
    have hone := increment hmax hb.counted (hb.free i hi) hlt
    have hrem := remaining_put (K := K) S s₁ hi (s₁.counter + 1) ⟨(s₁.workers i).done + 1, none⟩
    have := hb.remaining
    refine ⟨_, hb.reach.trans hone, ?_, ?_, ?_, ?_, ?_⟩
    · exact hone.invariant (I := Counted K) (fun _ _ _ hi _ hs => hi.move (move_of_step hs)) hb.counted
    · show s₁.counter + 1 = _
      rw [hb.counter]
      omega
    · dsimp only at hrem
      omega
    · intro j hj
      rw [put_of_ne s₁ fun (he : j = i) => hj (he ▸ hi)]
      exact hb.others j hj
    · intro j hj
      by_cases hji : j = i
      · subst hji
        rw [put_self]
      · rw [put_of_ne s₁ hji]
        exact hb.free j hj

/-- A burst of all they have to do. -/
theorem Burst.done {S : Finset ι} (hb : Burst K max S (Increments.remaining K S s) s s') {i : ι} (hi : i ∈ S) :
    s'.workers i = ⟨K, none⟩ := by
  have hzero : Increments.remaining K S s' = 0 := by
    have := hb.remaining
    omega
  have hdone := Finset.sum_eq_zero_iff.1 hzero i hi
  have hle := hb.counted.within i
  have hheld := hb.free i hi
  cases hw : s'.workers i with
  | mk done held =>
    rw [hw] at hdone hle hheld
    dsimp only at hdone hle hheld
    subst hheld
    congr 1
    simp at hle
    omega

/-- A burst of one worker. -/
theorem burst_one (hmax : Fintype.card ι * K ≤ max) (h : Counted K s) {i : ι} {d m : Nat}
    (hi : s.workers i = ⟨d, none⟩) (hm : d + m ≤ K) :
    ∃ s', Burst K max {i} m s s' ∧ s'.workers i = ⟨d + m, none⟩ := by
  have hrem (t : State ι) : remaining K {i} t = K - (t.workers i).done := Finset.sum_singleton ..
  obtain ⟨s', hb⟩ := burst (m := m) hmax h (S := {i}) (by simp [hi]) (by rw [hrem, hi]; dsimp only; omega)
  refine ⟨s', hb, ?_⟩
  have hleft := hb.remaining
  have hle := hb.counted.within i
  have hheld := hb.free i (Finset.mem_singleton_self i)
  rw [hrem, hrem, hi] at hleft
  cases hw : s'.workers i with
  | mk done held =>
    rw [hw] at hleft hle hheld
    dsimp only at hleft hle hheld
    subst hheld
    congr 1
    simp at hle
    omega

omit [Fintype ι] in
theorem first_read (max : Nat) (hK : 1 ≤ K) (a : ι) :
    step K max (init : State ι) a = some ((init : State ι).put a 0 ⟨0, some 0⟩) := by
  exact if_pos (show 0 < K from hK)

/-- One worker stores what it has read before the others' increments, which are
lost. -/
theorem attain_high (hmax : Fintype.card ι * K ≤ max) (hK : 1 ≤ K) (a : ι) {v : Nat} (hlo : K ≤ v)
    (hhi : v ≤ Fintype.card ι * K) :
    ∃ s, Reach (step K max) anyStep (init : State ι) s ∧ Finished K s ∧ s.counter = v := by
  have hread := first_read max hK a
  have hcounted := counted_init.move (move_of_step hread)
  have hpos : 0 < Fintype.card ι := Fintype.card_pos_iff.2 ⟨a⟩
  have hmul : Fintype.card ι * K = (Fintype.card ι - 1) * K + K := by
    conv_lhs => rw [← Nat.sub_add_cancel hpos]
    rw [Nat.add_mul, Nat.one_mul]
  have hfresh : ∀ i ∈ Finset.univ.erase a, ((init : State ι).put a 0 ⟨0, some 0⟩).workers i = ⟨0, none⟩ := by
    intro i hi
    rw [put_of_ne _ (Finset.ne_of_mem_erase hi)]
    rfl
  have hothers : remaining K (Finset.univ.erase a) ((init : State ι).put a 0 ⟨0, some 0⟩) =
      (Fintype.card ι - 1) * K := by
    rw [remaining, Finset.sum_congr rfl fun i hi => by rw [hfresh i hi], Finset.sum_const,
      Finset.card_erase_of_mem (Finset.mem_univ a), Finset.card_univ, smul_eq_mul]
    rfl
  obtain ⟨s₂, hb₂⟩ := burst (m := Fintype.card ι * K - v) hmax hcounted
    (fun i hi => by rw [hfresh i hi]) (by rw [hothers]; omega)
  have ha : s₂.workers a = ⟨0, some 0⟩ := by
    rw [hb₂.others a (Finset.notMem_erase a _), put_self]
  have hstore : step K max s₂ a = some (s₂.put a 1 ⟨1, none⟩) := by
    simp only [step, ha]
    rw [if_pos (by omega)]
  have hcounted₃ := hb₂.counted.move (move_of_step hstore)
  have hrem := remaining_put (K := K) Finset.univ s₂ (Finset.mem_univ a) 1 ⟨1, none⟩
  have hsplit : remaining K Finset.univ s₂ = K + remaining K (Finset.univ.erase a) s₂ := by
    rw [remaining, ← Finset.add_sum_erase _ _ (Finset.mem_univ a), ha]
    rfl
  have hleft := hb₂.remaining
  rw [hothers] at hleft
  rw [ha] at hrem
  dsimp only at hrem
  obtain ⟨s₄, hb₄⟩ := burst (S := Finset.univ) hmax hcounted₃ (fun i _ => by
    by_cases hi : i = a
    · rw [hi, put_self]
    · rw [put_of_ne s₂ hi]
      exact hb₂.free i (Finset.mem_erase.2 ⟨hi, Finset.mem_univ i⟩)) le_rfl
  refine ⟨s₄, .head ⟨a, trivial, hread⟩ (hb₂.reach.trans (.head ⟨a, trivial, hstore⟩ hb₄.reach)),
    fun i => hb₄.done (Finset.mem_univ i), ?_⟩
  rw [hb₄.counter]
  show 1 + _ = v
  omega

/-- Two workers lose nearly all: `a` stores its first increment after all the
others have finished and `b` has made `j`; `b` reads that, and stores after `a`
has finished. -/
theorem attain_low (hmax : Fintype.card ι * K ≤ max) {a b : ι} (hab : a ≠ b) {j : Nat} (hj : j < K) :
    ∃ s, Reach (step K max) anyStep (init : State ι) s ∧ Finished K s ∧ s.counter = K + 1 - j := by
  have hread := first_read max (show 1 ≤ K by omega) a
  have hcounted := counted_init.move (move_of_step hread)
  have hcard : 1 < Fintype.card ι := Fintype.one_lt_card_iff.2 ⟨a, b, hab⟩
  have hpos : 0 < max := by
    have : 2 * K ≤ Fintype.card ι * K := Nat.mul_le_mul_right K hcard
    omega
  obtain ⟨s₁, hs₁⟩ := burst (S := (Finset.univ.erase a).erase b) hmax hcounted (fun i hi => by
    rw [put_of_ne _ (Finset.ne_of_mem_erase (Finset.mem_of_mem_erase hi))]
    rfl) le_rfl
  have ha₁ : s₁.workers a = ⟨0, some 0⟩ := by rw [hs₁.others a (by simp), put_self]
  have hb₁ : s₁.workers b = ⟨0, none⟩ := by
    rw [hs₁.others b (by simp), put_of_ne _ hab.symm]
    rfl
  obtain ⟨s₂, hs₂, hb₂⟩ := burst_one (m := j) hmax hs₁.counted hb₁ (by omega)
  rw [Nat.zero_add] at hb₂
  have ha₂ : s₂.workers a = ⟨0, some 0⟩ := by rw [hs₂.others a (by simpa using hab), ha₁]
  have hstore : step K max s₂ a = some (s₂.put a 1 ⟨1, none⟩) := by
    simp only [step, ha₂, if_pos hpos]
  have hb₃ : (s₂.put a 1 ⟨1, none⟩).workers b = ⟨j, none⟩ := by rw [put_of_ne s₂ hab.symm, hb₂]
  have hreadb : step K max (s₂.put a 1 ⟨1, none⟩) b = some ((s₂.put a 1 ⟨1, none⟩).put b 1 ⟨j, some 1⟩) := by
    simp only [step, hb₃, if_pos hj]
    rfl
  have hcounted₄ := (hs₂.counted.move (move_of_step hstore)).move (move_of_step hreadb)
  obtain ⟨s₅, hs₅, ha₅⟩ := burst_one (m := K - 1) hmax hcounted₄ (i := a) (d := 1)
    (by rw [put_of_ne _ hab, put_self]) (by omega)
  have hb₅ : s₅.workers b = ⟨j, some 1⟩ := by rw [hs₅.others b (by simpa using hab.symm), put_self]
  have hstoreb : step K max s₅ b = some (s₅.put b 2 ⟨j + 1, none⟩) := by
    have := store_lt hmax hs₅.counted (show (s₅.workers b).held = some 1 by rw [hb₅])
    simp only [step, hb₅, if_pos this]
  obtain ⟨s₇, hs₇, hb₇⟩ := burst_one (m := K - (j + 1)) hmax (hs₅.counted.move (move_of_step hstoreb)) (i := b)
    (d := j + 1) (put_self ..) (by omega)
  refine ⟨s₇, ?_, ?_, ?_⟩
  · exact .head ⟨a, trivial, hread⟩ (hs₁.reach.trans (hs₂.reach.trans (.head ⟨a, trivial, hstore⟩
      (.head ⟨b, trivial, hreadb⟩ (hs₅.reach.trans (.head ⟨b, trivial, hstoreb⟩ hs₇.reach))))))
  · intro i
    by_cases hib : i = b
    · subst hib
      rw [hb₇]
      congr 1
      omega
    · rw [hs₇.others i (by simpa using hib), put_of_ne _ hib]
      by_cases hia : i = a
      · subst hia
        rw [ha₅]
        congr 1
        omega
      · rw [hs₅.others i (by simpa using hia), put_of_ne _ hib, put_of_ne _ hia, hs₂.others i (by simpa using hib)]
        exact hs₁.done (by simp [hib, hia])
  · rw [hs₇.counter]
    show 2 + _ = _
    omega

/-- Two workers or more can end at everything between two, or one if that is
all each does, and the number of increments. -/
theorem finals (hmax : Fintype.card ι * K ≤ max) (hcard : 1 < Fintype.card ι) (v : Nat) :
    (∃ s, Reach (step K max) anyStep (init : State ι) s ∧ Finished K s ∧ s.counter = v) ↔
      min 2 K ≤ v ∧ v ≤ Fintype.card ι * K := by
  obtain ⟨a, b, hab⟩ := Fintype.one_lt_card_iff.1 hcard
  constructor
  · rintro ⟨s, hreach, hf, rfl⟩
    obtain ⟨hhi, hlo⟩ := (counted_reached hreach).finished hf
    exact ⟨hlo ⟨a⟩, hhi⟩
  · rintro ⟨hlo, hhi⟩
    rcases Nat.eq_zero_or_pos K with rfl | hK
    · exact ⟨init, .refl, fun _ => rfl, (Nat.le_zero.1 (by rwa [Nat.mul_zero] at hhi)).symm⟩
    · by_cases hv : K ≤ v
      · exact attain_high hmax hK a hv hhi
      · obtain ⟨s, hreach, hf, hs⟩ := attain_low hmax hab (show K + 1 - v < K by omega)
        exact ⟨s, hreach, hf, by omega⟩

end

end SysProg.Increments
