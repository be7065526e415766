/-
The moving company of ipcsem.c: jobs that each need trucks, movers and
insurance, which one call of semop takes together and another one gives back.

An operation of zero is neither: it waits until its semaphore is zero. A job
that needs none of a resource can so wait for others to use all of it.
-/
import SysProg.Lib.Lts
import SysProg.Lib.Semop
import SysProg.Lib.Sum

namespace SysProg.Movers

/-- The semaphore of the trucks. -/
def TRUCK_SEM : Nat := 0

/-- The semaphore of the movers. -/
def MOVER_SEM : Nat := 1

/-- The semaphore of the insurance. -/
def INSUR_SEM : Nat := 2

/-- How many trucks there are. -/
def NUM_TRUCKS : Nat := 5

/-- How many movers there are. -/
def NUM_MOVERS : Nat := 12

/-- How much insurance there is. -/
def AMT_INSUR : Nat := 1000

/-- What a job asks for. -/
structure Job where
  numTrucks : Int
  numMovers : Int
  amtInsurance : Int

/-- One operation per semaphore, all to be done or waited for. -/
def ops (numTrucks numMovers amtInsurance : Int) : List Sembuf :=
  [⟨TRUCK_SEM, numTrucks, false⟩, ⟨MOVER_SEM, numMovers, false⟩, ⟨INSUR_SEM, amtInsurance, false⟩]

/-- The call that allocates resources, or gives them back. It leaves no adjustments. -/
def playWithSemaphores (numTrucks numMovers amtInsurance : Int) (sems : Sems) : Semop :=
  semops (ops numTrucks numMovers amtInsurance) sems fun _ => 0

/-- Positive values give resources back. -/
def release (thisJob : Job) (sems : Sems) : Semop :=
  playWithSemaphores thisJob.numTrucks thisJob.numMovers thisJob.amtInsurance sems

/-- Negative values allocate them. -/
def reserve (thisJob : Job) (sems : Sems) : Semop :=
  playWithSemaphores (-thisJob.numTrucks) (-thisJob.numMovers) (-thisJob.amtInsurance) sems

/-- How far a job is. -/
inductive Place where
  | requesting
  | running
  | finished
  deriving DecidableEq

/-- The jobs requested, over and over. -/
def jobTable : List Job := [
  ⟨4, 5, 250⟩, -- Use many trucks
  ⟨1, 2, 500⟩, -- Normal amts.
  ⟨3, 5, 1000⟩, -- Lots of insur
  ⟨2, 8, 250⟩] -- Many movers.

/-- Number of simultaneous requests. -/
def NUM_THREADS : Nat := 10

/-- The job of each thread of `main`. -/
def requests (count : Fin NUM_THREADS) : Job := jobTable.get ⟨count % jobTable.length, Nat.mod_lt _ (by decide)⟩

/-- The semaphores and the jobs. -/
structure State (ι : Type) where
  sems : Sems
  places : ι → Place

section

variable {ι : Type} [DecidableEq ι]

/-- The state after a step of one job. -/
def State.go (s : State ι) (sems : Sems) (i : ι) (place : Place) : State ι :=
  ⟨sems, Function.update s.places i place⟩

/-- The next call of the thread of job `i`; `none` while it sleeps, or when it
has finished. A call that fails is its last one. -/
def step (jobs : ι → Job) (s : State ι) (i : ι) : Option (State ι) :=
  match s.places i with
  | .requesting =>
    match reserve (jobs i) s.sems with
    | .done sems _ => some (s.go sems i .running)
    | .blocks => none
    | .fails => some (s.go s.sems i .finished)
  | .running =>
    match release (jobs i) s.sems with
    | .done sems _ => some (s.go sems i .finished)
    | .blocks => none
    | .fails => some (s.go s.sems i .finished)
  | .finished => none

end

/-- The resources of the company. -/
def total : Sems := fun n =>
  if n = TRUCK_SEM then NUM_TRUCKS else if n = MOVER_SEM then NUM_MOVERS else if n = INSUR_SEM then AMT_INSUR else 0

/-- All resources free, and each job to be requested. -/
def start (ι : Type) : State ι := ⟨total, fun _ => .requesting⟩

/-- Three amounts, each of its semaphore. -/
def amounts (numTrucks numMovers amtInsurance : Int) (n : Nat) : Int :=
  if n = TRUCK_SEM then numTrucks else if n = MOVER_SEM then numMovers else if n = INSUR_SEM then amtInsurance else 0

/-- What a job needs of the resource of semaphore `n`. -/
def Job.demand (job : Job) : Nat → Int := amounts job.numTrucks job.numMovers job.amtInsurance

/-- A job that the company could do with all it has. -/
def Job.Admissible (job : Job) : Prop :=
  (0 ≤ job.numTrucks ∧ job.numTrucks ≤ NUM_TRUCKS) ∧ (0 ≤ job.numMovers ∧ job.numMovers ≤ NUM_MOVERS) ∧
    0 ≤ job.amtInsurance ∧ job.amtInsurance ≤ AMT_INSUR

instance : DecidablePred Job.Admissible := fun _ => inferInstanceAs (Decidable (_ ∧ _))

/-- A job that needs some of each resource. -/
def Job.NeedsAll (job : Job) : Prop := job.numTrucks ≠ 0 ∧ job.numMovers ≠ 0 ∧ job.amtInsurance ≠ 0

instance : DecidablePred Job.NeedsAll := fun _ => inferInstanceAs (Decidable (_ ∧ _))

/-! ## One call -/

/-- The semaphores of the group. -/
def GROUP : List Nat := [TRUCK_SEM, MOVER_SEM, INSUR_SEM]

theorem amounts_neg (a b c : Int) (n : Nat) : amounts (-a) (-b) (-c) n = -amounts a b c n := by
  unfold amounts
  repeat' split
  all_goals rfl

theorem ops_eq (a b c : Int) : ops a b c = GROUP.map fun n => ⟨n, amounts a b c n, false⟩ := rfl

theorem ops_nums (a b c : Int) :
    (GROUP.map fun n => (⟨n, amounts a b c n, false⟩ : Sembuf)).map Sembuf.sem_num = GROUP := rfl

/-- A call is done when no amount of zero has to wait and every value stays in range. -/
theorem play_done_iff {a b c : Int} {sems sems' : Sems} {adj : Semadj} :
    playWithSemaphores a b c sems = .done sems' adj ↔ (fun _ => 0) = adj ∧
      (∀ n ∈ GROUP, (amounts a b c n = 0 → sems n = 0) ∧
        0 ≤ sems n + amounts a b c n ∧ sems n + amounts a b c n ≤ SEMVMX) ∧
      ∀ n, (sems' n : Int) = sems n + amounts a b c n := by
  have hout (n : Nat) (hn : n ∉ GROUP) : amounts a b c n = 0 := by
    simp only [GROUP, List.mem_cons, List.not_mem_nil, or_false, not_or] at hn
    simp [amounts, hn]
  rw [playWithSemaphores, ops_eq, semops_done_iff (by simp) (by rw [ops_nums]; decide), ops_nums, List.forall_mem_map,
    List.forall_mem_map]
  refine and_congr_right fun _ => and_congr_right fun _ => ?_
  constructor
  · rintro ⟨hin, hsame⟩ n
    by_cases hn : n ∈ GROUP
    · exact hin n hn
    · rw [hsame n hn, hout n hn, add_zero]
  · intro hall
    refine ⟨fun n _ => hall n, fun n hn => ?_⟩
    have := hall n
    rw [hout n hn] at this
    omega

theorem play_ne_fails {a b c : Int} {sems : Sems} (h : ∀ n, sems n + amounts a b c n ≤ SEMVMX) :
    playWithSemaphores a b c sems ≠ .fails := by
  rw [playWithSemaphores, ops_eq]
  refine semops_ne_fails (by simp) (by rw [ops_nums]; decide) ?_
  rw [List.forall_mem_map]
  intro n _
  exact h n

theorem release_done_iff {job : Job} {sems sems' : Sems} {adj : Semadj} :
    release job sems = .done sems' adj ↔ (fun _ => 0) = adj ∧
      (∀ n ∈ GROUP, (job.demand n = 0 → sems n = 0) ∧ 0 ≤ sems n + job.demand n ∧ sems n + job.demand n ≤ SEMVMX) ∧
      ∀ n, (sems' n : Int) = sems n + job.demand n :=
  play_done_iff

theorem reserve_done_iff {job : Job} {sems sems' : Sems} {adj : Semadj} :
    reserve job sems = .done sems' adj ↔ (fun _ => 0) = adj ∧
      (∀ n ∈ GROUP, (job.demand n = 0 → sems n = 0) ∧ 0 ≤ sems n - job.demand n ∧ sems n - job.demand n ≤ SEMVMX) ∧
      ∀ n, (sems' n : Int) = sems n - job.demand n := by
  rw [reserve, play_done_iff]
  simp only [amounts_neg, neg_eq_zero, ← sub_eq_add_neg]
  rfl

theorem Job.Admissible.demand {job : Job} (h : job.Admissible) (n : Nat) :
    0 ≤ job.demand n ∧ job.demand n ≤ total n := by
  obtain ⟨htrucks, hmovers, hinsurance⟩ := h
  unfold Job.demand amounts total
  repeat' split
  all_goals omega

theorem needsAll_iff {job : Job} : job.NeedsAll ↔ ∀ n ∈ GROUP, job.demand n ≠ 0 := by
  simp only [GROUP, List.forall_mem_cons, List.not_mem_nil, false_imp_iff, implies_true, and_true]
  exact Iff.rfl

theorem total_pos {n : Nat} (hn : n ∈ GROUP) : 0 < total n := by
  simp only [GROUP, List.mem_cons, List.not_mem_nil, or_false] at hn
  rcases hn with rfl | rfl | rfl <;> decide

theorem total_le (n : Nat) : total n ≤ SEMVMX := by
  unfold total
  repeat' split
  all_goals decide

/-- With all resources free, a job can start exactly when it needs some of each. -/
theorem reserve_total_iff {job : Job} (h : job.Admissible) :
    (∃ sems adj, reserve job total = .done sems adj) ↔ job.NeedsAll := by
  rw [needsAll_iff]
  constructor
  · rintro ⟨sems, adj, hdone⟩ n hn hzero
    obtain ⟨-, hcan, -⟩ := reserve_done_iff.1 hdone
    exact absurd ((hcan n hn).1 hzero) (total_pos hn).ne'
  · intro hall
    refine ⟨fun n => (total n - job.demand n).toNat, _, reserve_done_iff.2 ⟨rfl, ?_, ?_⟩⟩
    · intro n hn
      have := total_le n
      have := h.demand n
      exact ⟨fun hzero => absurd hzero (hall n hn), by omega, by omega⟩
    · intro n
      have := h.demand n
      omega

theorem reserve_total_ne_fails {job : Job} (h : job.Admissible) : reserve job total ≠ .fails := by
  refine play_ne_fails fun n => ?_
  have := total_le n
  have hdemand : 0 ≤ amounts job.numTrucks job.numMovers job.amtInsurance n := (h.demand n).1
  rw [amounts_neg]
  omega

/-! ## Jobs side by side -/

section

variable {ι : Type} [DecidableEq ι] [Fintype ι] {jobs : ι → Job}

/-- What the running jobs have of a resource. -/
def held (jobs : ι → Job) (s : State ι) (n : Nat) : Int :=
  ∑ i, if s.places i = .running then (jobs i).demand n else 0

/-- What is free and what is held is all there is, and no value is negative. -/
def Conserved (jobs : ι → Job) (s : State ι) : Prop := ∀ n, 0 ≤ s.sems n ∧ s.sems n + held jobs s n = total n

/-- While a job has not finished, some job that has not can go on. -/
def Progress (jobs : ι → Job) (s : State ι) : Prop :=
  (∃ i, s.places i ≠ .finished) → ∃ i, s.places i ≠ .finished ∧ (step jobs s i).isSome

theorem held_go (s : State ι) (sems : Sems) (i : ι) (place : Place) (n : Nat) :
    held jobs (s.go sems i place) n = held jobs s n - (if s.places i = .running then (jobs i).demand n else 0) +
      if place = .running then (jobs i).demand n else 0 :=
  sum_update (fun i (p : Place) => if p = .running then (jobs i).demand n else 0) s.places i place

omit [DecidableEq ι] in
theorem conserved_start : Conserved jobs (start ι) := by
  intro n
  simp [start, held]

omit [DecidableEq ι] in
theorem demand_le_held (h : ∀ i, (jobs i).Admissible) {s : State ι} {i : ι} (hi : s.places i = .running) (n : Nat) :
    (jobs i).demand n ≤ held jobs s n := by
  have hnonneg (j : ι) : 0 ≤ if s.places j = .running then (jobs j).demand n else 0 := by
    split
    · exact ((h j).demand n).1
    · exact le_refl 0
  have hle := Finset.single_le_sum (f := fun j => if s.places j = .running then (jobs j).demand n else 0)
    (fun j _ => hnonneg j) (Finset.mem_univ i)
  rw [held]
  simpa only [hi, if_true] using hle

omit [DecidableEq ι] in
theorem release_done (h : ∀ i, (jobs i).Admissible) {s : State ι} (hs : Conserved jobs s) {i : ι}
    (hi : s.places i = .running) (hneeds : (jobs i).NeedsAll) :
    ∃ sems adj, release (jobs i) s.sems = .done sems adj := by
  refine ⟨fun n => (s.sems n + (jobs i).demand n).toNat, _, release_done_iff.2 ⟨rfl, ?_, ?_⟩⟩
  · intro n hn
    have := hs n
    have := (h i).demand n
    have := demand_le_held h hi n
    have := total_le n
    exact ⟨fun hzero => absurd hzero (needsAll_iff.1 hneeds n hn), by omega, by omega⟩
  · intro n
    have := (h i).demand n
    omega

omit [DecidableEq ι] in
theorem release_ne_fails (h : ∀ i, (jobs i).Admissible) {s : State ι} (hs : Conserved jobs s) {i : ι}
    (hi : s.places i = .running) : release (jobs i) s.sems ≠ .fails := by
  refine play_ne_fails fun n => ?_
  have := hs n
  have := demand_le_held h hi n
  have := total_le n
  show (s.sems n : Int) + (jobs i).demand n ≤ SEMVMX
  omega

theorem Conserved.go {s : State ι} (hs : Conserved jobs s) {sems : Sems} {i : ι} {place : Place}
    (hsems : ∀ n, (sems n : Int) = s.sems n + (if s.places i = .running then (jobs i).demand n else 0) -
      if place = .running then (jobs i).demand n else 0) : Conserved jobs (s.go sems i place) := by
  intro n
  have hheld : held jobs (s.go sems i place) n = _ := held_go s sems i place n
  have hvalue := hsems n
  have := hs n
  rw [hheld]
  show 0 ≤ sems n ∧ (sems n : Int) + _ = _
  omega

theorem conserved_step (h : ∀ i, (jobs i).Admissible) {s s' : State ι} {i : ι} (hs : Conserved jobs s)
    (hstep : step jobs s i = some s') : Conserved jobs s' := by
  unfold step at hstep
  split at hstep
  · next hplace =>
    split at hstep
    · next sems adj hdone =>
      cases hstep
      obtain ⟨-, -, hsems⟩ := reserve_done_iff.1 hdone
      exact hs.go fun n => by simp [hplace, hsems n]
    · cases hstep
    · next hfails =>
      cases hstep
      exact hs.go fun n => by simp [hplace]
  · next hplace =>
    split at hstep
    · next sems adj hdone =>
      cases hstep
      obtain ⟨-, -, hsems⟩ := release_done_iff.1 hdone
      exact hs.go fun n => by simp [hplace, hsems n]
    · cases hstep
    · next hfails => exact absurd hfails (release_ne_fails h hs hplace)
  · cases hstep

/-- The runs of the jobs, in any order of their calls. -/
abbrev Runs (jobs : ι → Job) : State ι → Prop := Reach (step jobs) anyStep (start ι)

theorem conserved_reach (h : ∀ i, (jobs i).Admissible) {s : State ι} (hs : Runs jobs s) : Conserved jobs s :=
  Reach.invariant (I := Conserved jobs) (fun _ _ _ hI _ hstep => conserved_step h hI hstep) conserved_start hs

/-- Where every job needs some of each resource, one that runs can finish,
and when none runs all resources are free. -/
theorem progress_of_needsAll (h : ∀ i, (jobs i).Admissible) (hneeds : ∀ i, (jobs i).NeedsAll) {s : State ι}
    (hs : Conserved jobs s) : Progress jobs s := by
  rintro ⟨i, hi⟩
  by_cases hrunning : ∃ j, s.places j = .running
  · obtain ⟨j, hj⟩ := hrunning
    obtain ⟨sems, adj, hdone⟩ := release_done h hs hj (hneeds j)
    refine ⟨j, by simp [hj], ?_⟩
    unfold step
    simp [hj, hdone]
  · have hfree : s.sems = total := by
      funext n
      have hnone : held jobs s n = 0 :=
        Finset.sum_eq_zero fun j _ => if_neg fun hj => hrunning ⟨j, hj⟩
      have := (hs n).2
      omega
    have hplace : s.places i = .requesting := by
      cases hp : s.places i with
      | requesting => rfl
      | running => exact absurd ⟨i, hp⟩ hrunning
      | finished => exact absurd hp hi
    obtain ⟨sems, adj, hdone⟩ := (reserve_total_iff (h i)).2 (hneeds i)
    refine ⟨i, hi, ?_⟩
    unfold step
    simp [hplace, hfree, hdone]

/-- One job from beginning to end while nothing else is held. -/
theorem run_alone (h : ∀ i, (jobs i).Admissible) {places : ι → Place} (hs : Conserved jobs ⟨total, places⟩) {i : ι}
    (hi : places i = .requesting) (hneeds : (jobs i).NeedsAll) :
    Reach (step jobs) anyStep ⟨total, places⟩ ⟨total, Function.update places i .finished⟩ := by
  obtain ⟨sems₁, adj₁, hreserve⟩ := (reserve_total_iff (h i)).2 hneeds
  have hfirst : step jobs ⟨total, places⟩ i = some ⟨sems₁, Function.update places i .running⟩ := by
    unfold step
    simp [hi, hreserve, State.go]
  have hs₁ := conserved_step h hs hfirst
  obtain ⟨sems₂, adj₂, hrelease⟩ := release_done h hs₁ (Function.update_self i Place.running places) hneeds
  have hsems : sems₂ = total := by
    funext n
    have h₁ := (reserve_done_iff.1 hreserve).2.2 n
    have h₂ := (release_done_iff.1 hrelease).2.2 n
    simp only at h₂
    omega
  have hsecond : step jobs ⟨sems₁, Function.update places i .running⟩ i =
      some ⟨total, Function.update places i .finished⟩ := by
    unfold step
    simp only at hrelease
    simp [hrelease, State.go, hsems]
  exact .head ⟨i, trivial, hfirst⟩ (.single ⟨i, trivial, hsecond⟩)

/-- Jobs that need some of each resource can all be done, one after another. -/
theorem run_all (h : ∀ i, (jobs i).Admissible) (done : Finset ι) (hdone : ∀ i ∈ done, (jobs i).NeedsAll) :
    Runs jobs ⟨total, fun i => if i ∈ done then .finished else .requesting⟩ := by
  induction done using Finset.induction_on with
  | empty =>
    simp only [Finset.notMem_empty, if_false]
    exact .refl
  | insert i done hi ih =>
    have ih := ih fun j hj => hdone j (Finset.mem_insert_of_mem hj)
    have hrun := run_alone h (conserved_reach h ih) (i := i) (if_neg hi) (hdone i (Finset.mem_insert_self i done))
    have hplaces : (fun j => if j ∈ insert i done then Place.finished else .requesting) =
        Function.update (fun j => if j ∈ done then Place.finished else .requesting) i .finished := by
      funext j
      by_cases hj : j = i <;> simp [hj]
    rw [hplaces]
    exact ih.trans hrun

/-- A job that needs none of some resource cannot start while all is free. -/
theorem stuck_alone (h : ∀ i, (jobs i).Admissible) {i : ι} (hi : ¬(jobs i).NeedsAll) :
    ∃ s, Runs jobs s ∧ ¬Progress jobs s := by
  have hrun := run_all h (Finset.univ.filter fun j => (jobs j).NeedsAll) (by simp)
  refine ⟨_, hrun, fun hprogress => ?_⟩
  obtain ⟨j, hj, hstep⟩ := hprogress ⟨i, by simp [hi]⟩
  have hneeds : ¬(jobs j).NeedsAll := by
    intro hneeds
    simp [hneeds] at hj
  have hplace :
      (if j ∈ Finset.univ.filter fun j => (jobs j).NeedsAll then Place.finished else .requesting) = .requesting := by
    simp [hneeds]
  simp only [step, hplace] at hstep
  split at hstep
  · next sems adj hdone => exact hneeds ((reserve_total_iff (h j)).1 ⟨sems, adj, hdone⟩)
  · cases hstep
  · next hfails => exact reserve_total_ne_fails (h j) hfails

/-- Which jobs the company gets done: its resources are conserved and some job
can always go on exactly when every job needs some of each. -/
theorem movers_iff (jobs : ι → Job) (h : ∀ i, (jobs i).Admissible) :
    (∀ s, Runs jobs s → Conserved jobs s ∧ Progress jobs s) ↔ ∀ i, (jobs i).NeedsAll := by
  constructor
  · intro hall i
    by_contra hi
    obtain ⟨s, hs, hstuck⟩ := stuck_alone h hi
    exact hstuck (hall s hs).2
  · intro hneeds s hs
    have hconserved := conserved_reach h hs
    exact ⟨hconserved, progress_of_needsAll h hneeds hconserved⟩

end

/-- The program's own requests all get done. -/
theorem movers_requests : (∀ i, (requests i).NeedsAll) ∧
    ∀ s, Runs requests s → Conserved requests s ∧ Progress requests s := by
  have hneeds : ∀ i, (requests i).NeedsAll := by decide
  exact ⟨hneeds, (movers_iff requests (by decide)).2 hneeds⟩

/-- A single job that needs movers and insurance but no truck waits for good. -/
theorem no_truck_stuck :
    ¬∀ s, Runs (fun _ : Fin 1 => ⟨0, 1, 1⟩) s → Conserved (fun _ => ⟨0, 1, 1⟩) s ∧ Progress (fun _ => ⟨0, 1, 1⟩) s := by
  intro hall
  have hblocked : ∀ i : Fin 1, (step (fun _ => ⟨0, 1, 1⟩) (start (Fin 1)) i).isSome = false := by decide
  obtain ⟨i, -, hi⟩ := (hall (start (Fin 1)) .refl).2 ⟨0, by simp [start]⟩
  rw [hblocked i] at hi
  cases hi

end SysProg.Movers
