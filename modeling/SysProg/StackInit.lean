/-
Start-up of processes that share a stack: stackInit of proc_stack.c. The
process that creates the area initialises it, in several steps, while others
may already have mapped it and started to push and pop.

A lock used before it is initialised is taken for a free one, which is what an
area of zeros comes to. POSIX does not say what it is.
-/
import SysProg.Stack

namespace SysProg.StackInit

open Stack Monitor

/-- Where a process is in `stackInit`. -/
inductive Pc where
  /-- The `open` that creates the file, and fails if it exists. -/
  | create
  /-- The plain `open`. -/
  | reopen
  | truncate (createdHere : Bool)
  | map (createdHere : Bool)
  | initMutex
  | initCond
  | setIndex
  /-- `stackInit` has returned, and the process's threads run. -/
  | running (createdHere : Bool)
  deriving DecidableEq

/-- What happens to the locks and the index. -/
inductive Event where
  | mutex
  | cond
  | index
  /-- A push or a pop takes the mutex, or is woken. -/
  | use
  deriving DecidableEq

/-- What a step of `stackInit` leaves: whether there is a file, where the
process goes, and what it has initialised. -/
structure Progress where
  file : Bool
  pc : Pc
  event : Option Event

/-- The next step of `stackInit`. -/
def stackInit (file : Bool) : Pc → Option Progress
  | .create => some ⟨true, if file then .reopen else .truncate true, none⟩
  | .reopen => some ⟨file, .truncate false, none⟩
  | .truncate createdHere => some ⟨file, .map createdHere, none⟩
  | .map true => some ⟨file, .initMutex, none⟩
  | .map false => some ⟨file, .running false, none⟩
  | .initMutex => some ⟨file, .initCond, some .mutex⟩
  | .initCond => some ⟨file, .setIndex, some .cond⟩
  | .setIndex => some ⟨file, .running true, some .index⟩
  | .running _ => none

/-- What an initialisation does to the stack. -/
def Event.apply {ι : Type} : Event → Monitor.State ι (Shared ι) Caller → Monitor.State ι (Shared ι) Caller
  | .index, s => { s with shared := { s.shared with stack := { s.shared.stack with index := 0 } } }
  | _, s => s

/-- Processes, their threads, and the area. -/
structure Processes (ρ ι : Type) where
  file : Bool
  procs : ρ → Pc
  stack : Monitor.State ι (Shared ι) Caller
  /-- Not in the source: what has happened, in order. -/
  log : List Event

/-- What can happen next. -/
inductive Act (ρ ι : Type) where
  /-- A process takes its next step in `stackInit`. -/
  | init (p : ρ)
  /-- A thread runs a section of a push or a pop, or wakes. -/
  | call (a : Monitor.Action ι)

/-- The thread that takes the step. -/
def thread {ι : Type} : Monitor.Action ι → ι
  | .enter i _ => i
  | .spurious i => i

section

variable {ρ ι : Type} [DecidableEq ρ] [DecidableEq ι]

/-- The threads of `owner` run once it has returned from `stackInit`. -/
def step [Fintype ι] (owner : ι → ρ) (s : Processes ρ ι) : Act ρ ι → Option (Processes ρ ι)
  | .init p =>
    (stackInit s.file (s.procs p)).map fun next =>
      ⟨next.file, Function.update s.procs p next.pc, next.event.elim s.stack (·.apply s.stack),
        s.log ++ next.event.toList⟩
  | .call a =>
    match s.procs (owner (thread a)) with
    | .running _ => (Monitor.step calls s.stack a).map fun stack => { s with stack := stack, log := s.log ++ [.use] }
    | _ => none

/-- No file, and no process has started. The area will hold zeros. -/
def fresh (todo : ι → List Stack.Call) : Processes ρ ι := ⟨false, fun _ => .create, start (Buf.zero _) todo, []⟩

/-- The threads push and pop only when the creator has set the index. -/
def afterInit (s : Processes ρ ι) : Act ρ ι → Prop
  | .init _ => True
  | .call _ => ∃ p, s.procs p = .running true

instance {ρ ι : Type} [Fintype ρ] (s : Processes ρ ι) : (a : Act ρ ι) → Decidable (afterInit s a)
  | .init _ => .isTrue trivial
  | .call _ => inferInstanceAs (Decidable (∃ p, s.procs p = .running true))

/-- Each of the three is initialised at most once, and has been at every use;
and the characters pushed are those popped and those on the stack. -/
structure Safe (s : Processes ρ ι) : Prop where
  once : ∀ e, e ≠ .use → s.log.count e ≤ 1
  before : ∀ earlier later, s.log = earlier ++ .use :: later → ∀ e, e ≠ .use → e ∈ earlier
  kept : ∃ xs, Stacked s.stack.shared.stack xs ∧ ((s.stack.shared.done.map Prod.snd).filterMap Op.char?).Perm
    ((s.stack.shared.done.map Prod.snd).filterMap Op.returned? ++ xs)

/-! ## The creator -/

/-- A process that has created the file. -/
def Pc.Creator : Pc → Prop
  | .create | .reopen => False
  | .truncate createdHere | .map createdHere | .running createdHere => createdHere = true
  | .initMutex | .initCond | .setIndex => True

/-- What the creator has initialised. -/
def Pc.inits : Pc → List Event
  | .initCond => [.mutex]
  | .setIndex => [.mutex, .cond]
  | .running _ => [.mutex, .cond, .index]
  | _ => []

theorem stackInit_creator {pc pc' : Pc} {file : Bool} {event : Option Event} (hcreator : pc.Creator)
    (h : stackInit true pc = some ⟨file, pc', event⟩) :
    file = true ∧ pc'.Creator ∧ pc'.inits = pc.inits ++ event.toList ∧ pc ≠ .running true := by
  cases pc with
  | create | reopen => cases hcreator
  | truncate createdHere =>
    cases h
    exact ⟨rfl, hcreator, rfl, by simp⟩
  | map createdHere =>
    cases hcreator
    cases h
    exact ⟨rfl, trivial, rfl, by simp⟩
  | initMutex | initCond | setIndex =>
    cases h
    exact ⟨rfl, by simp [Pc.Creator], rfl, by simp⟩
  | running createdHere => cases h

theorem stackInit_other {pc pc' : Pc} {file : Bool} {event : Option Event} (hother : ¬pc.Creator)
    (h : stackInit true pc = some ⟨file, pc', event⟩) : file = true ∧ ¬pc'.Creator ∧ event = none := by
  cases pc with
  | create =>
    cases h
    exact ⟨rfl, id, rfl⟩
  | reopen =>
    cases h
    exact ⟨rfl, by simp [Pc.Creator], rfl⟩
  | truncate createdHere =>
    cases h
    exact ⟨rfl, hother, rfl⟩
  | map createdHere =>
    cases createdHere with
    | true => exact absurd rfl hother
    | false =>
      cases h
      exact ⟨rfl, by simp [Pc.Creator], rfl⟩
  | initMutex | initCond | setIndex => exact absurd trivial hother
  | running createdHere => cases h

/-- What holds of the area while `p` is its creator: until it has set the
index nothing is used, and from then on nothing is initialised. -/
structure Created (todo : ι → List Stack.Call) (s : Processes ρ ι) (p : ρ) : Prop where
  file : s.file = true
  creator : (s.procs p).Creator
  others : ∀ q, q ≠ p → ¬(s.procs q).Creator
  linear : ∃ xs, Linear todo s.stack.shared s.stack.owns xs
  log : ∃ uses, s.log = (s.procs p).inits ++ List.replicate uses .use ∧
    (s.procs p ≠ .running true → uses = 0 ∧ s.stack = start (Buf.zero _) todo)

/-- No file yet, or one with its creator. -/
def Inv (todo : ι → List Stack.Call) (s : Processes ρ ι) : Prop := s = fresh todo ∨ ∃ p, Created todo s p

theorem created_init {todo : ι → List Stack.Call} {s s' : Processes ρ ι} {owner : ι → ρ} [Fintype ι] {p q : ρ}
    (h : Created todo s p) (hstep : step owner s (.init q) = some s') : Created todo s' p := by
  obtain ⟨hfile, hcreator, hothers, hlinear, uses, hlog, hstart⟩ := h
  obtain ⟨⟨file, pc, event⟩, hinit, rfl⟩ := Option.map_eq_some_iff.1 hstep
  rw [hfile] at hinit
  by_cases hq : q = p
  · subst hq
    obtain ⟨rfl, hpc, hinits, hne⟩ := stackInit_creator hcreator hinit
    obtain ⟨rfl, hstack⟩ := hstart hne
    -- The index is set on an empty stack that nobody has used.
    have happly : event.elim s.stack (·.apply s.stack) = s.stack := by
      rw [hstack]
      cases event with
      | none => rfl
      | some e => cases e <;> rfl
    refine ⟨rfl, ?_, ?_, ?_, 0, ?_, ?_⟩
    · simpa using hpc
    · intro q' hq'
      simpa [hq'] using hothers q' hq'
    · rw [happly]
      exact hlinear
    · simp only [Function.update_self, hinits, hlog]
      simp
    · intro _
      exact ⟨rfl, by rw [happly]; exact hstack⟩
  · obtain ⟨rfl, hpc, rfl⟩ := stackInit_other (hothers q hq) hinit
    have hp : Function.update s.procs q pc p = s.procs p := Function.update_of_ne (Ne.symm hq) ..
    refine ⟨rfl, ?_, ?_, hlinear, uses, ?_, ?_⟩
    · simp only [hp]
      exact hcreator
    · intro q' hq'
      by_cases hqq : q' = q
      · subst hqq
        simpa using hpc
      · simpa [hqq] using hothers q' hq'
    · simp only [hp]
      simpa using hlog
    · simp only [hp]
      exact hstart

theorem created_call {todo : ι → List Stack.Call} {s s' : Processes ρ ι} {owner : ι → ρ} [Fintype ι] {p : ρ}
    {a : Monitor.Action ι}
    (h : Created todo s p) (hinit : ∃ q, s.procs q = .running true) (hstep : step owner s (.call a) = some s') :
    Created todo s' p := by
  obtain ⟨hfile, hcreator, hothers, hlinear, uses, hlog, -⟩ := h
  obtain ⟨q, hq⟩ := hinit
  have hqp : q = p := by
    by_contra hne
    exact hothers q hne (by simp [hq, Pc.Creator])
  subst hqp
  simp only [step] at hstep
  split at hstep
  · obtain ⟨stack, hcalls, rfl⟩ := Option.map_eq_some_iff.1 hstep
    refine ⟨hfile, hcreator, hothers, linear_step hlinear hcalls, uses + 1, ?_, fun hne => absurd hq hne⟩
    simp only [hlog, List.append_assoc, List.replicate_succ', List.append_assoc]
  · cases hstep

theorem inv_step {todo : ι → List Stack.Call} {s s' : Processes ρ ι} {owner : ι → ρ} [Fintype ι] {a : Act ρ ι}
    (h : Inv todo s) (ha : afterInit s a) (hstep : step owner s a = some s') : Inv todo s' := by
  rcases h with rfl | ⟨p, hcreated⟩
  · cases a with
    | init p =>
      -- The first process to open the file creates it.
      cases hstep
      refine .inr ⟨p, rfl, by simp [fresh, Pc.Creator], ?_, ⟨[], linear_start _ _⟩, 0, by simp [Pc.inits, fresh], ?_⟩
      · intro q hq
        simp [hq, fresh, Pc.Creator]
      · intro _
        exact ⟨rfl, rfl⟩
    | call a =>
      obtain ⟨p, hp⟩ := ha
      cases hp
  · cases a with
    | init q => exact .inr ⟨p, created_init hcreated hstep⟩
    | call a => exact .inr ⟨p, created_call hcreated ha hstep⟩

theorem prefix_of_not_mem {α : Type} {x : α} {first rest earlier later : List α} (hx : x ∉ first)
    (h : first ++ rest = earlier ++ x :: later) : first <+: earlier := by
  induction first generalizing earlier with
  | nil => exact List.nil_prefix
  | cons a first ih =>
    simp only [List.mem_cons, not_or] at hx
    cases earlier with
    | nil =>
      simp only [List.cons_append, List.nil_append, List.cons.injEq] at h
      exact absurd h.1.symm hx.1
    | cons b earlier =>
      simp only [List.cons_append, List.cons.injEq] at h
      rw [h.1]
      exact List.cons_prefix_cons.2 ⟨rfl, ih hx.2 h.2⟩

theorem inits_nodup (pc : Pc) : pc.inits.Nodup ∧ Event.use ∉ pc.inits := by
  cases pc <;> simp [Pc.inits]

omit [DecidableEq ρ] in
theorem Created.safe {todo : ι → List Stack.Call} {s : Processes ρ ι} {p : ρ} (h : Created todo s p) : Safe s := by
  obtain ⟨-, hcreator, -, ⟨xs, hlinear⟩, uses, hlog, hstart⟩ := h
  have hinits := inits_nodup (s.procs p)
  refine ⟨?_, ?_, xs, hlinear.stacked, replay_perm hlinear.replayed⟩
  · intro e he
    rw [hlog, List.count_append, List.count_replicate, if_neg (by simpa using Ne.symm he)]
    exact List.nodup_iff_count_le_one.1 hinits.1 e
  · intro earlier later hsplit e he
    have huse : Event.use ∈ s.log := by rw [hsplit]; simp
    have hrunning : s.procs p = .running true := by
      by_contra hne
      rw [hlog, (hstart hne).1, List.replicate_zero, List.append_nil] at huse
      exact hinits.2 huse
    rw [hlog] at hsplit
    refine (prefix_of_not_mem hinits.2 hsplit).subset ?_
    rw [hrunning]
    cases e <;> simp [Pc.inits] at he ⊢

variable [Fintype ι]

/-- Where nobody pushes or pops before the creator has set the index, start-up is safe. -/
theorem stackInit_safe {owner : ι → ρ} {todo : ι → List Stack.Call} {s : Processes ρ ι}
    (h : Reach (step owner) afterInit (fresh todo) s) : Safe s := by
  have hinv : Inv todo s :=
    Reach.invariant (I := Inv todo) (fun _ _ _ hI ha hstep => inv_step hI ha hstep) (.inl rfl) h
  rcases hinv with rfl | ⟨p, hcreated⟩
  · refine ⟨fun _ _ => by simp [fresh], ?_, [], stacked_start _, by simp [fresh, start]⟩
    intro earlier later hsplit
    simp [fresh] at hsplit
  · exact hcreated.safe

end

/-- Two processes with a thread each: the second has mapped the area when the
first is yet to initialise it, and pushes what the first pops. -/
theorem stackInit_safe_two : ∃ s : Processes (Fin 2) (Fin 2),
    Reach (step id) afterInit (fresh fun i => if i = 0 then [.pop] else [.push 65]) s ∧
      s.log = [.mutex, .cond, .index, .use, .use] ∧ s.stack.shared.done.map Prod.snd = [.pushed 65, .popped 65] ∧
      Safe s := by
  have hrun : (exec (step id) afterInit (fresh fun i : Fin 2 => if i = 0 then [.pop] else [.push 65])
      [.init (0 : Fin 2), .init 1, .init 0, .init 1, .init 1, .init 0, .init 1, .init 0, .init 0, .init 0,
        .call (.enter 1 none), .call (.enter 0 none)]).map (fun s => (s.log, s.stack.shared.done.map Prod.snd)) =
          some ([.mutex, .cond, .index, .use, .use], [.pushed 65, .popped 65]) := by
    decide +kernel
  obtain ⟨s, hs, he⟩ := Option.map_eq_some_iff.1 hrun
  obtain ⟨hlog, hdone⟩ := Prod.mk.inj he
  have hreach := reach_of_exec hs
  exact ⟨s, hreach, hlog, hdone, stackInit_safe hreach⟩

/-- Two processes, as proc_stack.sh starts them: the second one maps the area
and pushes before the first one, which has created it, sets the index to 0. -/
theorem stackInit_unsafe : ∃ s : Processes (Fin 2) (Fin 1),
    Reach (step fun _ => 1) anyStep (fresh fun _ => [.push 65]) s ∧ ¬Safe s := by
  have hrun : (exec (step fun _ : Fin 1 => (1 : Fin 2)) anyStep (fresh fun _ => [.push 65])
      [.init 0, .init 1, .init 1, .init 1, .init 1, .call (.enter 0 none),
        .init 0, .init 0, .init 0, .init 0, .init 0]).map
          (fun s => (s.stack.shared.done.map Prod.snd, s.stack.shared.stack.index)) = some ([.pushed 65], 0) := by
    decide
  obtain ⟨s, hs, hlost⟩ := Option.map_eq_some_iff.1 hrun
  obtain ⟨hdone, hindex⟩ := Prod.mk.inj hlost
  refine ⟨s, reach_of_exec hs, fun hsafe => ?_⟩
  obtain ⟨xs, hstacked, hperm⟩ := hsafe.kept
  have hlength : xs.length = 0 := by
    have := hstacked.index
    omega
  rw [hdone, List.eq_nil_of_length_eq_zero hlength] at hperm
  exact absurd hperm.length_eq (by simp [List.filterMap_cons, Op.char?, Op.returned?])

end SysProg.StackInit
