/-
The stack that threads share: push and pop of stack.c, and of proc_stack.c,
where the threads may be of different processes (the two differ only in
where the stack lies), and the threads that call them.

Its buffer and index are a stack (`Stacked`), which the operations change one
after another, in the order of their critical sections (`replay`).
-/
import SysProg.Lib.Buffer
import SysProg.Lib.Monitor

namespace SysProg.Stack

open Monitor

/-- A small size, to cause contention. -/
abbrev STACK_SIZE : Nat := 3

/-- The stack. -/
structure StackType where
  buffer : Buf STACK_SIZE
  index : Int

/-- `index` is that of a character in the buffer. -/
def inBuffer (index : Int) : Prop := 0 ≤ index ∧ index < STACK_SIZE

instance (index : Int) : Decidable (inBuffer index) := inferInstanceAs (Decidable (_ ∧ _))

/-- A critical section of `push`; `none` is a write outside the buffer. -/
def push (oneChar : Byte) (stack : StackType) : Option (Section StackType Unit) :=
  if stack.index = STACK_SIZE then some .wait
  else if inBuffer stack.index then
    some (.leave ⟨stack.buffer.put stack.index.toNat oneChar, stack.index + 1⟩ () true)
  else none

/-- A critical section of `pop`; `none` is a read outside the buffer. -/
def pop (stack : StackType) : Option (Section StackType Byte) :=
  if stack.index = 0 then some .wait
  else if inBuffer (stack.index - 1) then
    some (.leave { stack with index := stack.index - 1 } (stack.buffer.get (stack.index - 1).toNat) true)
  else none

/-- A call a thread makes. -/
inductive Call where
  | push (oneChar : Byte)
  | pop

/-- A call that has returned, and what a `pop` returned. -/
inductive Op where
  | pushed (oneChar : Byte)
  | popped (toReturn : Byte)
  deriving DecidableEq

/-- A thread that makes calls. -/
structure Caller where
  /-- The calls still to be made, or to be completed. -/
  todo : List Call
  returned : List Byte

/-- What the mutex guards. -/
structure Shared (ι : Type) where
  stack : StackType
  /-- Not in the source: the operations completed, in the order of their
  critical sections, each with its thread. -/
  done : List (ι × Op)

section

variable {ι : Type}

/-- Threads that call `push` and `pop`. -/
def calls : Monitor ι (Shared ι) Caller := fun i me s =>
  match me.todo with
  | [] => none
  | .push oneChar :: todo =>
    (push oneChar s.stack).map (Section.map
      (fun stack _ => ⟨stack, s.done ++ [(i, .pushed oneChar)]⟩)
      (fun _ => { me with todo := todo }))
  | .pop :: todo =>
    (pop s.stack).map (Section.map
      (fun stack toReturn => ⟨stack, s.done ++ [(i, .popped toReturn)]⟩)
      (fun toReturn => ⟨todo, me.returned ++ [toReturn]⟩))

theorem calls_nil {i : ι} {me : Caller} {s : Shared ι} (h : me.todo = []) : calls i me s = none := by
  simp only [calls, h]

theorem calls_push {i : ι} {me : Caller} {s : Shared ι} {oneChar : Byte} {rest : List Call}
    (h : me.todo = .push oneChar :: rest) :
    calls i me s = (push oneChar s.stack).map (Section.map
      (fun stack _ => ⟨stack, s.done ++ [(i, .pushed oneChar)]⟩) (fun _ => { me with todo := rest })) := by
  simp only [calls, h]

theorem calls_pop {i : ι} {me : Caller} {s : Shared ι} {rest : List Call} (h : me.todo = .pop :: rest) :
    calls i me s = (pop s.stack).map (Section.map
      (fun stack toReturn => ⟨stack, s.done ++ [(i, .popped toReturn)]⟩)
      (fun toReturn => ⟨rest, me.returned ++ [toReturn]⟩)) := by
  simp only [calls, h]

/-- An initialised stack, and the calls each thread is to make. -/
def start (buffer : Buf STACK_SIZE) (todo : ι → List Call) : State ι (Shared ι) Caller :=
  ⟨⟨⟨buffer, 0⟩, []⟩, fun i => ⟨⟨todo i, []⟩, .ready⟩⟩

end

/-! ## The sequential stack -/

/-- An operation on a stack of at most `STACK_SIZE` characters, its top
first. `none` when there is no room, or when another character is popped than
the last one pushed. -/
def Op.on : Op → List Byte → Option (List Byte)
  | .pushed oneChar, xs => if xs.length < STACK_SIZE then some (oneChar :: xs) else none
  | .popped _, [] => none
  | .popped toReturn, x :: xs => if x = toReturn then some xs else none

/-- One operation after another. -/
def replay : List Byte → List Op → Option (List Byte)
  | xs, [] => some xs
  | xs, op :: ops => (op.on xs).bind fun xs => replay xs ops

/-- The character a push has put there. -/
def Op.char? : Op → Option Byte
  | .pushed oneChar => some oneChar
  | .popped _ => none

/-- The character a pop has returned. -/
def Op.returned? : Op → Option Byte
  | .pushed _ => none
  | .popped toReturn => some toReturn

/-- The call an operation was. -/
def Op.call : Op → Call
  | .pushed oneChar => .push oneChar
  | .popped _ => .pop

theorem pushed_on {oneChar : Byte} {xs ys : List Byte} :
    (Op.pushed oneChar).on xs = some ys ↔ xs.length < STACK_SIZE ∧ oneChar :: xs = ys := by
  simp [Op.on]

theorem popped_on {toReturn : Byte} {xs ys : List Byte} :
    (Op.popped toReturn).on xs = some ys ↔ xs = toReturn :: ys := by
  cases xs with
  | nil => simp [Op.on]
  | cons x xs => simp [Op.on]

theorem replay_append (xs : List Byte) (ops : List Op) (op : Op) :
    replay xs (ops ++ [op]) = (replay xs ops).bind op.on := by
  induction ops generalizing xs with
  | nil =>
    simp only [List.nil_append, replay, Option.bind_some]
    cases op.on xs <;> rfl
  | cons o ops ih =>
    simp only [List.cons_append, replay, ih, Option.bind_assoc]

/-- A sequential stack loses, doubles and invents nothing. -/
theorem replay_perm {xs ys : List Byte} {ops : List Op} (h : replay xs ops = some ys) :
    (xs ++ ops.filterMap Op.char?).Perm (ops.filterMap Op.returned? ++ ys) := by
  induction ops generalizing xs with
  | nil =>
    cases h
    simp
  | cons op ops ih =>
    obtain ⟨zs, hop, hrest⟩ := Option.bind_eq_some_iff.1 h
    have ih := ih hrest
    cases op with
    | pushed c =>
      obtain ⟨-, rfl⟩ := pushed_on.1 hop
      have hmove : (xs ++ c :: ops.filterMap Op.char?).Perm (c :: (xs ++ ops.filterMap Op.char?)) :=
        List.perm_middle
      simpa [List.filterMap_cons, Op.char?, Op.returned?] using hmove.trans ih
    | popped c =>
      obtain rfl := popped_on.1 hop
      simpa [List.filterMap_cons, Op.char?, Op.returned?] using ih

/-! ## The buffer as a stack -/

/-- The buffer up to `index` holds `xs`, the top of the stack last. -/
structure Stacked (stack : StackType) (xs : List Byte) : Prop where
  index : stack.index = xs.length
  room : xs.length ≤ STACK_SIZE
  buffer : stack.buffer.bytes.take xs.length = xs.reverse

theorem stacked_start (buffer : Buf STACK_SIZE) : Stacked ⟨buffer, 0⟩ [] := ⟨rfl, by simp, rfl⟩

/-- `push` waits while the stack is full, else it does its part of the sequential stack. -/
theorem push_stacked {stack : StackType} {xs : List Byte} (h : Stacked stack xs) (oneChar : Byte) :
    (xs.length = STACK_SIZE ∧ push oneChar stack = some .wait) ∨
    ∃ stack', push oneChar stack = some (.leave stack' () true) ∧ Stacked stack' (oneChar :: xs) ∧
      (Op.pushed oneChar).on xs = some (oneChar :: xs) := by
  obtain ⟨hindex, hroom, hbuffer⟩ := h
  by_cases hfull : xs.length = STACK_SIZE
  · exact .inl ⟨hfull, if_pos (by omega)⟩
  · have hlt : xs.length < STACK_SIZE := by omega
    have hin : inBuffer stack.index := ⟨by omega, by omega⟩
    have hnat : stack.index.toNat = xs.length := by omega
    refine .inr ⟨_, by rw [push, if_neg (by omega), if_pos hin], ⟨?_, hlt, ?_⟩, if_pos hlt⟩
    · simp [hindex]
    · have hsize : xs.length < stack.buffer.bytes.length := by rw [stack.buffer.size]; exact hlt
      simp only [hnat, Buf.put, List.length_cons, List.reverse_cons, ← hbuffer]
      rw [List.take_add_one, List.take_set_of_le (le_refl _), List.getElem?_set_self hsize]
      rfl

/-- `pop` waits while the stack is empty, else it returns its top. -/
theorem pop_stacked {stack : StackType} {xs : List Byte} (h : Stacked stack xs) :
    (xs = [] ∧ pop stack = some .wait) ∨
    ∃ toReturn ys stack', pop stack = some (.leave stack' toReturn true) ∧ Stacked stack' ys ∧
      (Op.popped toReturn).on xs = some ys := by
  obtain ⟨hindex, hroom, hbuffer⟩ := h
  cases xs with
  | nil => exact .inl ⟨rfl, if_pos hindex⟩
  | cons x xs =>
    simp only [List.length_cons] at hindex hroom hbuffer
    have hin : inBuffer (stack.index - 1) := ⟨by omega, by omega⟩
    have hnat : (stack.index - 1).toNat = xs.length := by omega
    have hget : stack.buffer.get xs.length = x := by
      have hlast : (stack.buffer.bytes.take (xs.length + 1))[xs.length]? = some x := by
        rw [hbuffer]
        simp
      rw [List.getElem?_take_of_lt (Nat.lt_succ_self _)] at hlast
      simp [Buf.get, List.getD_eq_getElem?_getD, hlast]
    refine .inr ⟨x, xs, _, by rw [pop, if_neg (by omega), if_pos hin, hnat, hget], ⟨?_, by omega, ?_⟩, if_pos rfl⟩
    · simp only
      omega
    · have htake := congrArg (List.take xs.length) hbuffer
      rw [List.take_take, Nat.min_eq_left (Nat.le_succ _)] at htake
      rw [htake, List.reverse_cons, List.take_left' (by simp)]

/-! ## Any number of threads -/

section

variable {ι : Type} [DecidableEq ι]

/-- The operations of one thread. -/
def opsOf (i : ι) (done : List (ι × Op)) : List Op := (done.filter fun p => p.1 = i).map Prod.snd

theorem opsOf_append (i j : ι) (done : List (ι × Op)) (op : Op) :
    opsOf j (done ++ [(i, op)]) = if i = j then opsOf j done ++ [op] else opsOf j done := by
  by_cases h : i = j <;> simp [opsOf, h]

/-- What holds all along: the stack is what the operations completed make of
an empty one, and every thread has its own calls and results of them. -/
structure Linear (todo : ι → List Call) (shared : Shared ι) (owns : ι → Caller) (xs : List Byte) : Prop where
  stacked : Stacked shared.stack xs
  replayed : replay [] (shared.done.map Prod.snd) = some xs
  called : ∀ i, (opsOf i shared.done).map Op.call ++ (owns i).todo = todo i
  returned : ∀ i, (owns i).returned = (opsOf i shared.done).filterMap Op.returned?

/-- One more operation, by thread `i`. -/
theorem Linear.complete {todo : ι → List Call} {shared : Shared ι} {owns : ι → Caller} {xs ys : List Byte}
    (h : Linear todo shared owns xs) {i : ι} {op : Op} {rest : List Call} {stack : StackType}
    (hcall : (owns i).todo = op.call :: rest) (hstacked : Stacked stack ys) (hop : op.on xs = some ys) :
    Linear todo ⟨stack, shared.done ++ [(i, op)]⟩
      (Function.update owns i ⟨rest, (owns i).returned ++ [op].filterMap Op.returned?⟩) ys where
  stacked := hstacked
  replayed := by
    simp only [List.map_append, List.map_cons, List.map_nil]
    rw [replay_append, h.replayed, Option.bind_some, hop]
  called := by
    intro j
    have hj := h.called j
    rw [opsOf_append]
    by_cases hij : i = j
    · subst hij
      rw [hcall] at hj
      simpa using hj
    · simpa [hij, Function.update_of_ne (Ne.symm hij)] using hj
  returned := by
    intro j
    have hj := h.returned j
    rw [opsOf_append]
    by_cases hij : i = j
    · subst hij
      rw [if_pos rfl, Function.update_self, List.filterMap_append, ← hj]
    · simpa [hij, Function.update_of_ne (Ne.symm hij)] using hj

/-- What a thread with calls to make can do. -/
theorem Linear.enter {todo : ι → List Call} {shared : Shared ι} {owns : ι → Caller} {xs : List Byte}
    (h : Linear todo shared owns xs) {i : ι} (hcalls : (owns i).todo ≠ []) :
    calls i (owns i) shared = some .wait ∨
    ∃ shared' own ys, calls i (owns i) shared = some (.leave shared' own true) ∧
      Linear todo shared' (Function.update owns i own) ys := by
  cases htodo : (owns i).todo with
  | nil => exact absurd htodo hcalls
  | cons call rest =>
    cases call with
    | push oneChar =>
      rw [calls_push htodo]
      rcases push_stacked h.stacked oneChar with ⟨-, hpush⟩ | ⟨stack, hpush, hstacked, hop⟩
      · exact .inl (by rw [hpush]; rfl)
      · refine .inr ⟨_, _, oneChar :: xs, by rw [hpush]; rfl, ?_⟩
        have hcall : (owns i).todo = (Op.pushed oneChar).call :: rest := htodo
        simpa [List.filterMap_cons, Op.returned?] using h.complete hcall hstacked hop
    | pop =>
      rw [calls_pop htodo]
      rcases pop_stacked h.stacked with ⟨-, hpop⟩ | ⟨toReturn, ys, stack, hpop, hstacked, hop⟩
      · exact .inl (by rw [hpop]; rfl)
      · have hcall : (owns i).todo = (Op.popped toReturn).call :: rest := htodo
        exact .inr ⟨_, _, ys, by rw [hpop]; rfl, h.complete hcall hstacked hop⟩

theorem linear_start (buffer : Buf STACK_SIZE) (todo : ι → List Call) :
    Linear todo (start buffer todo).shared (start buffer todo).owns [] where
  stacked := stacked_start buffer
  replayed := rfl
  called _ := rfl
  returned _ := rfl

variable [Fintype ι]

theorem linear_step {todo : ι → List Call} {s s' : State ι (Shared ι) Caller} {a : Action ι}
    (hlinear : ∃ xs, Linear todo s.shared s.owns xs) (h : step calls s a = some s') :
    ∃ xs, Linear todo s'.shared s'.owns xs := by
  obtain ⟨xs, hlinear⟩ := hlinear
  rcases section_of_step h with ⟨hshared, howns⟩ | ⟨i, shared, own, signal, henter, hshared, howns⟩
  · exact ⟨xs, by rw [hshared, howns]; exact hlinear⟩
  · have hcalls : (s.owns i).todo ≠ [] := by
      intro hnil
      rw [calls_nil hnil] at henter
      cases henter
    rcases hlinear.enter hcalls with hwait | ⟨shared', own', ys, hleave, hlinear⟩
    · rw [hwait] at henter
      cases henter
    · rw [hleave] at henter
      cases henter
      exact ⟨ys, by rw [hshared, howns]; exact hlinear⟩

theorem linear_reach {buffer : Buf STACK_SIZE} {todo : ι → List Call} {s : State ι (Shared ι) Caller}
    (h : Reach (step calls) anyStep (start buffer todo) s) : ∃ xs, Linear todo s.shared s.owns xs := by
  refine Reach.invariant (I := fun s => ∃ xs, Linear todo s.shared s.owns xs) ?_ ?_ h
  · intro s a s' hlinear _ hstep
    exact linear_step hlinear hstep
  · exact ⟨[], linear_start buffer todo⟩

/-- The stack is linearizable: in the order of their critical sections the
operations completed are those of a sequential stack. No access is outside
the buffer, and no character is lost, doubled or invented. -/
theorem stack_linearizable {buffer : Buf STACK_SIZE} {todo : ι → List Call} {s : State ι (Shared ι) Caller}
    (h : Reach (step calls) anyStep (start buffer todo) s) :
    (0 ≤ s.shared.stack.index ∧ s.shared.stack.index ≤ STACK_SIZE) ∧
    (∀ i, (s.owns i).todo ≠ [] → calls i (s.owns i) s.shared ≠ none) ∧
    (∀ i, (opsOf i s.shared.done).map Op.call ++ (s.owns i).todo = todo i ∧
      (s.owns i).returned = (opsOf i s.shared.done).filterMap Op.returned?) ∧
    ∃ xs, replay [] (s.shared.done.map Prod.snd) = some xs ∧ Stacked s.shared.stack xs ∧
      ((s.shared.done.map Prod.snd).filterMap Op.char?).Perm
        ((s.shared.done.map Prod.snd).filterMap Op.returned? ++ xs) := by
  obtain ⟨xs, hlinear⟩ := linear_reach h
  have hindex := hlinear.stacked.index
  have hroom := hlinear.stacked.room
  refine ⟨⟨by omega, by omega⟩, ?_, ?_, xs, hlinear.replayed, hlinear.stacked, replay_perm hlinear.replayed⟩
  · intro i hcalls
    rcases hlinear.enter hcalls with hwait | ⟨_, _, _, hleave, _⟩
    · simp [hwait]
    · simp [hleave]
  · intro i
    exact ⟨hlinear.called i, hlinear.returned i⟩

end

/-- Two threads: the popper finds the stack empty and is woken by the push. -/
theorem stack_linearizable_run : ∃ s, Reach (step calls) anyStep
      (start (Buf.zero _) (fun i : Fin 2 => if i = 0 then [.push 65] else [.pop])) s ∧
    (s.owns 1).returned = [65] ∧ 0 ≤ s.shared.stack.index := by
  have hrun : ((exec (step calls) anyStep (start (Buf.zero _) (fun i : Fin 2 => if i = 0 then [.push 65] else [.pop]))
      [.enter 1 none, .enter 0 (some 1), .enter 1 none]).map fun s => (s.owns 1).returned) = some [65] := by
    decide
  obtain ⟨s, hs, hreturned⟩ := Option.map_eq_some_iff.1 hrun
  have hreach := reach_of_exec hs
  exact ⟨s, hreach, hreturned, (stack_linearizable hreach).1.1⟩

end SysProg.Stack
