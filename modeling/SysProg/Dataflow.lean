/-
What comes through a pipeline (`sh9`): the processes of a command line from
`run_command`'s fork on, the programs they execute, and the bytes in the pipes
and files their descriptors stand for.

A reader is told of the end when no living process holds the other end of an
empty pipe, and a writer killed when none holds the reader's; so what the
stages see depends on which ends the processes have closed. A file to be read
may be missing and a program too; every fork succeeds, and a file to be written
opens. The programs use stdin and stdout only, and do not handle `SIGPIPE`.
-/
import SysProg.Foreground
import SysProg.Lib.Chunks
import SysProg.Lib.Stream
import SysProg.Redirections

namespace SysProg.Dataflow

open Shell Foreground

/-! ## Processes and data -/

/-- What the shell runs in: the file a name stands for, which may have others,
the program an argument vector executes, if there is one, and how much a pipe
holds. -/
structure Machine (σ : Type) where
  shell : ShellFds
  file : Token → Nat
  image : List Token → Option σ
  next : σ → Stream.Next σ Byte
  cap : Nat
  capPos : 0 < cap

/-- A process of the command; `life` is that of its program, when it has come
to it. -/
structure Member (σ : Type) where
  place : Place
  life : Option (Stream.Life σ)

/-- The process has exited or been killed. -/
def Member.gone {σ : Type} (m : Member σ) : Bool := m.life.any (·.gone)

/-- The descriptors a process has. At its `exit` it uses none of them. -/
def fds (t : ShellFds) : Place → Fds Desc
  | .child _ => t.table
  | .pipes _ _ u => u
  | .has (.exec _ u _) => u
  | .has (.exit _) => []

/-- The files there are, by number. -/
abbrev Files := Nat → Option (List Byte)

/-- The bytes of files and pipes, and those to be read from and written to
what the shell had open. -/
structure World where
  files : Files
  /-- How far a file is read. -/
  offset : Nat → Nat
  input : Nat → List Byte
  output : Nat → List Byte
  pipes : Nat → List Byte

namespace World

/-- The world as a line finds it. -/
def start (files : Files) (input : Nat → List Byte) : World :=
  ⟨files, fun _ => 0, input, fun _ => [], fun _ => []⟩

/-- The bytes of a file. -/
def bytes (w : World) (i : Nat) : List Byte := (w.files i).getD []

section

variable (file : Token → Nat)

/-- What there is to be read. -/
def left (w : World) : Desc → List Byte
  | .inherited n => w.input n
  | .file p _ => (w.bytes (file p)).drop (w.offset (file p))
  | .pipeRead id | .pipeWrite id => w.pipes id

/-- What has been written. -/
def written (w : World) : Desc → List Byte
  | .inherited n => w.output n
  | .file p _ => w.bytes (file p)
  | .pipeRead id | .pipeWrite id => w.pipes id

/-- `m` bytes read. -/
def took (w : World) (m : Nat) : Desc → World
  | .inherited n => { w with input := Function.update w.input n ((w.input n).drop m) }
  | .file p _ => { w with offset := Function.update w.offset (file p) (w.offset (file p) + m) }
  | .pipeRead id | .pipeWrite id => { w with pipes := Function.update w.pipes id ((w.pipes id).drop m) }

/-- One byte written. -/
def wrote (w : World) (b : Byte) : Desc → World
  | .inherited n => { w with output := Function.update w.output n (w.output n ++ [b]) }
  | .file p _ => { w with files := Function.update w.files (file p) (some (w.bytes (file p) ++ [b])) }
  | .pipeRead id | .pipeWrite id => { w with pipes := Function.update w.pipes id (w.pipes id ++ [b]) }

/-- Files created or truncated. -/
def created (w : World) (ps : List Token) : World :=
  { w with files := fun i => if i ∈ ps.map file then some [] else w.files i }

end

end World

/-! ## What the system decides -/

/-- No such file or directory. -/
def ENOENT : Errno := ⟨2, by decide, by decide⟩

/-- `fork` succeeds, and `execvp` where there is a program. -/
def Machine.exec {σ : Type} (M : Machine σ) : Env :=
  .forking (fun _ _ => none) (fun argv => if (M.image argv).isSome then none else some ENOENT) id

/-- A file to be read opens if it is there. -/
def Machine.env {σ : Type} (M : Machine σ) (w : World) : Env :=
  { M.exec with
    openFails := fun mode f =>
      match mode with
      | .read => if (w.files (M.file f)).isSome then none else some ENOENT
      | .write => none }

/-- What a descriptor stands for is no pipe of the command. -/
def outer : Desc → Bool
  | .inherited _ | .file _ _ => true
  | .pipeRead _ | .pipeWrite _ => false

/-- The descriptor can be read from. -/
def readable : Desc → Bool
  | .inherited _ | .file _ .read | .pipeRead _ => true
  | _ => false

/-- The descriptor can be written to. -/
def writable : Desc → Bool
  | .inherited _ | .file _ .write | .pipeWrite _ => true
  | _ => false

/-- The processes of a line, and what is outside of them. -/
structure State (σ : Type) where
  procs : List (Member σ)
  world : World

section

variable {σ : Type}

/-- A living process has the descriptor. -/
def State.held (t : ShellFds) (s : State σ) (d : Desc) : Bool :=
  s.procs.any fun m => !m.gone && decide (some d ∈ fds t m.place)

/-- Nobody will write what could be read from it. -/
def State.noWriter (t : ShellFds) (s : State σ) : Desc → Bool
  | .pipeRead id => !s.held t (.pipeWrite id)
  | _ => true

/-- Nobody will read what is written to it. -/
def State.noReader (t : ShellFds) (s : State σ) : Desc → Bool
  | .pipeWrite id => !s.held t (.pipeRead id)
  | _ => false

/-- What is written to the descriptor has to wait. -/
def State.full (cap : Nat) (s : State σ) : Desc → Bool
  | .pipeWrite id => cap ≤ (s.world.pipes id).length
  | _ => false

/-- Process `k`, whose program is now at `l`. -/
def State.put (s : State σ) (k : Nat) (m : Member σ) (l : Stream.Life σ) : State σ :=
  { s with procs := s.procs.set k { m with life := some l } }

variable (M : Machine σ)

/-- Process `k` on the way to its program: the child's redirections, a call of
`pipe_and_exec`, `execvp` or `exit`. -/
def State.begin (s : State σ) (k : Nat) (m : Member σ) : Option (State σ) :=
  match m.place with
  | .has (.exec argv _ _) =>
    match M.image argv with
    | some p => some (s.put k m (.running p))
    | none => some (s.put k m .exited)
  | .has (.exit _) => some (s.put k m .exited)
  | place =>
    (place.next (M.env s.world) M.shell.table).map fun ps =>
      { procs := s.procs.take k ++ ps.map (fun place => ⟨place, none⟩) ++ s.procs.drop (k + 1)
        world := match place with
          | .child a => s.world.created M.file (runChild (M.env s.world) a M.shell.table).created
          | _ => s.world }

/-- Process `k` in its program, which is at `p`. -/
def State.go (s : State σ) (k size : Nat) (m : Member σ) (p : σ) : Option (State σ) :=
  match M.next p with
  | .exit => some (s.put k m .exited)
  | .write b q =>
    ((fds M.shell m.place).get 1).bind fun d =>
      if !writable d then none
      else if s.noReader M.shell d then some (s.put k m .killed)
      else if s.full M.cap d then none
      else some { s.put k m (.running q) with world := s.world.wrote M.file b d }
  | .read max f =>
    ((fds M.shell m.place).get 0).bind fun d =>
      if !readable d then none
      else if (s.world.left M.file d).isEmpty then
        if s.noWriter M.shell d then some (s.put k m (.running (f []))) else none
      else if 0 < size ∧ size ≤ max ∧ size ≤ (s.world.left M.file d).length then
        some { s.put k m (.running (f ((s.world.left M.file d).take size))) with
          world := s.world.took M.file size d }
      else none

/-- A step of a process of the command. -/
def step (s : State σ) (a : Stream.Action) : Option (State σ) :=
  s.procs[a.stage]?.bind fun m =>
    match m.life with
    | none => s.begin M a.stage m
    | some (.running p) => s.go M a.stage a.size m p
    | some _ => none

/-- `run_command` has forked. -/
def start (line : List Token) (w : World) : State σ :=
  ⟨[⟨.child (is_background (parsed line)).2, none⟩], w⟩

end

/-- The descriptor is one by which this file is written. -/
def Machine.Writes {σ : Type} (M : Machine σ) (d : Desc) (i : Nat) : Prop := ∃ f, d = .file f .write ∧ M.file f = i

/-! ## What a read and a write change -/

namespace World

variable (file : Token → Nat) (w : World) {d e : Desc}

theorem written_wrote (b : Byte) : (w.wrote file b d).written file d = w.written file d ++ [b] := by
  cases d with
  | file p mode => simp only [wrote, written, bytes, Function.update_self, Option.getD_some]
  | inherited _ | pipeRead _ | pipeWrite _ => exact Function.update_self ..

theorem left_wrote (b : Byte) (hd : readable d ∧ outer d) (he : writable e)
    (hne : ∀ f g, d = .file f .read → e = .file g .write → file f ≠ file g) :
    (w.wrote file b e).left file d = w.left file d := by
  match d, e with
  | .inherited _, .inherited _ | .inherited _, .file .. | .inherited _, .pipeWrite _ => rfl
  | .file _ .read, .inherited _ | .file _ .read, .pipeWrite _ => rfl
  | .file f .read, .file g .write =>
    simp only [wrote, left, bytes, Function.update_of_ne (hne f g rfl rfl)]

theorem pipes_wrote (b : Byte) (hd : outer d) : (w.wrote file b d).pipes = w.pipes := by
  cases d with
  | inherited _ | file _ _ => rfl
  | pipeRead _ | pipeWrite _ => cases hd

theorem left_took (m : Nat) : (w.took file m d).left file d = (w.left file d).drop m := by
  cases d with
  | file f mode => simp [took, left, bytes, List.drop_drop]
  | inherited _ | pipeRead _ | pipeWrite _ => exact Function.update_self ..

theorem written_took (m : Nat) (he : outer e) : (w.took file m d).written file e = w.written file e := by
  cases e with
  | inherited _ | file _ _ => cases d <;> rfl
  | pipeRead _ | pipeWrite _ => cases he

theorem pipes_took (m : Nat) (hd : outer d) : (w.took file m d).pipes = w.pipes := by
  cases d with
  | inherited _ | file _ _ => rfl
  | pipeRead _ | pipeWrite _ => cases hd

theorem left_took_pipe (m k : Nat) (hd : outer d) :
    (w.took file m (.pipeRead k)).left file d = w.left file d := by
  cases d with
  | inherited _ | file _ _ => rfl
  | pipeRead _ | pipeWrite _ => cases hd

theorem written_wrote_pipe (b : Byte) (k : Nat) (hd : outer d) :
    (w.wrote file b (.pipeWrite k)).written file d = w.written file d := by
  cases d with
  | inherited _ | file _ _ => rfl
  | pipeRead _ | pipeWrite _ => cases hd

end World

variable {σ : Type} {M : Machine σ}

/-! ## Where the processes are -/

/-- The line after its redirections: its stages' strings, where their programs
start, the processes they come to, and the descriptors `u` the redirections
leave. What is read first is not the file that is written last. -/
structure Wiring (M : Machine σ) where
  strings : List (List Token)
  starts : Nat → σ
  procs : List Proc
  u : Fds Desc
  source : Desc
  sink : Desc
  nonempty : 0 < strings.length
  length : procs.length = strings.length
  image : ∀ k (hk : k < strings.length), M.image strings[k] = some (starts k)
  stages : ∀ k (hk : k < strings.length),
    ∃ v, procs[k]? = some (.exec strings[k] v none) ∧ Wired u 0 strings.length k v
  stdin : u.get 0 = some source
  stdout : u.get 1 = some sink
  others : ∀ m, 2 ≤ m → u.get m = M.shell.table.get m
  readable : readable source ∧ outer source
  writable : writable sink ∧ outer sink
  apart : ∀ f g, source = .file f .read → sink = .file g .write → M.file f ≠ M.file g

/-- Process `k` has come to its program, or to `pipe_and_exec` for what is left
of the line. -/
def Placed (W : Wiring M) (k : Nat) : Place → Prop
  | .child _ => False
  | .pipes id a v =>
    id = k ∧ pipe_and_exec M.exec k a v = W.procs.drop k ∧
      (v.get 0 = if k = 0 then W.u.get 0 else some (.pipeRead (k - 1))) ∧ ∀ m, 1 ≤ m → v.get m = W.u.get m
  | .has p => W.procs[k]? = some p

/-- All but the last process have come to their programs; when it has too,
there is one for each stage. -/
structure Setup (W : Wiring M) (s : State σ) : Prop where
  placed : ∀ k m, s.procs[k]? = some m → Placed W k m.place
  last : ∀ k m, s.procs[k]? = some m → k + 1 < s.procs.length → ∃ p, m.place = .has p
  all : (∀ m ∈ s.procs, ∃ p, m.place = .has p) → s.procs.length = W.strings.length
  life : ∀ m ∈ s.procs, m.life.isSome → ∃ p, m.place = .has p

variable {W : Wiring M} {s s' : State σ} {k : Nat} {place : Place} {m : Member σ}

theorem Wiring.source_cases (W : Wiring M) : (∃ f, W.source = .file f .read) ∨ ∃ i, W.source = .inherited i := by
  have h := W.readable
  match hs : W.source with
  | .inherited i => exact .inr ⟨i, rfl⟩
  | .file f .read => exact .inl ⟨f, rfl⟩
  | .file _ .write =>
    rw [hs] at h
    cases h.1
  | .pipeRead _ | .pipeWrite _ =>
    rw [hs] at h
    cases h.2

theorem Wiring.sink_cases (W : Wiring M) : (∃ f, W.sink = .file f .write) ∨ ∃ i, W.sink = .inherited i := by
  have h := W.writable
  match hs : W.sink with
  | .inherited i => exact .inr ⟨i, rfl⟩
  | .file f .write => exact .inl ⟨f, rfl⟩
  | .file _ .read =>
    rw [hs] at h
    cases h.1
  | .pipeRead _ | .pipeWrite _ =>
    rw [hs] at h
    cases h.2

theorem Placed.lt (h : Placed W k place) : k < W.strings.length := by
  rw [← W.length]
  cases place with
  | child a => exact h.elim
  | pipes id a v =>
    by_contra hk
    have hnil := h.2.1
    rw [List.drop_eq_nil_of_le (by omega)] at hnil
    exact pipe_and_exec_ne_nil _ _ _ _ hnil
  | has p => exact (List.getElem?_eq_some_iff.1 h).1

theorem Placed.exec {p : Proc} (h : Placed W k (.has p)) :
    ∃ argv v, p = .exec argv v none ∧ M.image argv = some (W.starts k) ∧ Wired W.u 0 W.strings.length k v := by
  obtain ⟨v, hv, hw⟩ := W.stages k h.lt
  exact ⟨_, v, Option.some_inj.1 (h.symm.trans hv), W.image k h.lt, hw⟩

theorem Placed.stdin (h : Placed W k place) :
    (fds M.shell place).get 0 = if k = 0 then some W.source else some (.pipeRead (k - 1)) := by
  cases place with
  | child a => exact h.elim
  | pipes id a v =>
    rw [fds, h.2.2.1, W.stdin]
  | has p =>
    obtain ⟨-, v, rfl, -, hw⟩ := h.exec
    rw [fds, hw.stdin, W.stdin, Nat.zero_add]

theorem Placed.stdout (h : Placed W k place) : (fds M.shell place).get 1 = some W.sink ∨
    (∃ p, place = .has p) ∧ k + 1 < W.strings.length ∧ (fds M.shell place).get 1 = some (.pipeWrite k) := by
  cases place with
  | child a => exact h.elim
  | pipes id a v =>
    rw [fds, h.2.2.2 1 (by decide), W.stdout]
    exact .inl rfl
  | has p =>
    have hlt := h.lt
    obtain ⟨-, v, rfl, -, hw⟩ := h.exec
    rw [fds, hw.stdout, W.stdout, Nat.zero_add]
    split
    · exact .inl rfl
    · exact .inr ⟨⟨_, rfl⟩, by omega, rfl⟩

theorem Placed.others (h : Placed W k place) {j : Nat} (hj : 2 ≤ j) :
    (fds M.shell place).get j = M.shell.table.get j := by
  cases place with
  | child a => exact h.elim
  | pipes id a v => rw [fds, h.2.2.2 j (by omega), W.others j hj]
  | has p =>
    obtain ⟨-, v, rfl, -, hw⟩ := h.exec
    rw [fds, hw.others j hj, W.others j hj]

theorem outer_inherited {j : Nat} {d : Desc} (h : M.shell.table.get j = some d) : outer d := by
  obtain ⟨n, rfl⟩ := M.shell.inherited j d h
  rfl

/-- The ends of pipes a process has are its own. -/
theorem Placed.mem (h : Placed W k place) {d : Desc} (hd : outer d = false) : some d ∈ fds M.shell place ↔
    (k ≠ 0 ∧ d = .pipeRead (k - 1)) ∨ ((∃ p, place = .has p) ∧ k + 1 < W.strings.length ∧ d = .pipeWrite k) := by
  rw [Fds.mem_iff_get]
  constructor
  · rintro ⟨j, hj⟩
    match j with
    | 0 =>
      rw [h.stdin] at hj
      split at hj
      · cases hj
        exact absurd W.readable.2 (Bool.eq_false_iff.1 hd)
      · next hk =>
        cases hj
        exact .inl ⟨hk, rfl⟩
    | 1 =>
      rcases h.stdout with ho | ⟨hp, hk, ho⟩
      · rw [ho] at hj
        cases hj
        exact absurd W.writable.2 (Bool.eq_false_iff.1 hd)
      · rw [ho] at hj
        cases hj
        exact .inr ⟨hp, hk, rfl⟩
    | j + 2 =>
      rw [h.others (by omega)] at hj
      exact absurd (outer_inherited hj) (Bool.eq_false_iff.1 hd)
  · rintro (⟨hk, rfl⟩ | ⟨hp, hk, rfl⟩)
    · exact ⟨0, by rw [h.stdin, if_neg hk]⟩
    · rcases h.stdout with ho | ⟨-, -, ho⟩
      · obtain ⟨p, rfl⟩ := hp
        obtain ⟨-, v, rfl, -, hw⟩ := h.exec
        exact ⟨1, by rw [fds, hw.stdout, if_neg (by omega), Nat.zero_add]⟩
      · exact ⟨1, ho⟩

theorem Placed.mem_read (h : Placed W k place) {j : Nat} : some (.pipeRead j) ∈ fds M.shell place ↔ k = j + 1 := by
  rw [h.mem (d := .pipeRead j) rfl]
  constructor
  · rintro (⟨hk, hd⟩ | ⟨-, -, hd⟩)
    · cases hd
      omega
    · cases hd
  · rintro rfl
    exact .inl ⟨Nat.succ_ne_zero j, rfl⟩

theorem Placed.mem_write (h : Placed W k place) {j : Nat} : some (.pipeWrite j) ∈ fds M.shell place ↔
    k = j ∧ (∃ p, place = .has p) ∧ k + 1 < W.strings.length := by
  rw [h.mem (d := .pipeWrite j) rfl]
  constructor
  · rintro (⟨-, hd⟩ | ⟨hp, hk, hd⟩)
    · cases hd
    · cases hd
      exact ⟨rfl, hp, hk⟩
  · rintro ⟨rfl, hp, hk⟩
    exact .inr ⟨hp, hk, rfl⟩

/-! ## Who has the ends of a pipe -/

theorem held_iff {t : ShellFds} {d : Desc} :
    s.held t d ↔ ∃ (k : Nat) (m : Member σ), s.procs[k]? = some m ∧ m.gone = false ∧ some d ∈ fds t m.place := by
  unfold State.held
  rw [List.any_eq_true]
  constructor
  · rintro ⟨m, hm, h⟩
    obtain ⟨k, hk⟩ := List.mem_iff_getElem?.1 hm
    simp only [Bool.and_eq_true, Bool.not_eq_true', decide_eq_true_eq] at h
    exact ⟨k, m, hk, h⟩
  · rintro ⟨k, m, hk, h⟩
    refine ⟨m, List.mem_iff_getElem?.2 ⟨k, hk⟩, ?_⟩
    simpa using h

/-- A process that has come to its program and is not the last stage has
forked the next. -/
theorem Setup.forked (h : Setup W s) (hm : s.procs[k]? = some m) (hp : ∃ p, m.place = .has p)
    (hk : k + 1 < W.strings.length) : ∃ m', s.procs[k + 1]? = some m' := by
  have hlt := (List.getElem?_eq_some_iff.1 hm).1
  by_contra hno
  have hend : s.procs.length = k + 1 := by
    by_contra hne
    exact hno ⟨_, List.getElem?_eq_getElem (by omega)⟩
  have hall := h.all fun m' hm' => by
    obtain ⟨j, hj⟩ := List.mem_iff_getElem?.1 hm'
    by_cases hjk : j = k
    · subst hjk
      rw [hm] at hj
      cases hj
      exact hp
    · have := (List.getElem?_eq_some_iff.1 hj).1
      exact h.last j m' hj (by omega)
  omega

theorem Setup.held_read (h : Setup W s) (hm : s.procs[k + 1]? = some m) :
    s.held M.shell (.pipeRead k) = !m.gone := by
  rw [Bool.eq_iff_iff, held_iff]
  constructor
  · rintro ⟨j, m', hj, hgone, hmem⟩
    obtain rfl := (h.placed j m' hj).mem_read.1 hmem
    cases hj.symm.trans hm
    rw [hgone]
    rfl
  · intro hgone
    exact ⟨k + 1, m, hm, by simpa using hgone, (h.placed _ _ hm).mem_read.2 rfl⟩

theorem Setup.held_write (h : Setup W s) (hm : s.procs[k]? = some m) (hk : k + 1 < s.procs.length) :
    s.held M.shell (.pipeWrite k) = !m.gone := by
  rw [Bool.eq_iff_iff, held_iff]
  constructor
  · rintro ⟨j, m', hj, hgone, hmem⟩
    obtain ⟨rfl, -, -⟩ := (h.placed j m' hj).mem_write.1 hmem
    cases hj.symm.trans hm
    rw [hgone]
    rfl
  · intro hgone
    have hnext := (h.placed (k + 1) _ (List.getElem?_eq_getElem hk)).lt
    exact ⟨k, m, hm, by simpa using hgone, (h.placed _ _ hm).mem_write.2 ⟨rfl, h.last k m hm hk, hnext⟩⟩

/-! ## The programs in a row -/

/-- The stages, those yet to be forked or to execute their program included,
and what is between them. -/
def row (W : Wiring M) (s : State σ) : Stream.State σ Byte where
  stages k := (s.procs[k]?.bind (·.life)).getD (.running (W.starts k))
  bufs k :=
    if k = 0 then s.world.left M.file W.source
    else if k = W.strings.length then s.world.written M.file W.sink
    else s.world.pipes (k - 1)

theorem row_stage {l : Stream.Life σ} (hm : s.procs[k]? = some m) (hl : m.life = some l) : (row W s).stages k = l := by
  simp only [row, hm, Option.bind_some, hl, Option.getD_some]

theorem row_gone (hm : s.procs[k]? = some m) : ((row W s).stages k).gone = m.gone := by
  unfold Member.gone
  cases hl : m.life with
  | none =>
    simp only [row, hm, Option.bind_some, hl, Option.getD_none]
    rfl
  | some l =>
    rw [row_stage hm hl]
    rfl

theorem row_put {l : Stream.Life σ} (hm : s.procs[k]? = some m) :
    (row W (s.put k m l)).stages = Function.update (row W s).stages k l := by
  funext j
  have hk := (List.getElem?_eq_some_iff.1 hm).1
  by_cases hj : j = k
  · subst hj
    rw [Function.update_self]
    exact row_stage (List.getElem?_set_self hk) rfl
  · rw [Function.update_of_ne hj]
    simp only [row, State.put, List.getElem?_set_ne (Ne.symm hj)]

/-- A byte written by stage `k`. -/
theorem row_wrote {d : Desc} {b : Byte} (hd : d = if k + 1 = W.strings.length then W.sink else .pipeWrite k)
    (hk : k < W.strings.length) :
    (row W { s with world := s.world.wrote M.file b d }).bufs =
      Function.update (row W s).bufs (k + 1) ((row W s).bufs (k + 1) ++ [b]) := by
  funext j
  simp only [row, Function.update_apply, Nat.succ_ne_zero, if_false, Nat.add_sub_cancel]
  by_cases hlast : k + 1 = W.strings.length
  · rw [if_pos hlast] at hd
    subst hd
    rw [World.pipes_wrote _ _ b W.writable.2, World.left_wrote _ _ b W.readable W.writable.1 W.apart,
      World.written_wrote, hlast, if_pos rfl]
    have := W.nonempty
    split_ifs <;> first | rfl | omega
  · rw [if_neg hlast] at hd
    subst hd
    rw [World.left_wrote _ _ b W.readable rfl (fun _ _ _ he => by cases he),
      World.written_wrote_pipe _ _ b k W.writable.2, if_neg hlast]
    simp only [World.wrote, Function.update_apply]
    split_ifs <;> first | rfl | omega

/-- Bytes read by stage `k`. -/
theorem row_took {d : Desc} {size : Nat} (hd : d = if k = 0 then W.source else .pipeRead (k - 1))
    (hk : k < W.strings.length) :
    (row W { s with world := s.world.took M.file size d }).bufs =
      Function.update (row W s).bufs k (((row W s).bufs k).drop size) := by
  funext j
  simp only [row, Function.update_apply]
  by_cases hk0 : k = 0
  · rw [if_pos hk0] at hd
    subst hd
    rw [World.pipes_took _ _ size W.readable.2, World.left_took, World.written_took _ _ size W.writable.2, hk0,
      if_pos rfl]
    split_ifs <;> rfl
  · rw [if_neg hk0] at hd
    subst hd
    rw [World.left_took_pipe _ _ size _ W.readable.2, World.written_took _ _ size W.writable.2, if_neg hk0,
      if_neg (Nat.ne_of_lt hk)]
    simp only [World.took, Function.update_apply]
    split_ifs <;> first | rfl | omega

/-! ## A program's step is the row's -/

theorem noReader_outer {t : ShellFds} {d : Desc} (hd : outer d) : s.noReader t d = false := by
  cases d with
  | inherited _ | file _ _ => rfl
  | pipeRead _ | pipeWrite _ => cases hd

theorem full_outer {cap : Nat} {d : Desc} (hd : outer d) : s.full cap d = false := by
  cases d with
  | inherited _ | file _ _ => rfl
  | pipeRead _ | pipeWrite _ => cases hd

theorem noWriter_outer {t : ShellFds} {d : Desc} (hd : outer d) : s.noWriter t d = true := by
  cases d with
  | inherited _ | file _ _ => rfl
  | pipeRead _ | pipeWrite _ => cases hd

/-- Where stage `k` writes. -/
def outOf (W : Wiring M) (k : Nat) : Desc := if k + 1 = W.strings.length then W.sink else .pipeWrite k

/-- Where stage `k` reads. -/
def inOf (W : Wiring M) (k : Nat) : Desc := if k = 0 then W.source else .pipeRead (k - 1)

theorem writable_out : writable (outOf W k) := by
  unfold outOf
  split
  · exact W.writable.1
  · rfl

theorem readable_in : readable (inOf W k) := by
  unfold inOf
  split
  · exact W.readable.1
  · rfl

section

variable (h : Setup W s) (hm : s.procs[k]? = some m)

include h hm

theorem Setup.get_out (hp : ∃ p, m.place = .has p) : (fds M.shell m.place).get 1 = some (outOf W k) := by
  have hpl := h.placed k m hm
  obtain ⟨p, hp⟩ := hp
  rw [hp] at hpl ⊢
  obtain ⟨argv, v, rfl, himage, hw⟩ := hpl.exec
  rw [fds, hw.stdout, W.stdout, Nat.zero_add, outOf]
  split <;> rfl

theorem Setup.get_in : (fds M.shell m.place).get 0 = some (inOf W k) := by
  rw [(h.placed k m hm).stdin, inOf]
  split <;> rfl

theorem Setup.noReader (hp : ∃ p, m.place = .has p) : s.noReader M.shell (outOf W k) = true ↔
    k + 1 < W.strings.length ∧ ((row W s).stages (k + 1)).gone = true := by
  have hlt := (h.placed k m hm).lt
  unfold outOf
  split
  · next hlast => simp [noReader_outer W.writable.2, hlast]
  · next hlast =>
    have hk : k + 1 < W.strings.length := by omega
    obtain ⟨m', hm'⟩ := h.forked hm hp hk
    simp only [State.noReader, h.held_read hm', Bool.not_not, row_gone hm', hk, true_and]

theorem Setup.full : s.full M.cap (outOf W k) = true ↔
    k + 1 < W.strings.length ∧ M.cap ≤ ((row W s).bufs (k + 1)).length := by
  have hlt := (h.placed k m hm).lt
  unfold outOf
  split
  · next hlast => simp [full_outer W.writable.2, hlast]
  · next hlast =>
    have hk : k + 1 < W.strings.length := by omega
    simp only [State.full, row, Nat.succ_ne_zero, if_false, if_neg hlast, Nat.add_sub_cancel, decide_eq_true_eq, hk,
      true_and]

theorem Setup.noWriter : s.noWriter M.shell (inOf W k) = true ↔
    k = 0 ∨ ((row W s).stages (k - 1)).gone = true := by
  have hlt := (List.getElem?_eq_some_iff.1 hm).1
  unfold inOf
  split
  · next hk => simp [noWriter_outer W.readable.2, hk]
  · next hk =>
    have hprev : s.procs[k - 1]? = some s.procs[k - 1] := List.getElem?_eq_getElem (by omega)
    simp only [State.noWriter, h.held_write hprev (by omega), Bool.not_not, row_gone hprev, hk, false_or]

theorem Setup.left : s.world.left M.file (inOf W k) = (row W s).bufs k := by
  have hlt := (h.placed k m hm).lt
  unfold inOf row
  by_cases hk : k = 0
  · simp only [if_pos hk]
  · simp only [if_neg hk, if_neg (Nat.ne_of_lt hlt)]
    rfl

/-- A step of a program is its stage's step in the row. -/
theorem Setup.go_row {p : σ} (hl : m.life = some (.running p)) (size : Nat) :
    (s.go M k size m p).map (row W) = Stream.step M.next W.strings.length M.cap (row W s) ⟨k, size⟩ := by
  have hp := h.life m (List.mem_of_getElem? hm) (by rw [hl]; rfl)
  have hlt := (h.placed k m hm).lt
  have hput (l : Stream.Life σ) : row W (s.put k m l) = (row W s).put k l := Stream.State.ext (row_put hm) rfl
  unfold State.go Stream.step
  simp only [if_pos hlt, row_stage hm hl]
  cases M.next p with
  | exit => simp only [Option.map_some, hput]
  | write b q =>
    simp only [h.get_out hm hp, Option.bind_some, writable_out, Bool.not_true, Bool.false_eq_true, if_false,
      h.noReader hm hp, h.full hm]
    split
    · rw [Option.map_some, hput]
    · split
      · rfl
      · rw [Option.map_some, Stream.State.wrote]
        exact congrArg some (Stream.State.ext (row_put hm) (row_wrote rfl hlt))
  | read max f =>
    simp only [h.get_in hm, Option.bind_some, readable_in, Bool.not_true, Bool.false_eq_true, if_false,
      h.noWriter hm, h.left hm]
    split
    · split
      · rw [Option.map_some, hput]
      · rfl
    · split
      · rw [Option.map_some, Stream.State.took]
        exact congrArg some (Stream.State.ext (row_put hm) (row_took rfl hlt))
      · rfl

end

/-! ## The steps on the way -/

/-- How many steps a process and those it is yet to fork have to go to their
programs, at most. -/
def rank (M : Machine σ) : Place → Nat
  | .child _ => 0
  | .pipes id a v => 2 * (pipe_and_exec M.exec id a v).length
  | .has _ => 1

/-- A process in its program has come to it. -/
def Member.toGo (M : Machine σ) (m : Member σ) : Nat := if m.life.isSome then 0 else rank M m.place

/-- The steps that are left to all processes. -/
def State.toGo (M : Machine σ) (s : State σ) : Nat := (s.procs.map (Member.toGo M)).sum

/-- A call of `pipe_and_exec` comes to the program, or forks. -/
theorem next_pipes {t : Fds Desc} {id : Nat} {a : Argv} {v : Fds Desc} {w : World} {ps : List Place}
    (h : (Place.pipes id a v).next (M.env w) t = some ps) :
    (∃ p, ps = [.has p] ∧ pipe_and_exec M.exec id a v = [p]) ∨
    ∃ p a', ps = [.has p, .pipes (id + 1) a' (listening v id)] ∧
      pipe_and_exec M.exec id a v = p :: pipe_and_exec M.exec (id + 1) a' (listening v id) := by
  -- which files there are plays no part in it
  change (Place.pipes id a v).next M.exec t = some ps at h
  rw [pipe_and_exec]
  simp only [Place.next] at h
  split at h
  · next hbad =>
    cases h
    exact .inl ⟨_, rfl, by rw [dif_pos hbad]⟩
  · next hbad =>
    rw [dif_neg hbad]
    split at h
    · next hlast =>
      cases h
      exact .inl ⟨_, rfl, by rw [if_pos hlast]⟩
    · next hlast =>
      cases h
      exact .inr ⟨_, _, rfl, by rw [if_neg hlast]; rfl⟩

theorem Setup.of_procs (h : Setup W s) (he : s'.procs = s.procs) : Setup W s' where
  placed := by rw [he]; exact h.placed
  last := by rw [he]; exact h.last
  all := by rw [he]; exact h.all
  life := by rw [he]; exact h.life

/-- A process at its program stays in its place. -/
theorem Setup.put (h : Setup W s) (hm : s.procs[k]? = some m) (hp : ∃ p, m.place = .has p) (l : Stream.Life σ) :
    Setup W (s.put k m l) := by
  have hplace : ∀ (j : Nat) (m' : Member σ), (s.put k m l).procs[j]? = some m' →
      ∃ m₀ : Member σ, s.procs[j]? = some m₀ ∧ m'.place = m₀.place := by
    intro j m' hj
    rw [State.put, List.getElem?_set] at hj
    split at hj
    · next hjk =>
      subst hjk
      split at hj
      · cases hj
        exact ⟨m, hm, rfl⟩
      · cases hj
    · exact ⟨m', hj, rfl⟩
  have hlen : (s.put k m l).procs.length = s.procs.length := List.length_set
  refine ⟨?_, ?_, ?_, ?_⟩
  · intro j m' hj
    obtain ⟨m₀, hm₀, he⟩ := hplace j m' hj
    rw [he]
    exact h.placed j m₀ hm₀
  · intro j m' hj hlt
    obtain ⟨m₀, hm₀, he⟩ := hplace j m' hj
    rw [he]
    exact h.last j m₀ hm₀ (by omega)
  · intro hall
    rw [hlen]
    refine h.all fun m₀ hm₀ => ?_
    obtain ⟨j, hj⟩ := List.mem_iff_getElem?.1 hm₀
    by_cases hjk : j = k
    · subst hjk
      cases hm.symm.trans hj
      exact hp
    · exact hall m₀ (List.mem_of_getElem? (i := j) (by rw [State.put, List.getElem?_set_ne (Ne.symm hjk)]; exact hj))
  · intro m' hm' hlife
    obtain ⟨j, hj⟩ := List.mem_iff_getElem?.1 hm'
    rw [State.put, List.getElem?_set] at hj
    split at hj
    · split at hj
      · cases hj
        exact hp
      · cases hj
    · exact h.life m' (List.mem_of_getElem? hj) hlife

theorem toGo_put (hm : s.procs[k]? = some m) (l : Stream.Life σ) :
    (s.put k m l).toGo M + m.toGo M = s.toGo M :=
  sum_set_add hm _

/-- The last process, `k`, goes on to the places `ps`, the second of which is
that of a process it forks. -/
structure Grows (W : Wiring M) (s s' : State σ) (k : Nat) (ps : List Place) : Prop where
  length : s.procs.length = k + 1
  unborn : ∀ m, s.procs[k]? = some m → m.life = none
  procs : s'.procs = s.procs.take k ++ ps.map (⟨·, none⟩)
  world : s'.world = s.world
  placed : ∀ i place, ps[i]? = some place → Placed W (k + i) place
  has : ∀ i place, ps[i]? = some place → i + 1 < ps.length → ∃ p, place = .has p
  all : (∀ place ∈ ps, ∃ p, place = .has p) → k + ps.length = W.strings.length

namespace Grows

variable {ps : List Place} (hg : Grows W s s' k ps)

include hg

theorem get (j : Nat) :
    s'.procs[j]? = if j < k then s.procs[j]? else ps[j - k]?.map (⟨·, none⟩) := by
  have hlen : (s.procs.take k).length = k := List.length_take_of_le (by have := hg.length; omega)
  rw [hg.procs, List.getElem?_append, hlen]
  split
  · next hj => exact List.getElem?_take_of_lt hj
  · rw [List.getElem?_map]

theorem length' : s'.procs.length = k + ps.length := by
  have := hg.length
  rw [hg.procs, List.length_append, List.length_take, List.length_map]
  omega

theorem setup (h : Setup W s) : Setup W s' := by
  have hlen := hg.length
  refine ⟨?_, ?_, ?_, ?_⟩
  · intro j m hj
    rw [hg.get] at hj
    split at hj
    · exact h.placed j m hj
    · next hge =>
      obtain ⟨place, hplace, rfl⟩ := Option.map_eq_some_iff.1 hj
      have := hg.placed _ place hplace
      rwa [show k + (j - k) = j by omega] at this
  · intro j m hj hlt
    rw [hg.length'] at hlt
    rw [hg.get] at hj
    split at hj
    · exact h.last j m hj (by omega)
    · obtain ⟨place, hplace, rfl⟩ := Option.map_eq_some_iff.1 hj
      exact hg.has _ place hplace (by omega)
  · intro hall
    rw [hg.length']
    refine hg.all fun place hplace => hall ⟨place, none⟩ ?_
    rw [hg.procs]
    exact List.mem_append_right _ (List.mem_map_of_mem hplace)
  · intro m hm hlife
    rw [hg.procs] at hm
    rcases List.mem_append.1 hm with hm | hm
    · exact h.life m (List.mem_of_mem_take hm) hlife
    · obtain ⟨place, -, rfl⟩ := List.mem_map.1 hm
      cases hlife

/-- A process yet to come to its program is like one yet to be forked. -/
theorem row_eq : row W s' = row W s := by
  have hlife : ∀ j : Nat, (s'.procs[j]?.bind (·.life)) = s.procs[j]?.bind (·.life) := by
    intro j
    rw [hg.get]
    split
    · rfl
    · have hnew : (ps[j - k]?.map fun place => (⟨place, none⟩ : Member σ)).bind (·.life) = none := by
        cases ps[j - k]? <;> rfl
      rw [hnew]
      cases hj : s.procs[j]? with
      | none => rfl
      | some m =>
        have hlt := (List.getElem?_eq_some_iff.1 hj).1
        have hlen := hg.length
        exact (hg.unborn m (by rw [← hj]; congr 1; omega)).symm
  refine Stream.State.ext ?_ ?_
  · funext j
    simp only [row, hlife]
  · simp only [row, hg.world]

theorem toGo (hm : s.procs[k]? = some m) : s'.toGo M + rank M m.place = s.toGo M + (ps.map (rank M)).sum := by
  have hsplit : s.procs = s.procs.take k ++ [m] := by
    obtain ⟨hlt, rfl⟩ := List.getElem?_eq_some_iff.1 hm
    rw [List.take_append_getElem hlt, List.take_of_length_le (by rw [hg.length])]
  have hrank : m.toGo M = rank M m.place := by
    rw [Member.toGo, hg.unborn m hm]
    rfl
  have hnew : (ps.map fun place => (⟨place, none⟩ : Member σ)).map (Member.toGo M) = ps.map (rank M) := by
    rw [List.map_map]
    rfl
  have hold : s.toGo M = ((s.procs.take k).map (Member.toGo M)).sum + rank M m.place := by
    unfold State.toGo
    conv_lhs => rw [hsplit]
    rw [List.map_append, List.sum_append, List.map_singleton, List.sum_singleton, hrank]
  rw [hold, State.toGo, hg.procs, List.map_append, List.sum_append, hnew]
  omega

end Grows

/-- A call of `pipe_and_exec` makes the processes more, or the last one ready. -/
theorem Setup.grows {a : Argv} {v : Fds Desc} (h : Setup W s) (hm : s.procs[k]? = some ⟨.pipes k a v, none⟩)
    {ps : List Place} (hps : (Place.pipes k a v).next (M.env s.world) M.shell.table = some ps) :
    Grows W s ⟨s.procs.take k ++ ps.map (⟨·, none⟩) ++ s.procs.drop (k + 1), s.world⟩ k ps ∧
      (ps.map (rank M)).sum < rank M (.pipes k a v) := by
  have hpl := h.placed k _ hm
  have hlt := hpl.lt
  obtain ⟨-, hprocs, hstdin, hothers⟩ := hpl
  -- it is the last process there is
  have hend : s.procs.length = k + 1 := by
    have := (List.getElem?_eq_some_iff.1 hm).1
    by_contra hne
    obtain ⟨p, hp⟩ := h.last k _ hm (by omega)
    cases hp
  have hunborn : ∀ m, s.procs[k]? = some m → m.life = none := by
    intro m hm'
    cases hm.symm.trans hm'
    rfl
  have hnil : s.procs.drop (k + 1) = [] := List.drop_eq_nil_of_le (by omega)
  have hhead : W.procs[k]? = (pipe_and_exec M.exec k a v).head? := by rw [hprocs, List.head?_drop]
  have hlength : (pipe_and_exec M.exec k a v).length = W.strings.length - k := by
    rw [hprocs, List.length_drop, W.length]
  rw [hnil, List.append_nil]
  rcases next_pipes hps with ⟨p, rfl, hone⟩ | ⟨p, a', rfl, hmore⟩
  · rw [hone] at hhead hlength
    refine ⟨⟨hend, hunborn, rfl, rfl, ?_, ?_, ?_⟩, ?_⟩
    · intro i place hi
      obtain ⟨rfl, rfl⟩ : i = 0 ∧ place = .has p := by
        cases i with
        | zero => exact ⟨rfl, (Option.some_inj.1 hi).symm⟩
        | succ i => cases hi
      exact hhead
    · intro i place _ hlt
      rw [List.length_singleton] at hlt
      omega
    · intro _
      simp only [List.length_singleton] at hlength ⊢
      omega
    · simp [rank, hone]
  · have hl0 : (v.get 0).isSome := by
      rw [hstdin, W.stdin]
      split <;> rfl
    have hrest : pipe_and_exec M.exec (k + 1) a' (listening v k) = W.procs.drop (k + 1) := by
      rw [← List.tail_drop, ← hprocs, hmore]
      rfl
    rw [hmore] at hhead
    refine ⟨⟨hend, hunborn, rfl, rfl, ?_, ?_, ?_⟩, ?_⟩
    · intro i place hi
      match i with
      | 0 =>
        cases hi
        exact hhead
      | 1 =>
        cases hi
        refine ⟨rfl, hrest, ?_, fun m hm => ?_⟩
        · rw [get_listening v hl0, if_pos rfl, if_neg (Nat.succ_ne_zero k), Nat.add_sub_cancel]
        · rw [get_listening v hl0, if_neg (by omega), hothers m hm]
      | i + 2 => cases hi
    · intro i place hi hlt
      match i with
      | 0 =>
        cases hi
        exact ⟨p, rfl⟩
      | i + 1 =>
        simp only [List.length_cons, List.length_nil] at hlt
        omega
    · intro hall
      obtain ⟨p, hp⟩ := hall (.pipes (k + 1) a' (listening v k)) (by simp)
      cases hp
    · simp only [rank, hmore, List.map_cons, List.map_nil, List.sum_cons, List.sum_nil, List.length_cons]
      omega

/-- On the way to the programs the row stands as it is. -/
theorem Setup.begin (h : Setup W s) (hm : s.procs[k]? = some m) (hl : m.life = none)
    (hs : s.begin M k m = some s') :
    Setup W s' ∧ row W s' = row W s ∧ s'.world = s.world ∧ s'.toGo M < s.toGo M := by
  obtain ⟨place, life⟩ := m
  subst hl
  have hpl := h.placed k _ hm
  cases place with
  | child a => exact hpl.elim
  | has p =>
    obtain ⟨argv, v, rfl, himage, hw⟩ := hpl.exec
    simp only [State.begin, himage] at hs
    cases hs
    refine ⟨h.put hm ⟨_, rfl⟩ _, Stream.State.ext ?_ rfl, rfl, ?_⟩
    · rw [row_put hm]
      refine Function.update_eq_self_iff.2 ?_
      simp only [row, hm, Option.bind_some, Option.getD_none]
    · have := toGo_put (M := M) hm (.running (W.starts k))
      have hrank : Member.toGo M (⟨.has (.exec argv v none), none⟩ : Member σ) = 1 := rfl
      omega
  | pipes id a v =>
    obtain rfl := hpl.1
    obtain ⟨ps, hps, rfl⟩ := Option.map_eq_some_iff.1 hs
    obtain ⟨hg, hrank⟩ := h.grows hm hps
    have := hg.toGo hm
    exact ⟨hg.setup h, hg.row_eq, rfl, by dsimp only at this ⊢; omega⟩

/-! ## Whole runs -/

/-- What the processes have left of the files: the one the last stage writes
is there, the others are as they were. -/
structure Leaves (W : Wiring M) (files : Files) (w : World) : Prop where
  there : ∀ i, M.Writes W.sink i → (w.files i).isSome
  others : ∀ i, ¬ M.Writes W.sink i → w.files i = files i

theorem Leaves.wrote {files : Files} {w : World} (h : Leaves W files w) (b : Byte) :
    Leaves W files (w.wrote M.file b (outOf W k)) := by
  unfold outOf
  split
  · rcases W.sink_cases with ⟨g, hd⟩ | ⟨n, hd⟩
    · have hw (i : Nat) : M.Writes W.sink i ↔ M.file g = i := by simp [Machine.Writes, hd]
      rw [hd]
      refine ⟨fun i hi => ?_, fun i hi => ?_⟩
      · show (Function.update w.files (M.file g) _ i).isSome = true
        rw [← (hw i).1 hi, Function.update_self]
        rfl
      · show Function.update w.files (M.file g) _ i = _
        rw [Function.update_of_ne fun he => hi ((hw i).2 he.symm)]
        exact h.others i hi
    · rw [hd]
      exact ⟨h.there, h.others⟩
  · exact ⟨h.there, h.others⟩

theorem Leaves.took {files : Files} {w : World} (h : Leaves W files w) (size : Nat) (d : Desc) :
    Leaves W files (w.took M.file size d) := by
  cases d <;> exact ⟨h.there, h.others⟩

/-- A program's step changes its own process, and of the files only the one
the last stage writes. -/
theorem Setup.go_frame (h : Setup W s) (hm : s.procs[k]? = some m) (hp : ∃ p, m.place = .has p) {p : σ} {size : Nat}
    {files : Files} (hleaves : Leaves W files s.world) (hs : s.go M k size m p = some s') :
    (∃ l, s'.procs = (s.put k m l).procs) ∧ Leaves W files s'.world := by
  unfold State.go at hs
  split at hs
  · cases hs
    exact ⟨⟨_, rfl⟩, hleaves⟩
  · rw [h.get_out hm hp, Option.bind_some] at hs
    split at hs
    · cases hs
    · split at hs
      · cases hs
        exact ⟨⟨_, rfl⟩, hleaves⟩
      · split at hs
        · cases hs
        · cases hs
          exact ⟨⟨_, rfl⟩, hleaves.wrote _⟩
  · rw [h.get_in hm, Option.bind_some] at hs
    split at hs
    · cases hs
    · split at hs
      · split at hs
        · cases hs
          exact ⟨⟨_, rfl⟩, hleaves⟩
        · cases hs
      · split at hs
        · cases hs
          exact ⟨⟨_, rfl⟩, hleaves.took _ _⟩
        · cases hs

/-- The line is on the way to `out`, with `left` steps to go at most; of the
files only the one written to is not as it was. -/
structure OnWay (W : Wiring M) (files : Files) (out : List Byte) (left : Nat) (s : State σ) : Prop where
  setup : Setup W s
  coming : ∃ rest fuel, Stream.Coming M.next W.strings.length out rest fuel (row W s) ∧
    s.toGo M + Stream.weight W.strings.length fuel (row W s) ≤ left
  files : Leaves W files s.world

theorem OnWay.step {files : Files} {out : List Byte} {left : Nat} {a : Stream.Action}
    (h : OnWay W files out left s) (hs : step M s a = some s') : ∃ left' < left, OnWay W files out left' s' := by
  obtain ⟨hsetup, ⟨rest, fuel, hcoming, hle⟩, hfiles⟩ := h
  obtain ⟨m, hm, hs⟩ := Option.bind_eq_some_iff.1 hs
  split at hs
  · next hl =>
    obtain ⟨hsetup', hrow, hworld, hlt⟩ := hsetup.begin hm hl hs
    exact ⟨s'.toGo M + Stream.weight W.strings.length fuel (row W s'), by rw [hrow]; omega,
      hsetup', ⟨rest, fuel, by rw [hrow]; exact hcoming, Nat.le_refl _⟩, by rw [hworld]; exact hfiles⟩
  · next p hl =>
    have hp := hsetup.life m (List.mem_of_getElem? hm) (by rw [hl]; rfl)
    obtain ⟨⟨l, hprocs⟩, hfiles'⟩ := hsetup.go_frame hm hp hfiles hs
    have hrow := hsetup.go_row hm hl a.size
    rw [hs, Option.map_some] at hrow
    obtain ⟨rest', fuel', hcoming', hlt⟩ := hcoming.move (Stream.move_of_step hrow.symm)
    have hgo : s'.toGo M = s.toGo M := by
      have := toGo_put (M := M) hm l
      have hzero : m.toGo M = 0 := by
        rw [Member.toGo, hl]
        rfl
      rw [State.toGo, hprocs]
      change (s.put a.stage m l).toGo M = _
      omega
    exact ⟨s'.toGo M + Stream.weight W.strings.length fuel' (row W s'), by omega,
      (hsetup.put hm hp l).of_procs hprocs, ⟨rest', fuel', hcoming', Nat.le_refl _⟩, hfiles'⟩
  · cases hs

/-- A process yet to come to its program can. -/
theorem begin_some (hm : Placed W k m.place) : ∃ s', s.begin M k m = some s' := by
  obtain ⟨place, life⟩ := m
  cases place with
  | child a => exact hm.elim
  | has p =>
    obtain ⟨argv, v, rfl, himage, -⟩ := hm.exec
    simp only [State.begin, himage]
    exact ⟨_, rfl⟩
  | pipes id a v =>
    have hnext : ∃ ps, (Place.pipes id a v).next (M.env s.world) M.shell.table = some ps := by
      change ∃ ps, (Place.pipes id a v).next M.exec M.shell.table = some ps
      simp only [Place.next]
      split_ifs <;> exact ⟨_, rfl⟩
    obtain ⟨ps, hps⟩ := hnext
    exact ⟨_, Option.map_eq_some_iff.2 ⟨ps, hps, rfl⟩⟩

/-- All processes are there, and gone. -/
def Finished (W : Wiring M) (s : State σ) : Prop :=
  s.procs.length = W.strings.length ∧ ∀ m ∈ s.procs, m.gone

theorem OnWay.goes_on {files : Files} {out : List Byte} {left : Nat} (h : OnWay W files out left s) :
    Finished W s ∨ ∃ a s', Dataflow.step M s a = some s' := by
  obtain ⟨hsetup, ⟨rest, fuel, hcoming, -⟩, -⟩ := h
  by_cases hall : ∀ m ∈ s.procs, m.life.isSome
  · have hlen := hsetup.all fun m hm => hsetup.life m hm (hall m hm)
    by_cases hgone : ∀ m ∈ s.procs, m.gone
    · exact .inl ⟨hlen, hgone⟩
    · simp only [not_forall] at hgone
      obtain ⟨m, hm, hgone⟩ := hgone
      obtain ⟨k, hk⟩ := List.mem_iff_getElem?.1 hm
      obtain ⟨a, r, hr⟩ := hcoming.goes_on M.capPos (hsetup.placed k m hk).lt (by rwa [row_gone hk])
      -- the stage that can go on is there, and runs
      have hlt : a.stage < s.procs.length := by
        rw [hlen]
        by_contra hge
        rw [Stream.step, if_neg hge] at hr
        cases hr
      have hget : s.procs[a.stage]? = some s.procs[a.stage] := List.getElem?_eq_getElem hlt
      obtain ⟨l, hl⟩ := Option.isSome_iff_exists.1 (hall _ (List.getElem_mem hlt))
      have hstage := row_stage (W := W) hget hl
      cases l with
      | running p =>
        have hgo := hsetup.go_row hget hl a.size
        rw [hr] at hgo
        obtain ⟨s', hs', -⟩ := Option.map_eq_some_iff.1 hgo
        exact .inr ⟨a, s', by rw [Dataflow.step, hget, Option.bind_some, hl]; exact hs'⟩
      | exited | killed =>
        simp only [Stream.step, hstage, ite_self] at hr
        cases hr
  · simp only [not_forall] at hall
    obtain ⟨m, hm, hlife⟩ := hall
    obtain ⟨k, hk⟩ := List.mem_iff_getElem?.1 hm
    obtain ⟨s', hs'⟩ := begin_some (s := s) (hsetup.placed k m hk)
    have hnone : m.life = none := by simpa using hlife
    exact .inr ⟨⟨k, 0⟩, s', by rw [Dataflow.step, hk, Option.bind_some, hnone]; exact hs'⟩

theorem OnWay.written {files : Files} {out : List Byte} {left : Nat} (h : OnWay W files out left s) :
    s.world.written M.file W.sink <+: out ∧
      (∀ m, s.procs[W.strings.length - 1]? = some m → m.gone → s.world.written M.file W.sink = out) := by
  obtain ⟨hsetup, ⟨rest, fuel, hcoming, -⟩, -⟩ := h
  have hpos := W.nonempty
  have hbuf : (row W s).bufs W.strings.length = s.world.written M.file W.sink := by
    simp only [row, if_neg (Nat.ne_of_gt hpos), if_true]
  obtain ⟨hpre, hlast⟩ := hcoming.written hpos
  rw [hbuf] at hpre hlast
  exact ⟨hpre, fun m hm hgone => hlast (by rwa [row_gone hm])⟩

/-! ## Lines -/

/-- The strings of the stages of a line. -/
def stageWords (c : Segment) (cs : List Segment) : List (List Token) := (c :: cs).map fun c => words c.items

/-- A line with one redirection of a kind at most, to different files, and no
`&` at its end, of programs there are. -/
structure Runs (M : Machine σ) (c : Segment) (cs : List Segment) (starts : Nat → σ) : Prop where
  reads : (filesIn .read (elems c cs)).length ≤ 1
  writes : (filesIn .write (elems c cs)).length ≤ 1
  apart : ∀ f ∈ filesIn .read (elems c cs), ∀ g ∈ filesIn .write (elems c cs), M.file f ≠ M.file g
  waits : foreground (lineOf c cs) = lineOf c cs
  image : ∀ k (hk : k < (c :: cs).length), M.image (words (c :: cs)[k].items) = some (starts k)

/-- The file it reads is there. -/
def There (M : Machine σ) (c : Segment) (cs : List Segment) (files : Files) : Prop :=
  ∀ f ∈ filesIn .read (elems c cs), (files (M.file f)).isSome

theorem lineEnd_cases {t : ShellFds} {e : List (Option Item)} {mode : Shell.Mode} {n : Nat} {d : Desc}
    (h : lineEnd t e mode n = some d) :
    (∃ f ∈ filesIn mode e, d = .file f mode) ∨ ∃ i, d = .inherited i := by
  unfold lineEnd at h
  split at h
  · next f hf =>
    cases h
    exact .inl ⟨f, List.mem_of_mem_head? (by rw [hf]; rfl), rfl⟩
  · exact .inr (t.inherited n d h)

/-- The shell's child goes on to the wiring of the line. -/
theorem wiring {c : Segment} {cs : List Segment} {starts : Nat → σ} (h : Runs M c cs starts) {w : World}
    (hthere : There M c cs w.files) {d d' : Desc} (hin : lineEnd M.shell (elems c cs) .read 0 = some d)
    (hout : lineEnd M.shell (elems c cs) .write 1 = some d') :
    ∃ (W : Wiring M) (a : Argv), W.strings = stageWords c cs ∧ W.starts = starts ∧ W.source = d ∧ W.sink = d' ∧
      pipe_and_exec M.exec 0 a W.u = W.procs ∧
      (Place.child (is_background (parsed (lineOf c cs))).2).next (M.env w) M.shell.table = some [.pipes 0 a W.u] ∧
      (runChild (M.env w) (is_background (parsed (lineOf c cs))).2 M.shell.table).created =
        (filesIn .write (elems c cs)).head?.toList := by
  have hopen : ∀ mode, ∀ f ∈ filesIn mode (elems c cs), (M.env w).openFails mode f = none := by
    intro mode f hf
    cases mode with
    | read => exact if_pos (hthere f hf)
    | write => rfl
  obtain ⟨a₁, u₁, o₁, a, u, hrin, hrout, ha, h0, h1, hu⟩ :=
    line_redirected M.shell c cs hopen h.reads h.writes h.waits
  rw [hin] at h0
  rw [hout] at h1
  have hfork : ∀ id, M.exec.forkFails id = none := fun _ => rfl
  obtain ⟨hlen, hstages⟩ := stages_wired hfork ha (by rw [h0]; rfl) (by rw [h1]; rfl)
  have hread : readable d ∧ outer d := by
    rcases lineEnd_cases hin with ⟨f, -, rfl⟩ | ⟨i, rfl⟩ <;> exact ⟨rfl, rfl⟩
  have hwrite : writable d' ∧ outer d' := by
    rcases lineEnd_cases hout with ⟨f, -, rfl⟩ | ⟨i, rfl⟩ <;> exact ⟨rfl, rfl⟩
  have hapart : ∀ f g, d = .file f .read → d' = .file g .write → M.file f ≠ M.file g := by
    rintro f g rfl rfl
    rcases lineEnd_cases hin with ⟨f', hf', he⟩ | ⟨i, he⟩
    · rcases lineEnd_cases hout with ⟨g', hg', he'⟩ | ⟨i, he'⟩
      · cases he
        cases he'
        exact h.apart _ hf' _ hg'
      · cases he'
    · cases he
  have hmap : (stageWords c cs).length = (c :: cs).length := List.length_map _
  have himage : ∀ k (hk : k < (stageWords c cs).length), M.image (stageWords c cs)[k] = some (starts k) := by
    intro k hk
    simp only [stageWords, List.getElem_map]
    exact h.image k (by omega)
  refine ⟨⟨stageWords c cs, starts, pipe_and_exec M.exec 0 a u, u, d, d', ?_, ?_, himage, ?_, h0, h1, hu, hread,
    hwrite, hapart⟩, a, rfl, rfl, rfl, rfl, rfl, ?_, ?_⟩
  · rw [hmap]
    exact Nat.succ_pos _
  · rw [hmap, hlen]
  · intro k hk
    obtain ⟨v, hv, hw⟩ := hstages k (by omega)
    rw [hmap]
    refine ⟨v, ?_, hw⟩
    have hexec : M.exec.execvp (stageWords c cs)[k] v = .exec (stageWords c cs)[k] v none := by
      simp only [Env.execvp, Machine.exec, Env.forking, himage k hk, Option.isSome_some, if_true, Option.map_none]
    rw [← hexec]
    simp only [stageWords, List.getElem_map]
    exact hv
  · simp only [Place.next, hrin, hrout]
  · simp only [runChild, hrin, hrout]

/-- How many steps a line takes at most, of stages that take `fuel`. -/
def bound (n : Nat) (fuel : Nat → Nat) : Nat := 2 * n + ∑ k ∈ Finset.range n, (fuel k + 1)

theorem created_iff {e : List (Option Item)} {d : Desc} (h : lineEnd M.shell e .write 1 = some d) (i : Nat) :
    i ∈ (filesIn .write e).head?.toList.map M.file ↔ M.Writes d i := by
  unfold lineEnd at h
  cases hf : (filesIn .write e).head? with
  | none =>
    rw [hf] at h
    obtain ⟨n, rfl⟩ := M.shell.inherited 1 d h
    simp [Machine.Writes]
  | some g =>
    rw [hf] at h
    cases h
    simp [Machine.Writes, eq_comm]

section

variable {fs : List Token} (hfs : ∀ i, i ∈ fs.map M.file ↔ M.Writes W.sink i)

include hfs

theorem left_created (w : World) : (w.created M.file fs).left M.file W.source = w.left M.file W.source := by
  rcases W.source_cases with ⟨f, hs⟩ | ⟨n, hs⟩
  · have hf : M.file f ∉ fs.map M.file := by
      intro hm
      obtain ⟨g, hg, he⟩ := (hfs _).1 hm
      exact W.apart f g hs hg he.symm
    simp only [hs, World.left, World.bytes, World.created, if_neg hf]
  · rw [hs]
    rfl

theorem written_created {w : World} (hw : ∀ n, w.output n = []) :
    (w.created M.file fs).written M.file W.sink = [] := by
  rcases W.sink_cases with ⟨f, hs⟩ | ⟨n, hs⟩
  · have hf : M.file f ∈ fs.map M.file := (hfs _).2 ⟨f, hs, rfl⟩
    simp only [hs, World.written, World.bytes, World.created, if_pos hf, Option.getD_some]
  · rw [hs]
    exact hw n

theorem leaves_created (w : World) : Leaves W w.files (w.created M.file fs) where
  there i hi := by simp only [World.created, if_pos ((hfs i).2 hi), Option.isSome_some]
  others i hi := if_neg fun hm => hi ((hfs i).1 hm)

end

/-- The one process there is has all of the line before it. -/
theorem setup_first {a : Argv} {w : World} (hprocs : pipe_and_exec M.exec 0 a W.u = W.procs) :
    Setup W (⟨[⟨.pipes 0 a W.u, none⟩], w⟩ : State σ) where
  placed k m hk := by
    cases k with
    | zero =>
      cases hk
      exact ⟨rfl, hprocs, rfl, fun _ _ => rfl⟩
    | succ k => cases hk
  last k m _ hlt := by
    rw [List.length_singleton] at hlt
    omega
  all hall := by
    obtain ⟨p, hp⟩ := hall ⟨.pipes 0 a W.u, none⟩ (List.mem_singleton.2 rfl)
    cases hp
  life m hm hlife := by
    cases List.mem_singleton.1 hm
    cases hlife

theorem row_first {a : Argv} {w : World} {inp : List Byte} (hleft : w.left M.file W.source = inp)
    (hwritten : w.written M.file W.sink = []) (hpipes : ∀ id, w.pipes id = []) :
    row W (⟨[⟨.pipes 0 a W.u, none⟩], w⟩ : State σ) = Stream.start W.starts inp := by
  refine Stream.State.ext ?_ ?_
  · funext k
    cases k <;> rfl
  · funext k
    simp only [row, hleft, hwritten, hpipes, Stream.start]
    split_ifs <;> rfl

/-- After its redirections the line is on the way to what its stages yield. -/
theorem onWay_first {c : Segment} {cs : List Segment} {starts : Nat → σ} (h : Runs M c cs starts) {files : Files}
    (hthere : There M c cs files) {d d' : Desc} (hin : lineEnd M.shell (elems c cs) .read 0 = some d)
    (hout : lineEnd M.shell (elems c cs) .write 1 = some d') {input : Nat → List Byte} {data : Nat → List Byte}
    {fuel : Nat → Nat} (hdata : data 0 = (World.start files input).left M.file d)
    (hyields : ∀ k < (c :: cs).length, Stream.Yields M.next (starts k) (data k) (data (k + 1)) (fuel k)) :
    ∃ (W : Wiring M) (s : State σ), W.strings.length = (c :: cs).length ∧ W.sink = d' ∧
      (∀ a s', step M (start (lineOf c cs) (World.start files input)) a = some s' → s' = s) ∧
      (∃ a, step M (start (lineOf c cs) (World.start files input)) a = some s) ∧
      OnWay W files (data (c :: cs).length) (bound (c :: cs).length fuel) s := by
  obtain ⟨W, a, hstrings, rfl, rfl, rfl, hprocs, hnext, hcreated⟩ :=
    wiring h (w := .start files input) hthere hin hout
  have hlen : W.strings.length = (c :: cs).length := by rw [hstrings, stageWords, List.length_map]
  let w := (World.start files input).created M.file (filesIn .write (elems c cs)).head?.toList
  have hwrites := created_iff hout
  have hbegin : (start (σ := σ) (lineOf c cs) (World.start files input)).begin M 0
      ⟨.child (is_background (parsed (lineOf c cs))).2, none⟩ = some ⟨[⟨.pipes 0 a W.u, none⟩], w⟩ := by
    simp only [State.begin, start, hnext, hcreated, Option.map_some]
    rfl
  refine ⟨W, ⟨[⟨.pipes 0 a W.u, none⟩], w⟩, hlen, rfl, ?_, ⟨⟨0, 0⟩, hbegin⟩, setup_first hprocs,
    ⟨fun k => if k = 0 then [] else data k, fuel, ?_, ?_⟩, leaves_created hwrites (.start files input)⟩
  · intro b s' hs'
    obtain ⟨m, hm, hs'⟩ := Option.bind_eq_some_iff.1 hs'
    obtain ⟨hlt, rfl⟩ := List.getElem?_eq_some_iff.1 hm
    have hb : b.stage = 0 := by simpa [start] using hlt
    simp only [hb] at hs'
    exact Option.some_inj.1 (hs'.symm.trans hbegin)
  · rw [row_first ((left_created hwrites _).trans hdata.symm) (written_created hwrites fun _ => rfl) fun _ => rfl,
      ← hlen]
    exact Stream.coming_start (by rwa [hlen])
  · have htogo : (⟨[⟨.pipes 0 a W.u, none⟩], w⟩ : State σ).toGo M = 2 * W.strings.length := by
      show 2 * (pipe_and_exec M.exec 0 a W.u).length + 0 = _
      rw [hprocs, W.length, Nat.add_zero]
    rw [htogo, hlen, row_first rfl (written_created hwrites fun _ => rfl) fun _ => rfl]
    exact Nat.le_refl _

/-- A line that has been forked for, or is on its way after its redirections. -/
def Begun (M : Machine σ) (c : Segment) (cs : List Segment) (d' : Desc) (w : World) (out : List Byte) (most : Nat)
    (left : Nat) (s : State σ) : Prop :=
  (s = start (lineOf c cs) w ∧ 1 + most ≤ left) ∨
    ∃ W : Wiring M, W.strings.length = (c :: cs).length ∧ W.sink = d' ∧ OnWay W w.files out left s

namespace Begun

variable {c : Segment} {cs : List Segment} {starts : Nat → σ} {d d' : Desc} {files : Files} {input : Nat → List Byte}
variable {out : List Byte} {most left : Nat}

theorem step (h : Runs M c cs starts) (hthere : There M c cs files)
    (hin : lineEnd M.shell (elems c cs) .read 0 = some d) (hout : lineEnd M.shell (elems c cs) .write 1 = some d')
    {data : Nat → List Byte} {fuel : Nat → Nat} (hdata : data 0 = (World.start files input).left M.file d)
    (hyields : ∀ k < (c :: cs).length, Stream.Yields M.next (starts k) (data k) (data (k + 1)) (fuel k))
    (hb : Begun M c cs d' (World.start files input) (data (c :: cs).length) (bound (c :: cs).length fuel) left s)
    {a : Stream.Action} (hs : Dataflow.step M s a = some s') :
    ∃ left' < left,
      Begun M c cs d' (World.start files input) (data (c :: cs).length) (bound (c :: cs).length fuel) left' s' := by
  rcases hb with ⟨rfl, hle⟩ | ⟨W, hlen, hsink, hway⟩
  · obtain ⟨W, s₁, hlen, hsink, hfirst, -, hway⟩ := onWay_first h hthere hin hout hdata hyields
    cases hfirst a s' hs
    exact ⟨_, by omega, .inr ⟨W, hlen, hsink, hway⟩⟩
  · obtain ⟨left', hlt, hway'⟩ := hway.step hs
    exact ⟨left', hlt, .inr ⟨W, hlen, hsink, hway'⟩⟩

theorem goes_on (h : Runs M c cs starts) (hthere : There M c cs files)
    (hin : lineEnd M.shell (elems c cs) .read 0 = some d) (hout : lineEnd M.shell (elems c cs) .write 1 = some d')
    (hb : Begun M c cs d' (World.start files input) out most left s) :
    (∀ m ∈ s.procs, m.gone) ∨ ∃ a s', Dataflow.step M s a = some s' := by
  rcases hb with ⟨rfl, -⟩ | ⟨W, -, -, hway⟩
  · obtain ⟨W, a, -, -, -, -, -, hnext, -⟩ := wiring h (w := .start files input) hthere hin hout
    refine .inr ⟨⟨0, 0⟩, ?_⟩
    simp only [Dataflow.step, start, List.getElem?_cons_zero, Option.bind_some, State.begin, hnext, Option.map_some]
    exact ⟨_, rfl⟩
  · rcases hway.goes_on with hfin | hgo
    · exact .inl hfin.2
    · exact .inr hgo

/-- When all its processes are gone, it has done what it is to. -/
theorem ended (hb : Begun M c cs d' (World.start files input) out most left s) (hgone : ∀ m ∈ s.procs, m.gone) :
    s.procs.length = (c :: cs).length ∧ s.world.written M.file d' = out ∧
      (∀ i, M.Writes d' i → (s.world.files i).isSome) ∧ ∀ i, ¬ M.Writes d' i → s.world.files i = files i := by
  rcases hb with ⟨rfl, -⟩ | ⟨W, hlen, rfl, hway⟩
  · exact absurd (hgone _ (List.mem_singleton.2 rfl)) Bool.false_ne_true
  · have hlife : ∀ m ∈ s.procs, m.life.isSome := by
      intro m hm
      have := hgone m hm
      unfold Member.gone at this
      cases hl : m.life with
      | none => rw [hl] at this; cases this
      | some l => rfl
    have hall := hway.setup.all fun m hm => hway.setup.life m hm (hlife m hm)
    have hlt : W.strings.length - 1 < s.procs.length := by
      have := W.nonempty
      omega
    exact ⟨hall.trans hlen, hway.written.2 _ (List.getElem?_eq_getElem hlt) (hgone _ (List.getElem_mem hlt)),
      hway.files.there, hway.files.others⟩

theorem alone (hb : Begun M c [] d' (World.start files input) out most left s) (hfirst : s.procs.head?.any (·.gone)) :
    ∀ m ∈ s.procs, m.gone := by
  intro m hm
  obtain ⟨k, hk⟩ := List.mem_iff_getElem?.1 hm
  have hzero : k = 0 := by
    rcases hb with ⟨rfl, -⟩ | ⟨W, hlen, -, hway⟩
    · have := (List.getElem?_eq_some_iff.1 hk).1
      simpa [start] using this
    · have := (hway.setup.placed k m hk).lt
      rw [hlen, List.length_singleton] at this
      omega
  rw [hzero, ← List.head?_eq_getElem?] at hk
  rw [hk] at hfirst
  exact hfirst

end Begun

/-- A pipeline, its redirections to different files, of which the one it reads is
there, and whose programs each make `data (k + 1)` of `data k` however it comes
to them: in every run its output is the beginning of what they make together,
and all of it when the last stage is gone; it takes no more than so many steps,
can go on until all processes are gone, and changes no other file. -/
theorem line_output {c : Segment} {cs : List Segment} {starts : Nat → σ} (h : Runs M c cs starts) {files : Files}
    (hthere : There M c cs files) {d d' : Desc} (hin : lineEnd M.shell (elems c cs) .read 0 = some d)
    (hout : lineEnd M.shell (elems c cs) .write 1 = some d') {input : Nat → List Byte} {data : Nat → List Byte}
    {fuel : Nat → Nat} (hdata : data 0 = (World.start files input).left M.file d)
    (hyields : ∀ k < (c :: cs).length, Stream.Yields M.next (starts k) (data k) (data (k + 1)) (fuel k))
    {as : List Stream.Action} {s : State σ}
    (hrun : exec (step M) anyStep (start (lineOf c cs) (World.start files input)) as = some s) :
    as.length ≤ 1 + bound (c :: cs).length fuel ∧
      (as ≠ [] → s.world.written M.file d' <+: data (c :: cs).length) ∧
      (∀ m, s.procs[cs.length]? = some m → m.gone → s.world.written M.file d' = data (c :: cs).length) ∧
      ((s.procs.length = (c :: cs).length ∧ ∀ m ∈ s.procs, m.gone) ∨ ∃ a s', step M s a = some s') ∧
      ∀ i, ¬ M.Writes d' i → s.world.files i = files i := by
  obtain ⟨W, s₁, hlen, rfl, hfirst, ⟨a₀, ha₀⟩, hway⟩ := onWay_first h hthere hin hout hdata hyields
  cases as with
  | nil =>
    cases hrun
    refine ⟨Nat.zero_le _, fun hne => absurd rfl hne, ?_, .inr ⟨a₀, s₁, ha₀⟩, fun _ _ => rfl⟩
    intro m hm hgone
    have : m.life = none := by
      cases hcs : cs.length with
      | zero =>
        rw [hcs] at hm
        cases hm
        rfl
      | succ n =>
        rw [hcs] at hm
        cases hm
    rw [Member.gone, this] at hgone
    cases hgone
  | cons a as =>
    rw [exec, if_pos (show anyStep _ _ from trivial)] at hrun
    obtain ⟨s₂, hs₂, hrun⟩ := Option.bind_eq_some_iff.1 hrun
    cases hfirst a s₂ hs₂
    obtain ⟨left, hs, hle⟩ := exec_spends (fun _ _ _ _ h _ hs => OnWay.step h hs) hway hrun
    obtain ⟨hpre, hall⟩ := hs.written
    have hlast : W.strings.length - 1 = cs.length := by rw [hlen, List.length_cons, Nat.add_sub_cancel]
    rw [hlast] at hall
    refine ⟨by rw [List.length_cons]; omega, fun _ => hpre, hall, ?_, hs.files.others⟩
    rcases hs.goes_on with hfin | hgo
    · exact .inl (hlen ▸ hfin)
    · exact .inr hgo

/-- `a` copies what it reads, other programs write each byte twice. The names of
the files have one character. -/
def twice : Machine (Stream.Filter Byte) where
  shell := terminalFds
  file f := (f.headD NUL).toNat
  image argv := some ⟨if argv = [[97]] then fun b => [b] else fun b => [b, b], 4, [], false⟩
  next := Stream.Filter.next
  cap := 1
  capPos := Nat.one_pos

/-- `a < f | b > g` -/
def aToB : Segment × Segment :=
  (⟨[.word ⟨[97], by decide, by decide, by decide⟩, .file .read ⟨[102], by decide, by decide, by decide⟩], by decide⟩,
    ⟨[.word ⟨[98], by decide, by decide, by decide⟩, .file .write ⟨[103], by decide, by decide, by decide⟩], by decide⟩)

/-- Where `f` is the one file. -/
def onlyF : Files := fun i => if i = 102 then some [1, 2] else none

/-- The first stage runs, and waits for the second, before that is forked. -/
theorem line_output_twice : ∃ as s,
    exec (step twice) anyStep (start (lineOf aToB.1 [aToB.2]) (World.start onlyF fun _ => [])) as = some s ∧
      s.world.bytes 103 = [1, 1, 2, 2] := by
  let as : List Stream.Action :=
    [⟨0, 0⟩, ⟨0, 0⟩, ⟨0, 0⟩, ⟨0, 2⟩, ⟨0, 0⟩, ⟨1, 0⟩, ⟨1, 0⟩, ⟨1, 1⟩, ⟨0, 0⟩, ⟨0, 0⟩, ⟨0, 0⟩, ⟨1, 0⟩, ⟨1, 0⟩, ⟨1, 1⟩,
      ⟨1, 0⟩, ⟨1, 0⟩, ⟨1, 0⟩, ⟨1, 0⟩]
  have hrun : (exec (step twice) anyStep
      (start (lineOf aToB.1 [aToB.2]) (World.start onlyF fun _ => [])) as).map
        (fun s => s.procs.map (·.gone)) = some [true, true] := by
    decide +kernel
  obtain ⟨s, hs, hgone⟩ := Option.map_eq_some_iff.1 hrun
  let data (k : Nat) : List Byte := if k < 2 then [1, 2] else [1, 1, 2, 2]
  let starts (k : Nat) : Stream.Filter Byte := ⟨if k = 0 then fun b => [b] else fun b => [b, b], 4, [], false⟩
  have himage : ∀ k (hk : k < [aToB.1, aToB.2].length),
      twice.image (words [aToB.1, aToB.2][k].items) = some (starts k) := by
    intro k hk
    match k with
    | 0 => rfl
    | 1 => rfl
  have hyields : ∀ k < [aToB.1, aToB.2].length,
      Stream.Yields twice.next (starts k) (data k) (data (k + 1)) ((fun _ => 20) k) := by
    intro k hk
    match k with
    | 0 => exact (Stream.Filter.yields (fun b : Byte => [b]) (by decide) [1, 2]).mono (by decide)
    | 1 => exact (Stream.Filter.yields (fun b : Byte => [b, b]) (by decide) [1, 2]).mono (by decide)
  have hthere : There twice aToB.1 [aToB.2] onlyF := by unfold There; decide
  have hin : lineEnd twice.shell (elems aToB.1 [aToB.2]) .read 0 = some (.file [102] .read) := rfl
  have hout : lineEnd twice.shell (elems aToB.1 [aToB.2]) .write 1 = some (.file [103] .write) := rfl
  obtain ⟨-, -, hwritten, -⟩ := line_output ⟨by decide, by decide, by decide, by decide, himage⟩ hthere hin hout
    (show data 0 = _ from rfl) hyields hs
  refine ⟨as, s, hs, ?_⟩
  match hp : s.procs with
  | [_, m] =>
    rw [hp] at hgone
    obtain ⟨-, hm⟩ : _ ∧ m.gone = true := by simpa using hgone
    exact hwritten m (by rw [hp]; rfl) hm
  | [] | [_] | _ :: _ :: _ :: _ =>
    rw [hp] at hgone
    simp at hgone

end SysProg.Dataflow
