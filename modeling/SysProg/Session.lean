/-
A script for the shell (`sh9`): its lines are read one after the other, and
`run_command` waits for the first process of each, its child, and no other.
Lines of one stage then make of the files what they make one after the other.

All files are opened anew by each line. What is written goes to the end of a
file, as it does where no two lines write one at once. What a built-in command
prints, or the lines on the terminal, and a change of directory are left out.
-/
import SysProg.Dataflow
import SysProg.Lib.Decimal
import SysProg.MainLoop

namespace SysProg.Session

open Shell Dataflow

/-! ## The shell and its lines -/

/-- A line the shell has forked for. Of its world the files are the shell's. -/
structure Job (σ : Type) where
  awaited : Bool
  line : Dataflow.State σ

/-- A script under way, with the processes of each of its lines. -/
structure State (σ : Type) where
  /-- What is yet to be done of the script. -/
  calls : List Shell.Call
  jobs : List (Job σ)
  files : Files

/-- What can happen next. -/
inductive Action where
  /-- The shell goes on to its next line. -/
  | shell
  /-- A step of a process of line `j`. -/
  | job (j : Nat) (a : Stream.Action)

section

variable {σ : Type}

/-- All its processes are gone. -/
def Job.ended (job : Job σ) : Prop := ∀ m ∈ job.line.procs, m.gone

/-- A line with the files as they are now. -/
def State.view (s : State σ) (job : Job σ) : Dataflow.State σ :=
  { job.line with world := { job.line.world with files := s.files } }

/-- `run_command` is at its `waitpid`. -/
def State.waits (s : State σ) : Bool :=
  match s.jobs.getLast? with
  | some job => job.awaited && !job.line.procs.head?.any (·.gone)
  | none => false

variable (M : Machine σ)

/-- The shell and the processes of its lines take their steps as they will. -/
def step (s : State σ) : Action → Option (State σ)
  | .shell =>
    if s.waits then none
    else
      match s.calls with
      | .run_command argv :: calls =>
        let job : Job σ := ⟨!(is_background (parsed argv)).1, start argv (World.start s.files fun _ => [])⟩
        some { s with calls, jobs := s.jobs ++ [job] }
      | .do_builtin _ _ :: calls => some { s with calls }
      | [] => none
  | .job j a =>
    s.jobs[j]?.bind fun job =>
      (Dataflow.step M (s.view job) a).map fun line =>
        { s with jobs := s.jobs.set j { job with line }, files := line.world.files }

/-- The shell at its first prompt. -/
def State.init (calls : List Shell.Call) (files : Files) : State σ := ⟨calls, [], files⟩

/-! ## What a script is to do -/

/-- A pipeline from a file to a file, and what its stages make of what they
read, however it comes to them. -/
structure Filter where
  first : Segment
  rest : List Segment
  starts : Nat → σ
  runs : Runs M first rest starts
  plain : is_builtin ((lineOf first rest).headD []) = none
  source : Token
  sink : Token
  reads : lineEnd M.shell (elems first rest) .read 0 = some (.file source .read)
  writes : lineEnd M.shell (elems first rest) .write 1 = some (.file sink .write)
  stage : Nat → List Byte → List Byte
  fuel : Nat → List Byte → Nat
  yields : ∀ k < (first :: rest).length, ∀ inp, Stream.Yields M.next (starts k) inp (stage k inp) (fuel k inp)

namespace Filter

variable {M}

/-- Its strings. -/
def argv (f : Filter M) : List Token := lineOf f.first f.rest

theorem argv_ne_nil (f : Filter M) : f.argv ≠ [] := by
  intro he
  have hlen := lineOf_length f.first f.rest
  have hwords := List.length_pos_iff.2 f.first.command
  rw [show lineOf f.first f.rest = [] from he, List.map_cons, List.sum_cons, List.length_nil] at hlen
  omega

/-- What comes to stage `k`. -/
def data (f : Filter M) (inp : List Byte) : Nat → List Byte
  | 0 => inp
  | k + 1 => f.stage k (f.data inp k)

/-- The bytes of the file it reads. -/
def inp (f : Filter M) (files : Files) : List Byte := (files (M.file f.source)).getD []

/-- What the line makes of the files. -/
def makes (f : Filter M) (files : Files) : Files :=
  Function.update files (M.file f.sink) (some (f.data (f.inp files) (f.first :: f.rest).length))

/-- How many steps its processes take at most. -/
def most (f : Filter M) (files : Files) : Nat :=
  bound (f.first :: f.rest).length fun k => f.fuel k (f.data (f.inp files) k)

end Filter

/-- What the lines make of the files, one after the other. -/
def makes (fs : List (Filter M)) (files : Files) : Files := fs.foldl (fun files f => f.makes files) files

/-- The file each line reads is there when its turn comes. -/
def Ready : List (Filter M) → Files → Prop
  | [], _ => True
  | f :: fs, files => (files (M.file f.source)).isSome ∧ Ready fs (f.makes files)

/-- How many steps the shell and the processes take at most. -/
def cost : List (Filter M) → Files → Nat
  | [], _ => 0
  | f :: fs, files => 2 + f.most files + cost fs (f.makes files)

/-- All has been done, and all processes are gone. -/
def State.finished (s : State σ) : Prop := s.calls = [] ∧ ∀ job ∈ s.jobs, job.ended

/-! ## Along a run -/

variable {M} {s s' : State σ} {files : Files}

theorem step_ended {l : Dataflow.State σ} (h : ∀ m ∈ l.procs, m.gone) (a : Stream.Action) :
    Dataflow.step M l a = none := by
  rw [Dataflow.step, Option.bind_eq_none_iff]
  intro m hm
  have hgone := h m (List.mem_of_getElem? hm)
  unfold Member.gone at hgone
  cases hl : m.life with
  | none =>
    rw [hl] at hgone
    cases hgone
  | some life =>
    rw [hl] at hgone
    cases life with
    | running p => cases hgone
    | exited | killed => rfl

theorem awaited_of_waits {ts : List Token} (h : foreground ts = ts) (hne : ts ≠ []) :
    (!(is_background (parsed ts)).1) = true := by
  rw [(is_background_eq (Vec.parsed ts)).1]
  unfold foreground at h
  split at h
  · exact absurd (congrArg List.length h) (by
      have := List.length_pos_iff.2 hne
      rw [List.length_dropLast]
      omega)
  · next hlast => simpa using hlast

theorem makes_append (fs : List (Filter M)) (f : Filter M) :
    makes M (fs ++ [f]) files = f.makes (makes M fs files) := by
  rw [makes, makes, List.foldl_append]
  rfl

theorem ready_split {done rest : List (Filter M)} {f : Filter M} (h : Ready M (done ++ f :: rest) files) :
    (makes M done files (M.file f.source)).isSome := by
  induction done generalizing files with
  | nil => exact h.1
  | cons g done ih => exact ih h.2

/-- Its line as the shell has it before it is run. -/
def Filter.call (f : Filter M) : Shell.Call := .run_command f.argv

/-- The line is begun with these files, and has `n` steps to go at most. -/
def Filter.Begun (f : Filter M) (files : Files) (n : Nat) (l : Dataflow.State σ) : Prop :=
  Dataflow.Begun M f.first f.rest (.file f.sink .write) (World.start files fun _ => [])
    (f.data (f.inp files) (f.first :: f.rest).length) (f.most files) n l

namespace Filter

variable {f : Filter M} {n : Nat} {l l' : Dataflow.State σ}

theorem there (h : (files (M.file f.source)).isSome) : There M f.first f.rest files := by
  intro g hg
  have hreads := f.reads
  have hlen := f.runs.reads
  unfold lineEnd at hreads
  match hf : filesIn .read (elems f.first f.rest) with
  | [] =>
    rw [hf] at hg
    cases hg
  | [g'] =>
    rw [hf] at hg hreads
    cases hreads
    rw [List.mem_singleton.1 hg]
    exact h
  | _ :: _ :: _ =>
    rw [hf] at hlen
    simp at hlen

theorem Begun.step (hthere : (files (M.file f.source)).isSome) (h : f.Begun files n l) {a : Stream.Action}
    (hs : Dataflow.step M l a = some l') : ∃ n' < n, f.Begun files n' l' :=
  Dataflow.Begun.step f.runs (there hthere) f.reads f.writes (show f.data (f.inp files) 0 = _ from rfl)
    (fun k hk => f.yields k hk (f.data (f.inp files) k)) h hs

theorem Begun.goes_on (hthere : (files (M.file f.source)).isSome) (h : f.Begun files n l) :
    (∀ m ∈ l.procs, m.gone) ∨ ∃ a l', Dataflow.step M l a = some l' :=
  Dataflow.Begun.goes_on f.runs (there hthere) f.reads f.writes h

theorem Begun.ended (h : f.Begun files n l) (hgone : ∀ m ∈ l.procs, m.gone) :
    l.procs ≠ [] ∧ l.world.files = f.makes files := by
  obtain ⟨hlen, hout, hthere, hother⟩ := Dataflow.Begun.ended h hgone
  refine ⟨fun he => ?_, funext fun i => ?_⟩
  · rw [he] at hlen
    cases hlen
  · by_cases hi : i = M.file f.sink
    · obtain ⟨bytes, hbytes⟩ := Option.isSome_iff_exists.1 (hthere i ⟨f.sink, rfl, hi.symm⟩)
      have hout : (l.world.files (M.file f.sink)).getD [] = _ := hout
      rw [← hi, hbytes, Option.getD_some] at hout
      rw [hbytes, hout, hi, makes, Function.update_self]
    · rw [makes, Function.update_of_ne hi]
      refine hother i ?_
      rintro ⟨g, hg, rfl⟩
      cases hg
      exact hi rfl

theorem Begun.alone (h : f.Begun files n l) (hone : f.rest = []) (hfirst : l.procs.head?.any (·.gone)) :
    ∀ m ∈ l.procs, m.gone := by
  unfold Begun at h
  rw [hone] at h
  exact Dataflow.Begun.alone h hfirst

end Filter

/-- Nothing has been done yet, or all of the script up to the line that was
begun last. -/
inductive On (fs : List (Filter M)) (files : Files) (left : Nat) (s : State σ) : Prop
  | first (calls : s.calls = fs.map Filter.call) (jobs : s.jobs = []) (now : s.files = files)
      (steps : cost M fs files ≤ left)
  | within {done f rest old job n} (split : fs = done ++ f :: rest) (calls : s.calls = rest.map Filter.call)
      (jobs : s.jobs = old ++ [job]) (awaited : job.awaited = true) (past : ∀ job ∈ old, job.ended)
      (begun : f.Begun (makes M done files) n (s.view job))
      (steps : n + cost M rest (makes M (done ++ [f]) files) ≤ left)

/-- Where the shell does not wait, the lines before are done. -/
theorem files_of_not_waits {fs : List (Filter M)} {done rest : List (Filter M)} {f : Filter M} {old : List (Job σ)}
    {job : Job σ} {n : Nat} (hone : ∀ f ∈ fs.dropLast, f.rest = []) (hsplit : fs = done ++ f :: rest)
    (hrest : rest ≠ []) (hjobs : s.jobs = old ++ [job]) (hawaited : job.awaited = true)
    (hbegun : f.Begun (makes M done files) n (s.view job))
    (hw : s.waits = false) : job.ended ∧ s.files = makes M (done ++ [f]) files := by
  have hfirst : job.line.procs.head?.any (·.gone) = true := by
    simpa [State.waits, hjobs, hawaited] using hw
  have hmem : f ∈ fs.dropLast := by
    rw [hsplit, List.dropLast_append_of_ne_nil (by simp), List.dropLast_cons_of_ne_nil hrest]
    simp
  have hended := hbegun.alone (hone f hmem) hfirst
  refine ⟨hended, ?_⟩
  rw [makes_append]
  exact (hbegun.ended hended).2

theorem On.begin {fs done rest : List (Filter M)} {f : Filter M} {left : Nat} (hsplit : fs = done ++ f :: rest)
    (hpast : ∀ job ∈ s.jobs, job.ended) (hfiles : s.files = makes M done files)
    (hleft : 1 + f.most (makes M done files) + cost M rest (makes M (done ++ [f]) files) ≤ left) :
    On fs files left { s with
      calls := rest.map Filter.call
      jobs := s.jobs ++
        [⟨!(is_background (parsed f.argv)).1, start f.argv (World.start s.files fun _ => [])⟩] } := by
  refine .within hsplit rfl rfl (awaited_of_waits f.runs.waits f.argv_ne_nil) hpast (.inl ⟨?_, Nat.le_refl _⟩) hleft
  rw [← hfiles]
  rfl

theorem On.step {fs : List (Filter M)} (hready : Ready M fs files) (hone : ∀ f ∈ fs.dropLast, f.rest = []) {left : Nat}
    {a : Action} (h : On fs files left s) (hs : Session.step M s a = some s') :
    ∃ left' < left, On fs files left' s' := by
  cases h with
  | first calls jobs now steps =>
    cases a with
    | shell =>
      have hw : s.waits = false := by rw [State.waits, jobs]; rfl
      simp only [Session.step, hw] at hs
      cases fs with
      | nil =>
        rw [calls] at hs
        cases hs
      | cons f rest =>
        rw [calls] at hs
        cases hs
        exact ⟨1 + f.most files + cost M rest (f.makes files), by rw [cost] at steps; omega,
          On.begin (show f :: rest = [] ++ f :: rest from rfl) (by simp [jobs]) now (Nat.le_refl _)⟩
    | job j a => simp [Session.step, jobs] at hs
  | @within done f rest old job n split calls jobs awaited past begun steps =>
    cases a with
    | shell =>
      have hw : s.waits = false := by
        by_contra hw
        simp [Session.step, hw] at hs
      simp only [Session.step, hw] at hs
      cases rest with
      | nil =>
        rw [calls] at hs
        cases hs
      | cons f' rest =>
        obtain ⟨hended, hfiles⟩ := files_of_not_waits hone split (List.cons_ne_nil f' rest) jobs awaited begun hw
        have hpast : ∀ job ∈ s.jobs, job.ended := by
          rw [jobs, List.forall_mem_append, List.forall_mem_singleton]
          exact ⟨past, hended⟩
        rw [calls] at hs
        cases hs
        rw [cost, ← makes_append] at steps
        exact ⟨_, by omega, On.begin (by rw [split, List.append_assoc]; rfl) hpast hfiles (Nat.le_refl _)⟩
    | job j a =>
      obtain ⟨job', hjob', hs⟩ := Option.bind_eq_some_iff.1 hs
      obtain ⟨line, hline, rfl⟩ := Option.map_eq_some_iff.1 hs
      rw [jobs] at hjob'
      rcases Nat.lt_trichotomy j old.length with hlt | rfl | hgt
      · rw [List.getElem?_append_left hlt] at hjob'
        rw [step_ended (l := s.view job') (past job' (List.mem_of_getElem? hjob'))] at hline
        cases hline
      · rw [List.getElem?_concat_length] at hjob'
        cases hjob'
        obtain ⟨n', hlt, hbegun⟩ := begun.step (ready_split (split ▸ hready)) hline
        have hjobs : s.jobs.set old.length { job with line } = old ++ [{ job with line }] := by
          rw [jobs]
          simp
        exact ⟨n' + cost M rest (makes M (done ++ [f]) files), by omega,
          .within split calls hjobs awaited past hbegun (Nat.le_refl _)⟩
      · rw [List.getElem?_eq_none (by simp; omega)] at hjob'
        cases hjob'

theorem On.files_of_prompt {fs : List (Filter M)} (hone : ∀ f ∈ fs.dropLast, f.rest = []) {left : Nat}
    (h : On fs files left s) (hw : s.waits = false) (hcalls : s.calls ≠ []) :
    ∃ done rest, fs = done ++ rest ∧ s.calls = rest.map Filter.call ∧ s.files = makes M done files := by
  cases h with
  | first calls _ now _ => exact ⟨[], fs, rfl, calls, now⟩
  | @within done f rest old job n split calls jobs awaited past begun steps =>
    have hrest : rest ≠ [] := by
      rintro rfl
      exact hcalls calls
    exact ⟨done ++ [f], rest, by rw [split, List.append_assoc]; rfl, calls,
      (files_of_not_waits hone split hrest jobs awaited begun hw).2⟩

/-- All is done when the shell has come to the end of the script, and the last
line's processes are gone. -/
theorem On.files_of_finished {fs : List (Filter M)} {left : Nat} (h : On fs files left s) (hfin : s.finished) :
    s.files = makes M fs files := by
  cases h with
  | first calls _ now _ =>
    rw [hfin.1, eq_comm, List.map_eq_nil_iff] at calls
    rw [calls, now]
    rfl
  | @within done f rest old job n split calls jobs awaited past begun steps =>
    rw [hfin.1, eq_comm, List.map_eq_nil_iff] at calls
    rw [split, calls, makes_append]
    exact (begun.ended (hfin.2 job (by rw [jobs]; simp))).2

theorem On.goes_on {fs : List (Filter M)} (hready : Ready M fs files) {left : Nat} (h : On fs files left s) :
    s.finished ∨ ∃ a s', Session.step M s a = some s' := by
  have hshell (hw : s.waits = false) {rest : List (Filter M)} (calls : s.calls = rest.map Filter.call)
      (hended : ∀ job ∈ s.jobs, job.ended) : s.finished ∨ ∃ a s', Session.step M s a = some s' := by
    cases rest with
    | nil => exact .inl ⟨calls, hended⟩
    | cons f rest =>
      refine .inr ⟨.shell, ?_⟩
      simp only [Session.step, hw, calls]
      exact ⟨_, rfl⟩
  cases h with
  | first calls jobs =>
    exact hshell (by rw [State.waits, jobs]; rfl) calls (by simp [jobs])
  | @within done f rest old job n split calls jobs awaited past begun steps =>
    rcases begun.goes_on (ready_split (split ▸ hready)) with hgone | ⟨a, l, hl⟩
    · obtain ⟨hne, -⟩ := begun.ended hgone
      obtain ⟨m, ms, hprocs⟩ := List.exists_cons_of_ne_nil (show job.line.procs ≠ [] from hne)
      have hw : s.waits = false := by
        have hm : m.gone = true := hgone m (by rw [show (s.view job).procs = m :: ms from hprocs]; simp)
        simp [State.waits, jobs, hprocs, hm]
      refine hshell hw calls ?_
      rw [jobs, List.forall_mem_append, List.forall_mem_singleton]
      exact ⟨past, hgone⟩
    · refine .inr ⟨.job old.length a, ?_⟩
      simp only [Session.step, jobs, List.getElem?_concat_length, Option.bind_some, hl, Option.map_some]
      exact ⟨_, rfl⟩

/-- The script, which is the shell's standard input, leads to the lines' calls. -/
structure Script (w : Shell.World) (turns : Nat) (buf : Buf LONGLINE) (text : List Line) (fs : List (Filter M)) :
    Prop where
  whole : ∀ l ∈ text, Whole l.chars
  lines : (text.map fun l => tokens delim l.chars).filter (· ≠ []) = fs.map Filter.argv
  enough : (stdinOf text).length < turns
  forks : ∀ n, w.forks n = true
  undisturbed : Undisturbed (mainLoop w turns 0 buf (.ofFile (stdinOf text)))

theorem done_of_text {forks : Nat → Bool} (hforks : ∀ n, forks n = true) {text : List Line} {fs : List (Filter M)}
    (hwhole : ∀ l ∈ text, Whole l.chars)
    (htext : (text.map fun l => tokens delim l.chars).filter (· ≠ []) = fs.map Filter.argv) (n : Nat) :
    done forks n text = fs.map Filter.call := by
  induction text generalizing fs n with
  | nil =>
    rw [List.map_nil, List.filter_nil, eq_comm, List.map_eq_nil_iff] at htext
    rw [htext]
    rfl
  | cons l ls ih =>
    have hls : ∀ l ∈ ls, Whole l.chars := fun l hl => hwhole l (List.mem_cons_of_mem _ hl)
    rw [done_cons_whole (hwhole l List.mem_cons_self), command_eq]
    rw [List.map_cons] at htext
    by_cases hblank : tokens delim l.chars = []
    · rw [List.filter_cons_of_neg (by simpa using hblank)] at htext
      rw [if_pos hblank]
      exact ih hls htext n
    · rw [List.filter_cons_of_pos (by simpa using hblank)] at htext
      obtain ⟨f, fs, rfl, hf, hfs⟩ := List.map_eq_cons_iff.1 htext.symm
      have hcall : dispatch (tokens delim l.chars) = f.call := by
        rw [← hf, dispatch]
        simp only [show is_builtin (f.argv.headD []) = none from f.plain]
        rfl
      have hgo : f.call.ends (forks n) = false := by simp [Filter.call, Call.ends, hforks]
      rw [if_neg hblank, hcall, List.map_cons, ← ih hls hfs.symm (n + 1)]
      simp only [hgo]
      rfl

theorem Script.calls {w : Shell.World} {turns : Nat} {buf : Buf LONGLINE} {text : List Line} {fs : List (Filter M)}
    (h : Script w turns buf text fs) : calls w turns buf (.ofFile (stdinOf text)) = fs.map Filter.call := by
  rw [Shell.calls, mainLoop_eq buf rfl h.enough h.undisturbed]
  exact done_of_text h.forks h.whole h.lines 0

end

/-- `a < f | b > g` and `a < g > h`: the shell goes on when `a` has exited, and
what `b` is yet to write is not copied. -/
example :
    (exec (step twice) anyStep
      (.init [.run_command (lineOf aToB.1 [aToB.2]), .run_command [[97], LT, [103], GT, [104]]] onlyF)
      [.shell, .job 0 ⟨0, 0⟩, .job 0 ⟨0, 0⟩, .job 0 ⟨0, 0⟩, .job 0 ⟨0, 2⟩, .job 0 ⟨0, 0⟩, .job 0 ⟨1, 0⟩,
        .job 0 ⟨1, 0⟩, .job 0 ⟨1, 1⟩, .job 0 ⟨0, 0⟩, .job 0 ⟨0, 0⟩, .job 0 ⟨0, 0⟩,
        .shell, .job 1 ⟨0, 0⟩, .job 1 ⟨0, 0⟩, .job 1 ⟨0, 0⟩, .job 1 ⟨0, 0⟩, .job 1 ⟨0, 0⟩,
        .job 0 ⟨1, 0⟩, .job 0 ⟨1, 0⟩, .job 0 ⟨1, 1⟩, .job 0 ⟨1, 0⟩, .job 0 ⟨1, 0⟩, .job 0 ⟨1, 0⟩, .job 0 ⟨1, 0⟩]).map
      (fun s => (s.calls, s.jobs.all fun job => job.line.procs.all (·.gone), s.files 103, s.files 104)) =
        some ([], true, some [1, 1, 2, 2], some []) := by
  decide +kernel

/-- A program of `twice` with a file at each end. -/
def oneStage (name source sink : Word) (hplain : is_builtin name.chars = none)
    (hne : twice.file source.chars ≠ twice.file sink.chars) (hamp : sink.chars.head?.getD NUL ≠ AMP) : Filter twice :=
  let f : Byte → List Byte := if [name.chars] = [[97]] then fun b => [b] else fun b => [b, b]
  { first := ⟨[.word name, .file .read source, .file .write sink], by simp [words]⟩
    rest := []
    starts := fun _ => ⟨f, 4, [], false⟩
    runs :=
      { reads := by simp [filesIn, files, elems]
        writes := by simp [filesIn, files, elems]
        apart := by simpa [filesIn, files, elems] using hne
        waits := by simp [foreground, lineOf, elems, text, strings, hamp]
        image := fun k hk => by
          match k with
          | 0 => rfl }
    plain := by simpa [lineOf, elems, text, strings] using hplain
    source := source.chars
    sink := sink.chars
    reads := rfl
    writes := rfl
    stage := fun _ inp => inp.flatMap f
    fuel := fun _ inp => inp.length + (inp.flatMap f).length + 1
    yields := fun _ _ inp => Stream.Filter.yields f (by decide) inp }

/-- The lines a < f > g and b < g > h. -/
def twoLines : List Line :=
  [⟨ascii "a < f > g", by decide, by decide⟩, ⟨ascii "b < g > h", by decide, by decide⟩]

end SysProg.Session
