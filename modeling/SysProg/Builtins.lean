/-
Built-in commands and operators. The main loop asks for a built-in function
before anything has looked for an operator in the line; to the function the
operators, and what stands after them, are strings like others.
-/
import SysProg.Background
import SysProg.Lib.Decimal
import SysProg.MainLoop
import SysProg.Redirections

namespace SysProg.Shell

/-! ## The built-in functions -/

/-- The bytes of a string literal. -/
def lit (s : String) : List Byte := s.toList.map fun c => UInt8.ofNat c.toNat

/-- What the system has for the built-in functions. -/
structure System where
  /-- `getenv("HOME")`. -/
  home : Option Token
  /-- How `chdir` fails, if it does; its path may be NULL. -/
  chdirFails : Option Token → Option Errno
  nodename : Token
  uid : Nat
  pw_name : Token
  pw_gid : Nat
  gr_name : Token
  cwd : Token

/-- What a built-in function does: what it writes to stdout, the path it calls
`chdir` with, the error it reports, and whether it ends the shell. -/
structure Effect where
  out : List Byte
  chdir : Option (Option Token)
  perror : Option Errno
  exits : Bool

/-- No effect at all. -/
def Effect.nothing : Effect := ⟨[], none, none, false⟩

/-- The effect of a builtin that only writes to stdout. -/
def Effect.prints (out : List Byte) : Effect := { Effect.nothing with out }

/-- Tells whether a command is builtin or not. -/
def bi_builtin (argv : List Token) : Effect :=
  match argv[1]? with
  | some cmd => .prints (cmd ++ lit " is " ++ (if (is_builtin cmd).isSome then [] else lit "not ") ++
      lit "a built in feature" ++ [NL])
  | none => .nothing

/-- No arg: go `$HOME`. -/
def bi_cd (sys : System) (argv : List Token) : Effect :=
  let dir := argv[1]?.or sys.home
  { Effect.nothing with chdir := some dir, perror := sys.chdirFails dir }

/-- Each word with a blank after it; no final newline if `-n` is the first. -/
def bi_echo (argv : List Token) : Effect :=
  let (nlflag, argv) := if argv[1]? = some [45, 110] then (false, argv.drop 1) else (true, argv)
  .prints ((argv.drop 1).flatMap (fun word => word ++ [32]) ++ if nlflag then [NL] else [])

/-- `puts` of the name `uname` gives. -/
def bi_hostname (sys : System) : Effect := .prints (sys.nodename ++ [NL])

/-- User and group of this process. -/
def bi_id (sys : System) : Effect :=
  .prints (lit "Userid = " ++ decimal sys.uid ++ lit " (" ++ sys.pw_name ++ lit "), Groupid = " ++
    decimal sys.pw_gid ++ lit " (" ++ sys.gr_name ++ lit ")" ++ [NL])

/-- `puts` of the directory `getcwd` gives. -/
def bi_pwd (sys : System) : Effect := .prints (sys.cwd ++ [NL])

/-- `exit(0)`. -/
def bi_quit : Effect := { Effect.nothing with exits := true }

/-- The function found by `is_builtin`, called with the argument vector. -/
def do_builtin (sys : System) (this : Builtin) (argv : List Token) : Effect :=
  match this with
  | .bi_builtin => bi_builtin argv
  | .bi_cd => bi_cd sys argv
  | .bi_echo => bi_echo argv
  | .bi_hostname => bi_hostname sys
  | .bi_id => bi_id sys
  | .bi_pwd => bi_pwd sys
  | .bi_quit => bi_quit

theorem do_builtin_exits (sys : System) (this : Builtin) (argv : List Token) (forks : Bool) :
    (do_builtin sys this argv).exits = (Call.do_builtin this argv).ends forks := by
  cases this with
  | bi_builtin =>
    unfold do_builtin bi_builtin
    dsimp only
    split <;> rfl
  | bi_cd | bi_echo | bi_hostname | bi_id | bi_pwd | bi_quit => rfl

/-! ## What a call comes to -/

/-- What runs for a call: a built-in function, in the shell, or a process. -/
inductive Run where
  | builtin (this : Builtin) (argv : List Token) (fds : Fds Desc)
  | process (p : Proc)

/-- A built-in function as a command: the one with what it is given, strings
and descriptors. -/
def Run.proc (env : Env) : Run → Proc
  | .builtin _ argv fds => env.execvp argv fds
  | .process p => p

/-- What a call comes to: what runs for it, the files created or truncated,
and what is done in the shell itself. -/
structure Outcome where
  runs : List Run
  created : List Token
  effect : Effect

/-- The same, without regard to where it runs. -/
def Outcome.command (env : Env) (o : Outcome) : Command := ⟨o.runs.map (Run.proc env), o.created⟩

/-- A built-in function is called in the shell, with the shell's descriptors. -/
def Call.outcome (env : Env) (sys : System) (t : Fds Desc) : Call → Outcome
  | .do_builtin this argv => ⟨[.builtin this argv t], [], Shell.do_builtin sys this argv⟩
  | .run_command argv =>
    let (_, c) := Shell.run_command env (parsed argv) t
    ⟨c.procs.map .process, c.created, .nothing⟩

/-! ## Lines without operators -/

theorem words_plain (items : List Item) : Plain (words items) := by
  intro op hop hm
  obtain ⟨i, -, hi⟩ := List.mem_filterMap.1 hm
  cases i with
  | file m f => cases hi
  | word w =>
    cases hi
    simp only [List.mem_cons, List.not_mem_nil, or_false] at hop
    rcases hop with h | h | h
    · exact w.noLT h
    · exact w.noGT h
    · exact w.noPipe h

theorem text_of_plain {items : List Item} (h : Plain (text (items.map some))) :
    text (items.map some) = words items := by
  induction items with
  | nil => rfl
  | cons i items ih =>
    have htext : text ((i :: items).map some) = strings (some i) ++ text (items.map some) := rfl
    rw [htext] at h ⊢
    have hrest : Plain (text (items.map some)) := fun op hop hm => h op hop (List.mem_append_right _ hm)
    cases i with
    | word w => rw [ih hrest]; rfl
    | file m f =>
      have hop : m.op ∈ [LT, GT, PIPE] := by cases m <;> simp [Mode.op]
      exact absurd (List.mem_append_left _ List.mem_cons_self) (h m.op hop)

theorem lineOf_plain_iff (s : Segment) (ss : List Segment) :
    Plain (lineOf s ss) ↔ ss = [] ∧ lineOf s ss = words s.items := by
  constructor
  · intro h
    cases ss with
    | nil => exact ⟨rfl, text_of_plain h⟩
    | cons s' ss =>
      refine absurd ?_ (h PIPE (by simp))
      simp [lineOf, elems, text, strings]
  · intro h
    rw [h.2]
    exact words_plain s.items

/-- What is given all the strings of a line, and the shell's descriptors, is
what is written exactly when no string is an operator. -/
theorem asWritten_exec_iff (env : Env) (t : Fds Desc) (s : Segment) (ss : List Segment) :
    AsWritten env t (s :: ss) [env.execvp (lineOf s ss) t] ↔ Plain (lineOf s ss) := by
  rw [lineOf_plain_iff]
  constructor
  · intro h
    have hss : ss = [] := by simpa using h.1
    obtain ⟨fds, hget, -⟩ := h.2 0 (by simp)
    exact ⟨hss, (Env.execvp_inj (Option.some.inj hget)).1⟩
  · intro h
    obtain ⟨rfl, hwords⟩ := h
    have hlen := text_length s.items
    have htext : text (s.items.map some) = words s.items := hwords
    rw [htext] at hlen
    have hread : files .read s.items = [] := List.length_eq_zero_iff.1 (by omega)
    have hwrite : files .write s.items = [] := List.length_eq_zero_iff.1 (by omega)
    refine ⟨rfl, ?_⟩
    intro k hk
    obtain rfl : k = 0 := by simpa using hk
    refine ⟨t, by rw [hwords]; rfl, ?_, ?_⟩
    · rw [List.getElem_cons_zero, hread]
      rfl
    · rw [List.getElem_cons_zero, hwrite]
      rfl

/-- A vector whose only process executes that many strings has no pipe. -/
theorem exec_of_length {env : Env} {id : Nat} {a : Argv} {t u : Fds Desc} {ts argv : List Token} (h : Vec a ts)
    (hrun : pipe_and_exec env id a t = [env.execvp argv u]) (hlen : argv.length = ts.length) :
    PIPE ∉ ts ∧ argv = ts := by
  rcases pipe_cases ts with hbad | ⟨hne, hPIPE⟩ | ⟨p, s, hne, hp, hs, rfl⟩
  · rw [pipe_and_exec_bad h hbad] at hrun
    cases hrun
  · rw [pipe_and_exec_last h hne hPIPE, List.singleton_inj] at hrun
    exact ⟨hPIPE, (Env.execvp_inj hrun).1.symm⟩
  · cases hf : env.forkFails id with
    | some e =>
      rw [(pipe_and_exec_pipe h hne hp hs).1 e hf] at hrun
      cases hrun
    | none =>
      -- the first stage alone is executed, and it is shorter
      obtain ⟨a', -, hstages⟩ := (pipe_and_exec_pipe (t := t) h hne hp hs).2 hf
      rw [hstages, List.cons.injEq] at hrun
      rw [← (Env.execvp_inj hrun.1).1, List.length_append, List.length_cons] at hlen
      omega

/-- A child whose only process executes as many strings as the vector has, or
more, has found no operator in it. -/
theorem plain_of_runChild {env : Env} {a : Argv} {t u : Fds Desc} {ts argv : List Token} (h : Vec a ts)
    (hlen : ts.length ≤ argv.length) (hrun : (runChild env a t).procs = [env.execvp argv u]) :
    Plain ts ∧ argv = ts := by
  have hexec : ∀ p ∈ (runChild env a t).procs, p.size ≠ 0 := by
    intro p hp
    rw [hrun, List.mem_singleton] at hp
    rw [hp]
    exact Nat.succ_ne_zero _
  obtain ⟨a₁, t₁, o₁, a₂, t₂, o₂, hin, hout, hprocs⟩ := runChild_ok hexec
  rw [hprocs] at hrun hexec
  have hsize (ts' : List Token) (h' : Vec a₂ ts') : argv.length = ts'.length := by
    have := pipe_and_exec_size h' hexec
    rw [hrun] at this
    simpa [Env.execvp, Proc.size] using this
  rcases redirect_ok_cases h hin with ⟨hLT, rfl, -, -⟩ | ⟨p, f, s, -, rfl, ha₁, -, -⟩
  · rcases redirect_ok_cases h hout with ⟨hGT, rfl, -, -⟩ | ⟨p, f, s, -, rfl, ha₂, -, -⟩
    · have hargv := hsize ts h
      obtain ⟨hPIPE, rfl⟩ := exec_of_length h hrun hargv
      exact ⟨by simp [Plain, hLT, hGT, hPIPE], rfl⟩
    · have := hsize _ ha₂
      simp only [List.length_append, List.length_cons] at this hlen
      omega
  · obtain ⟨ts', r, ha₂, hl, -⟩ := redirect_removes ha₁ hout
    have := hsize _ ha₂
    simp only [List.length_append, List.length_cons] at hl hlen
    omega

/-! ## Lines in the input -/

/-- What the lines before a line come to. -/
def callsOf (ls : List Line) : List Call := (ls.flatMap fun l => pieces l.chars).filterMap command

/-- None of the calls from the `n`-th on ends the shell. -/
def GoesOn (forks : Nat → Bool) : Nat → List Call → Prop
  | _, [] => True
  | n, c :: cs => c.ends (forks n) = false ∧ GoesOn forks (n + 1) cs

instance GoesOn.decidable (forks : Nat → Bool) : (n : Nat) → (cs : List Call) → Decidable (GoesOn forks n cs)
  | _, [] => .isTrue trivial
  | n, _ :: cs =>
    have := GoesOn.decidable forks (n + 1) cs
    inferInstanceAs (Decidable (_ ∧ _))

theorem untilEnd_append {forks : Nat → Bool} {n : Nat} {cs : List Call} (h : GoesOn forks n cs) (ds : List Call) :
    untilEnd forks n (cs ++ ds) = cs ++ untilEnd forks (n + cs.length) ds := by
  induction cs generalizing n with
  | nil => rfl
  | cons c cs ih =>
    rw [List.cons_append, untilEnd, h.1, if_neg Bool.false_ne_true, ih h.2, List.length_cons, List.cons_append,
      Nat.add_right_comm, Nat.add_assoc]

theorem done_at {forks : Nat → Bool} {before : List Line} (hbefore : GoesOn forks 0 (callsOf before)) {l : Line}
    (hl : Whole l.chars) {c : Call} (hc : command l.chars = some c) (after : List Line) :
    done forks 0 (before ++ l :: after) = callsOf before ++ c ::
      if c.ends (forks (callsOf before).length) then [] else done forks ((callsOf before).length + 1) after := by
  have hline : done forks (callsOf before).length (l :: after) = _ := done_cons_whole hl after
  rw [done, List.flatMap_append, List.filterMap_append]
  rw [hc] at hline
  dsimp only at hline
  rw [← hline]
  exact (untilEnd_append hbefore _).trans (by rw [Nat.zero_add]; rfl)

/-- `echo hi > o`, as it is written. -/
def echoLine : Segment :=
  .ofWord ⟨[101, 99, 104, 111], by decide, by decide, by decide⟩
    [.word ⟨[104, 105], by decide, by decide, by decide⟩, .file .write ⟨[111], by decide, by decide, by decide⟩]

/-- The call made of the line `echo hi > o`. -/
def echoCall : Call := .do_builtin .bi_echo [[101, 99, 104, 111], [104, 105], GT, [111]]

end SysProg.Shell
