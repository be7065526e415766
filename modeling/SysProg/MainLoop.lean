/-
The main loop of the last shell (`sh9`): a line is read, taken apart by
`parse`, and what it comes to is done, by the built-in functions or by
`run_command`. The buffer for a line has 255 bytes; what does not fit is read
as the next line.

The children share the shell's standard input. What they read of it the shell
does not get; and one that ends in `exit` gives back, of a file, what its copy
of the shell's stream has read ahead, which the shell reads again then.
-/
import SysProg.Lib.Stdio
import SysProg.Lib.Strtok
import SysProg.Shell

namespace SysProg.Shell

/-- The size of `line` in `main`. -/
abbrev LONGLINE : Nat := 255

/-! ## parse -/

/-- SPACE or TAB or NL. -/
def delim : List Byte := [32, 9, NL]

/-- The tokens of what `strtok` has left of the line, at most `n` of them. -/
def parseRest : Nat → List Byte → List Token
  | 0, _ => []
  | n + 1, s =>
    match strtok delim s with
    | some (token, s) => token :: parseRest n s
    | none => []

/-- The strings of the vector, or `none` for NULL: no tokens in line. -/
def parse (line : List Byte) : Option (List Token) :=
  match parseRest (line.length + 1) line with
  | [] => none
  | argv@(_ :: _) => some argv

/-! ## Built-in commands -/

/-- The functions of `builtin.c`. -/
inductive Builtin where
  | bi_builtin
  | bi_cd
  | bi_echo
  | bi_hostname
  | bi_id
  | bi_pwd
  | bi_quit
  deriving DecidableEq

/-- The lookup table: builtin, cd, echo, hostname, id, print, pwd, quit, exit,
bye, logout. -/
def inbuilts : List (Token × Builtin) := [
  ([98, 117, 105, 108, 116, 105, 110], .bi_builtin),
  ([99, 100], .bi_cd),
  ([101, 99, 104, 111], .bi_echo),
  ([104, 111, 115, 116, 110, 97, 109, 101], .bi_hostname),
  ([105, 100], .bi_id),
  ([112, 114, 105, 110, 116], .bi_echo),
  ([112, 119, 100], .bi_pwd),
  ([113, 117, 105, 116], .bi_quit),
  ([101, 120, 105, 116], .bi_quit),
  ([98, 121, 101], .bi_quit),
  ([108, 111, 103, 111, 117, 116], .bi_quit)]

/-- The command's function, if it is in the table. -/
def is_builtin (cmd : Token) : Option Builtin := (inbuilts.find? fun c => c.1 = cmd).map (·.2)

/-! ## main -/

/-- What the loop does with a command: `do_builtin`, with the function found,
or `run_command`. -/
inductive Call where
  | do_builtin (this : Builtin) (argv : List Token)
  | run_command (argv : List Token)
  deriving DecidableEq

/-- The vector it is made with. -/
def Call.argv : Call → List Token
  | .do_builtin _ argv => argv
  | .run_command argv => argv

/-- It ends the shell: `bi_quit`, or a `run_command` whose `fork` fails. -/
def Call.ends (forks : Bool) : Call → Bool
  | .do_builtin this _ => this = .bi_quit
  | .run_command _ => !forks

/-- What is done for an argument vector. -/
def dispatch (argv : List Token) : Call :=
  match is_builtin (argv.headD []) with
  | some this => .do_builtin this argv
  | none => .run_command argv

/-- The standard input: the file, the offset it is read at, which the children
share, and what the shell's stream has read ahead. -/
structure Stdin where
  file : List Byte
  offset : Nat
  ahead : List Byte
  deriving DecidableEq

namespace Stdin

/-- Nothing of the file has been read. -/
def ofFile (file : List Byte) : Stdin := ⟨file, 0, []⟩

/-- What the shell is yet to read, if nobody else moves the offset. -/
def rest (s : Stdin) : List Byte := s.ahead ++ s.file.drop s.offset

/-- `n` bytes taken from the stream. When it has to read the file for them it
reads on; by how much is for the system to decide, and for the offset. -/
def take (s : Stdin) (n : Nat) (more : Nat → Nat) : Stdin :=
  if n ≤ s.ahead.length then { s with ahead := s.ahead.drop n }
  else
    let pos := s.offset + (n - s.ahead.length)
    let ahead := (s.file.drop pos).take (more pos)
    { s with offset := pos + ahead.length, ahead }

/-- `fgets(line,LONGLINE,stdin)` -/
def fgets (s : Stdin) (more : Nat → Nat) (line : Buf LONGLINE) : Option (Buf LONGLINE × Stdin) :=
  (SysProg.fgets line 0 LONGLINE s.rest).map fun (line, rest) => (line, s.take (s.rest.length - rest.length) more)

/-- What the `exit` of a child leaves of a file: it seeks back to where its copy
of the stream is. -/
def exitOffset (s : Stdin) : Nat := s.offset - s.ahead.length

end Stdin

/-- What the loop meets in the system. -/
structure World where
  /-- How much the stream reads ahead, by the offset. -/
  more : Nat → Nat
  /-- Whether the `fork` of the `n`-th call succeeds, if that is `run_command`. -/
  forks : Nat → Bool
  /-- Where the children, those in the background too, have left the offset when
  the `n`-th call has returned. -/
  leaves : Nat → Stdin → Nat

/-- One in which all forks succeed and nobody else moves the offset. -/
def World.quiet : World := ⟨fun _ => 0, fun _ => true, fun _ s => s.offset⟩

/-- The standard input when the `n`-th call has returned. -/
def World.after (w : World) (n : Nat) (s : Stdin) : Stdin := { s with offset := w.leaves n s }

/-- A call of the loop, and the standard input before and after it. -/
structure Turn where
  call : Call
  before : Stdin
  after : Stdin

/-- The first turns of the loop, when `n` calls have been made. -/
def mainLoop (w : World) : Nat → Nat → Buf LONGLINE → Stdin → List Turn
  | 0, _, _, _ => []
  | turns + 1, n, line, s =>
    match s.fgets w.more line with
    | none => []
    | some (line, s) =>
      match parse line.str with
      | some argv =>
        let c := dispatch argv
        if c.ends (w.forks n) then [⟨c, s, s⟩]
        else ⟨c, s, w.after n s⟩ :: mainLoop w turns (n + 1) line (w.after n s)
      | none => mainLoop w turns n line s

/-- The calls of the first turns. -/
def calls (w : World) (turns : Nat) (line : Buf LONGLINE) (s : Stdin) : List Call :=
  (mainLoop w turns 0 line s).map Turn.call

/-- The standard input is after each call what it was before. -/
def Undisturbed (turns : List Turn) : Prop := ∀ t ∈ turns, t.after = t.before

/-! ## Tokens -/

theorem parseRest_eq {n : Nat} {s : List Byte} (hn : s.length < n) : parseRest n s = tokens delim s := by
  induction n generalizing s with
  | zero => omega
  | succ n ih =>
    rcases strtok_eq delim s with ⟨hs, ht⟩ | ⟨t, rest, hs, ht, hlen⟩
    · rw [parseRest, hs, ht]
    · rw [parseRest, hs, ht]
      simp only [ih (show rest.length < n by omega)]

theorem parse_eq (line : List Byte) :
    parse line = if tokens delim line = [] then none else some (tokens delim line) := by
  rw [parse, parseRest_eq (Nat.lt_succ_self _)]
  cases tokens delim line with
  | nil => rfl
  | cons t ts => rfl

/-! ## Lines, and the pieces they are read in -/

/-- A line of the input, without its newline. -/
structure Line where
  chars : List Byte
  noNL : NL ∉ chars
  noNul : NUL ∉ chars

/-- The input that consists of these lines. -/
def stdinOf (ls : List Line) : List Byte := ls.flatMap fun l => l.chars ++ [NL]

/-- What is read of a line, one `fgets` after the other. -/
def pieces (l : List Byte) : List (List Byte) :=
  if l.length < LONGLINE - 1 then [l ++ [NL]] else l.take (LONGLINE - 1) :: pieces (l.drop (LONGLINE - 1))
termination_by l.length
decreasing_by
  rw [List.length_drop]
  simp only [LONGLINE] at *
  omega

/-- What a line alone would come to, if it were read whole. -/
def command (l : List Byte) : Option Call := (parse l).map dispatch

/-- The calls from the `n`-th on, up to the first that ends the shell. -/
def untilEnd (forks : Nat → Bool) : Nat → List Call → List Call
  | _, [] => []
  | n, c :: cs => c :: if c.ends (forks n) then [] else untilEnd forks (n + 1) cs

/-- The rest of a line. -/
def Line.rest (l : Line) : Line where
  chars := l.chars.drop (LONGLINE - 1)
  noNL hm := l.noNL (List.mem_of_mem_drop hm)
  noNul hm := l.noNul (List.mem_of_mem_drop hm)

theorem Stdin.rest_take (s : Stdin) (n : Nat) (more : Nat → Nat) : (s.take n more).rest = s.rest.drop n := by
  unfold Stdin.take Stdin.rest
  split
  · next hle => rw [List.drop_append_of_le_length hle]
  · next hgt =>
    have hdrop : s.ahead.drop n = [] := List.drop_eq_nil_of_le (by omega)
    have htake (xs : List Byte) (m : Nat) : xs.take m ++ xs.drop (xs.take m).length = xs := by
      rcases Nat.le_total m xs.length with hm | hm
      · rw [List.length_take_of_le hm, List.take_append_drop]
      · rw [List.take_of_length_le hm, List.drop_length, List.append_nil]
    have hread := htake (s.file.drop (s.offset + (n - s.ahead.length))) (more (s.offset + (n - s.ahead.length)))
    rw [List.drop_drop] at hread
    rw [List.drop_append, hdrop, List.nil_append, List.drop_drop]
    exact hread

theorem Stdin.fgets_eq {s : Stdin} (more : Nat → Nat) {line line' : Buf LONGLINE} {rest : List Byte}
    (h : SysProg.fgets line 0 LONGLINE s.rest = some (line', rest)) :
    ∃ s', s.fgets more line = some (line', s') ∧ s'.rest = rest := by
  obtain ⟨-, xs, hchunk, -⟩ := fgets_some (by decide) h
  have happ := lineChunk_append (LONGLINE - 1) s.rest
  rw [hchunk] at happ
  refine ⟨_, by rw [Stdin.fgets, h]; rfl, ?_⟩
  rw [Stdin.rest_take, ← happ]
  simp

/-- One turn of the loop, by the string it reads. -/
theorem mainLoop_turn (w : World) (turns n : Nat) (line : Buf LONGLINE) {s : Stdin} {xs rest : List Byte}
    (hx : NUL ∉ xs) (hl : xs.length < LONGLINE)
    (hf : SysProg.fgets line 0 LONGLINE s.rest = some (line.store 0 (xs ++ [NUL]), rest)) :
    ∃ s', s'.rest = rest ∧ mainLoop w (turns + 1) n line s =
      match command xs with
      | some c =>
        if c.ends (w.forks n) then [⟨c, s', s'⟩]
        else ⟨c, s', w.after n s'⟩ :: mainLoop w turns (n + 1) (line.store 0 (xs ++ [NUL])) (w.after n s')
      | none => mainLoop w turns n (line.store 0 (xs ++ [NUL])) s' := by
  have hstr : (line.store 0 (xs ++ [NUL])).str = xs := by
    rw [Buf.store_str line 0 (by simp) hx (by omega)]
    rfl
  obtain ⟨s', hs', hrest⟩ := Stdin.fgets_eq w.more hf
  refine ⟨s', hrest, ?_⟩
  simp only [mainLoop, hs', hstr, command]
  cases parse xs <;> rfl

/-- The calls of a turn that is not disturbed: the loop goes on with what is left
of the input. -/
theorem calls_turn {w : World} {turns n : Nat} (line : Buf LONGLINE) {s : Stdin} {xs rest : List Byte}
    (hx : NUL ∉ xs) (hl : xs.length < LONGLINE)
    (hf : SysProg.fgets line 0 LONGLINE s.rest = some (line.store 0 (xs ++ [NUL]), rest))
    (hw : Undisturbed (mainLoop w (turns + 1) n line s)) {cs : List (List Byte)}
    (ih : ∀ n line s', s'.rest = rest → Undisturbed (mainLoop w turns n line s') →
      (mainLoop w turns n line s').map Turn.call = untilEnd w.forks n (cs.filterMap command)) :
    (mainLoop w (turns + 1) n line s).map Turn.call = untilEnd w.forks n ((xs :: cs).filterMap command) := by
  obtain ⟨s', hrest, hturn⟩ := mainLoop_turn w turns n line hx hl hf
  rw [hturn] at hw ⊢
  rw [List.filterMap_cons]
  cases hc : command xs with
  | none =>
    rw [hc] at hw
    exact ih n _ s' hrest hw
  | some c =>
    simp only [hc] at hw ⊢
    rw [untilEnd]
    split at hw
    · next hend =>
      rw [if_pos hend, if_pos hend]
      rfl
    · next hend =>
      have hafter : w.after n s' = s' := hw _ List.mem_cons_self
      rw [if_neg hend, if_neg hend, List.map_cons]
      rw [hafter] at hw ⊢
      exact congrArg (c :: ·) (ih (n + 1) _ s' hrest fun t ht => hw t (List.mem_cons_of_mem _ ht))

/-- Undisturbed, the loop does what the pieces come to, one after the other. -/
theorem mainLoop_eq {w : World} {turns n : Nat} (line : Buf LONGLINE) {s : Stdin} {ls : List Line}
    (hs : s.rest = stdinOf ls) (hn : (stdinOf ls).length < turns) (hw : Undisturbed (mainLoop w turns n line s)) :
    (mainLoop w turns n line s).map Turn.call =
      untilEnd w.forks n ((ls.flatMap fun l => pieces l.chars).filterMap command) := by
  induction turns generalizing n line s ls with
  | zero => omega
  | succ turns ih =>
    cases ls with
    | nil =>
      have hend : s.fgets w.more line = none := by
        rw [Stdin.fgets, hs]
        rfl
      rw [mainLoop, hend]
      rfl
    | cons l ls =>
      have hin : stdinOf (l :: ls) = l.chars ++ NL :: stdinOf ls := by simp [stdinOf]
      rw [hin] at hn hs
      rw [List.length_append, List.length_cons] at hn
      rw [List.flatMap_cons, pieces]
      split
      · next hlt =>
        have hnul : NUL ∉ l.chars ++ [NL] := by
          rw [List.mem_append, List.mem_singleton, not_or]
          exact ⟨l.noNul, by decide⟩
        refine calls_turn line hnul (by rw [List.length_append]; simp only [LONGLINE] at *; simp; omega)
          (hs ▸ fgets_line line 0 l.noNL (by simp only [LONGLINE] at *; omega) _) hw ?_
        exact fun n line s' hrest hw' => ih line hrest (by omega) hw'
      · next hge =>
        have hrest : l.chars.drop (LONGLINE - 1) ++ NL :: stdinOf ls = stdinOf (l.rest :: ls) := by
          simp [stdinOf, Line.rest]
        have hlen : (stdinOf (l.rest :: ls)).length < turns := by
          rw [← hrest, List.length_append, List.length_cons, List.length_drop]
          simp only [LONGLINE] at *
          omega
        refine calls_turn line (fun hm => l.noNul (List.mem_of_mem_take hm))
          (by rw [List.length_take]; simp only [LONGLINE]; omega)
          (hs ▸ fgets_cut line 0 l.noNL (by decide) (by omega) _) hw ?_
        exact fun n line s' hs' hw' => ih line (hs'.trans hrest) hlen hw'

/-! ## Lines done as one command -/

/-- Of the pieces a line is read in one at most has a token. -/
def Whole (l : List Byte) : Prop := ((pieces l).filter fun p => tokens delim p ≠ []).length ≤ 1

theorem command_eq (l : List Byte) :
    command l = if tokens delim l = [] then none else some (dispatch (tokens delim l)) := by
  rw [command, parse_eq]
  split <;> rfl

theorem dispatch_argv (argv : List Token) : (dispatch argv).argv = argv := by
  unfold dispatch
  split <;> rfl

theorem command_newline (l : List Byte) : command (l ++ [NL]) = command l := by
  have hnl : tokens delim (l ++ [NL]) = tokens delim l := tokens_append_blank (by simp [delim])
  rw [command_eq, command_eq, hnl]

theorem pieces_flatten (l : List Byte) : (pieces l).flatten = l ++ [NL] := by
  induction l using pieces.induct with
  | case1 l hlt => rw [pieces, if_pos hlt, List.flatten_singleton]
  | case2 l hge ih =>
    rw [pieces, if_neg hge, List.flatten_cons, ih, ← List.append_assoc, List.take_append_drop]

/-- No piece of a line has a token exactly when it has none itself. -/
theorem tokens_pieces (l : List Byte) : (∀ p ∈ pieces l, tokens delim p = []) ↔ tokens delim l = [] := by
  have hnl : NL ∈ delim := by decide
  simp only [tokens_eq_nil]
  constructor
  · intro h c hc
    have hmem : c ∈ (pieces l).flatten := by
      rw [pieces_flatten]
      exact List.mem_append_left _ hc
    obtain ⟨p, hp, hcp⟩ := List.mem_flatten.1 hmem
    exact h p hp c hcp
  · intro h p hp c hc
    have hmem : c ∈ (pieces l).flatten := List.mem_flatten.2 ⟨p, hp, hc⟩
    rw [pieces_flatten, List.mem_append, List.mem_singleton] at hmem
    rcases hmem with hm | rfl
    · exact h c hm
    · exact hnl

theorem pieces_blank {l : List Byte} :
    ((pieces l).filter fun p => tokens delim p ≠ []) = [] ↔ tokens delim l = [] := by
  rw [← tokens_pieces, List.filter_eq_nil_iff]
  simp

theorem tokens_drop {l : List Byte} {n : Nat} (h : tokens delim (l.take n) = []) :
    tokens delim l = tokens delim (l.drop n) := by
  conv_lhs => rw [← List.take_append_drop n l]
  exact tokens_blank_append (tokens_eq_nil.1 h)

theorem tokens_take {l : List Byte} {n : Nat} (h : tokens delim (l.drop n) = []) :
    tokens delim l = tokens delim (l.take n) := by
  conv_lhs => rw [← List.take_append_drop n l]
  exact tokens_append_blank (tokens_eq_nil.1 h)

/-- A line of which only one piece has tokens is done as one command, that of
its own tokens. -/
theorem Whole.command {l : List Byte} (h : Whole l) : (pieces l).filterMap command = (command l).toList := by
  induction l using pieces.induct with
  | case1 l hlt =>
    rw [pieces, if_pos hlt, List.filterMap_cons, command_newline]
    cases Shell.command l <;> rfl
  | case2 l hge ih =>
    rw [Whole, pieces, if_neg hge] at h
    rw [pieces, if_neg hge, List.filterMap_cons, command_eq (l.take (LONGLINE - 1))]
    by_cases ht : tokens delim (l.take (LONGLINE - 1)) = []
    · rw [List.filter_cons_of_neg (by simpa using ht)] at h
      rw [if_pos ht, ih h, command_eq, command_eq, tokens_drop ht]
    · rw [List.filter_cons_of_pos (by simpa using ht), List.length_cons] at h
      have hdrop : tokens delim (l.drop (LONGLINE - 1)) = [] :=
        pieces_blank.1 (List.eq_nil_of_length_eq_zero (Nat.le_zero.1 (Nat.le_of_succ_le_succ h)))
      have hmore : (pieces (l.drop (LONGLINE - 1))).filterMap Shell.command = [] := by
        rw [List.filterMap_eq_nil_iff]
        intro p hp
        rw [command_eq, if_pos ((tokens_pieces _).2 hdrop p hp)]
      rw [if_neg ht, hmore, command_eq, tokens_take hdrop, if_neg ht]
      rfl

/-- Of another line the first command done is not that of its tokens. -/
theorem command_of_not_whole {l : List Byte} (h : ¬ Whole l) : ∃ c cs c', (pieces l).filterMap command = c :: cs ∧
    command l = some c' ∧ c.argv ≠ c'.argv := by
  induction l using pieces.induct with
  | case1 l hlt =>
    refine absurd ?_ h
    rw [Whole, pieces, if_pos hlt]
    exact List.length_filter_le ..
  | case2 l hge ih =>
    rw [Whole, pieces, if_neg hge] at h
    rw [pieces, if_neg hge, List.filterMap_cons, command_eq (l.take (LONGLINE - 1))]
    by_cases ht : tokens delim (l.take (LONGLINE - 1)) = []
    · rw [List.filter_cons_of_neg (by simpa using ht)] at h
      rw [if_pos ht, command_eq l, tokens_drop ht, ← command_eq]
      exact ih h
    · rw [List.filter_cons_of_pos (by simpa using ht), List.length_cons] at h
      -- the other pieces have a byte of a token, which the first piece's tokens lack
      have hdrop : tokens delim (l.drop (LONGLINE - 1)) ≠ [] := by
        intro hnil
        exact h (Nat.succ_le_succ (Nat.le_zero.2 (List.length_eq_zero_iff.2 (pieces_blank.2 hnil))))
      have hne : tokens delim (l.take (LONGLINE - 1)) ≠ tokens delim l := by
        intro he
        have hflat := congrArg List.flatten he
        rw [tokens_flatten, tokens_flatten] at hflat
        conv_rhs at hflat => rw [← List.take_append_drop (LONGLINE - 1) l, List.filter_append]
        have hempty := List.self_eq_append_right.1 hflat
        refine hdrop (tokens_eq_nil.2 fun c hc => ?_)
        simpa using List.filter_eq_nil_iff.1 hempty c hc
      have hl : tokens delim l ≠ [] := by
        intro hnil
        refine ht (tokens_eq_nil.2 fun c hc => ?_)
        exact tokens_eq_nil.1 hnil c (List.mem_of_mem_take hc)
      refine ⟨_, _, dispatch (tokens delim l), by rw [if_neg ht], by rw [command_eq, if_neg hl], ?_⟩
      rw [dispatch_argv, dispatch_argv]
      exact hne

/-! ## The whole input -/

/-- The lines up to the first whose command ends the shell, when `n` calls
have been made. -/
def reached (forks : Nat → Bool) : Nat → List Line → List Line
  | _, [] => []
  | n, l :: ls => l :: match command l.chars with
    | none => reached forks n ls
    | some c => if c.ends (forks n) then [] else reached forks (n + 1) ls

/-- The lines after that. -/
def missed (forks : Nat → Bool) : Nat → List Line → List Line
  | _, [] => []
  | n, l :: ls =>
    match command l.chars with
    | none => missed forks n ls
    | some c => if c.ends (forks n) then ls else missed forks (n + 1) ls

/-- The commands of the lines, one for each that has a token. -/
def commands (ls : List Line) : List Call := ls.filterMap fun l => command l.chars

/-- The commands the loop does, in their order, when `n` calls have been made. -/
def done (forks : Nat → Bool) (n : Nat) (ls : List Line) : List Call :=
  untilEnd forks n ((ls.flatMap fun l => pieces l.chars).filterMap command)

section

variable {forks : Nat → Bool} {n : Nat}

theorem done_cons (l : Line) (ls : List Line) :
    done forks n (l :: ls) = untilEnd forks n ((pieces l.chars).filterMap command ++
      (ls.flatMap fun l => pieces l.chars).filterMap command) := by
  rw [done, List.flatMap_cons, List.filterMap_append]

theorem commands_cons (l : Line) (ls : List Line) : commands (l :: ls) = (command l.chars).toList ++ commands ls := by
  rw [commands, List.filterMap_cons]
  cases command l.chars <;> rfl

theorem done_cons_whole {l : Line} (h : Whole l.chars) (ls : List Line) : done forks n (l :: ls) =
    match command l.chars with
    | none => done forks n ls
    | some c => c :: if c.ends (forks n) then [] else done forks (n + 1) ls := by
  rw [done_cons, h.command]
  cases command l.chars with
  | none => rfl
  | some c => rfl

/-- A line that is not spoils what is done, whatever follows. -/
theorem done_cons_ne {l : Line} (h : ¬ Whole l.chars) (ls : List Line) (cs : List Call) :
    done forks n (l :: ls) ≠ (command l.chars).toList ++ cs := by
  obtain ⟨c, more, c', hc, hc', hne⟩ := command_of_not_whole h
  rw [done_cons, hc, hc']
  intro he
  exact hne (congrArg Call.argv (List.cons.inj he).1)

/-- What is done, by the lines that are reached and those that are not. -/
theorem done_iff (ls : List Line) :
    (done forks n ls = untilEnd forks n (commands ls) ↔ ∀ l ∈ reached forks n ls, Whole l.chars) ∧
    (done forks n ls = commands ls ↔
      (∀ l ∈ reached forks n ls, Whole l.chars) ∧ ∀ l ∈ missed forks n ls, command l.chars = none) := by
  induction ls generalizing n with
  | nil => exact ⟨by simp [reached, done, commands], by simp [reached, missed, done, commands, untilEnd]⟩
  | cons l ls ih =>
    rw [commands_cons, reached, List.forall_mem_cons]
    by_cases hl : Whole l.chars
    · rw [done_cons_whole hl]
      simp only [hl, true_and, missed]
      cases hc : command l.chars with
      | none => exact ih
      | some c =>
        rw [Option.toList_some, List.singleton_append, untilEnd, List.cons_inj_right, List.cons_inj_right]
        by_cases hend : c.ends (forks n)
        · simp only [if_pos hend, eq_comm (a := []), commands, List.filterMap_eq_nil_iff]
          simp
        · simp only [if_neg hend]
          exact ih
    · obtain ⟨-, -, c, -, hc, -⟩ := command_of_not_whole hl
      have hne (cs : List Call) : done forks n (l :: ls) ≠ c :: cs := by
        have : done forks n (l :: ls) ≠ _ := done_cons_ne hl ls cs
        rwa [hc] at this
      rw [hc, Option.toList_some, List.singleton_append, untilEnd]
      exact ⟨iff_of_false (hne _) fun h => hl h.1, iff_of_false (hne _) fun h => hl h.1.1⟩

end

/-- A system whose streams read 4096 bytes ahead, and all forks of which
succeed. After the calls in `exits` a process of the command ends in `exit`. -/
def World.reading (exits : List Nat) : World :=
  ⟨fun _ => 4096, fun _ => true, fun n s => if n ∈ exits then s.exitOffset else s.offset⟩

/-- The lines cat and ls -l. -/
def catLs : List Line := [⟨[99, 97, 116], by decide, by decide⟩, ⟨[108, 115, 32, 45, 108], by decide, by decide⟩]

/-- echo, and a word of 251 characters: 249 times the letter a, and rm. -/
def longLine : Line where
  chars := [101, 99, 104, 111, 32] ++ List.replicate 249 97 ++ [114, 109]
  noNL := by decide +kernel
  noNul := by decide +kernel

/-- The lines nosuch and echo hi. -/
def nosuchEcho : List Line :=
  [⟨[110, 111, 115, 117, 99, 104], by decide, by decide⟩, ⟨[101, 99, 104, 111, 32, 104, 105], by decide, by decide⟩]

end SysProg.Shell
