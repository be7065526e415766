/-
Pipelines with redirections written in their stages. The shell strips them
from the whole vector before it looks for a pipe, the first `<` and the first
`>` of it; so a pipeline is run as written exactly when there are no others
and they stand in the first and in the last stage.
-/
import SysProg.Pipeline

namespace SysProg.Shell

/-! ## Pipelines as they are written -/

/-- A string that is not an operator. -/
structure Word where
  chars : Token
  noPipe : chars ≠ PIPE
  noLT : chars ≠ LT
  noGT : chars ≠ GT

/-- The operator of a redirection. -/
def Mode.op : Mode → Token
  | .read => LT
  | .write => GT

/-- What a stage is written of: words, and redirections to files. -/
inductive Item where
  | word (w : Word)
  | file (mode : Mode) (f : Word)

/-- The words of a stage, without its redirections. -/
def words (items : List Item) : List Token :=
  items.filterMap fun
    | .word w => some w.chars
    | .file _ _ => none

/-- The files of a stage's redirections of a kind, in their order. -/
def files (mode : Mode) (items : List Item) : List Token :=
  items.filterMap fun
    | .word _ => none
    | .file m f => if m = mode then some f.chars else none

/-- A stage with its redirections: a command. -/
structure Segment where
  items : List Item
  command : words items ≠ []

theorem mem_words {items : List Item} {t : Token} (h : t ∈ words items) : t ≠ PIPE := by
  obtain ⟨i, -, hi⟩ := List.mem_filterMap.1 h
  cases i with
  | word w => cases hi; exact w.noPipe
  | file m f => cases hi

/-- The stage without its redirections. -/
def Segment.stage (s : Segment) : Stage := ⟨words s.items, s.command, fun h => mem_words h rfl⟩

/-- A pipeline on one line: its items, `none` for a pipe symbol. -/
def elems : Segment → List Segment → List (Option Item)
  | s, [] => s.items.map some
  | s, s' :: ss => s.items.map some ++ none :: elems s' ss

/-- The strings of an item or a pipe symbol. -/
def strings : Option Item → List Token
  | none => [PIPE]
  | some (.word w) => [w.chars]
  | some (.file m f) => [m.op, f.chars]

/-- The strings of the elements. -/
def text (e : List (Option Item)) : List Token := e.flatMap strings

/-- The strings of a pipeline. -/
def lineOf (s : Segment) (ss : List Segment) : List Token := text (elems s ss)

/-- The pipeline `s :: ss` is run as it is written: a process a stage, with
the stage's words, its stdin and stdout the last file it names for them and
otherwise a pipe or what the shell has. -/
def AsWritten (env : Env) (t : Fds Desc) (ss : List Segment) (ps : List Proc) : Prop :=
  ps.length = ss.length ∧ ∀ k (hk : k < ss.length), ∃ fds, ps[k]? = some (env.execvp (words ss[k].items) fds) ∧
    (fds.get 0 = match (files .read ss[k].items).getLast? with
      | some f => some (.file f .read)
      | none => if k = 0 then t.get 0 else some (.pipeRead (k - 1))) ∧
    (fds.get 1 = match (files .write ss[k].items).getLast? with
      | some f => some (.file f .write)
      | none => if k + 1 = ss.length then t.get 1 else some (.pipeWrite k))

/-- All redirections of the pipeline are one of stdin in its first stage and
one of stdout in its last, or less. -/
def RedirsAtEnds (ss : List Segment) : Prop :=
  ∀ k (hk : k < ss.length), (files .read ss[k].items).length ≤ (if k = 0 then 1 else 0) ∧
    (files .write ss[k].items).length ≤ if k + 1 = ss.length then 1 else 0

/-! ## The items of a line -/

/-- The redirections of a kind on a line. -/
def filesIn (mode : Mode) (e : List (Option Item)) : List Token := files mode (e.filterMap id)

/-- The line without them. -/
def without (mode : Mode) (e : List (Option Item)) : List (Option Item) :=
  e.filter fun
    | some (.file m _) => m ≠ mode
    | _ => true

section

variable {mode : Mode} {e : List (Option Item)}

@[simp] theorem filesIn_file (m : Mode) (f : Word) : filesIn mode (some (.file m f) :: e) =
    if m = mode then f.chars :: filesIn mode e else filesIn mode e := by
  by_cases hm : m = mode <;> simp [filesIn, files, hm]

@[simp] theorem without_pipe : without mode (none :: e) = none :: without mode e := rfl
@[simp] theorem without_word (w : Word) :
    without mode (some (.word w) :: e) = some (.word w) :: without mode e := rfl

@[simp] theorem without_file (m : Mode) (f : Word) : without mode (some (.file m f) :: e) =
    if m = mode then without mode e else some (.file m f) :: without mode e := by
  by_cases hm : m = mode <;> simp [without, hm]

theorem Mode.op_inj {m : Mode} (h : mode.op = m.op) : mode = m := by
  cases mode <;> cases m <;> first | rfl | cases h

theorem Word.ne_op (w : Word) : mode.op ≠ w.chars := by
  cases mode with
  | read => exact w.noLT.symm
  | write => exact w.noGT.symm

theorem Mode.op_ne_pipe : mode.op ≠ PIPE := by
  cases mode <;> decide

/-- A line without redirections of a kind does not hold their operator. -/
theorem op_not_mem (h : filesIn mode e = []) : mode.op ∉ text e := by
  induction e with
  | nil => exact List.not_mem_nil
  | cons x e ih =>
    rw [text, List.flatMap_cons, List.mem_append, not_or, ← text]
    match x with
    | none => exact ⟨by simpa [strings] using Mode.op_ne_pipe, ih h⟩
    | some (.word w) => exact ⟨by simpa [strings] using w.ne_op, ih h⟩
    | some (.file m f) =>
      rw [filesIn_file] at h
      split at h
      · cases h
      · next hm =>
        refine ⟨?_, ih h⟩
        simp only [strings, List.mem_cons, List.not_mem_nil, or_false, not_or]
        exact ⟨fun he => hm (Mode.op_inj he).symm, f.ne_op⟩

theorem without_of_nil (h : filesIn mode e = []) : without mode e = e := by
  induction e with
  | nil => rfl
  | cons x e ih =>
    match x with
    | none => rw [without_pipe, ih h]
    | some (.word w) => rw [without_word, ih h]
    | some (.file m f) =>
      rw [filesIn_file] at h
      split at h
      · cases h
      · next hm => rw [without_file, if_neg hm, ih h]

/-- A line with one redirection of a kind, taken apart there. -/
theorem split_of_one {g : Token} (h : filesIn mode e = [g]) :
    ∃ e₁ e₂ f, e = e₁ ++ some (.file mode f) :: e₂ ∧
    f.chars = g ∧ filesIn mode e₁ = [] ∧ filesIn mode e₂ = [] := by
  induction e with
  | nil => cases h
  | cons x e ih =>
    by_cases hx : ∃ f, x = some (.file mode f)
    · obtain ⟨f, rfl⟩ := hx
      rw [filesIn_file, if_pos rfl, List.cons.injEq] at h
      exact ⟨[], e, f, rfl, h.1, rfl, h.2⟩
    · have hskip : ∀ e', filesIn mode (x :: e') = filesIn mode e' := by
        intro e'
        match x with
        | none => rfl
        | some (.word w) => rfl
        | some (.file m f) => rw [filesIn_file, if_neg fun hm => hx ⟨f, by rw [hm]⟩]
      obtain ⟨e₁, e₂, f, rfl, hf, h₁, h₂⟩ := ih (by rwa [hskip] at h)
      exact ⟨x :: e₁, e₂, f, rfl, hf, by rw [hskip]; exact h₁, h₂⟩

theorem filesIn_without {m : Mode} (hm : m ≠ mode) : filesIn m (without mode e) = filesIn m e := by
  induction e with
  | nil => rfl
  | cons x e ih =>
    match x with
    | none => exact ih
    | some (.word w) => exact ih
    | some (.file m' f) =>
      rw [without_file]
      split
      · next hm' => rw [ih, filesIn_file, if_neg (hm' ▸ hm.symm)]
      · rw [filesIn_file, filesIn_file, ih]

end

/-! ## What is left for the pipes -/

/-- A redirection, when a line has at most one of its kind. -/
theorem redirect_line (mode : Mode) (fd : Nat) {env : Env} {a : Argv} {t : Fds Desc} {e : List (Option Item)}
    (h : Vec a (text e)) (hone : (filesIn mode e).length ≤ 1)
    (hopen : ∀ f ∈ filesIn mode e, env.openFails mode f = none) (hfd : (t.get fd).isSome) :
    ∃ a' u, redirect mode.op mode fd env a t = .ok (a', u, (filesIn mode e).head?) ∧
      Vec a' (text (without mode e)) ∧ ∀ k, u.get k = if k = fd then (match (filesIn mode e).head? with
        | some f => some (.file f mode)
        | none => t.get fd) else t.get k := by
  match hf : filesIn mode e with
  | [] =>
    refine ⟨a, t, redirect_absent h (op_not_mem hf), by rwa [without_of_nil hf], ?_⟩
    intro k
    split
    · next hk => rw [hk, List.head?_nil]
    · rfl
  | [g] =>
    obtain ⟨e₁, e₂, f, rfl, rfl, h₁, h₂⟩ := split_of_one hf
    have htext : text (e₁ ++ some (.file mode f) :: e₂) = text e₁ ++ mode.op :: f.chars :: text e₂ := by
      simp [text, strings]
    rw [htext] at h
    obtain ⟨a', ha', hr⟩ := redirect_file fd t h (op_not_mem h₁) (hopen f.chars (by simp [hf]))
    refine ⟨a', _, hr, ?_, ?_⟩
    · have happ : without mode (e₁ ++ some (.file mode f) :: e₂) = without mode e₁ ++ without mode e₂ := by
        simp [without]
      rwa [happ, without_of_nil h₁, without_of_nil h₂, text, List.flatMap_append]
    · intro k
      exact Fds.get_redirected hfd _ k
  | _ :: _ :: _ => rw [hf] at hone; simp at hone

/-- Without its redirections a line is the pipeline of its stages. -/
theorem text_without (s : Segment) (ss : List Segment) :
    text (without .write (without .read (elems s ss))) = pipelineOf s.stage (ss.map Segment.stage) := by
  have hitems : ∀ items : List Item,
      text (without .write (without .read (items.map some))) = words items := by
    intro items
    induction items with
    | nil => rfl
    | cons i items ih =>
      cases i with
      | word w => simpa [without, text, strings, words] using ih
      | file m f => cases m <;> simpa [without, text, strings, words] using ih
  have happ : ∀ e₁ e₂ : List (Option Item), text (without .write (without .read (e₁ ++ none :: e₂))) =
      text (without .write (without .read e₁)) ++ PIPE :: text (without .write (without .read e₂)) := by
    intro e₁ e₂
    simp [without, text, strings]
  induction ss generalizing s with
  | nil => exact hitems s.items
  | cons s' ss ih => rw [elems, happ, hitems, ih s']; rfl

theorem filesIn_elems (mode : Mode) (s : Segment) (ss : List Segment) :
    filesIn mode (elems s ss) = (s :: ss).flatMap fun s => files mode s.items := by
  have hid : ∀ items : List Item, (items.map some).filterMap id = items := by
    intro items
    simp [List.filterMap_map]
  induction ss generalizing s with
  | nil => simp [elems, filesIn]
  | cons s' ss ih =>
    have := ih s'
    rw [filesIn] at this
    rw [List.flatMap_cons, ← this, elems, filesIn, List.filterMap_append, hid, files, List.filterMap_append]
    rfl

/-- What the first process of a line has at stdin and stdout when it comes to
its pipes: the file of the redirection, or what the shell has. -/
def lineEnd (t : ShellFds) (e : List (Option Item)) (mode : Mode) (fd : Nat) : Option Desc :=
  match (filesIn mode e).head? with
  | some f => some (.file f mode)
  | none => t.table.get fd

theorem lineEnd_isSome (t : ShellFds) (e : List (Option Item)) (mode : Mode) {fd : Nat} (hfd : fd < 3) :
    (lineEnd t e mode fd).isSome := by
  unfold lineEnd
  split
  · rfl
  · exact t.std fd hfd

/-- A line with one redirection of a kind at most, and no `&` at its end, after
its redirections: the strings and the descriptors that go to `pipe_and_exec`. -/
theorem line_redirected {env : Env} (t : ShellFds) (s : Segment) (ss : List Segment)
    (hopen : ∀ mode, ∀ f ∈ filesIn mode (elems s ss), env.openFails mode f = none)
    (hr : (filesIn .read (elems s ss)).length ≤ 1) (hw : (filesIn .write (elems s ss)).length ≤ 1)
    (hamp : foreground (lineOf s ss) = lineOf s ss) :
    ∃ a₁ u₁ o₁ a u, redirect_in env (is_background (parsed (lineOf s ss))).2 t.table = .ok (a₁, u₁, o₁) ∧
      redirect_out env a₁ u₁ = .ok (a, u, (filesIn .write (elems s ss)).head?) ∧
      Vec a (pipelineOf s.stage (ss.map Segment.stage)) ∧ u.get 0 = lineEnd t (elems s ss) .read 0 ∧
      u.get 1 = lineEnd t (elems s ss) .write 1 ∧ ∀ m, 2 ≤ m → u.get m = t.table.get m := by
  have hb := (is_background_eq (Vec.parsed (lineOf s ss))).2
  rw [hamp] at hb
  obtain ⟨a₁, u₁, hin, ha₁, hu₁⟩ := redirect_line .read 0 hb hr (hopen .read) (t.std 0 (by decide))
  obtain ⟨a₂, u₂, hout, ha₂, hu₂⟩ := redirect_line .write 1 (t := u₁) ha₁
    (by rwa [filesIn_without (by decide)]) (by rw [filesIn_without (by decide)]; exact hopen .write)
    (by rw [hu₁, if_neg (by decide)]; exact t.std 1 (by decide))
  rw [filesIn_without (by decide)] at hout hu₂
  rw [text_without] at ha₂
  refine ⟨a₁, u₁, _, a₂, u₂, hin, hout, ha₂, ?_, ?_, ?_⟩
  · rw [hu₂, if_neg (by decide), hu₁, if_pos rfl]
    rfl
  · rw [hu₂, if_pos rfl, hu₁, if_neg (by decide)]
    rfl
  · intro m hm
    rw [hu₂, if_neg (by omega), hu₁, if_neg (by omega)]

/-- The processes of a pipeline are those of its stages' words. -/
theorem stages_wired {env : Env} (hfork : ∀ id, env.forkFails id = none) {a : Argv} {u : Fds Desc} {s : Segment}
    {ss : List Segment} (ha : Vec a (pipelineOf s.stage (ss.map Segment.stage))) (h0 : (u.get 0).isSome)
    (h1 : (u.get 1).isSome) :
    (pipe_and_exec env 0 a u).length = (s :: ss).length ∧ ∀ k (hk : k < (s :: ss).length),
      ∃ fds, (pipe_and_exec env 0 a u)[k]? = some (env.execvp (words (s :: ss)[k].items) fds) ∧
        Wired u 0 (s :: ss).length k fds := by
  have hmap : (s.stage :: ss.map Segment.stage) = (s :: ss).map Segment.stage := rfl
  obtain ⟨hlen, hstages⟩ := pipe_and_exec_wired hfork ha h0 h1 0
  refine ⟨by rw [hlen, hmap, List.length_map], ?_⟩
  intro k hk
  obtain ⟨fds, hget, hw⟩ := hstages k (by simpa using hk)
  rw [hmap, List.length_map] at hw
  refine ⟨fds, ?_, hw⟩
  rw [hget]
  simp only [hmap, List.getElem_map]
  rfl

/-- The processes of such a line, by the descriptors the redirections leave
the first. -/
theorem run_line {env : Env} (hfork : ∀ id, env.forkFails id = none) (t : ShellFds) (s : Segment) (ss : List Segment)
    (hopen : ∀ mode, ∀ f ∈ filesIn mode (elems s ss), env.openFails mode f = none)
    (hr : (filesIn .read (elems s ss)).length ≤ 1) (hw : (filesIn .write (elems s ss)).length ≤ 1)
    (hamp : foreground (lineOf s ss) = lineOf s ss) :
    ∃ u : Fds Desc,
      (u.get 0 = match (filesIn .read (elems s ss)).head? with
        | some f => some (.file f .read)
        | none => t.table.get 0) ∧
      (u.get 1 = match (filesIn .write (elems s ss)).head? with
        | some f => some (.file f .write)
        | none => t.table.get 1) ∧
      ∃ ps, (run_command env (parsed (lineOf s ss)) t.table).2.procs = ps ∧ ps.length = (s :: ss).length ∧
        ∀ k (hk : k < (s :: ss).length), ∃ fds, ps[k]? = some (env.execvp (words (s :: ss)[k].items) fds) ∧
          Wired u 0 (s :: ss).length k fds := by
  obtain ⟨a₁, u₁, o₁, a, u, hin, hout, ha, h0, h1, -⟩ := line_redirected t s ss hopen hr hw hamp
  obtain ⟨hlen, hstages⟩ := stages_wired hfork ha (by rw [h0]; exact lineEnd_isSome t _ _ (by decide))
    (by rw [h1]; exact lineEnd_isSome t _ _ (by decide))
  refine ⟨u, h0, h1, _, rfl, ?_⟩
  have hrun : (run_command env (parsed (lineOf s ss)) t.table).2.procs = pipe_and_exec env 0 a u := by
    simp only [run_command, runChild, hin, hout]
  rw [hrun]
  exact ⟨hlen, hstages⟩

/-! ## Lengths -/

theorem text_length (items : List Item) : (text (items.map some)).length =
    (words items).length + 2 * ((files .read items).length + (files .write items).length) := by
  induction items with
  | nil => rfl
  | cons i items ih =>
    rw [List.map_cons, text, List.flatMap_cons, List.length_append, ← text, ih]
    match i with
    | .word w => simp [strings, words, files]; omega
    | .file .read f => simp [strings, words, files]; omega
    | .file .write f => simp [strings, words, files]; omega

/-- A line's length: its stages' words, its pipes, and two for each redirection. -/
theorem lineOf_length (s : Segment) (ss : List Segment) : (lineOf s ss).length + 1 =
    ((s :: ss).map fun s => (words s.items).length + 1).sum +
      2 * ((filesIn .read (elems s ss)).length + (filesIn .write (elems s ss)).length) := by
  induction ss generalizing s with
  | nil =>
    rw [filesIn_elems, filesIn_elems, lineOf, elems, text_length]
    simp
    omega
  | cons s' ss ih =>
    have h := ih s'
    rw [filesIn_elems, filesIn_elems, lineOf] at h
    have hfiles : ∀ m, ((s :: s' :: ss).flatMap fun s => files m s.items).length =
        (files m s.items).length + ((s' :: ss).flatMap fun s => files m s.items).length := by
      intro m
      rw [List.flatMap_cons, List.length_append]
    have htext : (text (elems s (s' :: ss))).length =
        (text (s.items.map some)).length + (1 + (text (elems s' ss)).length) := by
      simp [elems, text, strings]
      omega
    rw [filesIn_elems, filesIn_elems, hfiles, hfiles, lineOf, htext, text_length, List.map_cons, List.sum_cons]
    omega

theorem foreground_cases (ts : List Token) :
    foreground ts = ts ∨ (foreground ts).length + 1 = ts.length := by
  unfold foreground
  split
  · rcases List.eq_nil_or_concat ts with rfl | ⟨p, t, rfl⟩
    · exact .inl rfl
    · exact .inr (by simp)
  · exact .inl rfl

/-! ## When a pipeline is run as written -/

section

variable {env : Env} {t : ShellFds} {s : Segment} {ss : List Segment}

/-- The processes of a pipeline run as written take up its words and a slot
for each stage. -/
theorem AsWritten.size {t : Fds Desc} {ss : List Segment} {ps : List Proc} (h : AsWritten env t ss ps) :
    ps.map Proc.size = ss.map fun s => (words s.items).length + 1 := by
  apply List.ext_getElem (by simpa using h.1)
  intro k h₁ h₂
  obtain ⟨fds, hget, -⟩ := h.2 k (by simpa using h₂)
  rw [List.getElem?_eq_getElem (by simpa using h₁), Option.some.injEq] at hget
  simp only [List.getElem_map, hget, Env.execvp, Proc.size]

/-- What a pipeline run as written has of redirections, told from the lengths:
each that is carried out takes two strings, and an `&` removed would leave an
odd number. -/
theorem one_of_asWritten
    (h : AsWritten env t.table (s :: ss) (run_command env (parsed (lineOf s ss)) t.table).2.procs) :
    (filesIn .read (elems s ss)).length ≤ 1 ∧ (filesIn .write (elems s ss)).length ≤ 1 ∧
      foreground (lineOf s ss) = lineOf s ss := by
  have hsum := congrArg List.sum h.size
  have hexec : ∀ p ∈ (run_command env (parsed (lineOf s ss)) t.table).2.procs, p.size ≠ 0 := by
    intro p hp
    have hm := List.mem_map_of_mem (f := Proc.size) hp
    rw [h.size] at hm
    obtain ⟨s', -, hs'⟩ := List.mem_map.1 hm
    rw [← hs']
    exact Nat.succ_ne_zero _
  have hlen := lineOf_length s ss
  have hin : LT ∈ lineOf s ss → filesIn .read (elems s ss) ≠ [] := fun hm hn => op_not_mem hn hm
  have hout : GT ∈ lineOf s ss → filesIn .write (elems s ss) ≠ [] := fun hm hn => op_not_mem hn hm
  rw [ne_eq, ← List.length_eq_zero_iff] at hin hout
  have hb := (is_background_eq (Vec.parsed (lineOf s ss))).2
  obtain ⟨a₁, t₁, o₁, a₂, t₂, o₂, hr₁, hr₂, hprocs⟩ := runChild_ok hexec
  -- The strings that are left of the line: `ts₁` after `<`, `ts₂` after `>`.
  obtain ⟨ts₁, r₁, ha₁, hl₁, hle₁, hm₁, hsub₁⟩ := redirect_removes hb hr₁
  obtain ⟨ts₂, r₂, ha₂, hl₂, hle₂, hm₂, -⟩ := redirect_removes ha₁ hr₂
  have hprocs : (run_command env (parsed (lineOf s ss)) t.table).2.procs = pipe_and_exec env 0 a₂ t₂ := hprocs
  rw [hprocs] at hsum hexec
  rw [pipe_and_exec_size ha₂ hexec] at hsum
  rcases foreground_cases (lineOf s ss) with hf | hf
  · rw [hf] at hl₁ hm₁ hsub₁
    have : r₁ = 1 → (filesIn .read (elems s ss)).length ≠ 0 := fun h => hin (hm₁ h)
    have : r₂ = 1 → (filesIn .write (elems s ss)).length ≠ 0 := fun h => hout (hsub₁ (hm₂ h))
    exact ⟨by omega, by omega, hf⟩
  · omega

theorem head?_eq_getLast? {α : Type*} {l : List α} (h : l.length ≤ 1) : l.head? = l.getLast? := by
  match l with
  | [] => rfl
  | [_] => rfl
  | _ :: _ :: _ => simp at h

theorem RedirsAtEnds.reads (h : RedirsAtEnds (s :: ss)) :
    filesIn .read (elems s ss) = files .read s.items := by
  have hnil : (ss.flatMap fun s => files .read s.items) = [] := by
    rw [List.flatMap_eq_nil_iff]
    intro s' hs'
    obtain ⟨k, hk, rfl⟩ := List.getElem_of_mem hs'
    have := (h (k + 1) (by simpa using hk)).1
    rw [if_neg (Nat.succ_ne_zero k)] at this
    simpa using this
  rw [filesIn_elems, List.flatMap_cons, hnil, List.append_nil]

theorem RedirsAtEnds.writes (h : RedirsAtEnds (s :: ss)) :
    filesIn .write (elems s ss) = files .write (((s :: ss).getLast (List.cons_ne_nil s ss)).items) := by
  have hnil : ((s :: ss).dropLast.flatMap fun s => files .write s.items) = [] := by
    rw [List.flatMap_eq_nil_iff]
    intro s' hs'
    obtain ⟨k, hk, rfl⟩ := List.getElem_of_mem hs'
    rw [List.length_dropLast] at hk
    have := (h k (by omega)).2
    rw [if_neg (by omega)] at this
    simpa using this
  conv_lhs => rw [filesIn_elems, ← List.dropLast_append_getLast (List.cons_ne_nil s ss)]
  rw [List.flatMap_append, hnil, List.nil_append, List.flatMap_singleton]

/-- A pipeline with its redirections at its ends, and no `&`, is run as written. -/
theorem asWritten_of_ends (hfork : ∀ id, env.forkFails id = none)
    (hopen : ∀ mode, ∀ f ∈ filesIn mode (elems s ss), env.openFails mode f = none) (h : RedirsAtEnds (s :: ss))
    (hamp : foreground (lineOf s ss) = lineOf s ss) :
    AsWritten env t.table (s :: ss) (run_command env (parsed (lineOf s ss)) t.table).2.procs := by
  have hr : (files .read s.items).length ≤ 1 := (h 0 (by simp)).1
  have hw : (files .write ((s :: ss).getLast (List.cons_ne_nil s ss)).items).length ≤ 1 := by
    have := (h ss.length (by simp)).2
    rw [if_pos (by simp)] at this
    rwa [List.getLast_eq_getElem]
  obtain ⟨u, h0, h1, ps, rfl, hlen, hstages⟩ := run_line hfork t s ss hopen (by rwa [h.reads])
    (by rwa [h.writes]) hamp
  rw [h.reads, head?_eq_getLast? hr] at h0
  rw [h.writes, head?_eq_getLast? hw] at h1
  refine ⟨hlen, ?_⟩
  intro k hk
  obtain ⟨fds, hget, hwired⟩ := hstages k hk
  refine ⟨fds, hget, ?_, ?_⟩
  · rw [hwired.stdin]
    by_cases hk0 : k = 0
    · subst hk0
      rw [if_pos rfl, if_pos rfl, h0]
      rfl
    · have := (h k hk).1
      rw [if_neg hk0, Nat.le_zero, List.length_eq_zero_iff] at this
      rw [if_neg hk0, if_neg hk0, this, Nat.zero_add]
      rfl
  · rw [hwired.stdout]
    by_cases hkn : k + 1 = (s :: ss).length
    · have hlast : (s :: ss).getLast (List.cons_ne_nil s ss) = (s :: ss)[k] := by
        rw [List.getLast_eq_getElem]
        congr 1
        omega
      rw [if_pos hkn, if_pos hkn, h1, hlast]
    · have := (h k hk).2
      rw [if_neg hkn, Nat.le_zero, List.length_eq_zero_iff] at this
      rw [if_neg hkn, if_neg hkn, this, Nat.zero_add]
      rfl

/-- A pipeline run as written has its redirections at its ends. -/
theorem ends_of_asWritten (hfork : ∀ id, env.forkFails id = none)
    (hopen : ∀ mode, ∀ f ∈ filesIn mode (elems s ss), env.openFails mode f = none)
    (h : AsWritten env t.table (s :: ss) (run_command env (parsed (lineOf s ss)) t.table).2.procs) :
    RedirsAtEnds (s :: ss) := by
  obtain ⟨hr, hw, hamp⟩ := one_of_asWritten h
  obtain ⟨u, -, -, ps, hps, -, hstages⟩ := run_line hfork t s ss hopen hr hw hamp
  rw [hps] at h
  intro k hk
  obtain ⟨fds, hget, hwired⟩ := hstages k hk
  obtain ⟨fds', hget', h0, h1⟩ := h.2 k hk
  obtain rfl : fds = fds' := by
    rw [hget, Option.some_inj] at hget'
    exact (Env.execvp_inj hget').2
  have hle : ∀ m, (files m (s :: ss)[k].items).length ≤ (filesIn m (elems s ss)).length := by
    intro m
    have hmem : files m (s :: ss)[k].items ∈ (s :: ss).map fun s => files m s.items :=
      List.mem_map.2 ⟨_, List.getElem_mem hk, rfl⟩
    rw [filesIn_elems, List.flatMap_def]
    exact (List.sublist_flatten_of_mem hmem).length_le
  constructor
  · split
    · exact (hle .read).trans hr
    · next hk0 =>
      rw [hwired.stdin, if_neg hk0] at h0
      split at h0
      · cases h0
      · next hnone => simpa using hnone
  · split
    · exact (hle .write).trans hw
    · next hkn =>
      rw [hwired.stdout, if_neg hkn] at h1
      split at h1
      · cases h1
      · next hnone => simpa using hnone

theorem foreground_eq_iff : foreground (lineOf s ss) = lineOf s ss ↔
    ((lineOf s ss).getLast?.getD []).headD NUL ≠ AMP := by
  have hpos : 0 < (lineOf s ss).length := by
    have := lineOf_length s ss
    have hne := List.length_pos_iff.2 s.command
    rw [List.map_cons, List.sum_cons] at this
    omega
  unfold foreground
  split
  · next hamp =>
    refine iff_of_false ?_ (fun hne => hne hamp)
    intro he
    have := congrArg List.length he
    rw [List.length_dropLast] at this
    omega
  · next hamp => exact iff_of_true rfl hamp

end

/-- A pipeline of commands with redirections, where the files open and the forks
succeed, is run as written exactly when the only ones are one `<` in its first
stage and one `>` in its last, or less, and its last string does not begin with `&`. -/
theorem asWritten_iff (execFails : List Token → Option Errno) (message : Errno → Errno) (t : ShellFds) (s : Segment)
    (ss : List Segment) :
    let env : Env := .forking (fun _ _ => none) execFails message
    AsWritten env t.table (s :: ss) (run_command env (parsed (lineOf s ss)) t.table).2.procs ↔
      RedirsAtEnds (s :: ss) ∧ ((lineOf s ss).getLast?.getD []).headD NUL ≠ AMP := by
  intro env
  have hfork : ∀ id, env.forkFails id = none := fun _ => rfl
  have hopen : ∀ mode, ∀ f ∈ filesIn mode (elems s ss), env.openFails mode f = none := fun _ _ _ => rfl
  rw [← foreground_eq_iff]
  exact ⟨fun h => ⟨ends_of_asWritten hfork hopen h, (one_of_asWritten h).2.2⟩,
    fun h => asWritten_of_ends hfork hopen h.1 h.2⟩

/-- A command of one word. -/
def Segment.ofWord (w : Word) (items : List Item) : Segment := ⟨.word w :: items, by simp [words]⟩

/-- In `a | b < f` the file is opened for `a`. -/
theorem redirect_in_second_stage : ¬ AsWritten .fine terminalFds.table
    [.ofWord ⟨[97], by decide, by decide, by decide⟩ [],
      .ofWord ⟨[98], by decide, by decide, by decide⟩ [.file .read ⟨[102], by decide, by decide, by decide⟩]]
    (run_command .fine (parsed [[97], PIPE, [98], LT, [102]]) terminalFds.table).2.procs := by
  intro h
  have := (ends_of_asWritten (fun _ => rfl) (fun _ _ _ => rfl) h 1 (by simp)).1
  simp [Segment.ofWord, files] at this

end SysProg.Shell
