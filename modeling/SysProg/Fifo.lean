/-
The loop of `fifo_server.c`: it reads a request, and looks up `tryit`, which
it never sets.
-/
import SysProg.Service
import Mathlib.Data.List.ReduceOption

namespace SysProg

namespace Fifo

/-- The server between two reads, opened with `lookup` and its variables. -/
structure Server (σ : Type) where
  tryit : Dictrec
  st : σ
  /-- What it has written: the name of a FIFO, and the bytes. -/
  written : List (List Byte × List Byte)

/-- The reply is that of a server on a socket. -/
def fifo_server (r : Result) : List Byte := Encoding.socketReply r

/-- The rest of the loop after a `read`, which has delivered a whole request
to `cli` or met the end of the file; then the FIFO is opened again. The FIFO
that `cli.id` names opens. -/
def pass {σ : Type} (lookup : σ → Dictrec → Option (Answer σ)) (srv : Server σ) : Option Request → Option (Server σ)
  | none => some srv
  | some cli =>
    (call lookup srv.st srv.tryit).map fun (r, st) =>
      ⟨r.tryit, st, srv.written ++ [(cli.id.str, fifo_server r)]⟩

/-- The passes for what the reads deliver. -/
def passes {σ : Type} (lookup : σ → Dictrec → Option (Answer σ)) : Server σ → List (Option Request) → Option (Server σ)
  | srv, [] => some srv
  | srv, read :: reads => (pass lookup srv read).bind fun srv => passes lookup srv reads

/-- What each request is to be answered: to the FIFO of its id, with what the
dictionary has for its word. -/
def replies (dict : Dictionary) (reads : List (Option Request)) : List (List Byte × List Byte) :=
  reads.reduceOption.map fun cli => (cli.id.str, (reply dict cli.word.str).chars ++ [NUL])

/-- The server answers each request read with the reply to it, and writes no other. -/
def Answers (S : Service) (tryit : Dictrec) (reads : List (Option Request)) : Prop :=
  (passes S.lookup ⟨tryit, S.init, []⟩ reads).map (·.written) = some (replies S.dict reads)

/-- Every reply is that to the word which stands in `tryit`. -/
theorem passes_eq (S : Service) {srv : Server S.σ} (hst : S.Ready srv.st) (hw : srv.tryit.word.Terminated)
    (reads : List (Option Request)) :
    (passes S.lookup srv reads).map (·.written) = some (srv.written ++
      reads.reduceOption.map fun cli => (cli.id.str, (reply S.dict srv.tryit.word.str).chars ++ [NUL])) := by
  induction reads generalizing srv with
  | nil => simp [passes, List.reduceOption]
  | cons read reads ih =>
    cases read with
    | none =>
      rw [passes, pass, Option.bind_some, ih hst hw, List.reduceOption_cons_of_none]
    | some cli =>
      obtain ⟨r, st', hcall, hst', htext, hterm, hword⟩ := S.answers hst hw
      have hreply : fifo_server r = (reply S.dict srv.tryit.word.str).chars ++ [NUL] := by
        rw [fifo_server, Encoding.socketReply_eq, htext]
      rw [passes, pass, hcall, Option.map_some, Option.bind_some, ih (by exact hst') (by exact hterm),
        List.reduceOption_cons_of_some, List.map_cons]
      simp only [hreply, hword, List.append_assoc, List.singleton_append]

/-- Without a NUL in the word of `tryit` the first request is the end of what
C says of the server. -/
theorem passes_undefined {σ : Type} {lookup : σ → Dictrec → Option (Answer σ)} {srv : Server σ}
    (hw : ¬ srv.tryit.word.Terminated) {reads : List (Option Request)} {cli : Request} (h : some cli ∈ reads) :
    passes lookup srv reads = none := by
  induction reads with
  | nil => cases h
  | cons read reads ih =>
    cases read with
    | none =>
      rw [passes, pass, Option.bind_some]
      exact ih (by simpa using h)
    | some cli =>
      rw [passes, pass, call, if_neg hw]
      rfl

theorem passes_idle {σ : Type} {lookup : σ → Dictrec → Option (Answer σ)} {srv : Server σ}
    {reads : List (Option Request)} (h : reads.reduceOption = []) : passes lookup srv reads = some srv := by
  induction reads with
  | nil => rfl
  | cons read reads ih =>
    cases read with
    | none => exact ih h
    | some cli => cases h

/-- The replies are those to the requests exactly when the dictionary has for
the word of each what it has for the word `tryit` happens to hold. -/
theorem answers_iff (S : Service) (tryit : Dictrec) (reads : List (Option Request)) :
    Answers S tryit reads ↔ ∀ cli, some cli ∈ reads →
      tryit.word.Terminated ∧ reply S.dict tryit.word.str = reply S.dict cli.word.str := by
  by_cases hw : tryit.word.Terminated
  · rw [Answers, passes_eq S S.ready hw, List.nil_append, Option.some.injEq, replies, List.map_inj_left]
    simp only [List.reduceOption_mem_iff, Prod.mk.injEq, true_and, List.append_left_inj, CStr.chars_inj, hw]
  · by_cases h : ∃ cli, some cli ∈ reads
    · obtain ⟨cli, hcli⟩ := h
      rw [Answers, passes_undefined hw hcli]
      constructor
      · intro he
        cases he
      · intro hall
        exact absurd (hall cli hcli).1 hw
    · have hnone : reads.reduceOption = [] := by
        rw [List.eq_nil_iff_forall_not_mem]
        exact fun cli hcli => h ⟨cli, List.reduceOption_mem_iff.1 hcli⟩
      rw [Answers, passes_idle hnone, replies, hnone]
      simp only [Option.map_some, List.map_nil, true_iff]
      exact fun cli hcli => absurd ⟨cli, hcli⟩ h

/-- What the server needs of `tryit` to answer, by `lookup2` over a file, the
requests it reads: that the file has for the word of each what it has for the
word there. -/
theorem fifo_answers_iff (d : IndexFile) (qsort : Qsort Index) (bsearch : Bsearch Index Index) (tryit : Dictrec)
    (reads : List (Option Request)) :
    Answers (lookup2Service d qsort bsearch) tryit reads ↔ ∀ cli, some cli ∈ reads → tryit.word.Terminated ∧
      reply (lookup2Service d qsort bsearch).dict tryit.word.str =
        reply (lookup2Service d qsort bsearch).dict cli.word.str :=
  answers_iff (lookup2Service d qsort bsearch) tryit reads

/-- With `tryit` zero-filled the request for a is answered XXXX. -/
theorem fifo_answers_other :
    ¬ Answers (lookup2Service oneRecord default default) Dictrec.blank
      [some ⟨(Buf.zero WORD).strcpy [97], (Buf.zero IDSIZE).strcpy [102]⟩] := by
  unfold Answers
  decide +kernel

end Fifo

end SysProg
