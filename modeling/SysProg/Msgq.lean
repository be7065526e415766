/-
The message-queue service: `lookup` of `lookup4.c` in any number of client
processes, and the loop of `msgq_server.c`, on one queue. A step is one call
of `msgsnd` or `msgrcv`, with what the program does up to the next.
-/
import SysProg.Lib.Decimal
import SysProg.Lib.Lts
import SysProg.Lib.Msgq
import SysProg.Service
import Mathlib.Logic.Function.Basic

namespace SysProg.Msgq

/-! ## A client -/

/-- Where a client is: between calls of `lookup`, about to send its request,
or waiting for the reply. -/
inductive ClientPc where
  | idle
  | send
  | receive
  deriving DecidableEq

/-- A client, with what `lookup` keeps. -/
structure Client where
  pc : ClientPc
  first_time : Bool
  /-- `snd.content`, which is static. -/
  snd : Request
  sought : Dictrec
  /-- The word of the call in progress. -/
  word : CStr WORD
  /-- The words still to be asked. -/
  todo : List (CStr WORD)
  /-- The words asked, and what `lookup` returned for each. -/
  past : List (CStr WORD × Status × Option (List Byte))

/-- `lookup` is called with the next word, and makes its request. -/
def Client.call (pid : Nat) (c : Client) : Option Client :=
  match c.pc, c.todo with
  | .idle, w :: ws =>
    let id := if c.first_time then c.snd.id.strcpy (decimal pid) else c.snd.id
    let sought := { c.sought with word := c.sought.word.strcpy w.chars }
    some { c with
      pc := .send, first_time := false, sought, word := w, todo := ws
      snd := ⟨c.snd.word.strcpy sought.word.str, id⟩ }
  | _, _ => none

/-- The reply is there, and `lookup` returns. `rcv` is what its variable of
this name holds before. -/
def Client.return (c : Client) (rcv : Buf TEXT) (m : Message) : Client :=
  let r := Encoding.lookup4 rcv m.bytes c.sought
  { c with pc := .idle, sought := r.2, past := c.past ++ [(c.word, seen r)] }

/-! ## The server -/

/-- The server waits for a request, or is about to send a reply; with it, the
word it has looked up. -/
inductive ServerPc where
  | receive
  | send (m : Message) (word : List Byte)
  deriving DecidableEq

/-- The server, with its static variables. -/
structure Server (σ : Type) where
  pc : ServerPc
  tryit : Dictrec
  /-- `snd.text`. -/
  snd : Buf TEXT
  st : σ
  /-- The replies sent: their types, and the words they answer. -/
  answered : List (Int × List Byte)

/-- The type of the messages that are meant for the server. -/
def SERVER : Int := 1

/-- From a message received to the reply about to be sent. -/
def Server.work {σ : Type} (lookup : σ → Dictrec → Option (Answer σ)) (srv : Server σ) (m : Message) :
    Option (Server σ) :=
  (Request.ofFlat m.bytes).bind fun rcv =>
    let tryit := { srv.tryit with word := srv.tryit.word.strcpy rcv.word.str }
    (call lookup srv.st tryit).map fun (r, st) =>
      let bytes := Encoding.msgq_server srv.snd r
      { srv with
        pc := .send ⟨atol rcv.id.str, bytes⟩ rcv.word.str
        tryit := r.tryit, snd := srv.snd.store 0 bytes, st }

/-! ## The service -/

/-- The queue and the processes. -/
structure State (ι σ : Type) where
  queue : List Message
  clients : ι → Client
  server : Server σ

/-- What happens next. -/
inductive Action (ι : Type) where
  /-- A client calls `lookup`. -/
  | call (i : ι)
  /-- Its `msgsnd` returns. -/
  | send (i : ι)
  /-- Its `msgrcv` returns. -/
  | receive (i : ι) (rcv : Buf TEXT)
  /-- The server's `msgrcv` or `msgsnd` returns. -/
  | server

variable {ι : Type} [DecidableEq ι]

/-- The clients' process numbers. -/
structure Pids (ι : Type) where
  pid : ι → Nat
  distinct : Function.Injective pid
  gt_one : ∀ i, 1 < pid i
  int : ∀ i, pid i < 2 ^ 31

/-- The next state, where the action can happen. -/
def step (S : Service) (cap : Nat) (P : Pids ι) (s : State ι S.σ) : Action ι → Option (State ι S.σ)
  | .call i => ((s.clients i).call (P.pid i)).map fun c => { s with clients := Function.update s.clients i c }
  | .send i =>
    let c := s.clients i
    if c.pc = .send then
      (msgsnd cap s.queue ⟨SERVER, c.snd.flat⟩).map fun queue =>
        { s with queue, clients := Function.update s.clients i { c with pc := .receive } }
    else none
  | .receive i rcv =>
    let c := s.clients i
    if c.pc = .receive then
      (msgrcv s.queue (P.pid i)).map fun (m, queue) =>
        { s with queue, clients := Function.update s.clients i (c.return rcv m) }
    else none
  | .server =>
    match s.server.pc with
    | .receive => (msgrcv s.queue SERVER).bind fun (m, queue) =>
        (s.server.work S.lookup m).map fun server => { s with queue, server }
    | .send m word => (msgsnd cap s.queue m).map fun queue =>
        { s with queue, server := { s.server with pc := .receive, answered := s.server.answered ++ [(m.type, word)] } }

/-- The queue empty, no client begun, and whatever the other variables hold. -/
def State.init (S : Service) (sought : ι → Dictrec) (tryit : Dictrec) (snd : Buf TEXT)
    (words : ι → List (CStr WORD)) : State ι S.σ where
  queue := []
  clients i := ⟨.idle, true, ⟨Buf.zero WORD, Buf.zero IDSIZE⟩, sought i, noWord, words i, []⟩
  server := ⟨.receive, tryit, snd, S.init, []⟩

end SysProg.Msgq
