/-
The shared-memory service: `lookup` of `lookup6.c` in any number of client
processes, and the main loop of `shm_server.c` once it has set the semaphores
up. A step is one semaphore operation, or one byte read or written of the
shared record.

`dict` is what the server's `lookup` finds for a word. `keeps` says whether a
later call of `lookup` finds in `shm` and `semid`, which only the first one
assigns, what that one left there; if not, C leaves undefined what it does,
and it takes no step.
-/
import SysProg.Dict
import SysProg.Lib.Lts
import SysProg.Lib.Semop

namespace SysProg.Shm

/-! ## The operations on the two semaphores -/

/-- Mutex other clients. -/
def grab : Sembuf := ⟨0, -1, true⟩
/-- Release mutex to other clients. -/
def release : Sembuf := ⟨0, 1, true⟩
/-- Wake up server. -/
def alert : Sembuf := ⟨1, 2, true⟩
/-- Wait for server. -/
def await : Sembuf := ⟨1, 0, false⟩
/-- Used by the server both to wait and to notify. -/
def wait : Sembuf := ⟨1, -1, true⟩

/-! ## A client -/

/-- Where a client is: between calls of `lookup`, or at a step of one. -/
inductive ClientPc where
  | idle
  | grab
  /-- `strcpy(shm->word,sought->word)`, at byte `k`. -/
  | copyWord (k : Nat)
  | alert
  /-- With it, how many queries the server had answered at the alert. -/
  | await (n : Nat)
  | release
  /-- `strcmp(shm->text,"XXXX")`, at byte `k`. -/
  | compare (k : Nat)
  /-- `strcpy(sought->text,shm->text)`, at byte `k`. -/
  | copyText (k : Nat)
  deriving DecidableEq

/-- A client has grabbed the service and not yet released it. -/
def ClientPc.held : ClientPc → Bool
  | .copyWord _ | .alert | .await _ | .release => true
  | _ => false

/-- A client waits in `await`. -/
def ClientPc.awaiting : ClientPc → Bool
  | .await _ => true
  | _ => false

/-- A client has released the service and still reads the answer there. -/
def ClientPc.reading : ClientPc → Bool
  | .compare _ | .copyText _ => true
  | _ => false

/-- A client, with what `lookup` keeps. -/
structure Client where
  pc : ClientPc
  first_time : Bool
  /-- `shm` and `semid` have values. -/
  attached : Bool
  /-- `sought->word`, which only this client sees. -/
  word : CStr WORD
  /-- `sought->text`, likewise. -/
  text : Buf TEXT
  adj : Semadj
  /-- The words still to be asked. -/
  todo : List (CStr WORD)
  /-- The words asked, and what `lookup` returned for each. -/
  past : List (CStr WORD × Status × Option (List Byte))

/-- A client's `semop`, whose result it does not look at. -/
def Client.semop (c : Client) (op : Sembuf) (sems : Sems) (next : ClientPc) :
    Option (Sems × Client) :=
  match SysProg.semop op sems c.adj with
  | .done sems adj => some (sems, { c with pc := next, adj })
  | .blocks => none
  | .fails => some (sems, { c with pc := next })

/-- `lookup` returns. -/
def Client.return (c : Client) (r : Status × Option (List Byte)) : Client :=
  { c with pc := .idle, past := c.past ++ [(c.word, r)] }

/-- The next step of a client. -/
def Client.step (keeps : Bool) (served : Nat) (sems : Sems) (shm : Dictrec) (c : Client) :
    Option (Sems × Dictrec × Client) :=
  if c.pc ≠ .idle ∧ ¬ c.attached then none
  else match c.pc with
  | .idle =>
    match c.todo with
    | [] => none
    | w :: ws => some (sems, shm, { c with
        pc := .grab, first_time := false, attached := c.first_time || (keeps && c.attached), word := w, todo := ws })
  | .grab => (c.semop grab sems (.copyWord 0)).map fun (sems, c) => (sems, shm, c)
  | .copyWord k =>
    let x := c.word.byte k
    some (sems, { shm with word := shm.word.put k x },
      { c with pc := if x = NUL then .alert else .copyWord (k + 1) })
  | .alert => (c.semop alert sems (.await served)).map fun (sems, c) => (sems, shm, c)
  | .await _ => (c.semop await sems .release).map fun (sems, c) => (sems, shm, c)
  | .release => (c.semop release sems (.compare 0)).map fun (sems, c) => (sems, shm, c)
  | .compare k =>
    let x := shm.text.get k
    some (sems, shm,
      if x ≠ XXXX.byte k then { c with pc := .copyText 0 }
      else if x = NUL then c.return (.NOTFOUND, none)
      else { c with pc := .compare (k + 1) })
  | .copyText k =>
    if k < TEXT then
      let x := shm.text.get k
      let c := { c with text := c.text.put k x }
      some (sems, shm,
        if x = NUL then c.return (.FOUND, some c.text.str) else { c with pc := .copyText (k + 1) })
    else none

/-! ## The server -/

/-- Where the server is in its loop. -/
inductive ServerPc where
  | wait1
  /-- In `lookup`, these bytes of `sought->word` read. -/
  | read (word : List Byte)
  /-- `strcpy` of an answer to `shm->text`, at byte `k`. -/
  | write (text : CStr TEXT) (k : Nat)
  | wait2
  /-- In `DIE`, a `semop` having failed. -/
  | died
  deriving DecidableEq

/-- The server is between its two waits. -/
def ServerPc.between : ServerPc → Bool
  | .wait1 | .died => false
  | _ => true

/-- The server. -/
structure Server where
  pc : ServerPc
  adj : Semadj
  /-- How many queries it has answered. -/
  served : Nat

/-- The server's `semop`, whose failure ends it. -/
def Server.semop (srv : Server) (sems : Sems) (next : ServerPc) (served : Nat) :
    Option (Sems × Server) :=
  match SysProg.semop wait sems srv.adj with
  | .done sems adj => some (sems, ⟨next, adj, served⟩)
  | .blocks => none
  | .fails => some (sems, { srv with pc := .died })

/-- The next step of the server. -/
def Server.step (dict : Dictionary) (sems : Sems) (shm : Dictrec) (srv : Server) :
    Option (Sems × Dictrec × Server) :=
  match srv.pc with
  | .wait1 => (srv.semop sems (.read []) srv.served).map fun (sems, srv) => (sems, shm, srv)
  | .read word =>
    if word.length < WORD then
      let x := shm.word.get word.length
      some (sems, shm, { srv with pc := if x = NUL then .write (reply dict word) 0 else .read (word ++ [x]) })
    else none
  | .write text k =>
    let x := text.byte k
    some (sems, { shm with text := shm.text.put k x },
      { srv with pc := if x = NUL then .wait2 else .write text (k + 1) })
  | .wait2 => (srv.semop sems .wait1 (srv.served + 1)).map fun (sems, srv) => (sems, shm, srv)
  | .died => none

/-! ## The service -/

variable {ι : Type} [DecidableEq ι]

/-- The semaphores, the shared record and the processes. -/
structure State (ι : Type) where
  sems : Sems
  shm : Dictrec
  clients : ι → Client
  server : Server

/-- Who takes the next step. -/
inductive Proc (ι : Type) where
  | client (i : ι)
  | server

/-- The next state, where the process has a step to take. -/
def step (dict : Dictionary) (keeps : Bool) (s : State ι) : Proc ι → Option (State ι)
  | .client i =>
    ((s.clients i).step keeps s.server.served s.sems s.shm).map fun (sems, shm, c) =>
      { s with sems, shm, clients := Function.update s.clients i c }
  | .server => (s.server.step dict s.sems s.shm).map fun (sems, shm, server) => { s with sems, shm, server }

/-- What each client is to ask, the words of one call after the other: few
enough for its adjustment of semaphore 1, lowered by two at each alert. -/
structure Queries (ι : Type) where
  words : ι → List (CStr WORD)
  few : ∀ i, (words i).length ≤ 16384

/-- Each client with one word. -/
def Queries.one (word : ι → CStr WORD) : Queries ι := ⟨fun i => [word i], fun _ => by simp⟩

/-- A client that has not begun. -/
def Client.init (words : List (CStr WORD)) : Client :=
  ⟨.idle, true, false, noWord, Buf.zero TEXT, fun _ => 0, words, []⟩

/-- The semaphores set up, whatever the shared record holds. -/
def State.init (shm : Dictrec) (q : Queries ι) : State ι where
  sems i := if i = 0 then 1 else 0
  shm
  clients i := .init (q.words i)
  server := ⟨.wait1, fun _ => 0, 0⟩

end SysProg.Shm
