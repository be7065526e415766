/-
The whole of `usock_server.c` (and of `isock_server.c`, the same), with any
number of clients: the parent, which accepts and forks for ever, and a child
for each connection. A connection is open while some process has a descriptor
for it, so what each process closes is followed.

The dialogues are those of `LostServer`. A `fork` fails when there are as many
children as there may be; nobody waits for one, so those that have exited
count too.
-/
import SysProg.Lib.Fds
import SysProg.LostServer

namespace SysProg.Accept

open Sock (Client Child)

/-- What a descriptor stands for. -/
inductive Desc (κ : Type) where
  /-- One that was open when the server was started. -/
  | inherited
  | listening
  | conn (c : κ)
  deriving DecidableEq

/-- Where the parent is in its loop. -/
inductive Pc where
  | accept
  | fork
  | close
  | died
  deriving DecidableEq

/-- A child. -/
structure Process (κ : Type) where
  fds : Fds (Desc κ)
  /-- What `accept` had returned, `none` for -1. -/
  cd : Option Nat
  /-- It has closed its `sd`. -/
  started : Bool
  memory : Child

/-- A connection, but for the server's side of it. -/
structure Conn where
  client : Client
  requests : List Byte
  replies : List Byte
  closed : Bool
  killed : Bool
  sent : List (List Byte × List Byte)

/-- The server's first process, its listening socket's queue, the connections and the children. -/
structure State (κ : Type) where
  pc : Pc
  fds : Fds (Desc κ)
  sd : Nat
  cd : Option Nat
  /-- The connections that wait to be accepted. -/
  backlog : List κ
  /-- The clients that have called `connect`. -/
  called : κ → Bool
  /-- All there have been, in the order they were forked. -/
  children : List (Process κ)
  conns : κ → Conn

/-- What can happen next. -/
inductive Action (κ : Type) where
  | connect (c : κ)
  | accept
  /-- `accept` returns -1. -/
  | acceptFails
  | fork
  /-- The parent closes its `cd`. -/
  | close
  /-- A child closes its `sd`. -/
  | start (i : Nat)
  /-- A child goes on with its dialogue. -/
  | child (i : Nat) (a : Sock.Action)
  /-- A child reads, or looks up and writes, with the `cd` -1. -/
  | stray (i : Nat)
  /-- A child ends: on UNAVAIL, or by a signal. -/
  | dies (i : Nat)
  | client (c : κ) (a : LostServer.Action)

/-- The dialogue on the connection, with `child` on the server's side. -/
abbrev Conn.with (k : Conn) (child : Child) : LostServer.State :=
  ⟨⟨k.client, child, k.requests, k.replies, k.closed⟩, k.killed, k.sent⟩

/-- The connection's side of a dialogue. -/
def Conn.of (d : LostServer.State) : Conn :=
  ⟨d.dialogue.client, d.dialogue.requests, d.dialogue.replies, d.dialogue.closed, d.killed, d.sent⟩

/-- A process that has not exited. -/
def Process.alive {κ : Type} (p : Process κ) : Bool := p.memory.pc ≠ .exited

/-- The connection a descriptor stands for. -/
def connection {κ : Type} (fds : Fds (Desc κ)) (cd : Option Nat) : Option κ :=
  match cd.bind fds.get with
  | some (.conn c) => some c
  | _ => none

/-- The client whose connection the process has at `cd`. -/
def Process.serves {κ : Type} (p : Process κ) : Option κ := connection p.fds p.cd

/-- What a client does. -/
def ofClient : LostServer.Action → Bool
  | .dialogue .ask | .dialogue (.clientRead _) | .dialogue .hangup => true
  | .writeFails | .writeKilled | .readFails | .readEof => true
  | _ => false

/-- What a child does. -/
def ofChild : Sock.Action → Bool
  | .childRead _ | .childEof | .childReply => true
  | _ => false

section

variable {κ : Type} [DecidableEq κ]

/-- Some process has a descriptor for `d`. -/
def State.isOpen (s : State κ) (d : Desc κ) : Bool :=
  (s.pc ≠ .died && s.fds.contains (some d)) || s.children.any fun p => p.alive && p.fds.contains (some d)

/-- The server's side of the connection is open. -/
def State.held (s : State κ) (c : κ) : Bool := (s.backlog.contains c && s.isOpen .listening) || s.isOpen (.conn c)

/-- One turn of the loop of a child whose `read` and `write` fail. -/
def strayTurn (dict : Dictionary) (memory : Child) : Option Child :=
  match memory.pc with
  | .read => some { memory with pc := .lookup }
  | .lookup =>
    if NUL ∈ memory.tryit.flat.bytes then
      let w := cstr memory.tryit.flat.bytes
      let text := match dict w with
        | some t => memory.tryit.text.strcpy t.chars
        | none => memory.tryit.text
      some ⟨.read, { memory.tryit with text }, memory.looked ++ [w]⟩
    else none
  | .exited => none

variable (dict : Dictionary) (tryit : Dictrec) (maxBacklog maxChildren : Nat)

/-- The next state, where the action can happen. -/
def step (s : State κ) : Action κ → Option (State κ)
  | .connect c =>
    if s.called c = false ∧ s.isOpen .listening ∧ s.backlog.length < maxBacklog then
      some { s with backlog := s.backlog ++ [c], called := Function.update s.called c true }
    else none
  | .accept =>
    match s.pc, s.backlog with
    | .accept, c :: cs =>
      some { s with
        pc := .fork, fds := s.fds.put s.fds.lowest (some (.conn c)), cd := some s.fds.lowest, backlog := cs }
    | _, _ => none
  | .acceptFails => if s.pc = .accept then some { s with pc := .fork, cd := none } else none
  | .fork =>
    if s.pc = .fork then
      if s.children.length < maxChildren then
        some { s with pc := .close, children := s.children ++ [⟨s.fds, s.cd, false, .read, tryit, []⟩] }
      else some { s with pc := .died }
    else none
  | .close =>
    if s.pc = .close then
      some { s with
        pc := .accept
        fds := match s.cd with
          | some n => s.fds.close n
          | none => s.fds }
    else none
  | .start i =>
    match s.children[i]? with
    | some p =>
      if p.alive ∧ p.started = false then
        some { s with children := s.children.set i { p with fds := p.fds.close s.sd, started := true } }
      else none
    | none => none
  | .child i a =>
    match s.children[i]? with
    | some p =>
      match p.serves with
      | some c =>
        if p.started ∧ ofChild a then
          (LostServer.step dict ((s.conns c).with p.memory) (.dialogue a)).map fun d =>
            { s with
              children := s.children.set i { p with memory := d.dialogue.child }
              conns := Function.update s.conns c (.of d) }
        else none
      | none => none
    | none => none
  | .stray i =>
    match s.children[i]? with
    | some p =>
      if p.started ∧ p.cd = none then
        (strayTurn dict p.memory).map fun memory =>
          { s with children := s.children.set i { p with memory } }
      else none
    | none => none
  | .dies i =>
    match s.children[i]? with
    | some p =>
      if p.alive then
        some { s with children := s.children.set i { p with memory := { p.memory with pc := .exited } } }
      else none
    | none => none
  | .client c a =>
    if s.called c ∧ ofClient a then
      -- Of the server the client sees only whether its side is open.
      (LostServer.step dict ((s.conns c).with ⟨if s.held c then .read else .exited, tryit, []⟩) a).map fun d =>
        { s with conns := Function.update s.conns c (.of d) }
    else none

/-- The server listens, and no client has called. -/
def start (inherited : Fds Unit) (text : κ → Buf TEXT) (words : κ → List (CStr WORD)) : State κ :=
  { pc := .accept
    fds := Fds.put (inherited.map fun d => d.map fun _ => .inherited) inherited.lowest (some .listening)
    sd := inherited.lowest, cd := none
    backlog := [], called := fun _ => false, children := []
    conns := fun c => .of (.init (text c) tryit (words c)) }

/-- What the steps do. -/
inductive Move (s : State κ) : Action κ → State κ → Prop
  | connect {c} (new : s.called c = false) (listening : s.isOpen .listening) :
      Move s (.connect c) { s with backlog := s.backlog ++ [c], called := Function.update s.called c true }
  | accept {c cs} (pc : s.pc = .accept) (backlog : s.backlog = c :: cs) :
      Move s .accept
        { s with pc := .fork, fds := s.fds.put s.fds.lowest (some (.conn c)), cd := some s.fds.lowest, backlog := cs }
  | acceptFails (pc : s.pc = .accept) : Move s .acceptFails { s with pc := .fork, cd := none }
  | fork (pc : s.pc = .fork) (room : s.children.length < maxChildren) :
      Move s .fork { s with pc := .close, children := s.children ++ [⟨s.fds, s.cd, false, .read, tryit, []⟩] }
  | forkFails (pc : s.pc = .fork) (full : maxChildren ≤ s.children.length) : Move s .fork { s with pc := .died }
  | close {fds} (pc : s.pc = .close) (closed : ∀ n ∈ s.cd, fds = s.fds.close n) (none : s.cd = none → fds = s.fds) :
      Move s .close { s with pc := .accept, fds := fds }
  | start {i p} (child : s.children[i]? = some p) (alive : p.alive) (starting : p.started = false) :
      Move s (.start i) { s with children := s.children.set i { p with fds := p.fds.close s.sd, started := true } }
  | child {i a p c d} (child : s.children[i]? = some p) (serves : p.serves = some c) (started : p.started)
      (ofChild : ofChild a) (step : LostServer.step dict ((s.conns c).with p.memory) (.dialogue a) = some d) :
      Move s (.child i a)
        { s with
          children := s.children.set i { p with memory := d.dialogue.child }
          conns := Function.update s.conns c (.of d) }
  | stray {i p memory} (child : s.children[i]? = some p) (cd : p.cd = none)
      (turn : strayTurn dict p.memory = some memory) :
      Move s (.stray i) { s with children := s.children.set i { p with memory } }
  | dies {i p} (child : s.children[i]? = some p) (alive : p.alive) :
      Move s (.dies i)
        { s with children := s.children.set i { p with memory := { p.memory with pc := .exited } } }
  | client {c a d} (called : s.called c) (ofClient : ofClient a)
      (step : LostServer.step dict ((s.conns c).with ⟨if s.held c then .read else .exited, tryit, []⟩) a = some d) :
      Move s (.client c a) { s with conns := Function.update s.conns c (.of d) }

variable {dict tryit maxBacklog maxChildren} {s s' : State κ} {a : Action κ}

theorem move_of_step (h : step dict tryit maxBacklog maxChildren s a = some s') :
    Move dict tryit maxChildren s a s' := by
  cases a with
  | connect c =>
    simp only [step] at h
    split at h
    · next hc =>
      cases h
      exact .connect hc.1 hc.2.1
    · cases h
  | accept =>
    simp only [step] at h
    split at h
    · next hpc hbacklog =>
      cases h
      exact .accept hpc hbacklog
    · cases h
  | acceptFails =>
    simp only [step] at h
    split at h
    · next hpc =>
      cases h
      exact .acceptFails hpc
    · cases h
  | fork =>
    simp only [step] at h
    split at h
    · next hpc =>
      split at h
      · next hroom =>
        cases h
        exact .fork hpc hroom
      · next hfull =>
        cases h
        exact .forkFails hpc (Nat.le_of_not_lt hfull)
    · cases h
  | close =>
    simp only [step] at h
    split at h
    · next hpc =>
      cases h
      refine .close hpc (fun n hn => ?_) fun hnone => ?_
      · rw [hn]
      · rw [hnone]
    · cases h
  | start i =>
    simp only [step] at h
    split at h
    · next p hp =>
      split at h
      · next hc =>
        cases h
        exact .start hp hc.1 hc.2
      · cases h
    · cases h
  | child i a =>
    simp only [step] at h
    split at h
    · next p hp =>
      split at h
      · next c hc =>
        split at h
        · next hstarted =>
          obtain ⟨d, hd, rfl⟩ := Option.map_eq_some_iff.1 h
          exact .child hp hc hstarted.1 hstarted.2 hd
        · cases h
      · cases h
    · cases h
  | stray i =>
    simp only [step] at h
    split at h
    · next p hp =>
      split at h
      · next hc =>
        obtain ⟨memory, hm, rfl⟩ := Option.map_eq_some_iff.1 h
        exact .stray hp hc.2 hm
      · cases h
    · cases h
  | dies i =>
    simp only [step] at h
    split at h
    · next p hp =>
      split at h
      · next halive =>
        cases h
        exact .dies hp halive
      · cases h
    · cases h
  | client c a =>
    simp only [step] at h
    split at h
    · next hc =>
      obtain ⟨d, hd, rfl⟩ := Option.map_eq_some_iff.1 h
      exact .client hc.1 hc.2 hd
    · cases h

end

/-! ## The tables of descriptors -/

/-- The number each `accept` returns. -/
def cdOf (inherited : Fds Unit) : Nat := (inherited.put inherited.lowest (some ())).lowest

theorem cdOf_ne (inherited : Fds Unit) : inherited.lowest ≠ cdOf inherited :=
  Fds.ne_lowest (by rw [Fds.get_put, if_pos rfl]; rfl)

theorem get_cdOf (inherited : Fds Unit) : inherited.get (cdOf inherited) = none := by
  have h : (inherited.put inherited.lowest (some ())).get (cdOf inherited) = none := Fds.get_lowest _
  rwa [Fds.get_put, if_neg (cdOf_ne inherited).symm] at h

/-- A table with what was open at the start, the listening socket or not, and
one connection or none. -/
def Table {κ : Type} (inherited : Fds Unit) (fds : Fds (Desc κ)) (listening : Bool) (x : Option κ) : Prop :=
  ∀ n, fds.get n = if n = cdOf inherited then x.map .conn
    else if n = inherited.lowest then (if listening then some .listening else none)
    else (inherited.get n).map fun _ => .inherited

namespace Table

variable {κ : Type} {inherited : Fds Unit} {fds : Fds (Desc κ)} {listening : Bool} {x : Option κ}

theorem start : Table inherited
    (Fds.put (inherited.map fun d => d.map fun _ => (Desc.inherited : Desc κ)) inherited.lowest (some .listening))
    true none := by
  intro n
  rw [Fds.get_put]
  by_cases hsd : n = inherited.lowest
  · subst hsd
    rw [if_pos rfl, if_neg (cdOf_ne inherited), if_pos rfl]
    rfl
  · have hmap : Fds.get (inherited.map fun d => d.map fun _ => (Desc.inherited : Desc κ)) n =
        (inherited.get n).map fun _ => .inherited := by
      simp only [Fds.get, List.getElem?_map]
      cases inherited[n]? with
      | none => rfl
      | some d => cases d <;> rfl
    rw [if_neg hsd, if_neg hsd, hmap]
    split
    · next hcd => rw [hcd, get_cdOf]; rfl
    · rfl

theorem lowest (h : Table inherited fds true none) : fds.lowest = cdOf inherited := by
  refine Fds.lowest_eq (by rw [h, if_pos rfl]; rfl) fun m hm => ?_
  rw [h, if_neg (Nat.ne_of_lt hm)]
  have hopen := Fds.get_ne_none_of_lt_lowest hm
  rw [Fds.get_put] at hopen
  split
  · exact Option.some_ne_none _
  · next hsd =>
    rw [if_neg hsd] at hopen
    rwa [ne_eq, Option.map_eq_none_iff]

theorem accept (h : Table inherited fds true none) (c : κ) :
    Table inherited (fds.put fds.lowest (some (.conn c))) true (some c) := by
  intro n
  rw [Fds.get_put, h.lowest, h]
  split <;> rfl

theorem close (h : Table inherited fds listening x) : Table inherited (fds.close (cdOf inherited)) listening none := by
  intro n
  rw [Fds.close, Fds.get_put, h]
  split <;> rfl

theorem close_sd (h : Table inherited fds true x) : Table inherited (fds.close inherited.lowest) false x := by
  intro n
  rw [Fds.close, Fds.get_put, h]
  split
  · next hsd => rw [if_neg (by rw [hsd]; exact cdOf_ne inherited)]; rfl
  · rfl

theorem connection (h : Table inherited fds listening x) :
    connection fds (x.map fun _ => cdOf inherited) = x := by
  cases x with
  | none => rfl
  | some c => simp [Accept.connection, h (cdOf inherited)]

variable [DecidableEq κ]

theorem mem_conn (h : Table inherited fds listening x) (c : κ) : fds.contains (some (.conn c)) = true ↔ x = some c := by
  rw [List.contains_iff_mem, Fds.mem_iff_get]
  constructor
  · rintro ⟨n, hn⟩
    rw [h] at hn
    split at hn
    · cases x with
      | none => cases hn
      | some y => cases hn; rfl
    · split at hn
      · split at hn <;> cases hn
      · obtain ⟨_, _, he⟩ := Option.map_eq_some_iff.1 hn
        cases he
  · rintro rfl
    exact ⟨cdOf inherited, by rw [h, if_pos rfl]; rfl⟩

theorem mem_listening (h : Table inherited fds listening x) : fds.contains (some .listening) = listening := by
  rw [Bool.eq_iff_iff, List.contains_iff_mem, Fds.mem_iff_get]
  constructor
  · rintro ⟨n, hn⟩
    rw [h] at hn
    split at hn
    · cases x <;> cases hn
    · split at hn
      · cases listening with
        | true => rfl
        | false => cases hn
      · obtain ⟨_, _, he⟩ := Option.map_eq_some_iff.1 hn
        cases he
  · rintro rfl
    exact ⟨inherited.lowest, by rw [h, if_neg (cdOf_ne inherited), if_pos rfl]; rfl⟩

end Table

/-! ## The processes -/

section

variable {κ : Type} [DecidableEq κ] {inherited : Fds Unit} {dict : Dictionary} {tryit : Dictrec} {maxChildren : Nat}
variable {s s' : State κ} {a : Action κ} {c : κ} {i : Nat} {p : Process κ}

/-- What the parent has accepted and not closed. -/
def State.current (s : State κ) : Option κ := if s.pc = .accept then none else connection s.fds s.cd

/-- A process's table and its `cd`, for the connection it has. -/
structure Has (inherited : Fds Unit) (fds : Fds (Desc κ)) (cd : Option Nat) (listening : Bool) (x : Option κ) :
    Prop where
  table : Table inherited fds listening x
  cd : cd = x.map fun _ => cdOf inherited

omit [DecidableEq κ] in
theorem Has.connection {fds : Fds (Desc κ)} {cd : Option Nat} {listening : Bool} {x : Option κ}
    (h : Has inherited fds cd listening x) : connection fds cd = x := by
  rw [h.cd]
  exact h.table.connection

/-- The child at `i` has the connection. -/
def Serves (children : List (Process κ)) (i : Nat) (c : κ) : Prop :=
  ∃ p, children[i]? = some p ∧ p.serves = some c

/-- Each connection is at one place, from the backlog by way of the parent to
one child. -/
structure Inv (inherited : Fds Unit) (s : State κ) : Prop where
  sd : s.sd = inherited.lowest
  listens : s.pc = .accept → Table inherited s.fds true none
  parent : s.pc ≠ .accept → ∃ x, Has inherited s.fds s.cd true x
  child : ∀ (i : Nat) (p : Process κ), s.children[i]? = some p → ∃ x, Has inherited p.fds p.cd (!p.started) x
  backlog : s.backlog.Nodup ∧ ∀ c ∈ s.backlog, s.called c
  current : s.pc = .fork → ∀ c, s.current = some c → s.called c ∧ c ∉ s.backlog ∧ ∀ i, ¬ Serves s.children i c
  serves : ∀ i c, Serves s.children i c → s.called c ∧ c ∉ s.backlog ∧ ∀ j, Serves s.children j c → j = i

omit [DecidableEq κ] in
theorem get_set {children : List (Process κ)} (h : children[i]? = some p) (q : Process κ) (j : Nat) :
    (children.set i q)[j]? = if j = i then some q else children[j]? := by
  rw [List.getElem?_set]
  by_cases hj : i = j
  · rw [if_pos hj, if_pos hj.symm, if_pos (List.getElem?_eq_some_iff.1 h).1]
  · rw [if_neg hj, if_neg (Ne.symm hj)]

omit [DecidableEq κ] in
theorem serves_set {children : List (Process κ)} (h : children[i]? = some p) (q : Process κ) (hq : q.serves = p.serves)
    (j : Nat) (c : κ) : Serves (children.set i q) j c ↔ Serves children j c := by
  unfold Serves
  rw [get_set h]
  by_cases hj : j = i
  · subst hj
    simp [h, hq]
  · simp [hj]

omit [DecidableEq κ] in
theorem serves_append {children : List (Process κ)} {q : Process κ} {j : Nat} {c : κ} :
    Serves (children ++ [q]) j c ↔ Serves children j c ∨ j = children.length ∧ q.serves = some c := by
  unfold Serves
  rcases Nat.lt_trichotomy j children.length with hj | rfl | hj
  · rw [List.getElem?_append_left hj, or_iff_left fun he => absurd he.1 (Nat.ne_of_lt hj)]
  · rw [List.getElem?_concat_length, List.getElem?_eq_none le_rfl]
    simp
  · rw [List.getElem?_eq_none (by simp; omega), List.getElem?_eq_none (by omega)]
    simp [Nat.ne_of_gt hj]

omit [DecidableEq κ] in
/-- A step of a child. -/
theorem Inv.set (h : Inv inherited s) (hp : s.children[i]? = some p) (q : Process κ) (hq : q.serves = p.serves)
    (hhas : ∃ x, Has inherited q.fds q.cd (!q.started) x) (conns : κ → Conn) :
    Inv inherited { s with children := s.children.set i q, conns := conns } where
  sd := h.sd
  listens := h.listens
  parent := h.parent
  child j r hr := by
    dsimp only at hr
    rw [get_set hp] at hr
    split at hr
    · cases hr
      exact hhas
    · exact h.child j r hr
  backlog := h.backlog
  current hpc c hc := by
    obtain ⟨hcalled, hbacklog, hno⟩ := h.current hpc c hc
    exact ⟨hcalled, hbacklog, fun j hj => hno j ((serves_set hp q hq j c).1 hj)⟩
  serves j c hj := by
    obtain ⟨hcalled, hbacklog, hone⟩ := h.serves j c ((serves_set hp q hq j c).1 hj)
    exact ⟨hcalled, hbacklog, fun k hk => hone k ((serves_set hp q hq k c).1 hk)⟩

omit [DecidableEq κ] in
theorem Inv.run (h : Inv inherited s) (hp : s.children[i]? = some p) (memory : Child) (conns : κ → Conn) :
    Inv inherited { s with children := s.children.set i { p with memory }, conns := conns } :=
  h.set hp { p with memory } rfl (h.child i p hp) conns

omit [DecidableEq κ] in
theorem Inv.starting (h : Inv inherited s) (hp : s.children[i]? = some p) (hstarted : p.started = false) :
    ∃ x, Has inherited p.fds p.cd true x ∧ Has inherited (p.fds.close s.sd) p.cd false x := by
  obtain ⟨x, hx⟩ := h.child i p hp
  rw [hstarted] at hx
  refine ⟨x, hx, ?_, hx.cd⟩
  rw [h.sd]
  exact hx.table.close_sd

theorem Inv.move (h : Inv inherited s) (hm : Move dict tryit maxChildren s a s') : Inv inherited s' := by
  cases hm with
  | @connect c hnew _ =>
    have hno {c' : κ} (hc' : s.called c') : c' ≠ c := by
      rintro rfl
      rw [hnew] at hc'
      cases hc'
    have hcalled {c' : κ} (hc' : s.called c') : Function.update s.called c true c' = true := by
      rw [Function.update_of_ne (hno hc')]
      exact hc'
    have hbacklog {c' : κ} (hc' : s.called c') (hnot : c' ∉ s.backlog) : c' ∉ s.backlog ++ [c] := by
      simp [hnot, hno hc']
    refine { h with
      backlog := ⟨?_, ?_⟩
      current := fun hpc c' hc' => ?_
      serves := fun j c' hj => ?_ }
    · refine List.nodup_append.2 ⟨h.backlog.1, List.nodup_cons.2 ⟨List.not_mem_nil, .nil⟩, fun c' hc' d hd => ?_⟩
      rw [List.mem_singleton.1 hd]
      exact hno (h.backlog.2 c' hc')
    · intro c' hc'
      rcases List.mem_append.1 hc' with hc' | hc'
      · exact hcalled (h.backlog.2 c' hc')
      · rw [List.mem_singleton.1 hc']
        exact Function.update_self ..
    · obtain ⟨h1, h2, h3⟩ := h.current hpc c' hc'
      exact ⟨hcalled h1, hbacklog h1 h2, h3⟩
    · obtain ⟨h1, h2, h3⟩ := h.serves j c' hj
      exact ⟨hcalled h1, hbacklog h1 h2, h3⟩
  | @accept c cs hpc hbacklog =>
    have ht := h.listens hpc
    have hhas : Has inherited (s.fds.put s.fds.lowest (some (.conn c))) (some s.fds.lowest) true (some c) :=
      ⟨ht.accept c, by rw [ht.lowest]; rfl⟩
    have hnodup := h.backlog.1
    rw [hbacklog, List.nodup_cons] at hnodup
    have hmem : ∀ c' ∈ c :: cs, s.called c' := hbacklog ▸ h.backlog.2
    refine
      { sd := h.sd
        listens := fun h => by cases h
        parent := fun _ => ⟨some c, hhas⟩
        child := h.child
        backlog := ⟨hnodup.2, fun c' hc' => hmem c' (List.mem_cons_of_mem c hc')⟩
        current := fun _ c' hc' => ?_
        serves := fun j c' hj => ?_ }
    · have hcc : some c = some c' := hhas.connection.symm.trans (by simpa [State.current] using hc')
      cases hcc
      refine ⟨hmem c List.mem_cons_self, hnodup.1, fun j hj => ?_⟩
      exact (h.serves j c hj).2.1 (by rw [hbacklog]; exact List.mem_cons_self)
    · obtain ⟨h1, h2, h3⟩ := h.serves j c' hj
      rw [hbacklog] at h2
      exact ⟨h1, fun hc' => h2 (List.mem_cons_of_mem c hc'), h3⟩
  | acceptFails hpc =>
    have hhas : Has inherited s.fds none true none := ⟨h.listens hpc, rfl⟩
    refine
      { sd := h.sd
        listens := fun h => by cases h
        parent := fun _ => ⟨none, hhas⟩
        child := h.child
        backlog := h.backlog
        current := fun _ c hc => ?_
        serves := h.serves }
    have hcc : none = some c := hhas.connection.symm.trans (by simpa [State.current] using hc)
    cases hcc
  | fork hpc _ =>
    have hcur : s.current = connection s.fds s.cd := by simp [State.current, hpc]
    have hnew {j : Nat} {c : κ} (hj : Serves (s.children ++ [⟨s.fds, s.cd, false, ⟨.read, tryit, []⟩⟩]) j c) :
        Serves s.children j c ∨ j = s.children.length ∧ s.current = some c := by
      rwa [serves_append, Process.serves, ← hcur] at hj
    refine
      { sd := h.sd
        listens := fun h => by cases h
        parent := fun _ => h.parent (by rw [hpc]; decide)
        child := fun j q hq => ?_
        backlog := h.backlog
        current := fun h => by cases h
        serves := fun j c hj => ?_ }
    · dsimp only at hq
      rcases Nat.lt_trichotomy j s.children.length with hlt | rfl | hgt
      · rw [List.getElem?_append_left hlt] at hq
        exact h.child j q hq
      · rw [List.getElem?_concat_length] at hq
        cases hq
        exact h.parent (by rw [hpc]; decide)
      · rw [List.getElem?_eq_none (by simp; omega)] at hq
        cases hq
    · rcases hnew hj with hold | ⟨rfl, hc⟩
      · obtain ⟨h1, h2, h3⟩ := h.serves j c hold
        refine ⟨h1, h2, fun k hk => ?_⟩
        rcases hnew hk with hk | ⟨rfl, hc⟩
        · exact h3 k hk
        · exact absurd hold ((h.current hpc c hc).2.2 j)
      · obtain ⟨h1, h2, h3⟩ := h.current hpc c hc
        refine ⟨h1, h2, fun k hk => ?_⟩
        rcases hnew hk with hk | ⟨rfl, _⟩
        · exact absurd hk (h3 k)
        · rfl
  | forkFails hpc _ =>
    exact
      { sd := h.sd
        listens := fun h => by cases h
        parent := fun _ => h.parent (by rw [hpc]; decide)
        child := h.child
        backlog := h.backlog
        current := fun h => by cases h
        serves := h.serves }
  | @close fds hpc hclosed hnone =>
    obtain ⟨x, hx⟩ := h.parent (by rw [hpc]; decide)
    refine
      { sd := h.sd
        listens := fun _ => ?_
        parent := fun hne => absurd rfl hne
        child := h.child
        backlog := h.backlog
        current := fun h => by cases h
        serves := h.serves }
    cases x with
    | none =>
      rw [hnone hx.cd]
      exact hx.table
    | some c =>
      rw [hclosed (cdOf inherited) (by rw [hx.cd]; rfl)]
      exact hx.table.close
  | @start i p hp _ hstarting =>
    obtain ⟨x, hx, hx'⟩ := h.starting hp hstarting
    exact h.set hp { p with fds := p.fds.close s.sd, started := true } (hx'.connection.trans hx.connection.symm)
      ⟨x, hx'⟩ s.conns
  | child hp => exact h.run hp _ _
  | stray hp => exact h.run hp _ s.conns
  | dies hp => exact h.run hp _ s.conns
  | client => exact { h with }

omit [DecidableEq κ] in
theorem inv_start (inherited : Fds Unit) (text : κ → Buf TEXT) (words : κ → List (CStr WORD)) :
    Inv inherited (start tryit inherited text words) where
  sd := rfl
  listens _ := .start
  parent h := absurd rfl h
  child i p h := by cases h
  backlog := ⟨.nil, fun c h => by cases h⟩
  current h := by cases h
  serves i c h := by
    obtain ⟨p, hp, -⟩ := h
    cases hp

end

end SysProg.Accept
