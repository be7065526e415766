/-
The shared-memory service with the exits of its processes: a client may exit
between two calls of `lookup`, the server once it is in `DIE`, and with each
exit the kernel adds the adjustments of `SEM_UNDO` to the semaphores. What a
finished client's exit does to them (`Host.Inv.leaves_iff`).
-/
import SysProg.Handshake

namespace SysProg.Shm

variable {dict : Dictionary} {keeps : Bool} {ι : Type}

/-! ## Exits -/

/-- The system with the processes that have exited. -/
structure Host (ι : Type) where
  service : State ι
  /-- The clients that have exited. -/
  gone : ι → Bool
  /-- The server has exited. -/
  down : Bool

/-- What happens next: a process takes a step of its program, or exits. -/
inductive Event (ι : Type) where
  | step (p : Proc ι)
  | exit (i : ι)
  | down

/-- A process has not exited. -/
def Host.alive (h : Host ι) : Proc ι → Bool
  | .client i => !h.gone i
  | .server => !h.down

/-- A client between two calls of `lookup`. -/
def Host.idle (h : Host ι) (i : ι) : Prop := h.gone i = false ∧ (h.service.clients i).pc = .idle

instance (h : Host ι) (i : ι) : Decidable (h.idle i) := inferInstanceAs (Decidable (_ ∧ _))

/-- The kernel adds a process's adjustments as it exits. -/
def State.undo (s : State ι) (adj : Semadj) : State ι := { s with sems := exitUndo s.sems adj }

/-- A step of a process that is there, or an exit of a client, whose adjustments the system then applies. -/
def Host.step [DecidableEq ι] (dict : Dictionary) (keeps : Bool) (h : Host ι) : Event ι → Option (Host ι)
  | .step p => if h.alive p then (Shm.step dict keeps h.service p).map fun service => { h with service } else none
  | .exit i =>
    if h.idle i then
      some { h with service := h.service.undo (h.service.clients i).adj, gone := Function.update h.gone i true }
    else none
  | .down =>
    if h.down = false ∧ h.service.server.pc = .died then
      some { h with service := h.service.undo h.service.server.adj, down := true }
    else none

/-- The semaphores set up, each client with its words still to be asked. -/
def Host.init (shm : Dictrec) (words : ι → List (CStr WORD)) : Host ι where
  service := ⟨fun i => if i = 0 then 1 else 0, shm, fun i => .init (words i), ⟨.wait1, fun _ => 0, 0⟩⟩
  gone _ := false
  down := false

/-- A client has completed a query and has none in progress. -/
def Host.finished (h : Host ι) (i : ι) : Prop := h.idle i ∧ 0 < (h.service.clients i).past.length

instance (h : Host ι) (i : ι) : Decidable (h.finished i) := inferInstanceAs (Decidable (_ ∧ _))

/-- The exit of a process with these adjustments leaves both semaphores as
they were. -/
def Leaves (sems : Sems) (adj : Semadj) : Prop := ∀ i < 2, exitUndo sems adj i = sems i

instance (sems : Sems) (adj : Semadj) : Decidable (Leaves sems adj) :=
  inferInstanceAs (Decidable (∀ i < 2, _))

theorem leaves_def {sems : Sems} {adj : Semadj} :
    Leaves sems adj ↔ exitUndo sems adj 0 = sems 0 ∧ exitUndo sems adj 1 = sems 1 := by
  constructor
  · intro h
    exact ⟨h 0 (by decide), h 1 (by decide)⟩
  · intro h i hi
    rcases (by omega : i = 0 ∨ i = 1) with rfl | rfl
    · exact h.1
    · exact h.2

/-! ## The server's adjustment -/

/-- The server has taken one from semaphore 1 at each wait, and each is in
its adjustment; at the second wait of its 16384th query that is full. -/
structure Server.Ok (srv : Server) : Prop where
  adj0 : srv.adj 0 = 0
  adj1 : srv.adj 1 = 2 * srv.served + if srv.pc = .wait1 then 0 else 1
  served : srv.served ≤ 16383
  died : srv.pc = .died → srv.served = 16383

theorem Server.Ok.step {srv srv' : Server} {sems sems' : Sems} {shm shm' : Dictrec} (h : srv.Ok)
    (h1 : sems 1 ≤ SEMVMX) (hs : srv.step dict sems shm = some (sems', shm', srv')) : srv'.Ok := by
  obtain ⟨h0, ha, hv, -⟩ := h
  simp only [Server.step] at hs
  split at hs
  · next pc =>
    obtain ⟨r, hr, hs⟩ := Option.map_eq_some_iff.1 hs
    rw [if_pos pc] at ha
    obtain ⟨v, sem, ⟨-, rfl⟩ | ⟨hn, -⟩⟩ := Server.semop_wait h1 hr
    · cases hs
      exact ⟨h0, by simp [ha], hv, fun hd => by cases hd⟩
    · simp only [SEMVMX] at hn
      omega
  · next acc pc =>
    rw [if_neg (by simp [pc])] at ha
    split at hs
    · cases hs
      split
      · exact ⟨h0, ha, hv, fun hd => by cases hd⟩
      · exact ⟨h0, ha, hv, fun hd => by cases hd⟩
    · cases hs
  · next t k pc =>
    rw [if_neg (by simp [pc])] at ha
    cases hs
    split
    · exact ⟨h0, ha, hv, fun hd => by cases hd⟩
    · exact ⟨h0, ha, hv, fun hd => by cases hd⟩
  · next pc =>
    obtain ⟨r, hr, hs⟩ := Option.map_eq_some_iff.1 hs
    rw [if_neg (by simp [pc])] at ha
    obtain ⟨v, sem, ⟨hle, rfl⟩ | ⟨hn, rfl⟩⟩ := Server.semop_wait h1 hr
    · cases hs
      simp only [SEMVMX] at hle
      refine ⟨h0, ?_, by show srv.served + 1 ≤ 16383; omega, fun hd => by cases hd⟩
      simp only [Function.update_self, ha, if_true]
      omega
    · cases hs
      simp only [SEMVMX] at hn
      exact ⟨h0, ha, hv, fun _ => by show srv.served = 16383; omega⟩
  · cases hs

/-! ## A client's adjustments -/

/-- A client's adjustment of semaphore 0 is that of its grab until its
release. That of semaphore 1 is never positive, and below zero once the
client has sent an alert, while the server has not exited: after that an
alert may find the semaphore too large to be raised. -/
structure Client.Owes (down : Bool) (c : Client) : Prop where
  adj0 : c.adj 0 = if c.pc.held then 1 else 0
  adj1 : c.adj 1 ≤ 0
  alerted : down = false → 0 < c.alerts → c.adj 1 < 0

theorem Client.Move.owes {down : Bool} {served : Nat} {sems sems' : Sems} {shm shm' : Dictrec}
    {c c' : Client} (hm : Client.Move served sems shm c sems' shm' c') (h : c.Owes down) : c'.Owes down := by
  obtain ⟨h0, h1, ha⟩ := h
  cases hm with
  | copyWord pc =>
    rw [pc] at h0
    simp only [Client.alerts, pc] at ha
    split
    · exact ⟨h0, h1, ha⟩
    · exact ⟨h0, h1, ha⟩
  | grab pc =>
    simp only [Client.alerts, pc] at ha
    exact ⟨rfl, h1, ha⟩
  | alert pc =>
    rw [pc] at h0
    have hlt : c.adj 1 - 2 < 0 := by omega
    exact ⟨h0, hlt.le, fun _ _ => hlt⟩
  | release pc =>
    simp only [Client.alerts, pc] at ha
    exact ⟨rfl, h1, ha⟩
  | call pc | await pc | differs pc | same pc | copyText pc =>
    rw [pc] at h0
    simp only [Client.alerts, pc] at ha
    exact ⟨h0, h1, ha⟩
  | absent pc | found pc =>
    rw [pc] at h0
    refine ⟨h0, h1, fun hd _ => ha hd ?_⟩
    simp [Client.alerts, pc]

/-! ## What the steps do to the semaphores -/

theorem Client.semop_le {c c' : Client} {op : Sembuf} {sems sems' : Sems} {next : ClientPc}
    (hr : c.semop op sems next = some (sems', c')) {i : Nat} (h : sems i ≤ SEMVMX) : sems' i ≤ SEMVMX := by
  unfold Client.semop at hr
  split at hr
  · next he =>
    cases hr
    exact SysProg.semop_le he h
  · cases hr
  · cases hr
    exact h

theorem Client.step_le {c c' : Client} {served : Nat} {sems sems' : Sems} {shm shm' : Dictrec}
    (hs : c.step keeps served sems shm = some (sems', shm', c')) {i : Nat} (h : sems i ≤ SEMVMX) :
    sems' i ≤ SEMVMX := by
  simp only [Client.step] at hs
  split at hs
  · cases hs
  · split at hs
    · split at hs
      · cases hs
      · cases hs
        exact h
    · obtain ⟨r, hr, hs⟩ := Option.map_eq_some_iff.1 hs
      cases hs
      exact Client.semop_le hr h
    · cases hs
      exact h
    · obtain ⟨r, hr, hs⟩ := Option.map_eq_some_iff.1 hs
      cases hs
      exact Client.semop_le hr h
    · obtain ⟨r, hr, hs⟩ := Option.map_eq_some_iff.1 hs
      cases hs
      exact Client.semop_le hr h
    · obtain ⟨r, hr, hs⟩ := Option.map_eq_some_iff.1 hs
      cases hs
      exact Client.semop_le hr h
    · cases hs
      exact h
    · split at hs
      · cases hs
        exact h
      · cases hs

section

variable {served : Nat} {sems sems' : Sems} {shm shm' : Dictrec}

theorem Client.Move.of_held {c c' : Client} (hm : Client.Move served sems shm c sems' shm' c')
    (h : c.pc.held = true) :
    (c'.pc.held = true ∧ sems' 0 = sems 0) ∨ (c'.pc.held = false ∧ sems' 0 = sems 0 + 1) := by
  cases hm with
  | copyWord pc =>
    refine .inl ⟨?_, rfl⟩
    split <;> rfl
  | alert pc | await pc => exact .inl ⟨rfl, rfl⟩
  | release pc => exact .inr ⟨rfl, rfl⟩
  | call pc | grab pc | differs pc | same pc | absent pc | copyText pc | found pc => rw [pc] at h; cases h

/-- Unless a client sends an alert it leaves semaphore 1, which is at zero
when it stops awaiting the server. -/
theorem Client.Move.quiet {c c' : Client} (hm : Client.Move served sems shm c sems' shm' c')
    (h : c'.pc.awaiting = false) : sems' 1 = sems 1 ∧ (c.pc.awaiting = false ∨ sems 1 = 0) := by
  cases hm with
  | alert => cases h
  | await pc sem => exact ⟨rfl, .inr sem⟩
  | call pc | grab pc | copyWord pc | release pc | differs pc | same pc | absent pc | copyText pc | found pc =>
    refine ⟨rfl, .inl ?_⟩
    rw [pc]
    rfl

theorem Server.Move.lowers {srv srv' : Server} (hm : Server.Move dict sems shm srv sems' shm' srv') :
    sems' 0 = sems 0 ∧ sems' 1 ≤ sems 1 := by
  cases hm with
  | wait1 pc sem | wait2 pc sem =>
    refine ⟨rfl, ?_⟩
    rw [Function.update_self, sem]
    exact Nat.le_succ _
  | read | readEnd | write | die => exact ⟨rfl, le_rfl⟩

end

theorem Phase.congr {s : State ι} (h : Phase dict s) {sems : Sems} (h0 : sems 0 = s.sems 0)
    (h1 : sems 1 = s.sems 1) : Phase dict { s with sems } := by
  cases h with
  | free sem0 sem1 loop none => exact .free (h0.trans sem0) (h1.trans sem1) loop none
  | held i sem0 here only phase =>
    refine .held i (h0.trans sem0) here only ?_
    show Held dict (sems 1) s.shm s.server (s.clients i)
    rwa [h1]

/-! ## Every state of a run -/

/-- Semaphore 0 is at one with no client holding the service, or at zero with
no client but one. -/
def Mutex (sem0 : Nat) (clients : ι → Client) : Prop :=
  (sem0 = 1 ∧ ∀ i, (clients i).pc.held = false) ∨ (sem0 = 0 ∧ ∃ i, ∀ j, j ≠ i → (clients j).pc.held = false)

theorem Mutex.le {sem0 : Nat} {clients : ι → Client} (h : Mutex sem0 clients) : sem0 ≤ 1 := by
  rcases h with ⟨h0, -⟩ | ⟨h0, -⟩ <;> omega

theorem Mutex.others {sem0 : Nat} {clients : ι → Client} (h : Mutex sem0 clients) {i : ι}
    (hi : (clients i).pc.held = true) {j : ι} (hj : j ≠ i) : (clients j).pc.held = false := by
  rcases h with ⟨-, hn⟩ | ⟨-, i₀, ho⟩
  · exact hn j
  · by_cases hi₀ : i = i₀
    · exact ho j (hi₀ ▸ hj)
    · rw [ho i hi₀] at hi
      cases hi

section

variable [DecidableEq ι] {sem0 : Nat} {clients : ι → Client} {i : ι} {c : Client}

theorem Mutex.keep (h : Mutex sem0 clients) (hc : c.pc.held = (clients i).pc.held) :
    Mutex sem0 (Function.update clients i c) := by
  have hsame : ∀ j, (Function.update clients i c j).pc.held = (clients j).pc.held :=
    (Function.forall_update_iff _ fun j (c : Client) => c.pc.held = (clients j).pc.held).2 ⟨hc, fun _ _ => rfl⟩
  simpa only [Mutex, hsame] using h

theorem Mutex.grab (h : Mutex 1 clients) : Mutex 0 (Function.update clients i c) := by
  rcases h with ⟨-, hn⟩ | ⟨h0, -⟩
  · refine .inr ⟨rfl, i, fun j hj => ?_⟩
    rw [Function.update_of_ne hj]
    exact hn j
  · cases h0

theorem Mutex.release (h : Mutex sem0 clients) (hi : (clients i).pc.held = true) (hc : c.pc.held = false) :
    Mutex (sem0 + 1) (Function.update clients i c) := by
  have hall : ∀ j, (Function.update clients i c j).pc.held = false :=
    (Function.forall_update_iff _ fun _ (c : Client) => c.pc.held = false).2 ⟨hc, fun _ hj => h.others hi hj⟩
  rcases h with ⟨-, hn⟩ | ⟨h0, -⟩
  · rw [hn i] at hi
    cases hi
  · exact .inl ⟨by rw [h0], hall⟩

theorem Mutex.move {served : Nat} {sems sems' : Sems} {shm shm' : Dictrec} (h : Mutex (sems 0) clients)
    (hm : Client.Move served sems shm (clients i) sems' shm' c) : Mutex (sems' 0) (Function.update clients i c) := by
  cases hh : (clients i).pc.held with
  | false =>
    rcases hm.free hh with ⟨hs, -, rfl, -⟩ | ⟨hc, rfl, -⟩
    · rw [hs] at h
      rw [Function.update_self]
      exact h.grab
    · exact h.keep (hc.trans hh.symm)
  | true =>
    rcases hm.of_held hh with ⟨hc, h0⟩ | ⟨hc, h0⟩
    · rw [h0]
      exact h.keep (hc.trans hh.symm)
    · rw [h0]
      exact h.release hh hc

end

/-- What every step keeps, however many words the clients ask: semaphore 0
excludes all but one client, and only while one awaits the server is
semaphore 1 not zero. -/
structure Host.Inv (h : Host ι) : Prop where
  clients : ∀ i, (h.service.clients i).Owes h.down
  server : h.service.server.Ok
  mutex : Mutex (h.service.sems 0) h.service.clients
  sem1 : h.service.sems 1 ≤ SEMVMX
  quiet : h.down = false → (∀ i, (h.service.clients i).pc.awaiting = false) → h.service.sems 1 = 0

theorem Host.Inv.init (shm : Dictrec) (words : ι → List (CStr WORD)) : (Host.init shm words).Inv where
  clients _ := ⟨rfl, le_rfl, fun _ h => absurd h (lt_irrefl 0)⟩
  server := ⟨rfl, rfl, Nat.zero_le _, fun h => (nomatch h)⟩
  mutex := .inl ⟨rfl, fun _ => rfl⟩
  sem1 := Nat.zero_le _
  quiet _ _ := rfl

theorem Host.Inv.sem1_of_alert {h : Host ι} (hi : h.Inv) (hd : h.down = false) {i : ι}
    (pc : (h.service.clients i).pc = .alert) : h.service.sems 1 = 0 := by
  refine hi.quiet hd fun j => ?_
  by_cases hj : j = i
  · rw [hj, pc]
    rfl
  · have hheld := hi.mutex.others (by rw [pc]; rfl) hj
    by_contra ha
    rw [Bool.not_eq_false] at ha
    rw [ClientPc.held_of_awaiting ha] at hheld
    cases hheld

theorem Host.Inv.owes_of_fails {h : Host ι} (hi : h.Inv) {i : ι} (pc : (h.service.clients i).pc = .alert)
    (hn : ¬ (h.service.sems 1 + 2 ≤ SEMVMX ∧ -SEMVMX - 1 ≤ (h.service.clients i).adj 1 - 2 ∧
      (h.service.clients i).adj 1 - 2 ≤ SEMVMX)) (n : Nat) :
    Client.Owes h.down { h.service.clients i with pc := .await n } := by
  obtain ⟨h0, h1, -⟩ := hi.clients i
  rw [pc] at h0
  refine ⟨h0, h1, fun hd _ => ?_⟩
  have := hi.sem1_of_alert hd pc
  show (h.service.clients i).adj 1 < 0
  simp only [SEMVMX] at hn
  omega

/-- The exit of a finished client leaves the semaphores when semaphore 1 is at
zero, and else not: unless
the server has exited before and all alerts of the client failed. -/
theorem Host.Inv.leaves_iff {h : Host ι} (hi : h.Inv) {i : ι} (hf : h.finished i) :
    Leaves h.service.sems (h.service.clients i).adj ↔
      h.service.sems 1 = 0 ∨ (h.down = true ∧ (h.service.clients i).adj 1 = 0) := by
  obtain ⟨⟨-, pc⟩, hpast⟩ := hf
  obtain ⟨h0, h1, ha⟩ := hi.clients i
  rw [pc] at h0
  rw [leaves_def, exitUndo_eq_iff hi.sem1 h1,
    and_iff_right (exitUndo_zero (hi.mutex.le.trans (by decide)) h0)]
  refine or_congr_right ⟨fun hz => ⟨?_, hz⟩, fun hz => hz.2⟩
  by_contra hd
  have := ha (Bool.not_eq_true _ ▸ hd) (by simp only [Client.alerts, pc]; omega)
  omega

/-- The server is in `DIE`, and the client that awaits it is not released. -/
structure Host.Stuck (h : Host ι) : Prop where
  server : h.service.server.pc = .died
  sem1 : 0 < h.service.sems 1
  awaiting : ∃ i, (h.service.clients i).pc.awaiting = true

/-- A server that dies does so under a client that awaits it. -/
theorem Inv.stuck {q : Queries ι} {h : Host ι} (hi : Shm.Inv dict q h.service) (hd : h.service.server.pc = .died) :
    h.Stuck := by
  cases hi.phase with
  | free _ _ loop => rw [hd] at loop; cases loop
  | held i _ _ _ phase =>
    cases phase with
    | dead pc sem => exact ⟨hd, by omega, i, congrArg ClientPc.awaiting pc⟩
    | looking _ _ _ look => rw [hd] at look; cases look
    | copying _ _ _ _ loop | copied _ _ _ loop | alerted _ _ _ loop | answered _ _ _ loop | passed _ _ _ loop =>
      rw [hd] at loop
      cases loop

variable [DecidableEq ι]

/-- A step of a process's program keeps it. -/
theorem Host.Inv.runs {h : Host ι} (hi : h.Inv) {p : Proc ι} {s' : State ι}
    (hs : Shm.step dict keeps h.service p = some s') : Host.Inv { h with service := s' } := by
  cases p with
  | client i =>
    simp only [Shm.step, Option.map_eq_some_iff] at hs
    obtain ⟨⟨sems', shm', c'⟩, hc, rfl⟩ := hs
    have howes (hc' : c'.Owes h.down) : ∀ j, (Function.update h.service.clients i c' j).Owes h.down :=
      (Function.forall_update_iff _ fun _ (c : Client) => c.Owes h.down).2 ⟨hc', fun j _ => hi.clients j⟩
    have hself (ha : ∀ j, (Function.update h.service.clients i c' j).pc.awaiting = false) :
        c'.pc.awaiting = false ∧ ∀ j, j ≠ i → (h.service.clients j).pc.awaiting = false :=
      (Function.forall_update_iff _ fun _ (c : Client) => c.pc.awaiting = false).1 ha
    rcases Client.acts (hi.clients i).adj0 hi.mutex.le hc with hm | ⟨pc, hn, rfl, rfl, rfl⟩
    · refine ⟨howes (hm.owes (hi.clients i)), hi.server, hi.mutex.move hm, Client.step_le hc hi.sem1, ?_⟩
      intro hd ha
      obtain ⟨hc', ho⟩ := hself ha
      obtain ⟨he, hq | hq⟩ := hm.quiet hc'
      · refine he.trans (hi.quiet hd fun j => ?_)
        by_cases hj : j = i
        · rw [hj, hq]
        · exact ho j hj
      · exact he.trans hq
    · refine ⟨howes (hi.owes_of_fails pc hn _), hi.server, hi.mutex.keep (by rw [pc]; rfl), hi.sem1, ?_⟩
      intro _ ha
      cases (hself ha).1
  | server =>
    simp only [Shm.step, Option.map_eq_some_iff] at hs
    obtain ⟨⟨sems', shm', srv'⟩, hc, rfl⟩ := hs
    obtain ⟨h0, h1⟩ := (Server.move hi.sem1 hc).lowers
    refine ⟨hi.clients, hi.server.step hi.sem1 hc, by simpa only [h0] using hi.mutex, h1.trans hi.sem1, ?_⟩
    intro hd ha
    have := hi.quiet hd ha
    show sems' 1 = 0
    omega

theorem Host.Inv.step {h h' : Host ι} (hi : h.Inv) {e : Event ι} (hs : h.step dict keeps e = some h') : h'.Inv := by
  cases e with
  | step p =>
    simp only [Host.step] at hs
    split at hs
    · obtain ⟨s', hs', rfl⟩ := Option.map_eq_some_iff.1 hs
      exact hi.runs hs'
    · cases hs
  | exit i =>
    simp only [Host.step] at hs
    split at hs
    · next hidle =>
      cases hs
      obtain ⟨h0, h1, -⟩ := hi.clients i
      rw [hidle.2] at h0
      refine ⟨hi.clients, hi.server, ?_, exitUndo_le 1, fun hd ha => ?_⟩
      · show Mutex (exitUndo _ _ 0) _
        rw [exitUndo_zero (hi.mutex.le.trans (by decide)) h0]
        exact hi.mutex
      · exact Nat.le_zero.1 ((exitUndo_le_self h1).trans (hi.quiet hd ha).le)
    · cases hs
  | down =>
    simp only [Host.step] at hs
    split at hs
    · cases hs
      refine ⟨fun i => ?_, hi.server, ?_, exitUndo_le 1, fun hd => (nomatch hd)⟩
      · exact ⟨(hi.clients i).adj0, (hi.clients i).adj1, fun hd => (nomatch hd)⟩
      · show Mutex (exitUndo _ _ 0) _
        rw [exitUndo_zero (hi.mutex.le.trans (by decide)) hi.server.adj0]
        exact hi.mutex
    · cases hs

theorem Host.Inv.reach {ok : Host ι → Event ι → Prop} {h h' : Host ι} (hi : h.Inv)
    (hr : Reach (Host.step dict keeps) ok h h') : h'.Inv :=
  hr.invariant (fun _ _ _ hi _ hs => hi.step hs) hi

/-! ## The exit of a finished client -/

/-- A client that passes `await` in this state has its answer. -/
def Host.Answers (dict : Dictionary) (keeps : Bool) (h : Host ι) : Prop :=
  ∀ i n h', (h.service.clients i).pc = .await n → h.step dict keeps (.step (.client i)) = some h' →
    h.service.server.served = n + 1 ∧ h.service.shm.text.str = (reply dict (h.service.clients i).word.chars).chars

/-- The clients exit only while semaphore 1 is at zero. -/
def ExitsQuiet (h : Host ι) : Event ι → Prop
  | .exit _ => h.service.sems 1 = 0
  | .step _ | .down => True

instance (h : Host ι) : (e : Event ι) → Decidable (ExitsQuiet h e)
  | .exit _ => inferInstanceAs (Decidable (_ = _))
  | .step _ | .down => .isTrue trivial

/-- There is no way on for the client that awaits the server, and none for
the others to semaphore 1. -/
theorem Host.Stuck.runs {h : Host ι} (hk : h.Stuck) (hi : h.Inv) {p : Proc ι} {s' : State ι}
    (hs : Shm.step dict keeps h.service p = some s') : Host.Stuck { h with service := s' } := by
  obtain ⟨hpc, h1, i, hai⟩ := hk
  cases p with
  | client j =>
    simp only [Shm.step, Option.map_eq_some_iff] at hs
    obtain ⟨⟨sems', shm', c'⟩, hc, rfl⟩ := hs
    have hheld := ClientPc.held_of_awaiting hai
    by_cases hj : j = i
    · subst hj
      rcases Client.acts (hi.clients j).adj0 hi.mutex.le hc with hm | ⟨pc, -⟩
      · cases hm with
        | await _ sem => omega
        | call pc | grab pc | copyWord pc | alert pc | release pc | differs pc | same pc | absent pc
        | copyText pc | found pc => rw [pc] at hai; cases hai
      · rw [pc] at hai
        cases hai
    · have hn := hi.mutex.others hheld hj
      have hsem : sems' 1 = h.service.sems 1 := by
        rcases Client.acts (hi.clients j).adj0 hi.mutex.le hc with hm | ⟨pc, -⟩
        · rcases hm.free hn with ⟨-, -, rfl, -⟩ | ⟨-, rfl, -⟩ <;> rfl
        · rw [pc] at hn
          cases hn
      refine ⟨hpc, by show 0 < sems' 1; omega, i, ?_⟩
      show (Function.update h.service.clients j c' i).pc.awaiting = true
      rwa [Function.update_of_ne (Ne.symm hj)]
  | server =>
    simp only [Shm.step, Option.map_eq_some_iff, Server.step, hpc] at hs
    obtain ⟨_, hs, -⟩ := hs
    cases hs

/-- The handshake stands, or the server has exited under the client it was to
answer. -/
structure Host.Keeps (dict : Dictionary) (q : Queries ι) (h : Host ι) : Prop where
  inv : h.Inv
  phase : Shm.Inv dict q h.service ∨ h.Stuck

theorem Host.Keeps.step {q : Queries ι} {h h' : Host ι} (hk : h.Keeps dict q) {e : Event ι}
    (hok : ExitsQuiet h e) (hs : h.step dict keeps e = some h') : h'.Keeps dict q := by
  refine ⟨hk.inv.step hs, ?_⟩
  cases e with
  | step p =>
    simp only [Host.step] at hs
    split at hs
    · obtain ⟨s', hs', rfl⟩ := Option.map_eq_some_iff.1 hs
      rcases hk.phase with hi | hst
      · exact .inl (hi.step hs')
      · exact .inr (hst.runs hk.inv hs')
    · cases hs
  | exit i =>
    simp only [Host.step] at hs
    split at hs
    · next hidle =>
      cases hs
      obtain ⟨ha0, ha1, -⟩ := hk.inv.clients i
      rw [hidle.2] at ha0
      have h0 : exitUndo h.service.sems (h.service.clients i).adj 0 = h.service.sems 0 :=
        exitUndo_zero (hk.inv.mutex.le.trans (by decide)) ha0
      have h1 : exitUndo h.service.sems (h.service.clients i).adj 1 = h.service.sems 1 :=
        (exitUndo_eq_iff hk.inv.sem1 ha1).2 (.inl hok)
      rcases hk.phase with hi | hst
      · exact .inl ⟨hi.clients, hi.phase.congr h0 h1⟩
      · exact absurd hok hst.sem1.ne'
    · cases hs
  | down =>
    simp only [Host.step] at hs
    split at hs
    · next hdown =>
      have hst : h.Stuck := by
        rcases hk.phase with hi | hst
        · exact hi.stuck hdown.2
        · exact hst
      cases hs
      have ha := hk.inv.server.adj1
      refine .inr ⟨hst.server, ?_, hst.awaiting⟩
      have := hst.sem1
      show 0 < exitUndo h.service.sems h.service.server.adj 1
      simp only [exitUndo, SEMVMX]
      omega
    · cases hs

theorem Host.Keeps.answers {q : Queries ι} {h : Host ι} (hk : h.Keeps dict q) : h.Answers dict keeps := by
  intro i n h' pc hs
  simp only [Host.step] at hs
  split at hs
  · obtain ⟨s', hs', rfl⟩ := Option.map_eq_some_iff.1 hs
    rcases hk.phase with hi | hst
    · obtain ⟨hn, ht⟩ := hi.answered pc hs'
      exact ⟨hn, ht.str⟩
    · have hblocked : Client.semop (h.service.clients i) await h.service.sems .release = none := by
        rw [Client.semop, semop_blocks (.inl ⟨rfl, hst.sem1.ne'⟩)]
      simp [Shm.step, Client.step, pc, hblocked] at hs'
  · cases hs

/-- Whatever the clients ask, in every state of every run the exit of a
finished client leaves both semaphores exactly when semaphore 1 is at zero
(or, the server having exited before, the client's alerts all failed). In a
run whose clients exit only then, none passes `await` without its answer. -/
theorem exit_leaves_iff (shm : Dictrec) :
    (∀ (words : ι → List (CStr WORD)) (h : Host ι), Reach (Host.step dict keeps) anyStep (.init shm words) h →
      ∀ i, h.finished i → (Leaves h.service.sems (h.service.clients i).adj ↔
        h.service.sems 1 = 0 ∨ (h.down = true ∧ (h.service.clients i).adj 1 = 0))) ∧
    (∀ (q : Queries ι) (h : Host ι), Reach (Host.step dict keeps) ExitsQuiet (.init shm q.words) h →
      h.Answers dict keeps) := by
  constructor
  · intro words h hr i hf
    exact ((Host.Inv.init shm words).reach hr).leaves_iff hf
  · intro q h hr
    have hk : h.Keeps dict q :=
      hr.invariant (fun _ _ _ hk hok hs => hk.step hok hs) ⟨.init shm q.words, .inl (.init shm q)⟩
    exact hk.answers

/-! ## A run -/

/-- The first of two clients asks its word and returns. -/
def firstAsks : List (Event Bool) :=
  List.replicate 5 (.step (.client false)) ++ List.replicate 6 (.step .server) ++
    List.replicate 5 (.step (.client false))

/-- It exits before the second asks, which changes neither semaphore, and the
second gets its answer. -/
theorem exit_leaves_first :
    (∃ h, exec (Host.step twoWords false) anyStep (.init Dictrec.blank twoClients.words) firstAsks = some h ∧
      h.finished false ∧ Leaves h.service.sems (h.service.clients false).adj) ∧
    (∃ h, exec (Host.step twoWords false) ExitsQuiet (.init Dictrec.blank twoClients.words)
        (firstAsks ++ [.exit false] ++ List.replicate 5 (.step (.client true)) ++ List.replicate 6 (.step .server)) =
          some h ∧
      (h.service.clients true).pc = .await 1 ∧ h.Answers twoWords false) := by
  constructor
  · have hrun : (exec (Host.step twoWords false) anyStep (.init Dictrec.blank twoClients.words) firstAsks).map
        (fun h => (decide (h.finished false), h.service.sems 1)) = some (true, 0) := by
      decide +kernel
    obtain ⟨h, hs, hh⟩ := Option.map_eq_some_iff.1 hrun
    obtain ⟨hf, h1⟩ := Prod.mk.inj hh
    have hf := of_decide_eq_true hf
    exact ⟨h, hs, hf, ((exit_leaves_iff Dictrec.blank).1 twoClients.words h (reach_of_exec hs) false hf).2 (.inl h1)⟩
  · have hrun : (exec (Host.step twoWords false) ExitsQuiet (.init Dictrec.blank twoClients.words)
        (firstAsks ++ [.exit false] ++ List.replicate 5 (.step (.client true)) ++ List.replicate 6 (.step .server))).map
          (fun h => (h.service.clients true).pc) = some (.await 1) := by
      decide +kernel
    obtain ⟨h, hs, pc⟩ := Option.map_eq_some_iff.1 hrun
    exact ⟨h, hs, pc, (exit_leaves_iff Dictrec.blank).2 twoClients h (reach_of_exec hs)⟩

/-- It exits once the second has alerted the server: semaphore 1 goes from two
to zero, and the second passes `await` with the server still to be woken. -/
theorem exit_releases :
    (¬ ∀ h, Reach (Host.step twoWords false) anyStep (.init Dictrec.blank twoClients.words) h →
      ∀ i, h.finished i → Leaves h.service.sems (h.service.clients i).adj) ∧
    (¬ ∀ h, Reach (Host.step twoWords false) anyStep (.init Dictrec.blank twoClients.words) h →
      h.Answers twoWords false) := by
  constructor
  · have hrun : (exec (Host.step twoWords false) anyStep (.init Dictrec.blank twoClients.words)
        (firstAsks ++ List.replicate 5 (.step (.client true)))).map
          (fun h => (decide (h.finished false), decide (Leaves h.service.sems (h.service.clients false).adj))) =
        some (true, false) := by
      decide +kernel
    obtain ⟨h, hs, hh⟩ := Option.map_eq_some_iff.1 hrun
    obtain ⟨hf, hl⟩ := Prod.mk.inj hh
    intro hall
    exact of_decide_eq_false hl (hall h (reach_of_exec hs) false (of_decide_eq_true hf))
  · have hrun : (exec (Host.step twoWords false) anyStep (.init Dictrec.blank twoClients.words)
        (firstAsks ++ List.replicate 5 (.step (.client true)) ++ [.exit false])).map
          (fun h => ((h.service.clients true).pc, h.service.server.served,
            (h.step twoWords false (.step (.client true))).isSome)) = some (.await 1, 1, true) := by
      decide +kernel
    obtain ⟨h, hs, hh⟩ := Option.map_eq_some_iff.1 hrun
    simp only [Prod.mk.injEq] at hh
    obtain ⟨pc, served, hsome⟩ := hh
    obtain ⟨h', hs'⟩ := Option.isSome_iff_exists.1 hsome
    intro hall
    have := (hall h (reach_of_exec hs) true 1 h' pc hs').1
    omega

end SysProg.Shm
