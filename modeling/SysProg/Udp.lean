/-
The UDP service: `lookup` of `lookup9.c` in any number of client processes,
the loop of `udp_server.c`, and a network that may delay, reorder, lose or
double datagrams. A reply does not say to which query it is one: that of a
client's last query is taken for it as long as nothing else can be under way.
-/
import Mathlib.Logic.Function.Basic
import SysProg.Lib.Flight
import SysProg.Lib.Lts
import SysProg.Service

namespace SysProg.Udp

/-- A datagram from a client to the server, or from the server to one. -/
inductive Datagram (ι : Type) where
  | request (i : ι) (bytes : List Byte)
  | reply (i : ι) (bytes : List Byte)
  deriving DecidableEq

/-- The client it is from or to. -/
def Datagram.client {ι : Type} : Datagram ι → ι
  | .request i _ => i
  | .reply i _ => i

/-- A client, with what `lookup` keeps. -/
structure Client where
  /-- `recvfrom` has not returned yet. -/
  waits : Bool
  sought : Dictrec
  /-- The word of the last call. -/
  word : CStr WORD
  /-- The words still to be asked. -/
  todo : List (CStr WORD)
  /-- The words asked, and what `lookup` returned for each. -/
  past : List (CStr WORD × Status × Option (List Byte))

/-- `lookup` is called with the next word, and sends its datagram. -/
def Client.call (c : Client) : Option (List Byte × Client) :=
  match c.waits, c.todo with
  | false, w :: ws =>
    let word := c.sought.word.strcpy w.chars
    some (word.bytes.take (word.str.length + 1),
      { c with waits := true, sought := { c.sought with word }, word := w, todo := ws })
  | _, _ => none

/-- A datagram is there, and `lookup` returns. -/
def Client.return (c : Client) (bytes : List Byte) : Client :=
  let r := Encoding.lookup9 bytes c.sought
  { c with waits := false, sought := r.2, past := c.past ++ [(c.word, seen r)] }

/-- The server, with its static variables. -/
structure Server (σ : Type) where
  tryit : Dictrec
  st : σ

/-- From a datagram received to the bytes of the reply. -/
def Server.serve {σ : Type} (lookup : σ → Dictrec → Option (Answer σ)) (srv : Server σ) (bytes : List Byte) :
    Option (List Byte × Server σ) :=
  (call lookup srv.st { srv.tryit with word := srv.tryit.word.store 0 bytes }).map fun (r, st) =>
    (Encoding.udp_server r, ⟨r.tryit, st⟩)

/-- The datagrams under way, and the processes. -/
structure State (ι σ : Type) where
  /-- The datagrams that are under way. -/
  flight : List (Datagram ι)
  clients : ι → Client
  server : Server σ

/-- What happens next: a client calls `lookup`, or a datagram arrives, is
doubled or is lost. -/
inductive Action (ι : Type) where
  | call (i : ι)
  | deliver (k : Nat)
  | duplicate (k : Nat)
  | lose (k : Nat)

section

variable {ι : Type} [DecidableEq ι]

/-- A reply arrives when its client waits for one. -/
def step (S : Service) (s : State ι S.σ) : Action ι → Option (State ι S.σ)
  | .call i => (s.clients i).call.map fun (bytes, c) =>
      { s with flight := .request i bytes :: s.flight, clients := Function.update s.clients i c }
  | .deliver k => (takeAt s.flight k).bind fun (d, flight) =>
      match d with
      | .request i bytes => (s.server.serve S.lookup bytes).map fun (bytes, server) =>
          { s with flight := .reply i bytes :: flight, server }
      | .reply i bytes =>
        if (s.clients i).waits then
          some { s with flight, clients := Function.update s.clients i ((s.clients i).return bytes) }
        else none
  | .duplicate k => s.flight[k]?.map fun d => { s with flight := d :: s.flight }
  | .lose k => (takeAt s.flight k).map fun (_, flight) => { s with flight }

/-- Nothing under way, no client begun, and whatever the other variables hold. -/
def State.init (S : Service) (sought : ι → Dictrec) (tryit : Dictrec) (words : ι → List (CStr WORD)) :
    State ι S.σ where
  flight := []
  clients i := ⟨false, sought i, noWord, words i, []⟩
  server := ⟨tryit, S.init⟩

/-- No datagram of this client is doubled. -/
def Single (i : ι) {σ : Type} (s : State ι σ) : Action ι → Prop
  | .duplicate k => ∀ d ∈ s.flight[k]?, d.client ≠ i
  | _ => True

instance (i : ι) {σ : Type} (s : State ι σ) : (a : Action ι) → Decidable (Single i s a)
  | .duplicate k => inferInstanceAs (Decidable (∀ d ∈ s.flight[k]?, d.client ≠ i))
  | .call _ | .deliver _ | .lose _ => .isTrue trivial

/-- The datagrams of a client that are under way. -/
def mine (i : ι) (flight : List (Datagram ι)) : List (Datagram ι) := flight.filter fun d => d.client = i

end

/-! ## What a client's calls keep to -/

/-- The phases of a client's query: `q` are its datagrams under way. -/
inductive Phase {ι : Type} (dict : Dictionary) (i : ι) (c : Client) (q : List (Datagram ι)) : Prop
  | idle (waits : c.waits = false) (none : q = [])
  | asked (waits : c.waits = true) (one : q = [.request i (c.word.chars ++ [NUL])])
  | replied (waits : c.waits = true) (one : q = [.reply i ((reply dict c.word.chars).chars ++ [NUL])])
  | lost (waits : c.waits = true) (none : q = [])

/-- What holds of a client whatever its phase. -/
structure Client.Ok (dict : Dictionary) (words : List (CStr WORD)) (c : Client) : Prop where
  asks : c.past.map (·.1) ++ ((if c.waits then [c.word] else []) ++ c.todo) = words
  past : ∀ r ∈ c.past, r.2 = Encoding.decoded (reply dict r.1.chars)

variable {ι : Type} {S : Service} {dict : Dictionary}

theorem Client.Ok.call {c c' : Client} {bytes : List Byte} {words : List (CStr WORD)} (h : c.Ok dict words)
    (hc : c.call = some (bytes, c')) :
    c'.Ok dict words ∧ c.waits = false ∧ c'.waits = true ∧ bytes = c'.word.chars ++ [NUL] := by
  unfold Client.call at hc
  split at hc
  · next w ws waits todo =>
    cases hc
    have hbytes := Buf.take_str_nul (Buf.strcpy_terminated (b := c.sought.word) w)
    rw [Buf.strcpy_str] at hbytes
    refine ⟨⟨?_, h.past⟩, waits, rfl, ?_⟩
    · rw [← h.asks, waits, todo]
      rfl
    · simp only [Buf.strcpy_str, hbytes]
  · cases hc

theorem Client.Ok.return {c : Client} {words : List (CStr WORD)} (h : c.Ok dict words) (waits : c.waits = true) :
    (c.return ((reply dict c.word.chars).chars ++ [NUL])).Ok dict words where
  asks := by
    rw [← h.asks, waits]
    simp [Client.return]
  past := by
    intro r hr
    rcases List.mem_append.1 hr with hr | hr
    · exact h.past r hr
    · obtain rfl := List.mem_singleton.1 hr
      exact Encoding.socketLookup_seen _ c.sought

theorem Server.serve_eq {srv srv' : Server S.σ} {bytes bytes' : List Byte} (hr : S.Ready srv.st)
    (hs : srv.serve S.lookup bytes = some (bytes', srv')) :
    S.Ready srv'.st ∧ ∀ w : CStr WORD, bytes = w.chars ++ [NUL] → bytes' = (reply S.dict w.chars).chars ++ [NUL] := by
  obtain ⟨⟨r, st⟩, hcall, he⟩ := Option.map_eq_some_iff.1 hs
  obtain ⟨rfl, rfl⟩ := Prod.mk.inj he
  obtain ⟨hst, htext⟩ := S.returned hr hcall
  refine ⟨hst, ?_⟩
  rintro w rfl
  have hword : (srv.tryit.word.store 0 (w.chars ++ [NUL])).str = w.chars := Buf.strcpy_str w
  rw [Encoding.udp_server, Encoding.socketReply_eq, htext, hword]

/-! ## The datagrams under way -/

variable [DecidableEq ι] {i : ι} {d : Datagram ι} {q q' : List (Datagram ι)}

theorem mine_cons_self (h : d.client = i) : mine i (d :: q) = d :: mine i q :=
  List.filter_cons_of_pos (by simpa using h)

theorem mine_cons_other (h : d.client ≠ i) : mine i (d :: q) = mine i q :=
  List.filter_cons_of_neg (by simpa using h)

theorem mine_take_other (h : Takes d q q') (hd : d.client ≠ i) : mine i q' = mine i q :=
  h.filter_other (by simpa using hd)

theorem mine_take_self {a : Datagram ι} (h : Takes d q q') (hd : d.client = i) (ha : mine i q = [a]) :
    d = a ∧ mine i q' = [] :=
  h.filter_only (by simpa using hd) ha

theorem mem_mine (h : d ∈ q) (hd : d.client = i) : d ∈ mine i q := List.mem_filter.2 ⟨h, by simpa using hd⟩

/-! ## A client none of whose datagrams is doubled -/

/-- What the steps keep for it. -/
structure Inv (S : Service) (words : List (CStr WORD)) (i : ι) (s : State ι S.σ) : Prop where
  client : (s.clients i).Ok S.dict words
  phase : Phase S.dict i (s.clients i) (mine i s.flight)
  ready : S.Ready s.server.st

variable {words : List (CStr WORD)} {s s' : State ι S.σ}

theorem Inv.of {c : Client} (hc : s'.clients i = c) (hok : c.Ok S.dict words)
    (hp : Phase S.dict i c (mine i s'.flight)) (hr : S.Ready s'.server.st) : Inv S words i s' := by
  subst hc
  exact ⟨hok, hp, hr⟩

theorem Inv.frame (h : Inv S words i s) (hc : s'.clients i = s.clients i) (hq : mine i s'.flight = mine i s.flight)
    (hr : S.Ready s'.server.st) : Inv S words i s' :=
  .of hc h.client (hq ▸ h.phase) hr

theorem Inv.call (h : Inv S words i s) {j : ι} (hs : step S s (.call j) = some s') : Inv S words i s' := by
  obtain ⟨⟨bytes, c⟩, hc, rfl⟩ := Option.map_eq_some_iff.1 hs
  by_cases hj : j = i
  · subst hj
    obtain ⟨hok, waits, waits', hbytes⟩ := h.client.call hc
    have hnone : mine j s.flight = [] := by
      cases h.phase with
      | idle _ none => exact none
      | asked w | replied w | lost w => rw [waits] at w; cases w
    refine .of (Function.update_self ..) hok (.asked waits' ?_) h.ready
    exact (mine_cons_self (i := j) rfl).trans (by rw [hnone, hbytes])
  · exact h.frame (Function.update_of_ne (Ne.symm hj) ..) (mine_cons_other hj) h.ready

theorem Inv.deliver (h : Inv S words i s) {k : Nat} (hs : step S s (.deliver k) = some s') : Inv S words i s' := by
  obtain ⟨⟨d, flight⟩, hd, hs⟩ := Option.bind_eq_some_iff.1 hs
  have htakes := takes_takeAt hd
  cases d with
  | request j bytes =>
    obtain ⟨⟨bytes', srv⟩, hserve, rfl⟩ := Option.map_eq_some_iff.1 hs
    obtain ⟨hready, hreply⟩ := Server.serve_eq h.ready hserve
    by_cases hj : j = i
    · subst hj
      refine ⟨h.client, ?_, hready⟩
      have hmem := mem_mine (i := j) htakes.mem rfl
      show Phase S.dict j (s.clients j) (mine j (.reply j bytes' :: flight))
      cases h.phase with
      | idle _ none | lost _ none => rw [none] at hmem; cases hmem
      | replied _ one => rw [one, List.mem_singleton] at hmem; cases hmem
      | asked waits one =>
        obtain ⟨he, hnone⟩ := mine_take_self (i := j) htakes rfl one
        obtain ⟨-, rfl⟩ := Datagram.request.inj he
        rw [mine_cons_self (i := j) rfl, hnone, hreply _ rfl]
        exact .replied waits rfl
    · exact h.frame rfl ((mine_cons_other (d := .reply j bytes') hj).trans (mine_take_other htakes hj)) hready
  | reply j bytes =>
    simp only at hs
    split at hs
    · next waits =>
      cases hs
      by_cases hj : j = i
      · subst hj
        have hmem := mem_mine (i := j) htakes.mem rfl
        cases h.phase with
        | idle _ none | lost _ none => rw [none] at hmem; cases hmem
        | asked _ one => rw [one, List.mem_singleton] at hmem; cases hmem
        | replied _ one =>
          obtain ⟨he, hnone⟩ := mine_take_self (i := j) htakes rfl one
          obtain ⟨-, rfl⟩ := Datagram.reply.inj he
          exact .of (Function.update_self ..) (h.client.return waits) (.idle rfl hnone) h.ready
      · exact h.frame (Function.update_of_ne (Ne.symm hj) ..) (mine_take_other htakes hj) h.ready
    · cases hs

theorem Inv.duplicate (h : Inv S words i s) {k : Nat} (hok : Single i s (.duplicate k))
    (hs : step S s (.duplicate k) = some s') : Inv S words i s' := by
  obtain ⟨d, hd, rfl⟩ := Option.map_eq_some_iff.1 hs
  exact h.frame rfl (mine_cons_other (hok d hd)) h.ready

theorem Inv.lose (h : Inv S words i s) {k : Nat} (hs : step S s (.lose k) = some s') : Inv S words i s' := by
  obtain ⟨⟨d, flight⟩, hd, rfl⟩ := Option.map_eq_some_iff.1 hs
  have htakes := takes_takeAt hd
  by_cases hi : d.client = i
  · refine ⟨h.client, ?_, h.ready⟩
    have hmem := mem_mine htakes.mem hi
    show Phase S.dict i (s.clients i) (mine i flight)
    cases h.phase with
    | idle _ none | lost _ none => rw [none] at hmem; cases hmem
    | asked waits one | replied waits one => exact .lost waits (mine_take_self htakes hi one).2
  · exact h.frame rfl (mine_take_other htakes hi) h.ready

theorem Inv.step (h : Inv S words i s) {a : Action ι} (hok : Single i s a) (hs : Udp.step S s a = some s') :
    Inv S words i s' := by
  cases a with
  | call j => exact h.call hs
  | deliver k => exact h.deliver hs
  | duplicate k => exact h.duplicate hok hs
  | lose k => exact h.lose hs

/-- The results of a client are those of its words, in their order. -/
def Paired (dict : Dictionary) (words : List (CStr WORD)) (c : Client) : Prop :=
  c.past = (words.take c.past.length).map fun w => (w, answer dict w)

instance (dict : Dictionary) (words : List (CStr WORD)) (c : Client) : Decidable (Paired dict words c) :=
  inferInstanceAs (Decidable (_ = _))

theorem Client.Ok.paired {c : Client} (h : c.Ok dict words) (hx : ∀ w ∈ words, dict w.chars ≠ some XXXX) :
    Paired dict words c := by
  have hwords : words.take c.past.length = c.past.map (·.1) := by rw [← h.asks, List.take_left' (by simp)]
  rw [Paired, hwords]
  refine past_of_answers fun r hr => (h.past r hr).trans (Encoding.decoded_reply r.1 (hx _ ?_))
  rw [← h.asks]
  exact List.mem_append_left _ (List.mem_map_of_mem hr)

/-- As long as no datagram of its own is doubled, and its words have not the
text XXXX, each call of a client returns the result for its own word, whatever
else the network does and the other clients ask. -/
theorem paired_reached (d : DictFile) (bsearch : Bsearch (Buf WORD) Dictrec) (sought : ι → Dictrec) (tryit : Dictrec)
    (words : ι → List (CStr WORD)) (i : ι) (hx : ∀ w ∈ words i, d.found w.chars ≠ some XXXX)
    {s : State ι (lookup5Service d bsearch).σ}
    (h : Reach (step (lookup5Service d bsearch)) (Single i) (.init _ sought tryit words) s) :
    Paired d.found (words i) (s.clients i) := by
  have hinv : Inv (lookup5Service d bsearch) (words i) i s :=
    h.invariant (fun _ _ _ hi hok hs => hi.step hok hs) ⟨⟨rfl, by simp [State.init]⟩, .idle rfl rfl, .inl rfl⟩
  exact hinv.client.paired hx

/-! ## Runs -/

/-- One client asks a and then b; the datagrams of another are doubled. -/
theorem paired_other_doubled : ∃ s,
    Reach (step (lookup5Service twoRecords default)) (Single false)
      (.init _ (fun _ => Dictrec.blank) Dictrec.blank
        fun i => if i then [⟨[98], by decide, by decide⟩]
          else [⟨[97], by decide, by decide⟩, ⟨[98], by decide, by decide⟩]) s ∧
    (s.clients false).past.map (·.2) = [(.FOUND, some [65]), (.FOUND, some [66])] ∧
    Paired twoRecords.found [⟨[97], by decide, by decide⟩, ⟨[98], by decide, by decide⟩] (s.clients false) := by
  have hrun : (exec (step (lookup5Service twoRecords default)) (Single false)
      (.init _ (fun _ => Dictrec.blank) Dictrec.blank
        fun i => if i then [⟨[98], by decide, by decide⟩]
          else [⟨[97], by decide, by decide⟩, ⟨[98], by decide, by decide⟩])
      [.call false, .call true, .duplicate 0, .deliver 2, .deliver 0,
        .call false, .deliver 1, .deliver 1, .deliver 0]).map
        (fun s => (s.clients false).past.map (·.2)) = some [(.FOUND, some [65]), (.FOUND, some [66])] := by
    decide +kernel
  obtain ⟨s, hs, hpast⟩ := Option.map_eq_some_iff.1 hrun
  exact ⟨s, reach_of_exec hs, hpast,
    paired_reached twoRecords default _ _ _ false (by decide +kernel) (reach_of_exec hs)⟩

/-- When the first query of a client arrives twice, the second reply to it is
taken for the one to the next query. A text XXXX is taken for none. -/
theorem stale_reply :
    (¬ ∀ s, Reach (step (lookup5Service twoRecords default)) anyStep
        (.init _ (fun _ => Dictrec.blank) Dictrec.blank
          fun _ : Unit => [⟨[97], by decide, by decide⟩, ⟨[98], by decide, by decide⟩]) s →
      Paired twoRecords.found [⟨[97], by decide, by decide⟩, ⟨[98], by decide, by decide⟩] (s.clients ())) ∧
    (¬ ∀ s, Reach (step (lookup5Service foundXXXXFile default)) (Single ())
        (.init _ (fun _ => Dictrec.blank) Dictrec.blank fun _ : Unit => [⟨[97], by decide, by decide⟩]) s →
      Paired foundXXXXFile.found [⟨[97], by decide, by decide⟩] (s.clients ())) := by
  constructor
  · have hrun : (exec (step (lookup5Service twoRecords default)) anyStep
        (.init _ (fun _ => Dictrec.blank) Dictrec.blank
          fun _ : Unit => [⟨[97], by decide, by decide⟩, ⟨[98], by decide, by decide⟩])
        [.call (), .duplicate 0, .deliver 0, .deliver 0, .call (), .deliver 1, .deliver 0]).map
          (fun s => decide (Paired twoRecords.found [⟨[97], by decide, by decide⟩, ⟨[98], by decide, by decide⟩]
            (s.clients ()))) = some false := by
      decide +kernel
    obtain ⟨s, hs, hpaired⟩ := Option.map_eq_some_iff.1 hrun
    exact fun hall => of_decide_eq_false hpaired (hall s (reach_of_exec hs))
  · have hrun : (exec (step (lookup5Service foundXXXXFile default)) (Single ())
        (.init _ (fun _ => Dictrec.blank) Dictrec.blank fun _ : Unit => [⟨[97], by decide, by decide⟩])
        [.call (), .deliver 0, .deliver 0]).map
          (fun s => decide (Paired foundXXXXFile.found [⟨[97], by decide, by decide⟩] (s.clients ()))) =
        some false := by
      decide +kernel
    obtain ⟨s, hs, hpaired⟩ := Option.map_eq_some_iff.1 hrun
    exact fun hall => of_decide_eq_false hpaired (hall s (reach_of_exec hs))

end SysProg.Udp
