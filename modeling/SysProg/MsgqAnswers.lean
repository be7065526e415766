/-
Whose answer a client of the message-queue service gets: the phase of each
client's query, which every step keeps to (`Inv.step`), and from it that every
request is answered once, to its own client.
-/
import SysProg.Msgq

namespace SysProg.Msgq

variable {ι : Type} {S : Service} {P : Pids ι} {dict : Dictionary}

/-! ## Messages of a client -/

/-- The process a message belongs to: of a request the one it names, of a
reply the one it is for. -/
def owner (m : Message) : Int := if m.type = SERVER then atol (cstr (m.bytes.drop WORD)) else m.type

/-- The messages of a client in the queue. -/
def mine (P : Pids ι) (i : ι) (q : List Message) : List Message := q.filter fun m => owner m = P.pid i

/-- A request of a client for a word. -/
structure IsRequest (pid : Nat) (w : CStr WORD) (req : Request) : Prop where
  word : req.word.str = w.chars
  id : req.id.str = decimal pid

/-- The server's reply to a client. -/
def replyTo (dict : Dictionary) (pid : Nat) (w : CStr WORD) : Message := ⟨pid, (reply dict w.chars).chars ++ [NUL]⟩

theorem owner_request {pid : Nat} {w : CStr WORD} {req : Request} (h : IsRequest pid w req) :
    owner ⟨SERVER, req.flat⟩ = pid := by
  rw [owner, if_pos rfl, Request.flat, List.drop_left' req.word.size]
  show atol req.id.str = pid
  rw [h.id, atol_decimal]

theorem Pids.ne_server (P : Pids ι) (i : ι) : (P.pid i : Int) ≠ SERVER := by
  have := P.gt_one i
  simp only [SERVER]
  omega

theorem owner_reply (dict : Dictionary) (P : Pids ι) (i : ι) (w : CStr WORD) :
    owner (replyTo dict (P.pid i) w) = P.pid i :=
  if_neg (P.ne_server i)

theorem Pids.id_str (P : Pids ι) (i : ι) (b : Buf IDSIZE) : (b.strcpy (decimal (P.pid i))).str = decimal (P.pid i) := by
  have hlen : (decimal (P.pid i)).length ≤ 10 := decimal_length (by decide) (by have := P.int i; omega)
  exact Buf.strcpy_str ⟨decimal (P.pid i), nul_not_mem_decimal _, by simp only [IDSIZE]; omega⟩

/-! ## The phases of a query -/

/-- The server is about to send a reply to this process. -/
def ServerPc.holds (pc : ServerPc) (pid : Int) : Prop := ∃ m word, pc = .send m word ∧ m.type = pid

/-- The words of the replies sent to this process. -/
def answeredTo (pid : Int) (answered : List (Int × List Byte)) : List (List Byte) :=
  (answered.filter fun a => a.1 = pid).map (·.2)

/-- The phases of a client's query: `q` are its messages in the queue and `a`
the words of the replies sent to it. -/
inductive Phase (dict : Dictionary) (pid : Nat) (c : Client) (q : List Message) (srv : ServerPc)
    (a : List (List Byte)) : Prop
  | idle (pc : c.pc = .idle ∨ c.pc = .send) (none : q = []) (free : ¬ srv.holds pid)
      (done : a = c.past.map (·.1.chars))
  | asked {req} (pc : c.pc = .receive) (one : q = [⟨SERVER, req.flat⟩]) (req : IsRequest pid c.word req)
      (free : ¬ srv.holds pid) (done : a = c.past.map (·.1.chars))
  | held (pc : c.pc = .receive) (none : q = []) (here : srv = .send (replyTo dict pid c.word) c.word.chars)
      (done : a = c.past.map (·.1.chars))
  | replied (pc : c.pc = .receive) (one : q = [replyTo dict pid c.word]) (free : ¬ srv.holds pid)
      (done : a = c.past.map (·.1.chars) ++ [c.word.chars])

/-- What holds of a client whatever its phase. -/
structure Client.Ok (dict : Dictionary) (pid : Nat) (words : List (CStr WORD)) (c : Client) : Prop where
  asks : c.past.map (·.1) ++ ((if c.pc = .idle then [] else [c.word]) ++ c.todo) = words
  snd : c.pc = .send → IsRequest pid c.word c.snd
  id : c.first_time = false → c.snd.id.str = decimal pid
  past : ∀ r ∈ c.past, r.2 = Encoding.decoded (reply dict r.1.chars)

/-- What every step keeps. -/
structure Inv (S : Service) (P : Pids ι) (words : ι → List (CStr WORD)) (s : State ι S.σ) : Prop where
  clients : ∀ i, (s.clients i).Ok S.dict (P.pid i) (words i)
  phase : ∀ i, Phase S.dict (P.pid i) (s.clients i) (mine P i s.queue) s.server.pc
    (answeredTo (P.pid i) s.server.answered)
  owned : ∀ m ∈ s.queue, ∃ i, owner m = P.pid i
  sends : ∀ m word, s.server.pc = .send m word → ∃ i, m.type = P.pid i
  ready : S.Ready s.server.st

theorem Inv.init (sought : ι → Dictrec) (tryit : Dictrec) (snd : Buf TEXT) (words : ι → List (CStr WORD)) :
    Inv S P words (.init S sought tryit snd words) where
  clients i := ⟨rfl, nofun, nofun, nofun⟩
  phase i := .idle (.inl rfl) rfl (by rintro ⟨m, word, h, -⟩; cases h) rfl
  owned := nofun
  sends := nofun
  ready := S.ready

/-! ## What a step does -/

theorem ServerPc.not_holds_receive (pid : Int) : ¬ ServerPc.receive.holds pid := by
  intro h
  obtain ⟨m, word, hpc, -⟩ := h
  cases hpc

theorem ServerPc.not_holds_send {m : Message} {word : List Byte} {pid : Int} (h : m.type ≠ pid) :
    ¬ (ServerPc.send m word).holds pid := by
  intro hh
  obtain ⟨m', word', hpc, ht⟩ := hh
  cases hpc
  exact h ht

theorem Phase.frame {pid : Nat} {c : Client} {q : List Message} {srv srv' : ServerPc} {a : List (List Byte)}
    (h : Phase dict pid c q srv a) (hn : ¬ srv.holds pid) (hn' : ¬ srv'.holds pid) : Phase dict pid c q srv' a := by
  cases h with
  | idle pc none _ done => exact .idle pc none hn' done
  | asked pc one req _ done => exact .asked pc one req hn' done
  | held _ _ here => exact absurd ⟨_, _, here, rfl⟩ hn
  | replied pc one _ done => exact .replied pc one hn' done

theorem Client.Ok.call {c c' : Client} {words : List (CStr WORD)} {i : ι} (h : c.Ok dict (P.pid i) words)
    (hc : c.call (P.pid i) = some c') :
    c'.Ok dict (P.pid i) words ∧ c.pc = .idle ∧ c'.pc = .send ∧ c'.past = c.past := by
  unfold Client.call at hc
  split at hc
  · next w ws pc todo =>
    cases hc
    have hword : (c.sought.word.strcpy w.chars).str = w.chars := Buf.strcpy_str w
    have hid : (if c.first_time then c.snd.id.strcpy (decimal (P.pid i)) else c.snd.id).str = decimal (P.pid i) := by
      cases hf : c.first_time with
      | false => exact h.id hf
      | true => exact P.id_str i c.snd.id
    refine ⟨⟨?_, fun _ => ⟨?_, hid⟩, fun _ => hid, h.past⟩, pc, rfl, rfl⟩
    · rw [← h.asks, pc, todo]
      rfl
    · show (c.snd.word.strcpy (c.sought.word.strcpy w.chars).str).str = w.chars
      rw [hword, Buf.strcpy_str]
  · cases hc

theorem Client.Ok.send {c : Client} {pid : Nat} {words : List (CStr WORD)} (h : c.Ok dict pid words)
    (pc : c.pc = .send) : Client.Ok dict pid words { c with pc := .receive } where
  asks := by
    rw [← h.asks, pc]
    rfl
  snd := nofun
  id := h.id
  past := h.past

theorem Client.Ok.return {c : Client} {pid : Nat} {words : List (CStr WORD)} (h : c.Ok dict pid words)
    (pc : c.pc = .receive) (rcv : Buf TEXT) : (c.return rcv (replyTo dict pid c.word)).Ok dict pid words where
  asks := by
    rw [← h.asks, pc]
    simp [Client.return]
  snd := nofun
  id := h.id
  past := by
    intro r hr
    rcases List.mem_append.1 hr with hr | hr
    · exact h.past r hr
    · obtain rfl := List.mem_singleton.1 hr
      exact Encoding.lookup4_seen rcv _ c.sought

/-! ## The queue -/

variable {q q' : List Message} {m : Message}

theorem mine_send_self {i : ι} (hm : owner m = P.pid i) : mine P i (q ++ [m]) = mine P i q ++ [m] := by
  rw [mine, filter_send, if_pos (by simpa using hm)]
  rfl

theorem Pids.owner_ne {i j : ι} (hm : owner m = P.pid i) (hj : j ≠ i) : owner m ≠ P.pid j := by
  rw [hm]
  exact fun he => hj (P.distinct (Int.ofNat.inj he)).symm

theorem mine_send_other {i j : ι} (hm : owner m = P.pid i) (hj : j ≠ i) : mine P j (q ++ [m]) = mine P j q := by
  rw [mine, filter_send, if_neg (by simpa using Pids.owner_ne hm hj), List.append_nil]
  rfl

theorem mine_receive_other {i j : ι} {type : Int} (h : msgrcv q type = some (m, q')) (hm : owner m = P.pid i)
    (hj : j ≠ i) : mine P j q' = mine P j q :=
  (msgrcv_eq h).2.filter_other (by simpa using Pids.owner_ne hm hj)

theorem mine_receive_self {i : ι} {type : Int} (h : msgrcv q type = some (m, q')) (hm : owner m = P.pid i)
    {a : Message} (ha : mine P i q = [a]) : m = a ∧ mine P i q' = [] :=
  (msgrcv_eq h).2.filter_only (by simpa using hm) ha

theorem mem_mine {i : ι} (hq : m ∈ q) (hm : owner m = P.pid i) : m ∈ mine P i q :=
  List.mem_filter.2 ⟨hq, by simpa using hm⟩

/-! ## Every state of a run -/

section

variable [DecidableEq ι] {words : ι → List (CStr WORD)} {s s' : State ι S.σ} {cap : Nat} {i : ι}

theorem Inv.call (h : Inv S P words s) (hs : step S cap P s (.call i) = some s') : Inv S P words s' := by
  obtain ⟨c', hc, rfl⟩ := Option.map_eq_some_iff.1 hs
  obtain ⟨hok, pc, pc', hpast⟩ := (h.clients i).call hc
  refine ⟨?_, ?_, h.owned, h.sends, h.ready⟩
  · exact (Function.forall_update_iff _ fun j (c : Client) => c.Ok S.dict (P.pid j) (words j)).2
      ⟨hok, fun j _ => h.clients j⟩
  · refine (Function.forall_update_iff _ fun j (c : Client) => Phase S.dict (P.pid j) c (mine P j s.queue) s.server.pc
      (answeredTo (P.pid j) s.server.answered)).2 ⟨?_, fun j _ => h.phase j⟩
    cases h.phase i with
    | idle _ none free done => exact .idle (.inr pc') none free (by rw [hpast]; exact done)
    | asked pc₀ | held pc₀ | replied pc₀ => rw [pc] at pc₀; cases pc₀

theorem Inv.send (h : Inv S P words s) (hs : step S cap P s (.send i) = some s') : Inv S P words s' := by
  simp only [step] at hs
  split at hs
  · next pc =>
    obtain ⟨queue, hq, rfl⟩ := Option.map_eq_some_iff.1 hs
    obtain ⟨-, rfl⟩ := msgsnd_eq hq
    have hreq := (h.clients i).snd pc
    have hown := owner_request hreq
    refine ⟨?_, ?_, ?_, h.sends, h.ready⟩
    · exact (Function.forall_update_iff _ fun j (c : Client) => c.Ok S.dict (P.pid j) (words j)).2
        ⟨(h.clients i).send pc, fun j _ => h.clients j⟩
    · refine (Function.forall_update_iff _ fun j (c : Client) => Phase S.dict (P.pid j) c (mine P j _) s.server.pc
        (answeredTo (P.pid j) s.server.answered)).2 ⟨?_, ?_⟩
      · cases h.phase i with
        | idle _ none free done =>
          exact .asked rfl (by rw [mine_send_self hown, none]; rfl) hreq free done
        | asked pc₀ | held pc₀ | replied pc₀ => rw [pc] at pc₀; cases pc₀
      · intro j hj
        rw [mine_send_other hown hj]
        exact h.phase j
    · intro m hm
      rcases List.mem_append.1 hm with hm | hm
      · exact h.owned m hm
      · obtain rfl := List.mem_singleton.1 hm
        exact ⟨i, hown⟩
  · cases hs

theorem Inv.receive (h : Inv S P words s) {rcv : Buf TEXT}
    (hs : step S cap P s (.receive i rcv) = some s') : Inv S P words s' := by
  simp only [step] at hs
  split at hs
  · next pc =>
    obtain ⟨⟨m, queue⟩, hq, rfl⟩ := Option.map_eq_some_iff.1 hs
    obtain ⟨htype, htakes⟩ := msgrcv_eq hq
    have hown : owner m = P.pid i := by rw [owner, if_neg (htype ▸ P.ne_server i), htype]
    have hmine := mem_mine htakes.mem hown
    cases h.phase i with
    | idle pc₀ => rw [pc] at pc₀; rcases pc₀ with pc₀ | pc₀ <;> cases pc₀
    | held _ none => rw [none] at hmine; cases hmine
    | asked _ one =>
      obtain ⟨rfl, -⟩ := mine_receive_self hq hown one
      exact absurd htype.symm (P.ne_server i)
    | replied _ one free done =>
      obtain ⟨rfl, hnone⟩ := mine_receive_self hq hown one
      refine ⟨?_, ?_, fun x hx => h.owned x (htakes.subset x hx), h.sends, h.ready⟩
      · exact (Function.forall_update_iff _ fun j (c : Client) => c.Ok S.dict (P.pid j) (words j)).2
          ⟨(h.clients i).return pc rcv, fun j _ => h.clients j⟩
      · refine (Function.forall_update_iff _ fun j (c : Client) => Phase S.dict (P.pid j) c (mine P j queue) s.server.pc
          (answeredTo (P.pid j) s.server.answered)).2 ⟨?_, ?_⟩
        · exact .idle (.inl rfl) hnone free (by rw [done]; simp [Client.return])
        · intro j hj
          rw [mine_receive_other hq hown hj]
          exact h.phase j
  · cases hs

omit [DecidableEq ι] in
/-- The request the server takes is that of a client that has asked. -/
theorem Inv.request (h : Inv S P words s) {m : Message} {queue : List Message}
    (hq : msgrcv s.queue SERVER = some (m, queue)) : ∃ i req, m = ⟨SERVER, req.flat⟩ ∧ owner m = P.pid i ∧
      (s.clients i).pc = .receive ∧ IsRequest (P.pid i) (s.clients i).word req ∧ mine P i queue = [] ∧
      answeredTo (P.pid i) s.server.answered = (s.clients i).past.map (·.1.chars) := by
  obtain ⟨htype, htakes⟩ := msgrcv_eq hq
  obtain ⟨i, hown⟩ := h.owned m htakes.mem
  have hmine := mem_mine htakes.mem hown
  cases h.phase i with
  | idle _ none | held _ none => rw [none] at hmine; cases hmine
  | asked pc one req _ done =>
    obtain ⟨rfl, hnone⟩ := mine_receive_self hq hown one
    exact ⟨i, _, rfl, hown, pc, req, hnone, done⟩
  | replied _ one =>
    obtain ⟨rfl, -⟩ := mine_receive_self hq hown one
    exact absurd htype (P.ne_server i)

theorem Server.work_eq {srv : Server S.σ} {pid : Nat} {w : CStr WORD} {req : Request} (hr : S.Ready srv.st)
    (hreq : IsRequest pid w req) (type : Int) : ∃ srv', srv.work S.lookup ⟨type, req.flat⟩ = some srv' ∧
      srv'.pc = .send (replyTo S.dict pid w) w.chars ∧ srv'.answered = srv.answered ∧ S.Ready srv'.st := by
  have hword : (srv.tryit.word.strcpy req.word.str).str = w.chars := by rw [hreq.word, Buf.strcpy_str]
  have hterm : ({ srv.tryit with word := srv.tryit.word.strcpy req.word.str } : Dictrec).word.Terminated := by
    rw [hreq.word]
    exact Buf.strcpy_terminated w
  obtain ⟨r, st', hcall, hst', htext, -⟩ := S.answers hr hterm
  simp only [Server.work, Request.ofFlat_flat, Option.bind_some, hcall, Option.map_some]
  refine ⟨_, rfl, ?_, rfl, hst'⟩
  show ServerPc.send ⟨atol req.id.str, Encoding.msgq_server srv.snd r⟩ req.word.str = _
  rw [hreq.id, atol_decimal, Encoding.msgq_server_eq, htext, hword, hreq.word]
  rfl

theorem Inv.serverStep (h : Inv S P words s) (hs : step S cap P s .server = some s') : Inv S P words s' := by
  simp only [step] at hs
  split at hs
  · next pc =>
    obtain ⟨⟨m, queue⟩, hq, hs⟩ := Option.bind_eq_some_iff.1 hs
    obtain ⟨srv', hwork, rfl⟩ := Option.map_eq_some_iff.1 hs
    obtain ⟨i, req, rfl, hown, hpc, hreq, hnone, hdone⟩ := h.request hq
    obtain ⟨_, hwork', hsend, hans, hready⟩ := Server.work_eq h.ready hreq SERVER
    obtain rfl := Option.some.inj (hwork.symm.trans hwork')
    refine ⟨h.clients, ?_, fun x hx => h.owned x ((msgrcv_eq hq).2.subset x hx), ?_, hready⟩
    · intro j
      show Phase S.dict (P.pid j) (s.clients j) (mine P j queue) srv'.pc (answeredTo (P.pid j) srv'.answered)
      rw [hans]
      by_cases hj : j = i
      · subst hj
        exact .held hpc hnone hsend hdone
      · rw [mine_receive_other hq hown hj]
        refine (h.phase j).frame (pc ▸ ServerPc.not_holds_receive _) ?_
        rw [hsend]
        exact ServerPc.not_holds_send fun he => hj (P.distinct (Int.ofNat.inj he)).symm
    · intro m word hm
      have : ServerPc.send (replyTo S.dict (P.pid i) (s.clients i).word) (s.clients i).word.chars = .send m word :=
        hsend.symm.trans hm
      cases this
      exact ⟨i, rfl⟩
  · next m word pc =>
    obtain ⟨queue, hq, rfl⟩ := Option.map_eq_some_iff.1 hs
    obtain ⟨-, rfl⟩ := msgsnd_eq hq
    obtain ⟨i, htype⟩ := h.sends m word pc
    have hholds : s.server.pc.holds (P.pid i) := ⟨m, word, pc, htype⟩
    cases h.phase i with
    | idle _ _ free | asked _ _ _ free | replied _ _ free => exact absurd hholds free
    | held hpc none here done =>
      rw [pc] at here
      cases here
      have hown := owner_reply S.dict P i (s.clients i).word
      refine ⟨h.clients, ?_, ?_, nofun, h.ready⟩
      · intro j
        show Phase S.dict (P.pid j) (s.clients j) (mine P j (s.queue ++ [_])) .receive
          (answeredTo (P.pid j) (s.server.answered ++ [_]))
        by_cases hj : j = i
        · subst hj
          refine .replied hpc (by rw [mine_send_self hown, none]; rfl) (ServerPc.not_holds_receive _) ?_
          simp [answeredTo, replyTo, ← done]
        · have hne : (P.pid i : Int) ≠ P.pid j := fun he => hj (P.distinct (Int.ofNat.inj he)).symm
          rw [mine_send_other hown hj]
          have hsame : answeredTo (P.pid j) (s.server.answered ++
              [((replyTo S.dict (P.pid i) (s.clients i).word).type, (s.clients i).word.chars)]) =
                answeredTo (P.pid j) s.server.answered := by
            simp [answeredTo, replyTo, hne]
          rw [hsame]
          exact (h.phase j).frame (pc ▸ ServerPc.not_holds_send hne) (ServerPc.not_holds_receive _)
      · intro m hm
        rcases List.mem_append.1 hm with hm | hm
        · exact h.owned m hm
        · obtain rfl := List.mem_singleton.1 hm
          exact ⟨i, hown⟩

theorem Inv.step (h : Inv S P words s) {a : Action ι} (hs : Msgq.step S cap P s a = some s') : Inv S P words s' := by
  cases a with
  | call i => exact h.call hs
  | send i => exact h.send hs
  | receive i rcv => exact h.receive hs
  | server => exact h.serverStep hs

end

/-- Of a client: the results it has got are those of its words, in their
order; the replies sent to it answer its words, each once, and are one more
at most, while it waits; of its messages one at most is in the queue. -/
structure Delivered (dict : Dictionary) (words : List (CStr WORD)) (c : Client) (q : List Message)
    (a : List (List Byte)) : Prop where
  answers : ∃ n m, c.past = (words.take n).map (fun w => (w, answer dict w)) ∧ a = (words.take m).map (·.chars) ∧
    n ≤ m ∧ m ≤ n + 1 ∧ (c.pc ≠ .receive → m = n)
  one : q.length ≤ 1

theorem Client.Ok.past_eq {c : Client} {pid : Nat} {words : List (CStr WORD)} (h : c.Ok dict pid words)
    (hx : ∀ w, dict w ≠ some XXXX) : c.past = (words.take c.past.length).map fun w => (w, answer dict w) := by
  have hwords : words.take c.past.length = c.past.map (·.1) := by rw [← h.asks, List.take_left' (by simp)]
  rw [hwords]
  exact past_of_answers fun r hr => (h.past r hr).trans (Encoding.decoded_reply r.1 (hx _))

theorem Phase.delivered {c : Client} {pid : Nat} {words : List (CStr WORD)} {q : List Message} {srv : ServerPc}
    {a : List (List Byte)} (h : Phase dict pid c q srv a) (hc : c.Ok dict pid words) (hx : ∀ w, dict w ≠ some XXXX) :
    Delivered dict words c q a := by
  have hpast := hc.past_eq hx
  have hdone : c.past.map (·.1.chars) = (words.take c.past.length).map (·.chars) := by
    conv_lhs => rw [hpast, List.map_map]
    rfl
  cases h with
  | idle _ none _ done => exact ⟨⟨_, _, hpast, done.trans hdone, le_rfl, Nat.le_succ _, fun _ => rfl⟩, by simp [none]⟩
  | asked _ one _ _ done => exact ⟨⟨_, _, hpast, done.trans hdone, le_rfl, Nat.le_succ _, fun _ => rfl⟩, by simp [one]⟩
  | held _ none _ done => exact ⟨⟨_, _, hpast, done.trans hdone, le_rfl, Nat.le_succ _, fun _ => rfl⟩, by simp [none]⟩
  | replied pc one _ done =>
    refine ⟨⟨_, c.past.length + 1, hpast, ?_, Nat.le_succ _, le_rfl, fun hn => absurd pc hn⟩, by simp [one]⟩
    have htake : words.take (c.past.length + 1) = words.take c.past.length ++ [c.word] := by
      have hwords : c.past.map (·.1) ++ [c.word] ++ c.todo = words := by
        rw [← hc.asks, pc, if_neg (by simp), List.append_assoc]
      rw [← hwords, List.take_left' (by simp), List.append_assoc, List.take_left' (by simp)]
    rw [done, hdone, htake, List.map_append, List.map_singleton]

/-- Over a file without the text XXXX every client of the service gets its
own answers and no other, whatever the clients ask, how much the queue holds
and in whatever order the calls return. -/
theorem delivered_reached [DecidableEq ι] (d : IndexFile) (qsort : Qsort Index) (bsearch : Bsearch Index Index)
    (hx : ∀ r ∈ d.recs, r.text.str ≠ XXXX.chars) (cap : Nat) (sought : ι → Dictrec) (tryit : Dictrec) (snd : Buf TEXT)
    (words : ι → List (CStr WORD)) {s : State ι (lookup2Service d qsort bsearch).σ}
    (h : Reach (step (lookup2Service d qsort bsearch) cap P) anyStep (.init _ sought tryit snd words) s) (i : ι) :
    Delivered (lookup2Service d qsort bsearch).dict (words i) (s.clients i) (mine P i s.queue)
      (answeredTo (P.pid i) s.server.answered) := by
  have hxxxx (w : List Byte) : (lookup2Service d qsort bsearch).dict w ≠ some XXXX := by
    intro he
    obtain ⟨r, hr, ht⟩ := lookup2Service_text d qsort bsearch he
    exact hx r hr ht
  have hinv : Inv (lookup2Service d qsort bsearch) P words s :=
    h.invariant (fun _ _ _ hi _ hs => hi.step hs) (Inv.init sought tryit snd words)
  exact (hinv.phase i).delivered (hinv.clients i) hxxxx

/-! ## A run -/

/-- Two processes. -/
def twoPids : Pids Bool where
  pid i := if i then 3 else 2
  distinct := by unfold Function.Injective; decide
  gt_one := by decide
  int := by decide

/-- Both ask before the server has answered either, and each gets its own
answer. -/
theorem delivered_both : ∃ s, Reach (step (lookup2Service oneRecord default default) 4096 twoPids) anyStep
      (.init _ (fun _ => Dictrec.blank) Dictrec.blank (Buf.zero TEXT)
        fun i => if i then [⟨[98], by decide, by decide⟩] else [⟨[97], by decide, by decide⟩]) s ∧
    (s.clients false).past.map (·.2) = [(.FOUND, some [65])] ∧ (s.clients true).past.map (·.2) = [(.NOTFOUND, none)] ∧
    Delivered (lookup2Service oneRecord default default).dict [⟨[97], by decide, by decide⟩] (s.clients false)
      (mine twoPids false s.queue) (answeredTo 2 s.server.answered) := by
  have hrun : (exec (step (lookup2Service oneRecord default default) 4096 twoPids) anyStep
      (.init _ (fun _ => Dictrec.blank) Dictrec.blank (Buf.zero TEXT)
        fun i => if i then [⟨[98], by decide, by decide⟩] else [⟨[97], by decide, by decide⟩])
      [.call false, .call true, .send true, .send false, .server, .server, .server, .receive true (Buf.zero TEXT),
        .server, .receive false (Buf.zero TEXT)]).map
          (fun s => ((s.clients false).past.map (·.2), (s.clients true).past.map (·.2))) =
        some ([(.FOUND, some [65])], [(.NOTFOUND, none)]) := by
    decide +kernel
  obtain ⟨s, hs, hpast⟩ := Option.map_eq_some_iff.1 hrun
  obtain ⟨hfalse, htrue⟩ := Prod.mk.inj hpast
  exact ⟨s, reach_of_exec hs, hfalse, htrue,
    delivered_reached oneRecord default default (by decide) 4096 _ _ _ _ (reach_of_exec hs) false⟩

end SysProg.Msgq
