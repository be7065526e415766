/-
What the clients of `usock_server.c` are told, and that none of them waits for
the dialogue of another.
-/
import SysProg.AcceptRuns

namespace SysProg.Accept

open Sock (Client Child)

/-! ## One dialogue -/

section

variable {dict : Dictionary} {d d' : LostServer.State} {b : LostServer.Action}

/-- A message is read whole, and a loss is noticed as an error. -/
def Noticed (k : Conn) : LostServer.Action → Prop
  | .dialogue (.clientRead n) => n = k.replies.length
  | .dialogue (.childRead n) => n = k.requests.length
  | .writeKilled | .readEof => False
  | _ => True

instance (k : Conn) : (b : LostServer.Action) → Decidable (Noticed k b)
  | .dialogue (.clientRead n) => inferInstanceAs (Decidable (n = _))
  | .dialogue (.childRead n) => inferInstanceAs (Decidable (n = _))
  | .writeKilled | .readEof => .isFalse id
  | .dialogue .ask | .dialogue .hangup | .dialogue .childEof | .dialogue .childReply => .isTrue trivial
  | .close | .writeFails | .readFails => .isTrue trivial

theorem inv_noticed (h : LostServer.Inv d) (hok : b = .close ∨ Noticed (.of d) b)
    (hs : LostServer.step dict d b = some d') : LostServer.Inv d' := by
  refine h.step ?_ ?_ hs
  · rcases hok with rfl | hok
    · trivial
    · cases b with
      | dialogue b => cases b <;> exact hok
      | close | writeFails | writeKilled | readFails | readEof => trivial
  · rcases hok with rfl | hok
    · simp [LostServer.Action.noticed]
    · cases b <;> first | exact absurd hok id | simp [LostServer.Action.noticed]

/-- What is sent for a word is the dictionary's answer. -/
def Sent (dict : Dictionary) (d : LostServer.State) : Prop :=
  ∀ e ∈ d.sent, e.2 = (reply dict e.1).chars ++ [NUL]

theorem Sent.step (h : Sent dict d) (hs : LostServer.step dict d b = some d') : Sent dict d' := by
  cases b with
  | dialogue a =>
    obtain ⟨f, hf, rfl⟩ := Option.map_eq_some_iff.1 hs
    cases a with
    | ask | clientRead | hangup | childRead | childEof => simpa [Sent, LostServer.logged] using h
    | childReply =>
      simp only [Sock.step, Option.ite_none_right_eq_some] at hf
      obtain ⟨-, hf⟩ := hf
      cases hf
      intro e he
      rcases List.mem_append.1 he with he | he
      · exact h e he
      · rw [List.mem_singleton.1 he]
        rw [List.drop_left, reply]
        cases dict (cstr d.dialogue.child.tryit.flat.bytes) with
        | none => rfl
        | some t => rw [Option.getD_some, ← Buf.strcpy_str t]
  | close | readFails | readEof =>
    simp only [LostServer.step, Option.ite_none_right_eq_some] at hs
    obtain ⟨-, hs⟩ := hs
    cases hs
    exact h
  | writeFails | writeKilled =>
    simp only [LostServer.step] at hs
    split at hs
    · cases hs
      exact h
    · cases hs

theorem Sent.replies (h : Sent dict d) (hi : LostServer.Inv d) (hne : d.dialogue.replies ≠ []) :
    d.dialogue.replies = (reply dict d.dialogue.client.word.chars).chars ++ [NUL] := by
  cases hi.phase with
  | idle _ replies | asked _ replies | received _ replies => exact absurd replies hne
  | replied _ t replies last =>
    obtain ⟨before, hsent, -⟩ := last
    exact h (d.dialogue.client.word.chars, d.dialogue.replies) (by rw [hsent]; simp)

/-- For each word the dictionary's answer is sent, and each call has returned
that or UNAVAIL, for the words one after the other. -/
structure Answered (dict : Dictionary) (words : List (CStr WORD)) (d : LostServer.State) : Prop where
  inv : LostServer.Inv d
  asked : d.dialogue.client.past.map (·.1) ++
    ((if d.dialogue.client.waiting then [d.dialogue.client.word] else []) ++ d.dialogue.client.todo) = words
  sent : Sent dict d
  past : ∀ r ∈ d.dialogue.client.past, r.2 = answer dict r.1 ∨ r.2 = (.UNAVAIL, none)

theorem Answered.start (text : Buf TEXT) (tryit : Dictrec) (words : List (CStr WORD)) :
    Answered dict words (.init text tryit words) where
  inv := .init text tryit words
  asked := rfl
  sent e he := by cases he
  past r hr := by cases hr

theorem Answered.step (hx : ∀ w, dict w ≠ some XXXX) {words : List (CStr WORD)} (h : Answered dict words d)
    (hok : b = .close ∨ Noticed (.of d) b) (hs : LostServer.step dict d b = some d') : Answered dict words d' := by
  have hinv := inv_noticed h.inv hok hs
  have hsent := h.sent.step hs
  have hpast {c : Client} {r : Status × Option (List Byte)} (hc : c.past = d.dialogue.client.past)
      (hr : r = answer dict c.word ∨ r = (.UNAVAIL, none)) :
      ∀ r' ∈ c.past ++ [(c.word, r)], r'.2 = answer dict r'.1 ∨ r'.2 = (.UNAVAIL, none) := by
    intro r' hr'
    rcases List.mem_append.1 hr' with hr' | hr'
    · exact h.past r' (hc ▸ hr')
    · rw [List.mem_singleton.1 hr']
      exact hr
  cases b with
  | dialogue b =>
    obtain ⟨f, hf, rfl⟩ := Option.map_eq_some_iff.1 hs
    cases b with
    | ask =>
      simp only [Sock.step] at hf
      split at hf
      · next hwaiting htodo =>
        cases hf
        exact ⟨hinv, by simpa [hwaiting, htodo] using h.asked, hsent, h.past⟩
      · cases hf
    | clientRead n =>
      have hn : n = d.dialogue.replies.length := hok.resolve_left (fun h => by cases h)
      simp only [Sock.step, Option.ite_none_right_eq_some] at hf
      obtain ⟨⟨hwaiting, hpos, -, -⟩, hf⟩ := hf
      cases hf
      refine ⟨hinv, by simpa [hwaiting] using h.asked, hsent, hpast rfl (.inl ?_)⟩
      have hne : d.dialogue.replies ≠ [] := fun he => by rw [hn, he] at hpos; cases hpos
      rw [hn, List.take_length, h.sent.replies h.inv hne]
      exact Sock.result_reply (hx _) d.dialogue.client.text
    | hangup | childRead | childEof | childReply =>
      simp only [Sock.step, Option.ite_none_right_eq_some] at hf
      obtain ⟨-, hf⟩ := hf
      cases hf
      exact ⟨hinv, h.asked, hsent, h.past⟩
  | close =>
    simp only [LostServer.step, Option.ite_none_right_eq_some] at hs
    obtain ⟨-, hs⟩ := hs
    cases hs
    exact ⟨hinv, h.asked, hsent, h.past⟩
  | writeFails =>
    simp only [LostServer.step] at hs
    split at hs
    · next _ hwaiting htodo =>
      cases hs
      exact ⟨hinv, by simpa [LostServer.returned, hwaiting, htodo] using h.asked, hsent, hpast rfl (.inr rfl)⟩
    · cases hs
  | readFails =>
    simp only [LostServer.step, Option.ite_none_right_eq_some] at hs
    obtain ⟨⟨-, hwaiting⟩, hs⟩ := hs
    cases hs
    exact ⟨hinv, by simpa [LostServer.returned, hwaiting] using h.asked, hsent, hpast rfl (.inr rfl)⟩
  | writeKilled | readEof => exact absurd (hok.resolve_left (fun h => by cases h)) id

/-- A step of the child's. -/
def ChildStep (_ : LostServer.State) : LostServer.Action → Prop
  | .dialogue a => ofChild a
  | _ => False

/-- A child that has read a query answers it. -/
theorem lookup_answers (hi : LostServer.Inv d) (hsent : Sent dict d) (hpc : d.dialogue.child.pc = .lookup) :
    ∃ d', LostServer.step dict d (.dialogue .childReply) = some d' ∧ d'.dialogue.client = d.dialogue.client ∧
      d'.dialogue.replies = (reply dict d.dialogue.client.word.chars).chars ++ [NUL] := by
  have hrun : d.dialogue.child.pc ≠ .exited := by rw [hpc]; decide
  have htryit : ∃ b : Buf WORD, d.dialogue.child.tryit.word = b.strcpy d.dialogue.client.word.chars := by
    cases hi.phase with
    | idle _ _ _ alive | asked _ _ _ alive =>
      rw [(alive hrun).2.1] at hpc
      cases hpc
    | replied _ _ _ _ alive =>
      rw [(alive hrun).1] at hpc
      cases hpc
    | received _ _ _ _ _ tryit => exact tryit
  obtain ⟨b, hb⟩ := htryit
  have hnul : NUL ∈ d.dialogue.child.tryit.flat.bytes := by
    have := (Sock.cstr_flat (w := d.dialogue.client.word) b d.dialogue.child.tryit.text).2
    rwa [← hb] at this
  obtain ⟨d', hs⟩ : ∃ d', LostServer.step dict d (.dialogue .childReply) = some d' :=
    ⟨_, by simp only [LostServer.step, Sock.step]; rw [if_pos ⟨hpc, hnul⟩]; rfl⟩
  have hclient : d'.dialogue.client = d.dialogue.client ∧ d'.dialogue.replies ≠ [] := by
    obtain ⟨f, hf, rfl⟩ := Option.map_eq_some_iff.1 hs
    simp only [Sock.step, Option.ite_none_right_eq_some] at hf
    obtain ⟨-, hf⟩ := hf
    cases hf
    exact ⟨rfl, by simp⟩
  refine ⟨d', hs, hclient.1, ?_⟩
  rw [(hsent.step hs).replies (hi.childReply hs) hclient.2, hclient.1]

/-- A child that has not ended answers the query its client waits for. -/
theorem child_answers (hi : LostServer.Inv d) (hsent : Sent dict d) (hwaiting : d.dialogue.client.waiting = true)
    (halive : d.dialogue.child.pc ≠ .exited) :
    ∃ d', Reach (LostServer.step dict) ChildStep d d' ∧ d'.dialogue.client = d.dialogue.client ∧
      d'.dialogue.replies = (reply dict d.dialogue.client.word.chars).chars ++ [NUL] := by
  have hlooked {e : LostServer.State} (he : LostServer.Inv e) (hsent : Sent dict e)
      (hpc : e.dialogue.child.pc = .lookup) (hclient : e.dialogue.client = d.dialogue.client)
      (hreach : Reach (LostServer.step dict) ChildStep d e) :
      ∃ d', Reach (LostServer.step dict) ChildStep d d' ∧ d'.dialogue.client = d.dialogue.client ∧
        d'.dialogue.replies = (reply dict d.dialogue.client.word.chars).chars ++ [NUL] := by
    obtain ⟨d', hs, hc, hr⟩ := lookup_answers he hsent hpc
    exact ⟨d', hreach.tail ⟨.dialogue .childReply, rfl, hs⟩, hc.trans hclient, by rw [hr, hclient]⟩
  cases hi.phase with
  | idle waiting =>
    rw [waiting] at hwaiting
    cases hwaiting
  | asked _ _ _ alive =>
    obtain ⟨-, hpc, hrequests⟩ := alive halive
    have hlen : d.dialogue.requests.length = d.dialogue.client.word.chars.length + 1 := by simp [hrequests]
    have hfits := d.dialogue.client.word.fits
    obtain ⟨e, hs⟩ : ∃ e, LostServer.step dict d (.dialogue (.childRead d.dialogue.requests.length)) = some e :=
      ⟨_, by
        simp only [LostServer.step, Sock.step]
        rw [if_pos ⟨hpc, by omega, by omega, le_rfl⟩]
        rfl⟩
    have he : e.dialogue.child.pc = .lookup ∧ e.dialogue.client = d.dialogue.client := by
      obtain ⟨f, hf, rfl⟩ := Option.map_eq_some_iff.1 hs
      simp only [Sock.step, Option.ite_none_right_eq_some] at hf
      obtain ⟨-, hf⟩ := hf
      cases hf
      exact ⟨rfl, rfl⟩
    exact hlooked (hi.childRead rfl hs) (hsent.step hs) he.1 he.2 (.single ⟨.dialogue (.childRead _), rfl, hs⟩)
  | received _ _ _ pc => exact hlooked hi hsent pc rfl .refl
  | replied _ t replies => exact ⟨d, .refl, rfl, hsent.replies hi (by rw [replies]; simp)⟩

end

/-! ## All of them -/

section

variable {κ : Type} [DecidableEq κ] {inherited : Fds Unit} {dict : Dictionary} {tryit : Dictrec}
variable {maxBacklog maxChildren : Nat} {text : κ → Buf TEXT} {words : κ → List (CStr WORD)} {s s' : State κ} {c : κ}

/-- As long as messages are read whole and a lost server shows as an error,
the calls of every client are for its words one after the other, and each
returns the dictionary's answer for its own word, or UNAVAIL. -/
theorem each_answered (hx : ∀ w, dict w ≠ some XXXX)
    (h : Reach (step dict tryit maxBacklog maxChildren) (Each Noticed) (start tryit inherited text words) s) (c : κ) :
    (s.conns c).client.past.map (·.1) <+: words c ∧
      ∀ r ∈ (s.conns c).client.past, r.2 = answer dict r.1 ∨ r.2 = (.UNAVAIL, none) := by
  obtain ⟨d, hreach, hsees⟩ := sees_reached h c
  have hd : Answered dict (words c) d :=
    hreach.invariant (I := Answered dict (words c)) (fun _ _ _ hi hok hs => hi.step hx hok hs)
      (.start (text c) tryit (words c))
  rw [← hsees.conn]
  exact ⟨⟨_, hd.asked⟩, hd.past⟩

/-! ### One client at a time -/

/-- A step of the parent, or of the child of `c`. -/
def ForClient (c : κ) (s : State κ) : Action κ → Prop
  | .accept | .fork | .close => True
  | .start i | .child i _ => Serves s.children i c
  | _ => False

/-- What the parent is about to close, a child has. -/
def Forked (s : State κ) : Prop := s.pc = .close → ∀ c, s.current = some c → ∃ i, Serves s.children i c

omit [DecidableEq κ] in
theorem Forked.set {i : Nat} {p : Process κ} (h : Forked s) (hp : s.children[i]? = some p) (q : Process κ)
    (hq : q.serves = p.serves) (conns : κ → Conn) : Forked { s with children := s.children.set i q, conns := conns } :=
  fun hpc c hc => (h hpc c hc).imp fun j hj => (serves_set hp q hq j c).2 hj

theorem Forked.move {a : Action κ} (h : Forked s) (hi : Inv inherited s) (hm : Move dict tryit maxChildren s a s') :
    Forked s' := by
  cases hm with
  | connect | client => exact h
  | accept | acceptFails | forkFails | close => exact fun h => by cases h
  | fork hpc _ =>
    intro _ c hc
    have hc : connection s.fds s.cd = some c := by simpa [State.current] using hc
    exact ⟨s.children.length, serves_append.2 (.inr ⟨rfl, hc⟩)⟩
  | @start i p hp _ hstarting =>
    obtain ⟨x, hx, hx'⟩ := hi.starting hp hstarting
    exact h.set hp { p with fds := p.fds.close s.sd, started := true } (hx'.connection.trans hx.connection.symm) s.conns
  | @child i b p c e hp => exact h.set hp { p with memory := e.dialogue.child } rfl _
  | @stray i p memory hp => exact h.set hp { p with memory } rfl s.conns
  | @dies i p hp => exact h.set hp { p with memory := { p.memory with pc := .exited } } rfl s.conns

variable (dict tryit maxBacklog) in
/-- The parent comes to its next `accept`. -/
theorem to_accept (hrun : s.pc ≠ .died) (hroom : s.children.length < maxChildren) {ok : State κ → Action κ → Prop}
    (hok : ∀ s, ok s .accept ∧ ok s .fork ∧ ok s .close) :
    ∃ s' more, Reach (step dict tryit maxBacklog maxChildren) ok s s' ∧ s'.pc = .accept ∧ s'.backlog = s.backlog ∧
      s'.conns = s.conns ∧ s'.children = s.children ++ more ∧
      more = if s.pc = .fork then [⟨s.fds, s.cd, false, .read, tryit, []⟩] else [] := by
  have h0 : Reach (step dict tryit maxBacklog maxChildren) ok s s := .refl
  cases hpc : s.pc with
  | accept => exact ⟨s, [], h0, hpc, rfl, rfl, (List.append_nil _).symm, rfl⟩
  | fork =>
    have h1 := h0.tail ⟨.fork, (hok _).2.1, by rw [step, if_pos hpc]; exact if_pos hroom⟩
    have h2 := h1.tail ⟨.close, (hok _).2.2, by rw [step, if_pos rfl]⟩
    exact ⟨_, _, h2, rfl, rfl, rfl, rfl, rfl⟩
  | close =>
    have h1 := h0.tail ⟨.close, (hok _).2.2, by rw [step, if_pos hpc]⟩
    exact ⟨_, [], h1, rfl, rfl, rfl, (List.append_nil _).symm, rfl⟩
  | died => exact absurd hpc hrun

variable (dict tryit maxBacklog) in
/-- A client that waits to be accepted comes to have a child. -/
theorem backlog_served (hi : Inv inherited s) (hpc : s.pc = .accept) (hmem : c ∈ s.backlog)
    (hroom : s.children.length + s.backlog.length ≤ maxChildren) {ok : State κ → Action κ → Prop}
    (hok : ∀ s, ok s .accept ∧ ok s .fork ∧ ok s .close) :
    ∃ (s' : State κ) (i : Nat) (p : Process κ), Reach (step dict tryit maxBacklog maxChildren) ok s s' ∧
      s'.conns = s.conns ∧ s'.children[i]? = some p ∧ p.serves = some c ∧ p.memory = ⟨.read, tryit, []⟩ := by
  generalize hbacklog : s.backlog = cs at hmem hroom
  induction cs generalizing s with
  | nil => cases hmem
  | cons c₀ cs ih =>
    rw [List.length_cons] at hroom
    obtain ⟨s₁, q, hreach, hpc₁, hbacklog₁, -, -, hconns, hchildren, hserves, -, hmemory⟩ :=
      accept_next dict tryit maxBacklog hi hpc hbacklog (show s.children.length < maxChildren by omega) hok
    rcases List.mem_cons.1 hmem with rfl | hmem
    · exact ⟨s₁, s.children.length, q, hreach, hconns, by rw [hchildren]; exact List.getElem?_concat_length ..,
        hserves, hmemory⟩
    · obtain ⟨s₂, i, p, hreach₂, hconns₂, hp⟩ := ih (hi.reach hreach) hpc₁ hbacklog₁ hmem
        (by rw [hchildren, List.length_append, List.length_singleton]; omega)
      exact ⟨s₂, i, p, hreach.trans hreach₂, hconns₂.trans hconns, hp⟩

variable (dict tryit maxBacklog) in
/-- A connection that is open has a child, or comes to have one. -/
theorem has_child (hi : Inv inherited s) (hforked : Forked s) (hheld : s.held c = true)
    (hturn : (∃ i, Serves s.children i c) ∨ s.pc ≠ .died ∧ s.children.length + s.backlog.length < maxChildren)
    {ok : State κ → Action κ → Prop} (hok : ∀ s, ok s .accept ∧ ok s .fork ∧ ok s .close) :
    ∃ (s' : State κ) (i : Nat) (p : Process κ), Reach (step dict tryit maxBacklog maxChildren) ok s s' ∧
      s'.conns = s.conns ∧ s'.children[i]? = some p ∧ p.serves = some c ∧
      (s.children[i]? = some p ∨ (∀ j, ¬ Serves s.children j c) ∧ p.memory = ⟨.read, tryit, []⟩) := by
  by_cases hserved : ∃ i, Serves s.children i c
  · obtain ⟨i, p, hp, hc⟩ := hserved
    exact ⟨s, i, p, .refl, rfl, hp, hc, .inl hp⟩
  · obtain ⟨hrun, hroom⟩ := hturn.resolve_left hserved
    have hno : ∀ i, ¬ Serves s.children i c := by simpa using hserved
    obtain ⟨s₁, more, hreach, hpc, hbacklog, hconns, hchildren, hmore⟩ :=
      to_accept dict tryit maxBacklog hrun (show s.children.length < maxChildren by omega) hok
    have hlength : more.length ≤ 1 := by
      rw [hmore]
      split <;> simp
    rcases (held_iff c).1 hheld with ⟨hmem, -⟩ | hopen
    · obtain ⟨s₂, i, p, hreach₂, hconns₂, hp, hc, hmemory⟩ := backlog_served dict tryit maxBacklog (hi.reach hreach)
        hpc (by rwa [hbacklog]) (show s₁.children.length + s₁.backlog.length ≤ maxChildren by
          rw [hchildren, hbacklog, List.length_append]
          omega) hok
      exact ⟨s₂, i, p, hreach.trans hreach₂, hconns₂.trans hconns, hp, hc, .inr ⟨hno, hmemory⟩⟩
    · rcases (isOpen_iff _).1 hopen with ⟨-, hmem⟩ | ⟨j, q, hq, -, hmem⟩
      · -- the parent has just accepted it
        have hacc : s.pc ≠ .accept := by
          intro hacc
          exact absurd (((hi.listens hacc).mem_conn c).1 hmem) (Option.some_ne_none c).symm
        obtain ⟨x, hx⟩ := hi.parent hacc
        have hconn : connection s.fds s.cd = some c := hx.connection.trans ((hx.table.mem_conn c).1 hmem)
        have hcur : s.current = some c := by rw [State.current, if_neg hacc, hconn]
        cases hpc₀ : s.pc with
        | accept => exact absurd hpc₀ hacc
        | died => exact absurd hpc₀ hrun
        | close => exact absurd (hforked hpc₀ c hcur) hserved
        | fork =>
          rw [if_pos hpc₀] at hmore
          refine ⟨s₁, s.children.length, ⟨s.fds, s.cd, false, .read, tryit, []⟩, hreach, hconns, ?_, hconn,
            .inr ⟨hno, rfl⟩⟩
          rw [hchildren, hmore]
          exact List.getElem?_concat_length ..
      · obtain ⟨x, hx⟩ := hi.child j q hq
        exact absurd ⟨q, hq, hx.connection.trans ((hx.table.mem_conn c).1 hmem)⟩ (hno j)

variable (dict tryit maxBacklog) in
/-- Its child begins the dialogue. -/
theorem comes_to_serve (hi : Inv inherited s) (hforked : Forked s) {d : LostServer.State} (hd : Sees tryit s c d)
    (hheld : s.held c = true) (halive : ∀ p ∈ s.children, p.serves = some c → p.alive)
    (hturn : (∃ i, Serves s.children i c) ∨ s.pc ≠ .died ∧ s.children.length + s.backlog.length < maxChildren) :
    ∃ (s' : State κ) (i : Nat) (p : Process κ), Reach (step dict tryit maxBacklog maxChildren) (ForClient c) s s' ∧
      Serving s' i c d p ∧ p.alive := by
  have hparent (s : State κ) : ForClient c s .accept ∧ ForClient c s .fork ∧ ForClient c s .close :=
    ⟨trivial, trivial, trivial⟩
  obtain ⟨s₁, i, p, hreach, hconns, hp, hc, hnew⟩ := has_child dict tryit maxBacklog hi hforked hheld hturn hparent
  have hmemory : p.memory = d.dialogue.child ∧ p.alive := by
    rcases hnew with hold | ⟨hno, hmemory⟩
    · exact ⟨(hd.served i p hold hc).symm, halive p (List.mem_of_getElem? hold) hc⟩
    · have hlost : s.lost c = false := by simp [State.lost, hheld]
      have hchild := hd.unserved hno
      rw [hlost] at hchild
      exact ⟨hmemory.trans hchild.symm, by rw [Process.alive, hmemory]; rfl⟩
  have hconn : .of d = s₁.conns c := hd.conn.trans (congrFun hconns c).symm
  cases hstarted : p.started with
  | true => exact ⟨s₁, i, p, hreach, ⟨hconn, hp, hc, hstarted, hmemory.1⟩, hmemory.2⟩
  | false =>
    have hi₁ := hi.reach hreach
    obtain ⟨x, hx, hx'⟩ := hi₁.starting hp hstarted
    have hstart := hreach.tail ⟨.start i, ⟨p, hp, hc⟩, by
      simp only [step, hp]
      exact if_pos ⟨hmemory.2, hstarted⟩⟩
    exact ⟨_, i, { p with fds := p.fds.close s₁.sd, started := true }, hstart,
      ⟨hconn, (get_set hp _ i).trans (if_pos rfl), (hx'.connection.trans hx.connection.symm).trans hc, rfl, hmemory.1⟩,
      hmemory.2⟩

theorem Serving.reach {i : Nat} {d d' : LostServer.State} {p : Process κ} (h : Serving s i c d p)
    (hd : Reach (LostServer.step dict) ChildStep d d') :
    ∃ s' p', Reach (Accept.step dict tryit maxBacklog maxChildren) (ForClient c) s s' ∧ Serving s' i c d' p' := by
  induction hd with
  | refl => exact ⟨s, p, .refl, h⟩
  | tail _ hstep ih =>
    obtain ⟨s₁, p₁, hreach, h₁⟩ := ih
    obtain ⟨b, hb, hs⟩ := hstep
    cases b with
    | dialogue a =>
      obtain ⟨s₂, hs₂, h₂, -⟩ := h₁.goes_on hb hs
      exact ⟨s₂, _, hreach.tail ⟨.child i a, ⟨p₁, h₁.child, h₁.serves⟩, hs₂⟩, h₂⟩
    | close | writeFails | writeKilled | readFails | readEof => cases hb

end

end SysProg.Accept
