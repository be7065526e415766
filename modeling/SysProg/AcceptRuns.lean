/-
What comes of the whole of `usock_server.c` for each of its clients, and for
itself: every dialogue is as it would be alone, but for a server that ends;
and that it does, as nobody waits for the children.
-/
import SysProg.Accept

namespace SysProg.Accept

open Sock (Client Child)

section

variable {κ : Type} [DecidableEq κ] {inherited : Fds Unit} {dict : Dictionary} {tryit : Dictrec} {maxChildren : Nat}
variable {s s' : State κ} {a : Action κ} {c : κ} {i : Nat} {p : Process κ}

/-! ## Each dialogue by itself -/

theorem isOpen_iff (d : Desc κ) : s.isOpen d = true ↔
    (s.pc ≠ .died ∧ s.fds.contains (some d) = true) ∨
      ∃ (i : Nat) (p : Process κ), s.children[i]? = some p ∧ p.alive = true ∧ p.fds.contains (some d) = true := by
  rw [State.isOpen, Bool.or_eq_true, Bool.and_eq_true, decide_eq_true_eq, List.any_eq_true]
  simp only [List.mem_iff_getElem?, Bool.and_eq_true]
  exact or_congr_right
    ⟨fun ⟨p, ⟨i, hp⟩, h⟩ => ⟨i, p, hp, h⟩, fun ⟨i, p, hp, h⟩ => ⟨p, ⟨i, hp⟩, h⟩⟩

/-- The client has called, and the server's side is closed. -/
def State.lost (s : State κ) (c : κ) : Bool := s.called c && !s.held c

/-- The dialogue `d` is that on the connection: its child is the one that
serves it, or one that has not begun when there is none yet. -/
structure Sees (tryit : Dictrec) (s : State κ) (c : κ) (d : LostServer.State) : Prop where
  conn : .of d = s.conns c
  served : ∀ (i : Nat) (p : Process κ), s.children[i]? = some p → p.serves = some c → d.dialogue.child = p.memory
  unserved : (∀ i, ¬ Serves s.children i c) → d.dialogue.child = ⟨if s.lost c then .exited else .read, tryit, []⟩

/-- The dialogue goes on, or the server's side is closed. -/
def Goes (dict : Dictionary) (d d' : LostServer.State) : Prop := d' = d ∨ LostServer.step dict d .close = some d'

omit [DecidableEq κ] in
theorem Conn.with_of (d : LostServer.State) : (Conn.of d).with d.dialogue.child = d := rfl

/-- A step that does nothing on this connection, but for closing it. -/
theorem Sees.keep {d : LostServer.State} (h : Sees tryit s c d) (hconn : s'.conns c = s.conns c)
    (hserved : ∀ (i : Nat) (p : Process κ), s'.children[i]? = some p → p.serves = some c → d.dialogue.child = p.memory)
    (hunserved : (∀ i, ¬ Serves s'.children i c) → (∀ i, ¬ Serves s.children i c) ∧ (s.lost c → s'.lost c)) :
    ∃ d', Goes dict d d' ∧ Sees tryit s' c d' := by
  by_cases hs' : ∃ i, Serves s'.children i c
  · exact ⟨d, .inl rfl, h.conn.trans hconn.symm, hserved, fun hno => absurd hs' (by simpa using hno)⟩
  · have hno : ∀ i, ¬ Serves s'.children i c := by simpa using hs'
    have hno' (i : Nat) (p : Process κ) (hp : s'.children[i]? = some p) (hc : p.serves = some c)
        {d' : LostServer.State} : d'.dialogue.child = p.memory := absurd ⟨p, hp, hc⟩ (hno i)
    obtain ⟨hbefore, hlost⟩ := hunserved hno
    have hchild := h.unserved hbefore
    by_cases hl : s.lost c
    · refine ⟨d, .inl rfl, h.conn.trans hconn.symm, hserved, fun _ => ?_⟩
      rw [hchild, if_pos hl, if_pos (hlost hl)]
    · rw [if_neg hl] at hchild
      by_cases hl' : s'.lost c
      · refine ⟨_, .inr (if_pos (by rw [hchild]; exact fun h => by cases h)), h.conn.trans hconn.symm,
          fun i p hp hc => hno' i p hp hc, fun _ => ?_⟩
        rw [if_pos hl', hchild]
      · refine ⟨d, .inl rfl, h.conn.trans hconn.symm, hserved, fun _ => ?_⟩
        rw [hchild, if_neg hl']

theorem held_iff (c : κ) : s.held c = true ↔
    (c ∈ s.backlog ∧ s.isOpen .listening = true) ∨ s.isOpen (.conn c) = true := by
  rw [State.held, Bool.or_eq_true, Bool.and_eq_true, List.contains_iff_mem]

theorem lost_of_held (hcalled : s.called c → s'.called c) (hheld : s'.held c → s.held c) (h : s.lost c) :
    s'.lost c := by
  unfold State.lost at h ⊢
  rw [Bool.and_eq_true, Bool.not_eq_true', ← Bool.not_eq_true] at h ⊢
  exact ⟨hcalled h.1, fun hs' => h.2 (hheld hs')⟩

theorem isOpen_set (hp : s.children[i]? = some p) {q : Process κ} {conns : κ → Conn} {d : Desc κ}
    (hq : q.alive = true → q.fds.contains (some d) = true → p.alive = true ∧ p.fds.contains (some d) = true)
    (h : State.isOpen { s with children := s.children.set i q, conns := conns } d = true) : s.isOpen d = true := by
  rw [isOpen_iff] at h ⊢
  rcases h with h | ⟨j, r, hr, halive, hopen⟩
  · exact .inl h
  · dsimp only at hr
    rw [get_set hp] at hr
    split at hr
    · cases hr
      exact .inr ⟨i, p, hp, hq halive hopen⟩
    · exact .inr ⟨j, r, hr, halive, hopen⟩

theorem held_set (hp : s.children[i]? = some p) {q : Process κ} {conns : κ → Conn}
    (hq : ∀ d, q.alive = true → q.fds.contains (some d) = true → p.alive = true ∧ p.fds.contains (some d) = true)
    (h : State.held { s with children := s.children.set i q, conns := conns } c = true) : s.held c = true := by
  rw [held_iff] at h ⊢
  exact h.imp (fun h => ⟨h.1, isOpen_set hp (hq _) h.2⟩) fun h => isOpen_set hp (hq _) h

theorem Inv.listening (h : Inv inherited s) (hpc : s.pc ≠ .died) : s.isOpen .listening = true := by
  rw [isOpen_iff]
  refine .inl ⟨hpc, ?_⟩
  by_cases hacc : s.pc = .accept
  · exact (h.listens hacc).mem_listening
  · obtain ⟨x, hx⟩ := h.parent hacc
    exact hx.table.mem_listening

/-- A step of another child, or of this connection's before the dialogue. -/
theorem Sees.set {d : LostServer.State} (h : Sees tryit s c d) (hp : s.children[i]? = some p) (q : Process κ)
    {conns : κ → Conn} (hconn : conns c = s.conns c) (hserves : q.serves = p.serves)
    (hmemory : p.serves = some c → q.memory = p.memory)
    (hq : ∀ d, q.alive = true → q.fds.contains (some d) = true → p.alive = true ∧ p.fds.contains (some d) = true) :
    ∃ d', Goes dict d d' ∧ Sees tryit { s with children := s.children.set i q, conns := conns } c d' := by
  refine h.keep hconn (fun j r hr hc => ?_) fun hno => ⟨fun j hj => hno j ((serves_set hp q hserves j c).2 hj), ?_⟩
  · dsimp only at hr
    rw [get_set hp] at hr
    split at hr
    · cases hr
      rw [hserves] at hc
      rw [hmemory hc]
      exact h.served i p hp hc
    · exact h.served j r hr hc
  · exact lost_of_held id fun hh => held_set hp hq hh

/-- What a step is on the connection `c`. -/
def Acts (s : State κ) (c : κ) : Action κ → LostServer.Action → Prop
  | .client c' b, b' => c' = c ∧ b = b'
  | .child i b, b' => Serves s.children i c ∧ .dialogue b = b'
  | _, _ => False

omit [DecidableEq κ] in
/-- What a client does depends on the server's side as far as it is closed. -/
theorem client_step {k : Conn} {x y : Child} {b : LostServer.Action} {e : LostServer.State} (hb : ofClient b)
    (hxy : x.pc = .exited → y.pc = .exited) (he : LostServer.step dict (k.with x) b = some e) :
    LostServer.step dict (k.with y) b = some ((Conn.of e).with y) := by
  cases b with
  | dialogue b =>
    obtain ⟨f, hf, rfl⟩ := Option.map_eq_some_iff.1 he
    cases b with
    | ask =>
      simp only [Sock.step] at hf
      split at hf
      · next hwaiting htodo =>
        cases hf
        simp [LostServer.step, Sock.step, Conn.with, Conn.of, LostServer.logged, hwaiting, htodo]
      · cases hf
    | clientRead | hangup =>
      simp only [Sock.step, Option.ite_none_right_eq_some] at hf
      obtain ⟨hc, hf⟩ := hf
      cases hf
      simp [LostServer.step, Sock.step, Conn.with, Conn.of, LostServer.logged, hc]
    | childRead | childEof | childReply => cases hb
  | close => cases hb
  | writeFails | writeKilled =>
    simp only [LostServer.step] at he
    split at he
    · next hpc hwaiting htodo =>
      cases he
      simp [LostServer.step, Conn.with, Conn.of, hxy hpc, hwaiting, htodo]
    · cases he
  | readFails | readEof =>
    simp only [LostServer.step, Option.ite_none_right_eq_some] at he
    obtain ⟨hc, he⟩ := he
    cases he
    simp [LostServer.step, Conn.with, Conn.of, hxy hc.1, hc.2]

theorem alive_of_child {k : Conn} {x : Child} {b : Sock.Action} {e : LostServer.State} (hb : ofChild b)
    (he : LostServer.step dict (k.with x) (.dialogue b) = some e) : x.pc ≠ .exited := by
  intro hx
  obtain ⟨f, hf, -⟩ := Option.map_eq_some_iff.1 he
  cases b with
  | ask | clientRead | hangup => cases hb
  | childRead | childEof | childReply => simp [Sock.step, hx] at hf

theorem alive_of_stray {x y : Child} (h : strayTurn dict x = some y) : x.pc ≠ .exited := by
  intro hx
  rw [strayTurn, hx] at h
  cases h

theorem Inv.held_of_alive (hi : Inv inherited s) (hp : s.children[i]? = some p) (hc : p.serves = some c)
    (halive : p.alive) : s.held c = true := by
  obtain ⟨x, hx⟩ := hi.child i p hp
  exact (held_iff c).2 (.inr ((isOpen_iff _).2 (.inr ⟨i, p, hp, halive,
    (hx.table.mem_conn c).2 (hx.connection.symm.trans hc)⟩)))

theorem Sees.exited {d : LostServer.State} (hi : Inv inherited s) (h : Sees tryit s c d) (hl : s.lost c) :
    d.dialogue.child.pc = .exited := by
  have hheld : s.held c = false := by
    unfold State.lost at hl
    simpa using (Bool.and_eq_true_iff.1 hl).2
  by_cases hs : ∃ i, Serves s.children i c
  · obtain ⟨i, p, hp, hc⟩ := hs
    rw [h.served i p hp hc]
    by_contra hne
    have := hi.held_of_alive hp hc (by simpa [Process.alive] using hne)
    rw [hheld] at this
    cases this
  · rw [h.unserved (by simpa using hs), if_pos hl]

theorem Sees.move {d : LostServer.State} (hi : Inv inherited s) (hm : Move dict tryit maxChildren s a s')
    (h : Sees tryit s c d) :
    ∃ d', (Goes dict d d' ∨ ∃ b, Acts s c a b ∧ LostServer.step dict d b = some d') ∧ Sees tryit s' c d' := by
  have hkeep {s' : State κ} (hd : ∃ d', Goes dict d d' ∧ Sees tryit s' c d') :
      ∃ d', (Goes dict d d' ∨ ∃ b, Acts s c a b ∧ LostServer.step dict d b = some d') ∧ Sees tryit s' c d' :=
    hd.imp fun d' hd' => ⟨.inl hd'.1, hd'.2⟩
  cases hm with
  | @connect c₀ hnew _ =>
    refine hkeep (h.keep rfl h.served fun hno => ⟨hno, fun hl => ?_⟩)
    have hne : c ≠ c₀ := by
      rintro rfl
      simp [State.lost, hnew] at hl
    refine lost_of_held (fun hc => (Function.update_of_ne hne ..).trans hc) (fun hh => ?_) hl
    rw [held_iff] at hh ⊢
    exact hh.imp_left fun hh => ⟨by simpa [hne] using hh.1, hh.2⟩
  | @accept c₀ cs hpc hbacklog =>
    refine hkeep (h.keep rfl h.served fun hno => ⟨hno, lost_of_held id fun hh => ?_⟩)
    have hlisten := hi.listening (by rw [hpc]; decide)
    rw [held_iff, hbacklog] at *
    rcases hh with hh | hh
    · exact .inl ⟨List.mem_cons_of_mem c₀ hh.1, hlisten⟩
    · rw [isOpen_iff] at hh
      rcases hh with ⟨-, hh⟩ | hh
      · have hc := (((hi.listens hpc).accept c₀).mem_conn c).1 hh
        cases hc
        exact .inl ⟨List.mem_cons_self, hlisten⟩
      · exact .inr ((isOpen_iff _).2 (.inr hh))
  | acceptFails hpc =>
    refine hkeep (h.keep rfl h.served fun hno => ⟨hno, lost_of_held id fun hh => ?_⟩)
    have hopen {d : Desc κ} (hd : State.isOpen { s with pc := .fork, cd := none } d = true) : s.isOpen d = true := by
      rw [isOpen_iff] at hd ⊢
      exact hd.imp_left fun hd => ⟨by rw [hpc]; decide, hd.2⟩
    rw [held_iff] at hh ⊢
    exact hh.imp (fun hh => ⟨hh.1, hopen hh.2⟩) hopen
  | fork hpc _ =>
    have hcur : s.current = connection s.fds s.cd := by simp [State.current, hpc]
    refine hkeep (h.keep rfl (fun i p hp hc => ?_) fun hno => ⟨fun i hi => hno i ?_, lost_of_held id fun hh => ?_⟩)
    · dsimp only at hp
      rcases Nat.lt_trichotomy i s.children.length with hlt | rfl | hgt
      · rw [List.getElem?_append_left hlt] at hp
        exact h.served i p hp hc
      · -- the child that is forked now, for the connection that is still open in the parent
        rw [List.getElem?_concat_length] at hp
        cases hp
        have hc : connection s.fds s.cd = some c := hc
        obtain ⟨x, hx⟩ := hi.parent (by rw [hpc]; decide)
        have hopen : s.isOpen (.conn c) = true :=
          (isOpen_iff _).2 (.inl ⟨by rw [hpc]; decide, (hx.table.mem_conn c).2 (hx.connection.symm.trans hc)⟩)
        have hlost : s.lost c = false := by simp [State.lost, (held_iff c).2 (.inr hopen)]
        have hchild := h.unserved (hi.current hpc c (hcur.trans hc)).2.2
        rw [hlost] at hchild
        exact hchild
      · rw [List.getElem?_eq_none (by simp; omega)] at hp
        cases hp
    · exact serves_append.2 (.inl hi)
    · have hopen {d : Desc κ} (hd : State.isOpen { s with
          pc := .close, children := s.children ++ [⟨s.fds, s.cd, false, .read, tryit, []⟩] } d = true) :
          s.isOpen d = true := by
        rw [isOpen_iff] at hd ⊢
        have hparent : s.pc ≠ .died := by rw [hpc]; decide
        rcases hd with hd | ⟨i, p, hp, halive, hmem⟩
        · exact .inl ⟨hparent, hd.2⟩
        · dsimp only at hp
          rcases List.mem_append.1 (List.mem_of_getElem? hp) with hp | hp
          · obtain ⟨j, hj⟩ := List.mem_iff_getElem?.1 hp
            exact .inr ⟨j, p, hj, halive, hmem⟩
          · rw [List.mem_singleton.1 hp] at hmem
            exact .inl ⟨hparent, hmem⟩
      rw [held_iff] at hh ⊢
      exact hh.imp (fun hh => ⟨hh.1, hopen hh.2⟩) hopen
  | forkFails hpc _ =>
    refine hkeep (h.keep rfl h.served fun hno => ⟨hno, lost_of_held id fun hh => ?_⟩)
    have hopen {d : Desc κ} (hd : State.isOpen { s with pc := .died } d = true) : s.isOpen d = true := by
      rw [isOpen_iff] at hd ⊢
      exact hd.imp_left fun hd => absurd rfl hd.1
    rw [held_iff] at hh ⊢
    exact hh.imp (fun hh => ⟨hh.1, hopen hh.2⟩) hopen
  | @close fds hpc hclosed hnone =>
    have hrun : s.pc ≠ .died := by rw [hpc]; decide
    have hm : Move dict tryit maxChildren s .close { s with pc := .accept, fds := fds } := .close hpc hclosed hnone
    have htable := (hi.move hm).listens rfl
    refine hkeep (h.keep rfl h.served fun hno => ⟨hno, lost_of_held id fun hh => ?_⟩)
    rw [held_iff] at hh ⊢
    rcases hh with hh | hh
    · exact .inl ⟨hh.1, hi.listening hrun⟩
    · rw [isOpen_iff] at hh
      rcases hh with hh | hh
      · exact absurd ((htable.mem_conn c).1 hh.2) (Option.some_ne_none c).symm
      · exact .inr ((isOpen_iff _).2 (.inr hh))
  | @start i p hp halive hstarting =>
    obtain ⟨x, hx, hx'⟩ := hi.starting hp hstarting
    refine hkeep (h.set hp { p with fds := p.fds.close s.sd, started := true } rfl
      (hx'.connection.trans hx.connection.symm) (fun _ => rfl) fun d _ hmem => ⟨halive, ?_⟩)
    have hmem : (p.fds.close s.sd).contains (some d) = true := hmem
    cases d with
    | listening =>
      rw [hx'.table.mem_listening] at hmem
      cases hmem
    | conn c' => exact (hx.table.mem_conn c').2 ((hx'.table.mem_conn c').1 hmem)
    | inherited =>
      rw [List.contains_iff_mem, Fds.mem_iff_get] at hmem ⊢
      obtain ⟨n, hn⟩ := hmem
      refine ⟨n, ?_⟩
      rw [Fds.close, Fds.get_put] at hn
      split at hn
      · cases hn
      · exact hn
  | @child i b p c₀ e hp hserves _ hb hstep =>
    by_cases hc : c = c₀
    · subst hc
      have hd : d = (s.conns c).with p.memory := by
        rw [← h.conn, ← h.served i p hp hserves]
        rfl
      have hi' := serves_set hp { p with memory := e.dialogue.child } rfl
      refine ⟨e, .inr ⟨_, ⟨⟨p, hp, hserves⟩, rfl⟩, hd ▸ hstep⟩, ?_, fun j r hr hr' => ?_, fun hno => ?_⟩
      · exact (Function.update_self c (Conn.of e) s.conns).symm
      · have hj := (hi.serves i c ⟨p, hp, hserves⟩).2.2 j ((hi' j c).1 ⟨r, hr, hr'⟩)
        dsimp only at hr
        rw [hj, get_set hp, if_pos rfl] at hr
        cases hr
        rfl
      · exact absurd ((hi' i c).2 ⟨p, hp, hserves⟩) (hno i)
    · refine hkeep (h.set hp { p with memory := e.dialogue.child } (Function.update_of_ne hc ..) rfl
        (fun he => ?_) fun d _ hmem => ⟨?_, hmem⟩)
      · exact absurd (Option.some_inj.1 (he.symm.trans hserves)) hc
      · simpa [Process.alive] using alive_of_child hb hstep
  | @stray i p memory hp hcd hturn =>
    refine hkeep (h.set hp { p with memory } rfl rfl (fun he => ?_) fun d _ hmem => ⟨?_, hmem⟩)
    · rw [Process.serves, hcd] at he
      cases he
    · simpa [Process.alive] using alive_of_stray hturn
  | @dies i p hp halive =>
    by_cases hc : p.serves = some c
    · have hchild := h.served i p hp hc
      have hi' := serves_set hp { p with memory := { p.memory with pc := .exited } } rfl
      have halive : p.memory.pc ≠ .exited := by simpa [Process.alive] using halive
      refine ⟨_, .inl (.inr (if_pos (by rw [hchild]; exact halive))), h.conn, fun j r hr hr' => ?_, fun hno => ?_⟩
      · have hj := (hi.serves i c ⟨p, hp, hc⟩).2.2 j ((hi' j c).1 ⟨r, hr, hr'⟩)
        dsimp only at hr
        rw [hj, get_set hp, if_pos rfl] at hr
        cases hr
        rw [hchild]
      · exact absurd ((hi' i c).2 ⟨p, hp, hc⟩) (hno i)
    · exact hkeep (h.set hp { p with memory := { p.memory with pc := .exited } } rfl rfl
        (fun he => absurd he hc) fun d _ hmem => ⟨halive, hmem⟩)
  | @client c₀ b e hcalled hb hstep =>
    by_cases hc : c = c₀
    · subst hc
      have hexited : (⟨if s.held c then .read else .exited, tryit, []⟩ : Child).pc = .exited →
          d.dialogue.child.pc = .exited := by
        intro he
        refine h.exited hi ?_
        have hheld : s.held c ≠ true := fun hh => by rw [hh] at he; cases he
        simp [State.lost, hcalled, hheld]
      have hd : (s.conns c).with d.dialogue.child = d := by
        rw [← h.conn]
        rfl
      have hstep' := client_step hb hexited hstep
      rw [hd] at hstep'
      exact ⟨_, .inr ⟨b, ⟨rfl, rfl⟩, hstep'⟩, (Function.update_self c (Conn.of e) s.conns).symm, h.served, h.unserved⟩
    · refine hkeep (h.keep (Function.update_of_ne hc ..) h.served fun hno => ⟨hno, id⟩)

end

/-! ## Whole runs -/

section

variable {κ : Type} [DecidableEq κ] {inherited : Fds Unit} {dict : Dictionary} {tryit : Dictrec}
variable {maxBacklog maxChildren : Nat} {text : κ → Buf TEXT} {words : κ → List (CStr WORD)} {s : State κ}

/-- `ok` holds of what a step is on a connection. -/
def Each (ok : Conn → LostServer.Action → Prop) (s : State κ) : Action κ → Prop
  | .client c b => ok (s.conns c) b
  | .child i b => ∀ c ∈ (s.children[i]?).bind (·.serves), ok (s.conns c) (.dialogue b)
  | _ => True

instance (ok : Conn → LostServer.Action → Prop) [∀ k b, Decidable (ok k b)] (s : State κ) :
    (a : Action κ) → Decidable (Each ok s a)
  | .client c b => inferInstanceAs (Decidable (ok (s.conns c) b))
  | .child i b => inferInstanceAs (Decidable (∀ c ∈ (s.children[i]?).bind (·.serves), ok (s.conns c) (.dialogue b)))
  | .connect _ | .accept | .acceptFails | .fork | .close | .start _ | .stray _ | .dies _ => .isTrue trivial

omit [DecidableEq κ] in
theorem Each.acts {ok : Conn → LostServer.Action → Prop} {a : Action κ} {c : κ} {b : LostServer.Action}
    (h : Each ok s a) (ha : Acts s c a b) : ok (s.conns c) b := by
  cases a with
  | client c' b' =>
    obtain ⟨rfl, rfl⟩ := ha
    exact h
  | child i b' =>
    obtain ⟨⟨p, hp, hc⟩, rfl⟩ := ha
    exact h c (by simp [hp, hc])
  | connect | accept | acceptFails | fork | close | start | stray | dies => cases ha

theorem Inv.reach {s s' : State κ} (hi : Inv inherited s) {ok : State κ → Action κ → Prop}
    (h : Reach (step dict tryit maxBacklog maxChildren) ok s s') : Inv inherited s' :=
  h.invariant (I := Inv inherited) (fun _ _ _ hi _ hs => hi.move (move_of_step hs)) hi

theorem inv_reached {ok : State κ → Action κ → Prop}
    (h : Reach (step dict tryit maxBacklog maxChildren) ok (start tryit inherited text words) s) : Inv inherited s :=
  (inv_start inherited text words).reach h

theorem sees_start (c : κ) : Sees tryit (start tryit inherited text words) c (.init (text c) tryit (words c)) where
  conn := rfl
  served i p h := by cases h
  unserved _ := by simp [start, State.lost, LostServer.State.init, Sock.State.init]

/-- Each dialogue is one that a client and its child could have by themselves. -/
theorem sees_reached {ok : Conn → LostServer.Action → Prop}
    (h : Reach (step dict tryit maxBacklog maxChildren) (Each ok) (start tryit inherited text words) s) (c : κ) :
    ∃ d, Reach (LostServer.step dict) (fun d b => b = .close ∨ ok (.of d) b) (.init (text c) tryit (words c)) d ∧
      Sees tryit s c d := by
  refine h.invariant_reached (I := fun s => ∃ d, Reach (LostServer.step dict) (fun d b => b = .close ∨ ok (.of d) b)
    (.init (text c) tryit (words c)) d ∧ Sees tryit s c d) (fun s a s' hreach hd hok hs => ?_) ⟨_, .refl, sees_start c⟩
  obtain ⟨d, hdreach, hsees⟩ := hd
  obtain ⟨d', hgo, hsees'⟩ := hsees.move (inv_reached hreach) (move_of_step hs)
  refine ⟨d', ?_, hsees'⟩
  rcases hgo with (rfl | hclose) | ⟨b, hb, hstep⟩
  · exact hdreach
  · exact hdreach.tail ⟨.close, .inl rfl, hclose⟩
  · refine hdreach.tail ⟨b, .inr ?_, hstep⟩
    rw [hsees.conn]
    exact hok.acts hb

/-- Who keeps the connection of a child open. -/
theorem Inv.held_by_child (hi : Inv inherited s) {i : Nat} {p : Process κ} (hp : s.children[i]? = some p) {c : κ}
    (hc : p.serves = some c) : s.held c = true ↔ p.alive = true ∨ s.pc = .close ∧ s.current = some c := by
  obtain ⟨-, hbacklog, hone⟩ := hi.serves i c ⟨p, hp, hc⟩
  constructor
  · intro hheld
    rcases (held_iff c).1 hheld with hh | hh
    · exact absurd hh.1 hbacklog
    · rcases (isOpen_iff _).1 hh with ⟨hrun, hmem⟩ | ⟨j, q, hq, halive, hmem⟩
      · right
        have hacc : s.pc ≠ .accept := by
          intro hacc
          exact absurd (((hi.listens hacc).mem_conn c).1 hmem) (Option.some_ne_none c).symm
        obtain ⟨x, hx⟩ := hi.parent hacc
        have hcur : s.current = some c := by
          rw [State.current, if_neg hacc, hx.connection]
          exact (hx.table.mem_conn c).1 hmem
        cases hpc : s.pc with
        | accept => exact absurd hpc hacc
        | died => exact absurd hpc hrun
        | fork => exact absurd ⟨p, hp, hc⟩ ((hi.current hpc c hcur).2.2 i)
        | close => exact ⟨rfl, hcur⟩
      · left
        obtain ⟨x, hx⟩ := hi.child j q hq
        have hj := hone j ⟨q, hq, hx.connection.trans ((hx.table.mem_conn c).1 hmem)⟩
        subst hj
        rw [hq] at hp
        cases hp
        exact halive
  · rintro (halive | ⟨hpc, hcur⟩)
    · exact hi.held_of_alive hp hc halive
    · obtain ⟨x, hx⟩ := hi.parent (by rw [hpc]; decide)
      rw [State.current, if_neg (by rw [hpc]; decide), hx.connection] at hcur
      exact (held_iff c).2 (.inr ((isOpen_iff _).2 (.inl ⟨by rw [hpc]; decide, (hx.table.mem_conn c).2 hcur⟩)))

/-! ### Every dialogue -/

omit [DecidableEq κ] in
theorem Conn.ext_child {d e : LostServer.State} (hconn : Conn.of d = .of e)
    (hchild : d.dialogue.child = e.dialogue.child) : d = e := by
  rw [← Conn.with_of d, hconn, hchild, Conn.with_of]

theorem Sees.unique {s : State κ} {c : κ} {d e : LostServer.State} (hd : Sees tryit s c d) (he : Sees tryit s c e) :
    d = e := by
  refine Conn.ext_child (hd.conn.trans he.conn.symm) ?_
  by_cases hs : ∃ i, Serves s.children i c
  · obtain ⟨i, p, hp, hc⟩ := hs
    rw [hd.served i p hp hc, he.served i p hp hc]
  · rw [hd.unserved (by simpa using hs), he.unserved (by simpa using hs)]

/-- The child at `i` is in the dialogue `d`. -/
structure Serving (s : State κ) (i : Nat) (c : κ) (d : LostServer.State) (p : Process κ) : Prop where
  conn : .of d = s.conns c
  child : s.children[i]? = some p
  serves : p.serves = some c
  started : p.started
  memory : p.memory = d.dialogue.child

namespace Serving

variable {s : State κ} {i : Nat} {c : κ} {d d' : LostServer.State} {p : Process κ}

omit [DecidableEq κ] in
theorem conn_with (h : Serving s i c d p) : (s.conns c).with p.memory = d := by rw [← h.conn, h.memory, Conn.with_of]

/-- A step of the child's is one of the system. -/
theorem goes_on (h : Serving s i c d p) {a : Sock.Action} (ha : ofChild a)
    (hs : LostServer.step dict d (.dialogue a) = some d') :
    ∃ s', Accept.step dict tryit maxBacklog maxChildren s (.child i a) = some s' ∧
      Serving s' i c d' { p with memory := d'.dialogue.child } ∧ s'.pc = s.pc ∧ s'.called = s.called ∧
      s'.children = s.children.set i { p with memory := d'.dialogue.child } := by
  refine ⟨{ s with
    children := s.children.set i { p with memory := d'.dialogue.child }
    conns := Function.update s.conns c (.of d') }, ?_, ?_, rfl, rfl, rfl⟩
  · simp only [Accept.step, h.child, h.serves]
    rw [if_pos ⟨h.started, ha⟩, h.conn_with, hs]
    rfl
  · exact
      { conn := (Function.update_self c (Conn.of d') s.conns).symm
        child := (get_set h.child _ i).trans (if_pos rfl)
        serves := h.serves
        started := h.started
        memory := rfl }

end Serving

/-- There is one child, which serves `c`. -/
structure Only (s : State κ) (c : κ) (d : LostServer.State) (p : Process κ) : Prop extends Serving s 0 c d p where
  pc : s.pc = .accept
  called : s.called c
  children : s.children = [p]

namespace Only

variable {s : State κ} {c : κ} {d d' : LostServer.State} {p : Process κ} {b : LostServer.Action}

theorem sees (h : Only s c d p) : Sees tryit s c d where
  conn := h.conn
  served i q hq _ := by
    rw [h.children] at hq
    rw [List.mem_singleton.1 (List.mem_of_getElem? hq), h.memory]
  unserved hno := absurd ⟨p, h.child, h.serves⟩ (hno 0)

theorem held (h : Only s c d p) (hi : Inv inherited s) : s.held c = true ↔ p.alive = true := by
  rw [hi.held_by_child h.child h.serves, h.pc]
  exact or_iff_left fun hc => by cases hc.1

theorem client (h : Only s c d p) (hi : Inv inherited s) (hb : ofClient b) (hs : LostServer.step dict d b = some d') :
    ∃ s', Accept.step dict tryit maxBacklog maxChildren s (.client c b) = some s' ∧ Only s' c d' p := by
  rw [← h.conn_with] at hs
  have hview : p.memory.pc = .exited → (⟨if s.held c then .read else .exited, tryit, []⟩ : Child).pc = .exited := by
    intro hexited
    exact if_neg fun hheld => by simpa [Process.alive, hexited] using (h.held hi).1 hheld
  -- The child's side of the dialogue stays as it is.
  have hsame : (Conn.of d').with p.memory = d' := Option.some_inj.1 ((client_step hb id hs).symm.trans hs)
  refine ⟨{ s with conns := Function.update s.conns c (.of d') }, ?_, ?_⟩
  · simp only [Accept.step]
    rw [if_pos ⟨h.called, hb⟩, client_step hb hview hs]
    rfl
  · exact { h with
      conn := (Function.update_self c (Conn.of d') s.conns).symm
      memory := by rw [← hsame] }

theorem dies (h : Only s c d p) (hs : LostServer.step dict d .close = some d') :
    ∃ s', Accept.step dict tryit maxBacklog maxChildren s (.dies 0) = some s' ∧
      Only s' c d' { p with memory := { p.memory with pc := .exited } } := by
  simp only [LostServer.step, Option.ite_none_right_eq_some] at hs
  obtain ⟨halive, hs⟩ := hs
  cases hs
  refine ⟨{ s with children := s.children.set 0 { p with memory := { p.memory with pc := .exited } } }, ?_, ?_⟩
  · simp only [Accept.step, h.child]
    rw [if_pos (by simpa [Process.alive, h.memory] using halive)]
  · exact { h with
      child := (get_set h.child _ 0).trans (if_pos rfl)
      children := by rw [h.children]; rfl
      memory := by rw [h.memory] }

/-- A step of the dialogue is one of the system. -/
theorem step (h : Only s c d p) (hi : Inv inherited s) {ok : Conn → LostServer.Action → Prop}
    (hok : b = .close ∨ ok (.of d) b) (hs : LostServer.step dict d b = some d') :
    ∃ s' p', Steps (Accept.step dict tryit maxBacklog maxChildren) (Each ok) s s' ∧ Only s' c d' p' := by
  have hclient (hb : ofClient b) (hok : ok (.of d) b) :
      ∃ s' p', Steps (Accept.step dict tryit maxBacklog maxChildren) (Each ok) s s' ∧ Only s' c d' p' := by
    obtain ⟨s', hs', h'⟩ := h.client hi hb hs
    exact ⟨s', p, ⟨.client c b, by rwa [h.conn] at hok, hs'⟩, h'⟩
  cases b with
  | close =>
    obtain ⟨s', hs', h'⟩ := h.dies hs
    exact ⟨s', _, ⟨.dies 0, trivial, hs'⟩, h'⟩
  | dialogue a =>
    have hok := hok.resolve_left fun h => by cases h
    cases a with
    | ask | clientRead | hangup => exact hclient rfl hok
    | childRead | childEof | childReply =>
      obtain ⟨s', hs', hserving, hpc, hcalled, hchildren⟩ := h.goes_on rfl hs
      refine ⟨s', _, ⟨.child 0 _, fun c' hc' => ?_, hs'⟩, hserving, hpc.trans h.pc, by rw [hcalled]; exact h.called, ?_⟩
      · rw [h.child, Option.bind_some, h.serves, Option.mem_some_iff] at hc'
        rwa [← hc', ← h.conn]
      · rw [hchildren, h.children]
        rfl
  | writeFails | writeKilled | readFails | readEof => exact hclient rfl (hok.resolve_left fun h => by cases h)

end Only

variable (dict tryit maxBacklog) in
theorem accept_next {s : State κ} (hi : Inv inherited s) {c : κ} {cs : List κ} (hpc : s.pc = .accept)
    (hbacklog : s.backlog = c :: cs) (hroom : s.children.length < maxChildren) {ok : State κ → Action κ → Prop}
    (hok : ∀ s, ok s .accept ∧ ok s .fork ∧ ok s .close) :
    ∃ s' q, Reach (step dict tryit maxBacklog maxChildren) ok s s' ∧ s'.pc = .accept ∧ s'.backlog = cs ∧
      s'.sd = s.sd ∧ s'.called = s.called ∧ s'.conns = s.conns ∧ s'.children = s.children ++ [q] ∧
      q.serves = some c ∧ q.started = false ∧ q.memory = ⟨.read, tryit, []⟩ := by
  have ht := hi.listens hpc
  have hserves : connection (s.fds.put s.fds.lowest (some (.conn c))) (some s.fds.lowest) = some c :=
    Has.connection ⟨ht.accept c, by rw [ht.lowest]; rfl⟩
  have h0 : Reach (step dict tryit maxBacklog maxChildren) ok s s := .refl
  have h1 := h0.tail ⟨.accept, (hok _).1, by simp only [step, hpc, hbacklog]; rfl⟩
  have h2 := h1.tail ⟨.fork, (hok _).2.1, by rw [step, if_pos rfl]; exact if_pos hroom⟩
  have h3 := h2.tail ⟨.close, (hok _).2.2, by rw [step, if_pos rfl]⟩
  exact ⟨_, _, h3, rfl, rfl, rfl, rfl, rfl, rfl, hserves, rfl, rfl⟩

/-- The client calls, is accepted, and its child closes the listening socket. -/
theorem only_start (hb : 0 < maxBacklog) (hc : 0 < maxChildren) (ok : Conn → LostServer.Action → Prop) (c : κ) :
    ∃ s p, Reach (step dict tryit maxBacklog maxChildren) (Each ok) (start tryit inherited text words) s ∧
      Only s c (.init (text c) tryit (words c)) p := by
  have hlisten : (start tryit inherited text words).isOpen .listening = true :=
    (inv_start inherited text words).listening nofun
  have hparent (s : State κ) : Each ok s .accept ∧ Each ok s .fork ∧ Each ok s .close := ⟨trivial, trivial, trivial⟩
  have hreach : Reach (step dict tryit maxBacklog maxChildren) (Each ok) (start tryit inherited text words) _ := .refl
  have hconnect := hreach.tail ⟨.connect c, trivial, if_pos ⟨rfl, hlisten, hb⟩⟩
  obtain ⟨s, q, hnext, hpc, -, hsd, hcalled, hconns, hchildren, hserves, hstarting, hmemory⟩ :=
    accept_next dict tryit maxBacklog (inv_reached hconnect) rfl rfl hc hparent
  have hq : s.children[0]? = some q := by rw [hchildren]; rfl
  have hi := inv_reached (hconnect.trans hnext)
  obtain ⟨x, hx, hx'⟩ := hi.starting hq hstarting
  have hstart := (hconnect.trans hnext).tail ⟨.start 0, trivial, by
    simp only [step, hq]
    exact if_pos ⟨by rw [Process.alive, hmemory]; rfl, hstarting⟩⟩
  refine ⟨_, { q with fds := q.fds.close s.sd, started := true }, hstart, ⟨?_, ?_, ?_, rfl, ?_⟩, hpc, ?_, ?_⟩
  · exact (congrFun hconns c).symm
  · exact (get_set hq _ 0).trans (if_pos rfl)
  · exact (hx'.connection.trans hx.connection.symm).trans hserves
  · exact hmemory
  · show s.called c = true
    rw [hcalled]
    exact Function.update_self ..
  · show s.children.set 0 _ = _
    rw [hchildren]
    rfl

/-- Whatever the other clients do, and the parent, and whichever children end:
the dialogues on a connection are those that a client and a child could have
by themselves. -/
theorem each_alone (hb : 0 < maxBacklog) (hc : 0 < maxChildren) (ok : Conn → LostServer.Action → Prop) (c : κ)
    (d : LostServer.State) :
    (∃ s, Reach (step dict tryit maxBacklog maxChildren) (Each ok) (start tryit inherited text words) s ∧
      Sees tryit s c d) ↔
    Reach (LostServer.step dict) (fun d b => b = .close ∨ ok (.of d) b) (.init (text c) tryit (words c)) d := by
  constructor
  · rintro ⟨s, hreach, hd⟩
    obtain ⟨e, he, hsees⟩ := sees_reached hreach c
    rwa [hd.unique hsees]
  · intro h
    suffices honly : ∃ s p, Reach (step dict tryit maxBacklog maxChildren) (Each ok)
        (start tryit inherited text words) s ∧ Only s c d p by
      obtain ⟨s, p, hreach, honly⟩ := honly
      exact ⟨s, hreach, honly.sees⟩
    induction h with
    | refl => exact only_start hb hc ok c
    | tail _ hstep ih =>
      obtain ⟨s, p, hreach, honly⟩ := ih
      obtain ⟨b, hok, hb⟩ := hstep
      obtain ⟨s', p', hs', honly'⟩ := honly.step (inv_reached hreach) hok hb
      exact ⟨s', p', hreach.tail hs', honly'⟩

/-- Two clients that ask one word each. -/
def twoClients (word : CStr WORD) : State Bool :=
  start Dictrec.blank [some (), some (), some ()] (fun _ => Buf.zero TEXT) fun _ => [word]

/-- A client that has its answer, and whose server is then lost. -/
theorem each_alone_asked :
    ∃ s d, Reach (step twoWords Dictrec.blank 128 10) (Each fun _ _ => True)
      (twoClients ⟨[97], by decide, by decide⟩) s ∧
      Sees Dictrec.blank s true d ∧ d.dialogue.client.past.length = 1 ∧ d.dialogue.child.pc = .exited := by
  have hrun : (exec (LostServer.step twoWords) (fun _ b => b = .close ∨ True)
      (.init (Buf.zero TEXT) Dictrec.blank [⟨[97], by decide, by decide⟩])
      [.dialogue .ask, .dialogue (.childRead 2), .dialogue .childReply, .dialogue (.clientRead 2), .close]).map
        (fun d => (d.dialogue.client.past.length, d.dialogue.child.pc)) = some (1, .exited) := by
    decide +kernel
  obtain ⟨d, hd, he⟩ := Option.map_eq_some_iff.1 hrun
  obtain ⟨hpast, hpc⟩ := Prod.mk.inj he
  have hsystem : ∃ s, Reach (step twoWords Dictrec.blank 128 10) (Each fun _ _ => True)
      (twoClients ⟨[97], by decide, by decide⟩) s ∧ Sees Dictrec.blank s true d :=
    (each_alone (by decide) (by decide) (fun _ _ => True) true d).2 (reach_of_exec hd)
  obtain ⟨s, hs, hsees⟩ := hsystem
  exact ⟨s, d, hs, hsees, hpast, hpc⟩

/-! ### How long the server lasts -/

/-- `accept` returns. -/
def Action.accepts : Action κ → Bool
  | .accept | .acceptFails => true
  | _ => false

/-- The action is a `fork` that succeeds. -/
def Action.forks : Action κ → Bool
  | .fork => true
  | _ => false

/-- The children, and the one there could not be. -/
def State.forked (s : State κ) : Nat := s.children.length + if s.pc = .died then 1 else 0

/-- The connections accepted: one for each child, and one while `fork` is yet to be called or after
it has failed. -/
def State.accepted (s : State κ) : Nat := s.children.length + if s.pc = .fork ∨ s.pc = .died then 1 else 0

/-- There is room for the children there are, and the parent ends only for want of it. -/
def Room (maxChildren : Nat) (s : State κ) : Prop :=
  s.children.length ≤ maxChildren ∧ (s.pc = .died → s.children.length = maxChildren)

theorem Room.move {s' : State κ} {a : Action κ} (h : Room maxChildren s) (hm : Move dict tryit maxChildren s a s') :
    Room maxChildren s' ∧ s'.forked = s.forked + (if a.forks then 1 else 0) ∧
      s'.accepted = s.accepted + if a.accepts then 1 else 0 := by
  obtain ⟨hle, hdied⟩ := h
  cases hm with
  | connect | client => exact ⟨⟨hle, hdied⟩, rfl, rfl⟩
  | accept hpc | acceptFails hpc =>
    exact ⟨⟨hle, fun h => by cases h⟩, by simp [State.forked, Action.forks, hpc],
      by simp [State.accepted, Action.accepts, hpc]⟩
  | fork hpc hroom =>
    refine ⟨⟨?_, fun h => by cases h⟩, by simp [State.forked, Action.forks, hpc],
      by simp [State.accepted, Action.accepts, hpc]⟩
    rw [List.length_append]
    exact hroom
  | forkFails hpc hfull =>
    exact ⟨⟨hle, fun _ => le_antisymm hle hfull⟩, by simp [State.forked, Action.forks, hpc],
      by simp [State.accepted, Action.accepts, hpc]⟩
  | close hpc =>
    exact ⟨⟨hle, fun h => by cases h⟩, by simp [State.forked, Action.forks, hpc],
      by simp [State.accepted, Action.accepts, hpc]⟩
  | start | child | stray | dies =>
    exact ⟨by simpa [Room] using ⟨hle, hdied⟩, by simp [State.forked, Action.forks],
      by simp [State.accepted, Action.accepts]⟩

/-- No child is waited for, so the server lasts for so many calls of `accept`
as it may have children, however soon these end: it ends at the `fork` after. -/
theorem server_lasts {as : List (Action κ)}
    (h : exec (step dict tryit maxBacklog maxChildren) anyStep (start tryit inherited text words) as = some s) :
    as.countP Action.accepts ≤ maxChildren + 1 ∧ (s.pc = .died ↔ as.countP Action.forks = maxChildren + 1) := by
  have hstart : Room maxChildren (start tryit inherited text words) := ⟨Nat.zero_le _, fun h => by cases h⟩
  have hroom : Room maxChildren s :=
    (reach_of_exec h).invariant (fun _ _ _ hi _ hs => (hi.move (move_of_step hs)).1) hstart
  have hforked : s.forked = (start tryit inherited text words).forked + as.countP Action.forks :=
    exec_countP (fun _ _ _ hi hs => ⟨(hi.move (move_of_step hs)).1, (hi.move (move_of_step hs)).2.1⟩) hstart h
  have haccepted : s.accepted = (start tryit inherited text words).accepted + as.countP Action.accepts :=
    exec_countP (fun _ _ _ hi hs => ⟨(hi.move (move_of_step hs)).1, (hi.move (move_of_step hs)).2.2⟩) hstart h
  obtain ⟨hle, hdied⟩ := hroom
  have hzero : (start tryit inherited text words).forked = 0 ∧ (start tryit inherited text words).accepted = 0 :=
    ⟨rfl, rfl⟩
  rw [hzero.1, Nat.zero_add, State.forked] at hforked
  rw [hzero.2, Nat.zero_add, State.accepted] at haccepted
  constructor
  · rw [← haccepted]
    split <;> omega
  · rw [← hforked]
    by_cases hpc : s.pc = .died
    · simp [hpc, hdied hpc]
    · simp only [hpc, if_false, false_iff]
      omega

/-- Room for one child, and a second client after the first has hung up and its
child has exited. -/
theorem server_lasts_one :
    ∃ s, exec (step twoWords Dictrec.blank 128 1) anyStep (twoClients ⟨[97], by decide, by decide⟩)
        [.connect true, .accept, .fork, .close, .start 0, .client true (.dialogue .ask), .child 0 (.childRead 2),
          .child 0 .childReply, .client true (.dialogue (.clientRead 2)), .client true (.dialogue .hangup),
          .child 0 .childEof, .connect false, .accept, .fork] = some s ∧
      s.children.map (·.alive) = [false] ∧ s.pc = .died := by
  have hrun : (exec (step twoWords Dictrec.blank 128 1) anyStep (twoClients ⟨[97], by decide, by decide⟩)
      [.connect true, .accept, .fork, .close, .start 0, .client true (.dialogue .ask), .child 0 (.childRead 2),
        .child 0 .childReply, .client true (.dialogue (.clientRead 2)), .client true (.dialogue .hangup),
        .child 0 .childEof, .connect false, .accept, .fork]).map (·.children.map (·.alive)) = some [false] := by
    decide +kernel
  obtain ⟨s, hs, halive⟩ := Option.map_eq_some_iff.1 hrun
  exact ⟨s, hs, halive, (server_lasts hs).2.2 rfl⟩

/-- Once the parent has closed its descriptor for a connection, nobody but its
child keeps it open: the client comes to end of file when that has ended. -/
theorem held_iff_alive {ok : State κ → Action κ → Prop}
    (h : Reach (step dict tryit maxBacklog maxChildren) ok (start tryit inherited text words) s) {i : Nat}
    {p : Process κ} (hp : s.children[i]? = some p) {c : κ} (hc : p.serves = some c) :
    s.held c = true ↔ p.alive = true ∨ s.pc = .close ∧ s.current = some c :=
  (inv_reached h).held_by_child hp hc

/-- A child has ended before the parent has closed its descriptor. -/
theorem held_iff_alive_early :
    ∃ s : State Bool, Reach (step twoWords Dictrec.blank 128 10) anyStep (twoClients ⟨[97], by decide, by decide⟩) s ∧
      (∃ p, s.children[0]? = some p ∧ p.alive = false) ∧ s.held true = true := by
  have hrun : (exec (step twoWords Dictrec.blank 128 10) anyStep (twoClients ⟨[97], by decide, by decide⟩)
      [.connect true, .accept, .fork, .start 0, .dies 0]).map
        (fun s => (s.children.map fun p => (p.alive, p.serves), s.pc, s.current)) =
          some ([(false, some true)], .close, some true) := by
    decide +kernel
  obtain ⟨s, hs, he⟩ := Option.map_eq_some_iff.1 hrun
  obtain ⟨hchildren, hrest⟩ := Prod.mk.inj he
  obtain ⟨p, hp⟩ : ∃ p, s.children = [p] := List.length_eq_one_iff.1 (by simpa using congrArg List.length hchildren)
  rw [hp, List.map_singleton, List.cons.injEq] at hchildren
  obtain ⟨halive, hserves⟩ := Prod.mk.inj hchildren.1
  obtain ⟨hpc, hcur⟩ := Prod.mk.inj hrest
  have hfirst : s.children[0]? = some p := by rw [hp]; rfl
  exact ⟨s, reach_of_exec hs, ⟨p, hfirst, halive⟩,
    (held_iff_alive (reach_of_exec hs) hfirst hserves).2 (.inr ⟨hpc, hcur⟩)⟩

end

end SysProg.Accept
