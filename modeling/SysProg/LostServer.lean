/-
The dialogue over a stream socket when the server's side closes it, at any
point: its child has ended on UNAVAIL, or was killed. The client's next
`write` then fails, by its result or by SIGPIPE, or its next `read` does, or
that returns 0, which `lookup` of `lookup7.c` and `lookup8.c` does not tell
from a reply: what is in the text from an earlier answer is taken for one.
-/
import SysProg.Sock

namespace SysProg.LostServer

open SysProg.Sock (Client cstr_flat)

/-- A dialogue whose server can be lost. -/
structure State where
  dialogue : Sock.State
  /-- SIGPIPE has ended the client. -/
  killed : Bool
  /-- The words the child has looked up, and what it wrote for each. -/
  sent : List (List Byte × List Byte)

/-- What can happen next. -/
inductive Action where
  | dialogue (a : Sock.Action)
  /-- The server's side closes the connection. -/
  | close
  /-- The client's `write` returns -1. -/
  | writeFails
  /-- It raises SIGPIPE. -/
  | writeKilled
  /-- The client's `read` returns -1. What was not read is lost. -/
  | readFails
  /-- It returns 0. -/
  | readEof
  deriving DecidableEq

/-- A call of `lookup` returns. -/
def returned (c : Client) (r : Status × Option (List Byte)) : Client :=
  { c with waiting := false, past := c.past ++ [(c.word, r)] }

/-- What is logged of a step of the dialogue: the word looked up, and what was
written. -/
def logged (s s' : Sock.State) : Sock.Action → List (List Byte × List Byte)
  | .childReply => [(cstr s.child.tryit.flat.bytes, s'.replies.drop s.replies.length)]
  | _ => []

/-- The next state, where the action can happen. -/
def step (dict : Dictionary) (s : State) : Action → Option State
  | .dialogue a => (Sock.step dict s.dialogue a).map fun d =>
      { s with dialogue := d, sent := s.sent ++ logged s.dialogue d a }
  | .close =>
    if s.dialogue.child.pc ≠ .exited then
      some { s with dialogue := { s.dialogue with child := { s.dialogue.child with pc := .exited } } }
    else none
  | .writeFails =>
    match s.dialogue.child.pc, s.dialogue.client.waiting, s.dialogue.client.todo with
    | .exited, false, w :: ws => some { s with
        dialogue := { s.dialogue with
          client := returned { s.dialogue.client with word := w, todo := ws } (.UNAVAIL, none) } }
    | _, _, _ => none
  | .writeKilled =>
    match s.dialogue.child.pc, s.dialogue.client.waiting, s.dialogue.client.todo with
    | .exited, false, w :: _ => some { s with
        dialogue := { s.dialogue with client := { s.dialogue.client with word := w, todo := [] }, closed := true }
        killed := true }
    | _, _, _ => none
  | .readFails =>
    if s.dialogue.child.pc = .exited ∧ s.dialogue.client.waiting then
      some { s with
        dialogue := { s.dialogue with client := returned s.dialogue.client (.UNAVAIL, none), replies := [] } }
    else none
  | .readEof =>
    if s.dialogue.child.pc = .exited ∧ s.dialogue.client.waiting ∧ s.dialogue.replies = [] then
      -- Nothing is written to the text.
      some { s with
        dialogue := { s.dialogue with
          client := returned s.dialogue.client (Client.result s.dialogue.client.text) } }
    else none

/-- A connection just made. -/
def State.init (text : Buf TEXT) (tryit : Dictrec) (words : List (CStr WORD)) : State :=
  ⟨.init text tryit words, false, []⟩

/-- A message that is read is read whole. -/
def Whole (s : State) : Action → Prop
  | .dialogue a => Sock.Whole s.dialogue a
  | _ => True

instance (s : State) : (a : Action) → Decidable (Whole s a)
  | .dialogue a => inferInstanceAs (Decidable (Sock.Whole s.dialogue a))
  | .close | .writeFails | .writeKilled | .readFails | .readEof => .isTrue trivial

/-- The `k`-th call has returned `r`: UNAVAIL if the server has not replied to
the query, and FOUND only with the text it has sent for it. -/
def Told (sent : List (List Byte × List Byte)) (k : Nat) (r : CStr WORD × Status × Option (List Byte)) : Prop :=
  (sent.length ≤ k → r.2.1 = .UNAVAIL) ∧
    (r.2.1 = .FOUND → ∃ m, sent[k]? = some (r.1.chars, m) ∧ r.2.2 = some (cstr m))

/-- Every call made has returned, unless the client still waits in it, and
has told of a server that was lost. -/
def Reported (s : State) : Prop :=
  s.killed = false ∧ ∀ k r, s.dialogue.client.past[k]? = some r → Told s.sent k r

/-! ## While the loss is noticed -/

variable {dict : Dictionary} {s s' : State}

/-- Where the client and the child are in the query that follows `n` others. -/
inductive Phase (d : Sock.State) (sent : List (List Byte × List Byte)) (n : Nat) : Prop
  | idle (waiting : d.client.waiting = false) (replies : d.replies = []) (sent_le : sent.length ≤ n)
      (alive : d.child.pc ≠ .exited → sent.length = n ∧ d.child.pc = .read ∧ d.requests = [])
  | asked (waiting : d.client.waiting = true) (replies : d.replies = []) (sent_le : sent.length ≤ n)
      (alive : d.child.pc ≠ .exited → sent.length = n ∧ d.child.pc = .read ∧
        d.requests = d.client.word.chars ++ [NUL])
  | received (waiting : d.client.waiting = true) (replies : d.replies = []) (sent_eq : sent.length = n)
      (pc : d.child.pc = .lookup) (requests : d.requests = [])
      (tryit : ∃ b : Buf WORD, d.child.tryit.word = b.strcpy d.client.word.chars)
  | replied (waiting : d.client.waiting = true) (t : CStr TEXT) (replies : d.replies = t.chars ++ [NUL])
      (last : ∃ before, sent = before ++ [(d.client.word.chars, d.replies)] ∧ before.length = n)
      (alive : d.child.pc ≠ .exited → d.child.pc = .read ∧ d.requests = [])

/-- What holds of every state reached by whole reads. -/
structure Inv (s : State) : Prop where
  killed : s.killed = false
  phase : Phase s.dialogue s.sent s.dialogue.client.past.length
  told : ∀ k r, s.dialogue.client.past[k]? = some r → Told s.sent k r

theorem Inv.reported (h : Inv s) : Reported s := ⟨h.killed, h.told⟩

theorem Inv.init (text : Buf TEXT) (tryit : Dictrec) (words : List (CStr WORD)) : Inv (.init text tryit words) where
  killed := rfl
  phase := .idle rfl rfl le_rfl fun _ => ⟨rfl, rfl, rfl⟩
  told k r h := by cases h

theorem told_append {sent : List (List Byte × List Byte)} {past : List (CStr WORD × Status × Option (List Byte))}
    (h : ∀ k r, past[k]? = some r → Told sent k r) {r : CStr WORD × Status × Option (List Byte)}
    (hr : Told sent past.length r) : ∀ k q, (past ++ [r])[k]? = some q → Told sent k q := by
  intro k q hk
  rcases Nat.lt_trichotomy k past.length with hlt | rfl | hgt
  · rw [List.getElem?_append_left hlt] at hk
    exact h k q hk
  · rw [List.getElem?_concat_length] at hk
    cases hk
    exact hr
  · rw [List.getElem?_eq_none (by simp; omega)] at hk
    cases hk

theorem told_unavail (sent : List (List Byte × List Byte)) (k : Nat) (w : CStr WORD) :
    Told sent k (w, .UNAVAIL, none) := ⟨fun _ => rfl, fun h => by cases h⟩

theorem told_sent {sent : List (List Byte × List Byte)} {past : List (CStr WORD × Status × Option (List Byte))}
    (h : ∀ k r, past[k]? = some r → Told sent k r) (hlen : sent.length = past.length) (m : List Byte × List Byte) :
    ∀ k r, past[k]? = some r → Told (sent ++ [m]) k r := by
  intro k r hk
  have hlt : k < sent.length := by
    rw [hlen]
    exact (List.getElem?_eq_some_iff.1 hk).1
  refine ⟨fun hle => ?_, fun hfound => ?_⟩
  · rw [List.length_append] at hle
    omega
  · rw [List.getElem?_append_left hlt]
    exact (h k r hk).2 hfound

/-- What is returned for a reply read whole. -/
theorem told_reply {before : List (List Byte × List Byte)} {w : CStr WORD} {m : List Byte} {t : CStr TEXT}
    (hm : m = t.chars ++ [NUL]) (text : Buf TEXT) :
    Told (before ++ [(w.chars, m)]) before.length (w, Client.result (text.store 0 m)) := by
  have hstr : (text.store 0 m).str = t.chars := by
    rw [hm]
    exact Buf.strcpy_str t
  have hmess : cstr m = t.chars := by rw [hm, cstr_append_nul t.noNul]
  have hres : Client.result (text.store 0 m) =
      if t.chars ≠ XXXX.chars then (.FOUND, some t.chars) else (.NOTFOUND, none) := by
    rw [Client.result, hstr]
  rw [hres]
  refine ⟨fun hle => ?_, fun hfound => ⟨m, List.getElem?_concat_length .., ?_⟩⟩
  · rw [List.length_append, List.length_singleton] at hle
    omega
  · rw [hmess]
    dsimp only at hfound ⊢
    split at hfound
    · next hne => rw [if_pos hne]
    · cases hfound

/-! ## The steps of the dialogue -/

theorem Inv.ask (h : Inv s) (hs : step dict s (.dialogue .ask) = some s') : Inv s' := by
  obtain ⟨d, hd, rfl⟩ := Option.map_eq_some_iff.1 hs
  simp only [Sock.step] at hd
  split at hd
  · next w ws waiting todo =>
    cases hd
    simp only [logged, List.append_nil]
    refine ⟨h.killed, ?_, h.told⟩
    cases h.phase with
    | idle _ replies sent_le alive =>
      refine .asked rfl replies sent_le fun hpc => ?_
      obtain ⟨hsent, hread, hreq⟩ := alive hpc
      exact ⟨hsent, hread, by rw [hreq]; rfl⟩
    | asked waiting' | received waiting' | replied waiting' => rw [waiting'] at waiting; cases waiting
  · cases hd

theorem Inv.clientRead (h : Inv s) {n : Nat} (hn : n = s.dialogue.replies.length)
    (hs : step dict s (.dialogue (.clientRead n)) = some s') : Inv s' := by
  obtain ⟨d, hd, rfl⟩ := Option.map_eq_some_iff.1 hs
  simp only [Sock.step] at hd
  split at hd
  · next hc =>
    obtain ⟨waiting, hpos, -, -⟩ := hc
    cases hd
    simp only [logged, List.append_nil]
    subst hn
    rw [List.take_length, List.drop_length]
    cases h.phase with
    | idle waiting' => rw [waiting'] at waiting; cases waiting
    | asked _ replies | received _ replies => rw [replies] at hpos; cases hpos
    | replied _ t replies last alive =>
      obtain ⟨before, hsent, hbefore⟩ := last
      refine ⟨h.killed, ?_, told_append h.told ?_⟩
      · refine .idle rfl rfl ?_ fun hpc => ?_
        · rw [hsent, List.length_append, List.length_append, hbefore]
          rfl
        · rw [hsent, List.length_append, List.length_append, hbefore]
          exact ⟨rfl, alive hpc⟩
      · rw [hsent, ← hbefore]
        exact told_reply replies s.dialogue.client.text
  · cases hd

theorem Inv.childRead (h : Inv s) {n : Nat} (hn : n = s.dialogue.requests.length)
    (hs : step dict s (.dialogue (.childRead n)) = some s') : Inv s' := by
  obtain ⟨d, hd, rfl⟩ := Option.map_eq_some_iff.1 hs
  simp only [Sock.step] at hd
  split at hd
  · next hc =>
    obtain ⟨pc, hpos, -, -⟩ := hc
    cases hd
    simp only [logged, List.append_nil]
    have hrun : s.dialogue.child.pc ≠ .exited := by rw [pc]; decide
    refine ⟨h.killed, ?_, h.told⟩
    subst hn
    cases h.phase with
    | idle _ _ _ alive => rw [(alive hrun).2.2] at hpos; cases hpos
    | asked waiting replies _ alive =>
      obtain ⟨hsent, -, hreq⟩ := alive hrun
      refine .received waiting replies hsent rfl (List.drop_length ..) ⟨s.dialogue.child.tryit.word, ?_⟩
      rw [List.take_length, hreq]
      rfl
    | received _ _ _ pc' => rw [pc] at pc'; cases pc'
    | replied _ _ _ _ alive => rw [(alive hrun).2] at hpos; cases hpos
  · cases hd

theorem Inv.childReply (h : Inv s) (hs : step dict s (.dialogue .childReply) = some s') : Inv s' := by
  obtain ⟨d, hd, rfl⟩ := Option.map_eq_some_iff.1 hs
  simp only [Sock.step] at hd
  split at hd
  · next hc =>
    have hrun : s.dialogue.child.pc ≠ .exited := by rw [hc.1]; decide
    cases h.phase with
    | idle _ _ _ alive | asked _ _ _ alive => rw [(alive hrun).2.1] at hc; cases hc.1
    | replied _ _ _ _ alive => rw [(alive hrun).1] at hc; cases hc.1
    | received waiting replies sent_eq pc requests tryit =>
      obtain ⟨b, hb⟩ := tryit
      have hw : cstr s.dialogue.child.tryit.flat.bytes = s.dialogue.client.word.chars := by
        have := (cstr_flat (w := s.dialogue.client.word) b s.dialogue.child.tryit.text).1
        rwa [← hb] at this
      rw [hw] at hd
      -- what is written is a text, with its NUL
      obtain ⟨t, ht⟩ : ∃ t : CStr TEXT, d.replies = t.chars ++ [NUL] := by
        cases hdict : dict s.dialogue.client.word.chars with
        | none =>
          rw [hdict] at hd
          cases hd
          exact ⟨XXXX, by rw [replies]; rfl⟩
        | some t =>
          rw [hdict] at hd
          cases hd
          exact ⟨t, by simp only [replies, Buf.strcpy_str]; rfl⟩
      have hlogged : logged s.dialogue d .childReply = [(s.dialogue.client.word.chars, d.replies)] := by
        rw [logged, hw, replies]
        rfl
      rw [hlogged]
      cases hd
      refine ⟨h.killed, ?_, told_sent h.told sent_eq _⟩
      exact .replied waiting t ht ⟨s.sent, rfl, sent_eq⟩ fun _ => ⟨rfl, requests⟩
  · cases hd

theorem Inv.hangup (h : Inv s) (hs : step dict s (.dialogue .hangup) = some s') : Inv s' := by
  obtain ⟨d, hd, rfl⟩ := Option.map_eq_some_iff.1 hs
  simp only [Sock.step] at hd
  split at hd
  · next hc =>
    cases hd
    simp only [logged, List.append_nil]
    refine ⟨h.killed, ?_, h.told⟩
    cases h.phase with
    | idle waiting replies sent_le alive => exact .idle waiting replies sent_le alive
    | asked waiting | received waiting | replied waiting => rw [hc.1] at waiting; cases waiting
  · cases hd

theorem Phase.exited {d : Sock.State} {sent : List (List Byte × List Byte)} {n : Nat} (h : Phase d sent n) :
    Phase { d with child := { d.child with pc := .exited } } sent n := by
  cases h with
  | idle waiting replies sent_le => exact .idle waiting replies sent_le fun hpc => absurd rfl hpc
  | asked waiting replies sent_le => exact .asked waiting replies sent_le fun hpc => absurd rfl hpc
  | received waiting replies sent_eq => exact .asked waiting replies sent_eq.le fun hpc => absurd rfl hpc
  | replied waiting t replies last => exact .replied waiting t replies last fun hpc => absurd rfl hpc

theorem Inv.childEof (h : Inv s) (hs : step dict s (.dialogue .childEof) = some s') : Inv s' := by
  obtain ⟨d, hd, rfl⟩ := Option.map_eq_some_iff.1 hs
  simp only [Sock.step] at hd
  split at hd
  · cases hd
    simp only [logged, List.append_nil]
    exact ⟨h.killed, h.phase.exited, h.told⟩
  · cases hd

/-! ## The connection lost -/

theorem Inv.close (h : Inv s) (hs : step dict s .close = some s') : Inv s' := by
  simp only [step] at hs
  split at hs
  · cases hs
    exact ⟨h.killed, h.phase.exited, h.told⟩
  · cases hs

theorem Phase.returned {d : Sock.State} {sent : List (List Byte × List Byte)} {n : Nat}
    (hpc : d.child.pc = .exited) (hwaiting : d.client.waiting = false) (hreplies : d.replies = [])
    (hle : sent.length ≤ n) : Phase d sent n :=
  .idle hwaiting hreplies hle fun hne => absurd hpc hne

theorem Phase.sent_le {d : Sock.State} {sent : List (List Byte × List Byte)} {n : Nat} (h : Phase d sent n) :
    sent.length ≤ n + 1 := by
  cases h with
  | idle _ _ sent_le | asked _ _ sent_le => exact Nat.le_succ_of_le sent_le
  | received _ _ sent_eq => rw [sent_eq]; exact Nat.le_succ n
  | replied _ _ _ last =>
    obtain ⟨before, hsent, hbefore⟩ := last
    rw [hsent, List.length_append, hbefore]
    rfl

theorem Phase.sent_le_idle {d : Sock.State} {sent : List (List Byte × List Byte)} {n : Nat} (h : Phase d sent n)
    (hw : d.client.waiting = false) : d.replies = [] ∧ sent.length ≤ n := by
  cases h with
  | idle _ replies sent_le => exact ⟨replies, sent_le⟩
  | asked waiting | received waiting | replied waiting => rw [hw] at waiting; cases waiting

theorem Inv.writeFails (h : Inv s) (hs : step dict s .writeFails = some s') : Inv s' := by
  simp only [step] at hs
  split at hs
  · next w ws hpc hw htodo =>
    cases hs
    obtain ⟨hreplies, hle⟩ := h.phase.sent_le_idle hw
    refine ⟨h.killed, .returned hpc rfl hreplies ?_, told_append h.told (told_unavail ..)⟩
    rw [LostServer.returned, List.length_append]
    exact Nat.le_succ_of_le hle
  · cases hs

theorem Inv.readFails (h : Inv s) (hs : step dict s .readFails = some s') : Inv s' := by
  simp only [step] at hs
  split at hs
  · next hc =>
    cases hs
    refine ⟨h.killed, .returned hc.1 rfl rfl ?_, told_append h.told (told_unavail ..)⟩
    rw [LostServer.returned, List.length_append]
    exact h.phase.sent_le
  · cases hs

/-- The results of `write` and `read` that tell `lookup` of the loss. -/
def Action.noticed (a : Action) : Prop := a ≠ .writeKilled ∧ a ≠ .readEof

theorem Inv.step (h : Inv s) {a : Action} (hok : Whole s a) (hn : a.noticed) (hs : LostServer.step dict s a = some s') :
    Inv s' := by
  cases a with
  | dialogue a =>
    cases a with
    | ask => exact h.ask hs
    | clientRead n => exact h.clientRead hok hs
    | hangup => exact h.hangup hs
    | childRead n => exact h.childRead hok hs
    | childEof => exact h.childEof hs
    | childReply => exact h.childReply hs
  | close => exact h.close hs
  | writeFails => exact h.writeFails hs
  | readFails => exact h.readFails hs
  | writeKilled => exact absurd rfl hn.1
  | readEof => exact absurd rfl hn.2

/-! ## When it is not -/

/-- The client was killed, or has taken a text for an answer that never came,
and nothing will be sent any more. -/
def Missed (s : State) : Prop :=
  s.killed = true ∨ s.dialogue.child.pc = .exited ∧
    ∃ k r, s.dialogue.client.past[k]? = some r ∧ s.sent.length ≤ k ∧ r.2.1 ≠ .UNAVAIL

theorem Missed.not_reported (h : Missed s) : ¬ Reported s := by
  intro hreported
  obtain ⟨hkilled, htold⟩ := hreported
  rcases h with h | ⟨-, k, r, hk, hle, hne⟩
  · rw [hkilled] at h
    cases h
  · exact hne ((htold k r hk).1 hle)

/-- What no step takes back. -/
theorem step_grows {a : Action} (hs : step dict s a = some s') : (s.killed = true → s'.killed = true) ∧
    s.dialogue.client.past <+: s'.dialogue.client.past ∧
    (s.dialogue.child.pc = .exited → s'.dialogue.child.pc = .exited ∧ s'.sent = s.sent) := by
  cases a with
  | dialogue a =>
    obtain ⟨d, hd, rfl⟩ := Option.map_eq_some_iff.1 hs
    cases a with
    | ask | clientRead | hangup =>
      simp only [Sock.step] at hd
      split at hd
      · cases hd
        exact ⟨id, by simp, fun h => ⟨h, by simp [logged]⟩⟩
      · cases hd
    | childRead | childReply =>
      simp only [Sock.step] at hd
      split at hd
      · next hc =>
        cases hd
        exact ⟨id, List.prefix_refl _, fun h => by rw [h] at hc; cases hc.1⟩
      · cases hd
    | childEof =>
      simp only [Sock.step] at hd
      split at hd
      · cases hd
        exact ⟨id, List.prefix_refl _, fun h => ⟨rfl, by simp [logged]⟩⟩
      · cases hd
  | close | readFails | readEof =>
    simp only [step] at hs
    split at hs <;> cases hs
    exact ⟨id, by simp [returned], fun h => ⟨by simp_all, rfl⟩⟩
  | writeFails | writeKilled =>
    simp only [step] at hs
    split at hs <;> cases hs
    exact ⟨by simp, by simp [returned], fun h => ⟨by simp_all, rfl⟩⟩

theorem Missed.step (h : Missed s) {a : Action} (hs : LostServer.step dict s a = some s') : Missed s' := by
  obtain ⟨hkilled, hpast, hsent⟩ := step_grows hs
  rcases h with h | ⟨hpc, k, r, hk, hle, hne⟩
  · exact .inl (hkilled h)
  · obtain ⟨hpc', hsent⟩ := hsent hpc
    refine .inr ⟨hpc', k, r, ?_, hsent ▸ hle, hne⟩
    have hlt := (List.getElem?_eq_some_iff.1 hk).1
    obtain ⟨more, hmore⟩ := hpast
    rw [← hmore, List.getElem?_append_left hlt, hk]

theorem result_ne_unavail (text : Buf TEXT) : (Client.result text).1 ≠ .UNAVAIL := by
  unfold Client.result
  split <;> simp

/-- A `read` that returns 0, or a write that kills. -/
theorem Inv.missed (h : Inv s) {a : Action} (hn : ¬ a.noticed) (hs : LostServer.step dict s a = some s') :
    Missed s' := by
  rw [Action.noticed, not_and_or, not_not, not_not] at hn
  rcases hn with rfl | rfl
  · simp only [LostServer.step] at hs
    split at hs <;> cases hs
    exact .inl rfl
  · simp only [LostServer.step] at hs
    split at hs
    · next hc =>
      obtain ⟨hpc, hwaiting, hreplies⟩ := hc
      cases hs
      refine .inr ⟨hpc, s.dialogue.client.past.length, _, List.getElem?_concat_length .., ?_, result_ne_unavail _⟩
      cases h.phase with
      | idle _ _ sent_le | asked _ _ sent_le => exact sent_le
      | received _ _ sent_eq => exact sent_eq.le
      | replied _ t replies => rw [hreplies] at replies; simp at replies
    · cases hs

/-! ## Whole runs -/

theorem reported_of_inv {as : List Action} (h : Inv s) (hrun : exec (step dict) Whole s as = some s') :
    Reported s' ↔ ∀ a ∈ as, a.noticed := by
  have hmissed {as : List Action} {s : State} (h : Missed s) (hrun : exec (step dict) Whole s as = some s') :
      Missed s' :=
    (reach_of_exec hrun).invariant (fun _ _ _ hm _ hs => Missed.step hm hs) h
  induction as generalizing s with
  | nil =>
    cases hrun
    simp [h.reported]
  | cons a as ih =>
    unfold exec at hrun
    split at hrun
    · next hok =>
      obtain ⟨s₁, hs, hrest⟩ := Option.bind_eq_some_iff.1 hrun
      rw [List.forall_mem_cons]
      by_cases hn : a.noticed
      · exact (ih (h.step hok hn hs) hrest).trans (and_iff_right hn).symm
      · exact iff_of_false (hmissed (h.missed hn hs) hrest).not_reported fun hall => hn hall.1
    · cases hrun

/-- In a run in which messages are read whole, every call whose server was lost
returns UNAVAIL and every other that returns FOUND has the text sent for its
word, exactly when no `read` has returned 0 and no `write` has raised SIGPIPE. -/
theorem reported_iff (dict : Dictionary) (text : Buf TEXT) (tryit : Dictrec) (words : List (CStr WORD))
    (as : List Action) (s : State) (hrun : exec (step dict) Whole (.init text tryit words) as = some s) :
    Reported s ↔ ∀ a ∈ as, a ≠ .writeKilled ∧ a ≠ .readEof :=
  reported_of_inv (.init text tryit words) hrun

/-- The word a is found, and then the connection is reset. -/
theorem reported_reset :
    ∃ s, exec (step twoWords) Whole
        (.init (Buf.zero TEXT) Dictrec.blank [⟨[97], by decide, by decide⟩, ⟨[120], by decide, by decide⟩])
        [.dialogue .ask, .dialogue (.childRead 2), .dialogue .childReply, .dialogue (.clientRead 2),
          .dialogue .ask, .close, .readFails] = some s ∧
      s.dialogue.client.past.length = 2 ∧ Reported s := by
  have hrun : (exec (step twoWords) Whole
      (.init (Buf.zero TEXT) Dictrec.blank [⟨[97], by decide, by decide⟩, ⟨[120], by decide, by decide⟩])
      [.dialogue .ask, .dialogue (.childRead 2), .dialogue .childReply, .dialogue (.clientRead 2),
        .dialogue .ask, .close, .readFails]).map (·.dialogue.client.past.length) = some 2 := by
    decide +kernel
  obtain ⟨s, hs, hpast⟩ := Option.map_eq_some_iff.1 hrun
  exact ⟨s, hs, hpast, (reported_iff _ _ _ _ _ _ hs).2 (by decide)⟩

/-- The child ends when it has read the second query: FOUND is returned for it,
with the text of the first. -/
theorem stale_text_found :
    ∃ s, exec (step twoWords) Whole
        (.init (Buf.zero TEXT) Dictrec.blank [⟨[97], by decide, by decide⟩, ⟨[120], by decide, by decide⟩])
        [.dialogue .ask, .dialogue (.childRead 2), .dialogue .childReply, .dialogue (.clientRead 2),
          .dialogue .ask, .dialogue (.childRead 2), .close, .readEof] = some s ∧
      s.dialogue.client.past.map (·.2) = [(.FOUND, some [65]), (.FOUND, some [65])] ∧
      s.sent.map (·.1) = [[97]] ∧ ¬ Reported s := by
  have hrun : (exec (step twoWords) Whole
      (.init (Buf.zero TEXT) Dictrec.blank [⟨[97], by decide, by decide⟩, ⟨[120], by decide, by decide⟩])
      [.dialogue .ask, .dialogue (.childRead 2), .dialogue .childReply, .dialogue (.clientRead 2),
        .dialogue .ask, .dialogue (.childRead 2), .close, .readEof]).map
        (fun s => (s.dialogue.client.past.map (·.2), s.sent.map (·.1))) =
      some ([(.FOUND, some [65]), (.FOUND, some [65])], [[97]]) := by
    decide +kernel
  obtain ⟨s, hs, heq⟩ := Option.map_eq_some_iff.1 hrun
  obtain ⟨hpast, hsent⟩ := Prod.mk.inj heq
  refine ⟨s, hs, hpast, hsent, fun h => ?_⟩
  have hlen : s.sent.length = 1 := by simpa using congrArg List.length hsent
  have hsecond : (s.dialogue.client.past[1]?).map (·.2) = some (.FOUND, some [65]) := by
    rw [← List.getElem?_map, hpast]
    rfl
  obtain ⟨r, hr, hr2⟩ := Option.map_eq_some_iff.1 hsecond
  have hunavail := (h.2 1 r hr).1 hlen.le
  rw [hr2] at hunavail
  cases hunavail

end SysProg.LostServer
