/-
A dialogue over a stream socket: `lookup` of `lookup7.c` (and `lookup8.c`,
whose dialogue is the same), called by one client again and again, and the
child `usock_server.c` (`isock_server.c`) forks for its connection.

The stream is the bytes written and not yet read in either direction. What a
`read` returns of them, some of the first and not more than its buffer holds,
is not the program's choice and so an action's.
-/
import SysProg.Dict
import SysProg.Lib.Lts

namespace SysProg.Sock

/-- The client: between calls of `lookup`, or waiting in `read` for a reply. -/
structure Client where
  waiting : Bool
  /-- `sought->word`. -/
  word : CStr WORD
  /-- `sought->text`, as the calls before have left it. -/
  text : Buf TEXT
  /-- The words still to be asked. -/
  todo : List (CStr WORD)
  /-- The words asked, and what `lookup` returned for each. -/
  past : List (CStr WORD × Status × Option (List Byte))

/-- Where the child is in its dialogue: in `read`, at the request read, or at its end. -/
inductive ChildPc where
  | read
  | lookup
  | exited
  deriving DecidableEq

/-- The child of the server. -/
structure Child where
  pc : ChildPc
  tryit : Dictrec
  /-- The words it has looked up. -/
  looked : List (List Byte)

/-- A connection, with the processes at its ends. -/
structure State where
  client : Client
  child : Child
  /-- Bytes from the client to the child. -/
  requests : List Byte
  /-- Bytes from the child to the client. -/
  replies : List Byte
  /-- The client has ended. -/
  closed : Bool

/-- What can happen next. -/
inductive Action where
  /-- The client writes its next query. -/
  | ask
  /-- The client's `read` returns `n` bytes. -/
  | clientRead (n : Nat)
  /-- The client ends. -/
  | hangup
  /-- The child's `read` returns `n` bytes. -/
  | childRead (n : Nat)
  /-- The child's `read` returns 0, at end of file. -/
  | childEof
  /-- The child looks its word up and writes the answer. -/
  | childReply
  deriving DecidableEq

/-- What the client makes of its text. -/
def Client.result (text : Buf TEXT) : Status × Option (List Byte) :=
  if text.str ≠ XXXX.chars then (.FOUND, some text.str) else (.NOTFOUND, none)

/-- The next state, where the action can happen. -/
def step (dict : Dictionary) (s : State) : Action → Option State
  | .ask =>
    match s.client.waiting, s.client.todo with
    | false, w :: ws => some { s with
        client := { s.client with waiting := true, word := w, todo := ws }
        requests := s.requests ++ (w.chars ++ [NUL]) }
    | _, _ => none
  | .clientRead n =>
    if s.client.waiting ∧ 0 < n ∧ n ≤ TEXT ∧ n ≤ s.replies.length then
      let text := s.client.text.store 0 (s.replies.take n)
      some { s with
        client := { s.client with
          waiting := false, text, past := s.client.past ++ [(s.client.word, Client.result text)] }
        replies := s.replies.drop n }
    else none
  | .hangup => if s.client.waiting = false ∧ s.client.todo = [] then some { s with closed := true } else none
  | .childRead n =>
    if s.child.pc = .read ∧ 0 < n ∧ n ≤ WORD ∧ n ≤ s.requests.length then
      let word := s.child.tryit.word.store 0 (s.requests.take n)
      some { s with
        child := { s.child with pc := .lookup, tryit := { s.child.tryit with word } }
        requests := s.requests.drop n }
    else none
  | .childEof =>
    if s.child.pc = .read ∧ s.closed ∧ s.requests = [] then some { s with child := { s.child with pc := .exited } }
    else none
  | .childReply =>
    -- The string at `tryit.word` runs on into `tryit.text` if the request brought no NUL.
    if s.child.pc = .lookup ∧ NUL ∈ s.child.tryit.flat.bytes then
      let w := cstr s.child.tryit.flat.bytes
      let text := match dict w with
        | some t => s.child.tryit.text.strcpy t.chars
        | none => s.child.tryit.text
      let sent := match dict w with
        | some _ => text.str
        | none => XXXX.chars
      some { s with
        child := ⟨.read, { s.child.tryit with text }, s.child.looked ++ [w]⟩
        replies := s.replies ++ (sent ++ [NUL]) }
    else none

/-- A connection just made, whatever the two records hold. -/
def State.init (text : Buf TEXT) (tryit : Dictrec) (words : List (CStr WORD)) : State where
  client := ⟨false, noWord, text, words, []⟩
  child := ⟨.read, tryit, []⟩
  requests := []
  replies := []
  closed := false

/-- The `n`-th result is that of the `n`-th word, and the child has looked up
the words asked, each once, in their order: one more than have been answered
at most. -/
def Paired (dict : Dictionary) (words : List (CStr WORD)) (s : State) : Prop :=
  ∃ n m, n ≤ m ∧ m ≤ n + 1 ∧ s.client.past = (words.take n).map (fun w => (w, answer dict w)) ∧
    s.child.looked = (words.take m).map (·.chars)

/-- A `read` returns all there is to read. -/
def Whole (s : State) : Action → Prop
  | .clientRead n => n = s.replies.length
  | .childRead n => n = s.requests.length
  | _ => True

instance (s : State) : (a : Action) → Decidable (Whole s a)
  | .clientRead n => inferInstanceAs (Decidable (n = _))
  | .childRead n => inferInstanceAs (Decidable (n = _))
  | .ask | .hangup | .childEof | .childReply => inferInstanceAs (Decidable True)

/-! ## Messages received whole -/

variable {dict : Dictionary}

theorem result_reply {w : CStr WORD} (hx : dict w.chars ≠ some XXXX) (text : Buf TEXT) :
    Client.result (text.strcpy (reply dict w.chars).chars) = answer dict w := by
  rw [Client.result, Buf.strcpy_str, reply, answer]
  cases hd : dict w.chars with
  | none => rfl
  | some t =>
    have ht : t.chars ≠ XXXX.chars := fun he => hx (by rw [hd]; cases t; cases he; rfl)
    simp [ht, outcomeOf]

theorem cstr_flat {w : CStr WORD} (word : Buf WORD) (text : Buf TEXT) :
    cstr (Dictrec.flat ⟨word.strcpy w.chars, text⟩).bytes = w.chars ∧
      NUL ∈ (Dictrec.flat ⟨word.strcpy w.chars, text⟩).bytes := by
  have ht : (word.strcpy w.chars).Terminated := Buf.strcpy_terminated w
  exact ⟨(cstr_append_of_mem ht text.bytes).trans (Buf.strcpy_str w), List.mem_append_left _ ht⟩

/-- The client waits for the answer to word `n`. -/
structure Asked (dict : Dictionary) (words : List (CStr WORD)) (n : Nat) (c : Client) : Prop where
  lt : n < words.length
  word : c.word = words[n]
  todo : c.todo = words.drop (n + 1)
  waiting : c.waiting = true
  past : c.past = (words.take n).map fun w => (w, answer dict w)

/-- The dialogue goes round: nothing asked, a query on its way, read by the
child, its reply on its way back. -/
inductive Round (dict : Dictionary) (words : List (CStr WORD)) (s : State) : Prop
  | idle {n} (todo : s.client.todo = words.drop n) (waiting : s.client.waiting = false)
      (past : s.client.past = (words.take n).map fun w => (w, answer dict w))
      (requests : s.requests = []) (replies : s.replies = []) (pc : s.child.pc ≠ .lookup)
      (looked : s.child.looked = (words.take n).map (·.chars))
  | asked {n} (client : Asked dict words n s.client) (requests : s.requests = s.client.word.chars ++ [NUL])
      (replies : s.replies = []) (pc : s.child.pc ≠ .lookup) (looked : s.child.looked = (words.take n).map (·.chars))
  | received {n} (client : Asked dict words n s.client) (requests : s.requests = []) (replies : s.replies = [])
      (pc : s.child.pc = .lookup) (tryit : ∃ b : Buf WORD, s.child.tryit.word = b.strcpy s.client.word.chars)
      (looked : s.child.looked = (words.take n).map (·.chars))
  | replied {n} (client : Asked dict words n s.client) (requests : s.requests = [])
      (replies : s.replies = (reply dict s.client.word.chars).chars ++ [NUL]) (pc : s.child.pc ≠ .lookup)
      (looked : s.child.looked = (words.take (n + 1)).map (·.chars))

theorem Round.paired {words : List (CStr WORD)} {s : State} (h : Round dict words s) :
    Paired dict words s := by
  cases h with
  | @idle n _ _ past _ _ _ looked => exact ⟨n, n, le_rfl, Nat.le_succ n, past, looked⟩
  | @asked n client _ _ _ looked => exact ⟨n, n, le_rfl, Nat.le_succ n, client.past, looked⟩
  | @received n client _ _ _ _ looked => exact ⟨n, n, le_rfl, Nat.le_succ n, client.past, looked⟩
  | @replied n client _ _ _ looked => exact ⟨n, n + 1, Nat.le_succ n, le_rfl, client.past, looked⟩

section

variable {words : List (CStr WORD)} {s s' : State}

theorem Round.ask (h : Round dict words s) (hs : step dict s .ask = some s') :
    Round dict words s' := by
  simp only [step] at hs
  split at hs
  · next w ws waiting todo =>
    cases hs
    cases h with
    | @idle n todo' _ past requests replies pc looked =>
      have hlt : n < words.length := by
        by_contra hge
        rw [todo, List.drop_eq_nil_of_le (by omega)] at todo'
        cases todo'
      rw [todo, List.drop_eq_getElem_cons hlt, List.cons.injEq] at todo'
      exact .asked ⟨hlt, todo'.1, todo'.2, rfl, past⟩ (by rw [requests]; rfl) replies pc looked
    | asked client | received client | replied client => rw [client.waiting] at waiting; cases waiting
  · cases hs

theorem Round.clientRead (hx : ∀ w ∈ words, dict w.chars ≠ some XXXX) (h : Round dict words s)
    {n : Nat} (hn : n = s.replies.length) (hs : step dict s (.clientRead n) = some s') :
    Round dict words s' := by
  simp only [step] at hs
  split at hs
  · next hc =>
    obtain ⟨waiting, hpos, -, -⟩ := hc
    cases hs
    cases h with
    | idle _ waiting' => rw [waiting'] at waiting; cases waiting
    | asked _ _ replies | received _ _ replies => rw [hn, replies] at hpos; cases hpos
    | @replied m client requests replies pc looked =>
      have hm : s.client.word ∈ words := client.word ▸ List.getElem_mem client.lt
      refine .idle (n := m + 1) client.todo rfl ?_ requests (by rw [hn, List.drop_length]) pc looked
      rw [hn, List.take_length, replies, List.take_add_one, List.getElem?_eq_getElem client.lt, List.map_append,
        client.past, ← client.word]
      have := result_reply (hx _ hm) s.client.text
      rw [Buf.strcpy] at this
      rw [this]
      rfl
  · cases hs

theorem Round.childRead (h : Round dict words s) {n : Nat} (hn : n = s.requests.length)
    (hs : step dict s (.childRead n) = some s') : Round dict words s' := by
  simp only [step] at hs
  split at hs
  · next hc =>
    obtain ⟨pc, hpos, -, -⟩ := hc
    cases hs
    cases h with
    | idle _ _ _ requests | received _ requests | replied _ requests => rw [hn, requests] at hpos; cases hpos
    | asked client requests replies pc' looked =>
      refine .received client (by rw [hn, List.drop_length]) replies rfl ⟨s.child.tryit.word, ?_⟩ looked
      rw [hn, List.take_length, requests]
      rfl
  · cases hs

theorem Round.childReply (h : Round dict words s) (hs : step dict s .childReply = some s') :
    Round dict words s' := by
  simp only [step] at hs
  split at hs
  · next hc =>
    cases h with
    | idle _ _ _ _ _ pc | asked _ _ _ pc | replied _ _ _ pc => exact absurd hc.1 pc
    | @received m client requests replies pc tryit looked =>
      obtain ⟨b, hb⟩ := tryit
      have hw : cstr s.child.tryit.flat.bytes = s.client.word.chars := by
        have := (cstr_flat (w := s.client.word) b s.child.tryit.text).1
        rwa [← hb] at this
      rw [hw] at hs
      cases hs
      refine .replied client requests ?_ (by simp) ?_
      · rw [replies, reply]
        cases hd : dict s.client.word.chars with
        | none => rfl
        | some t => simp only [Buf.strcpy_str]; rfl
      · rw [looked, List.take_add_one, List.getElem?_eq_getElem client.lt, List.map_append, client.word]
        rfl
  · cases hs

/-- A step that reads a message whole, if it reads, keeps the round. -/
theorem Round.step (hx : ∀ w ∈ words, dict w.chars ≠ some XXXX) (h : Round dict words s)
    {a : Action} (hok : Whole s a) (hs : Sock.step dict s a = some s') : Round dict words s' := by
  cases a with
  | ask => exact h.ask hs
  | clientRead n => exact h.clientRead hx hok hs
  | childRead n => exact h.childRead hok hs
  | childReply => exact h.childReply hs
  | hangup =>
    simp only [Sock.step] at hs
    split at hs
    · cases hs
      cases h with
      | idle todo waiting past requests replies pc looked => exact .idle todo waiting past requests replies pc looked
      | asked client requests replies pc looked => exact .asked client requests replies pc looked
      | received client requests replies pc tryit looked => exact .received client requests replies pc tryit looked
      | replied client requests replies pc looked => exact .replied client requests replies pc looked
    · cases hs
  | childEof =>
    simp only [Sock.step] at hs
    split at hs
    · next hc =>
      cases hs
      cases h with
      | idle todo waiting past requests replies pc looked =>
        exact .idle todo waiting past requests replies (by simp) looked
      | asked client requests => rw [requests] at hc; simp at hc
      | received _ _ _ pc => rw [pc] at hc; cases hc.1
      | replied client requests replies pc looked => exact .replied client requests replies (by simp) looked
    · cases hs

end

/-- As long as every `read` returns a message whole, every query is looked up
once and every result is that of its own word. -/
theorem paired_of_whole (text : Buf TEXT) (tryit : Dictrec) (words : List (CStr WORD))
    (hx : ∀ w ∈ words, dict w.chars ≠ some XXXX) {s : State}
    (h : Reach (step dict) Whole (.init text tryit words) s) : Paired dict words s :=
  (h.invariant (fun _ _ _ hi hok hs => Round.step hx hi hok hs)
    (.idle (n := 0) rfl rfl rfl rfl rfl (by simp [State.init]) rfl)).paired

/-- Two queries, each message read whole. -/
theorem paired_of_whole_two :
    ∃ s, exec (step twoWords) Whole
        (.init (Buf.zero TEXT) Dictrec.blank [⟨[97], by decide, by decide⟩, ⟨[120], by decide, by decide⟩])
        [.ask, .childRead 2, .childReply, .clientRead 2, .ask, .childRead 2, .childReply, .clientRead 5] = some s ∧
      s.client.past.length = 2 ∧
      Paired twoWords [⟨[97], by decide, by decide⟩, ⟨[120], by decide, by decide⟩] s := by
  have hrun : (exec (step twoWords) Whole
      (.init (Buf.zero TEXT) Dictrec.blank [⟨[97], by decide, by decide⟩, ⟨[120], by decide, by decide⟩])
      [.ask, .childRead 2, .childReply, .clientRead 2, .ask, .childRead 2, .childReply, .clientRead 5]).map
        (·.client.past.length) = some 2 := by
    decide +kernel
  obtain ⟨s, hs, hpast⟩ := Option.map_eq_some_iff.1 hrun
  exact ⟨s, hs, hpast, paired_of_whole _ _ _ (by decide +kernel) (reach_of_exec hs)⟩

/-- A query for ab, of which the child's `read` returns the a alone: it looks
that up, and the client takes its text for that of ab. -/
theorem split_query_not_paired :
    ¬ ∀ s, Reach (step twoWords) anyStep (.init (Buf.zero TEXT) Dictrec.blank [⟨[97, 98], by decide, by decide⟩]) s →
      Paired twoWords [⟨[97, 98], by decide, by decide⟩] s := by
  have hrun : (exec (step twoWords) anyStep
      (.init (Buf.zero TEXT) Dictrec.blank [⟨[97, 98], by decide, by decide⟩])
      [.ask, .childRead 1, .childReply, .clientRead 2]).map (fun s => s.client.past.map (·.2)) =
        some [(.FOUND, some [65])] := by
    decide +kernel
  obtain ⟨s, hs, hpast⟩ := Option.map_eq_some_iff.1 hrun
  intro h
  obtain ⟨n, m, -, -, hn, -⟩ := h s (reach_of_exec hs)
  rw [hn, List.map_map] at hpast
  have hab : answer twoWords ⟨[97, 98], by decide, by decide⟩ = (.NOTFOUND, none) := by decide +kernel
  cases n with
  | zero => cases hpast
  | succ n => simp [hab] at hpast

end SysProg.Sock
