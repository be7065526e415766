/-
The loops of `usock_server.c` (and of `isock_server.c`, the same), in the
child forked for a connection, and of `udp_server.c`: what is received goes
into one record again and again, and no NUL is put after it; and a `read`
that fails is as good as one that brings something.

What a `lookup` returns and leaves in the record is not followed here: a turn
of the loop takes both from its surroundings, as it does what the calls for
the network come to.
-/
import SysProg.Dict

namespace SysProg.Dialogue

/-- Bytes received with room for `WORD`: none at end of file, or for an empty
datagram. -/
structure Packet where
  bytes : List Byte
  fits : bytes.length ≤ WORD
  deriving DecidableEq

/-- How a `write` ends. -/
inductive Wrote where
  | done
  | fails
  /-- It raises SIGPIPE. -/
  | killed
  deriving DecidableEq

/-- What one turn of a loop meets. -/
structure Turn where
  /-- What is received, `none` for -1. -/
  received : Option Packet
  /-- What `lookup` returns, and the record after it. -/
  status : Status
  got : Dictrec
  wrote : Wrote

/-- A call of `lookup`: what was received before it, and the record passed. -/
structure Lookup where
  received : Option Packet
  asked : Dictrec
  deriving DecidableEq

/-- How a process ends. -/
inductive Ending where
  | exit (status : Nat)
  | sigpipe
  deriving DecidableEq

/-- The record after a `read` or `recvfrom` to `tryit.word`. -/
def receive (tryit : Dictrec) : Option Packet → Dictrec
  | some p => { tryit with word := tryit.word.store 0 p.bytes }
  | none => tryit

/-- The child's dialogue, as far as these turns: its calls of `lookup`, and
how it ends, if it does. -/
def dialogue : Dictrec → List Turn → List Lookup × Option Ending
  | _, [] => ([], none)
  | tryit, t :: ts =>
    -- `while (read(cd,tryit.word,WORD))`: -1 is true.
    if t.received.map (·.bytes) = some [] then ([], some (.exit 0))
    else
      let call : Lookup := ⟨t.received, receive tryit t.received⟩
      match t.status, t.wrote with
      | .UNAVAIL, _ => ([call], some (.exit 1))
      | .FOUND, .killed | .NOTFOUND, .killed => ([call], some .sigpipe)
      | .FOUND, _ | .NOTFOUND, _ => let (calls, ending) := dialogue t.got ts; (call :: calls, ending)

/-- The child of `usock_server` over a connection. -/
def usock_server : Dictrec → List Turn → List Lookup × Option Ending := dialogue

/-- The child of `isock_server` over a connection. -/
def isock_server : Dictrec → List Turn → List Lookup × Option Ending := dialogue

/-- The server's loop. A datagram that is not received is passed over, and
none that is sent raises a signal. -/
def udp_server : Dictrec → List Turn → List Lookup × Option Ending
  | _, [] => ([], none)
  | tryit, t :: ts =>
    match t.received with
    | none => udp_server tryit ts
    | some p =>
      let call : Lookup := ⟨some p, receive tryit (some p)⟩
      if t.status = .UNAVAIL then ([call], some (.exit 1))
      else let (calls, ending) := udp_server t.got ts; (call :: calls, ending)

/-! ## The words looked up -/

/-- A word is passed that ends in its field, and it is the one that would be
passed whatever the record held before. -/
def Lookup.Proper (l : Lookup) : Prop :=
  l.asked.word.Terminated ∧ ∀ tryit, (receive tryit l.received).word.str = l.asked.word.str

/-- What was received had a NUL. -/
def Lookup.Ended (l : Lookup) : Prop := ∃ p ∈ l.received, NUL ∈ p.bytes

theorem store_start {b : Buf WORD} (p : Packet) :
    (b.store 0 p.bytes).bytes = p.bytes ++ b.bytes.drop p.bytes.length := by
  rw [Buf.store_bytes (by simpa using p.fits), List.take_zero, List.nil_append, Nat.zero_add]

theorem receive_ended {p : Packet} (h : NUL ∈ p.bytes) (tryit : Dictrec) :
    (receive tryit (some p)).word.Terminated ∧ (receive tryit (some p)).word.str = cstr p.bytes := by
  refine ⟨?_, ?_⟩
  · rw [Buf.Terminated, receive, store_start]
    exact List.mem_append_left _ h
  · rw [Buf.str, receive, store_start, cstr_append_of_mem h]

/-- Of what is received without one the record makes different words. -/
theorem receive_not_ended {r : Option Packet} (h : ¬ ∃ p ∈ r, NUL ∈ p.bytes) {tryit : Dictrec}
    (hterm : (receive tryit r).word.Terminated) :
    ∃ tryit', (receive tryit' r).word.str ≠ (receive tryit r).word.str := by
  -- the rest of the field filled with a byte that is no NUL
  let full : Dictrec := ⟨⟨List.replicate WORD 97, List.length_replicate⟩, Buf.zero TEXT⟩
  refine ⟨full, fun he => ?_⟩
  have hfull : NUL ∉ (receive full r).word.bytes := by
    cases r with
    | none => decide
    | some p =>
      rw [receive, store_start, List.mem_append, not_or]
      refine ⟨fun hp => h ⟨p, rfl, hp⟩, fun hm => ?_⟩
      exact absurd (List.eq_of_mem_replicate (List.mem_of_mem_drop hm)) (by decide)
  have hlen : (receive full r).word.str.length = WORD := by
    rw [Buf.str, cstr_of_not_mem hfull, Buf.size]
  rw [he] at hlen
  exact absurd (Buf.length_str_lt hterm) (by rw [hlen]; exact lt_irrefl _)

theorem proper_iff {l : Lookup} {tryit : Dictrec} (h : l.asked = receive tryit l.received) : l.Proper ↔ l.Ended := by
  constructor
  · intro hproper
    obtain ⟨hterm, hsame⟩ := hproper
    by_contra hn
    rw [h] at hterm hsame
    obtain ⟨tryit', hne⟩ := receive_not_ended hn hterm
    exact hne (hsame tryit')
  · intro hended
    obtain ⟨p, hp, hnul⟩ := hended
    rw [Lookup.Proper, h, Option.mem_def.1 hp]
    obtain ⟨hterm, hword⟩ := receive_ended hnul tryit
    exact ⟨hterm, fun tryit' => (receive_ended hnul tryit').2.trans hword.symm⟩

theorem dialogue_asked (tryit : Dictrec) (ts : List Turn) :
    ∀ l ∈ (dialogue tryit ts).1, ∃ before, l.asked = receive before l.received := by
  induction ts generalizing tryit with
  | nil => simp [dialogue]
  | cons t ts ih =>
    unfold dialogue
    split
    · simp
    · dsimp only
      split
      case h_1 | h_2 | h_3 => exact List.forall_mem_singleton.2 ⟨tryit, rfl⟩
      all_goals exact List.forall_mem_cons.2 ⟨⟨tryit, rfl⟩, ih t.got⟩

theorem udp_asked (tryit : Dictrec) (ts : List Turn) :
    ∀ l ∈ (udp_server tryit ts).1, ∃ before, l.asked = receive before l.received := by
  induction ts generalizing tryit with
  | nil => simp [udp_server]
  | cons t ts ih =>
    unfold udp_server
    split
    · exact ih tryit
    · dsimp only
      split
      · exact List.forall_mem_singleton.2 ⟨tryit, rfl⟩
      · exact List.forall_mem_cons.2 ⟨⟨tryit, rfl⟩, ih t.got⟩

theorem all_proper_iff {calls : List Lookup} (h : ∀ l ∈ calls, ∃ before, l.asked = receive before l.received) :
    (∀ l ∈ calls, l.Proper) ↔ ∀ l ∈ calls, l.Ended := by
  refine forall₂_congr fun l hl => ?_
  obtain ⟨before, hb⟩ := h l hl
  exact proper_iff hb

/-- In every history the words that a server looks up end in their field and
are those of their requests alone exactly when each request had a NUL. -/
theorem words_proper_iff (tryit : Dictrec) (ts : List Turn) :
    ((∀ l ∈ (usock_server tryit ts).1, l.Proper) ↔ ∀ l ∈ (usock_server tryit ts).1, l.Ended) ∧
    ((∀ l ∈ (isock_server tryit ts).1, l.Proper) ↔ ∀ l ∈ (isock_server tryit ts).1, l.Ended) ∧
    ((∀ l ∈ (udp_server tryit ts).1, l.Proper) ↔ ∀ l ∈ (udp_server tryit ts).1, l.Ended) :=
  ⟨all_proper_iff (dialogue_asked tryit ts), all_proper_iff (dialogue_asked tryit ts),
    all_proper_iff (udp_asked tryit ts)⟩

/-- A request abc with its NUL, and then one x without. Nothing is found. -/
def shortRequest : List Turn :=
  let abc : Packet := ⟨[97, 98, 99, NUL], by decide⟩
  [⟨some abc, .NOTFOUND, receive Dictrec.blank (some abc), .done⟩,
    ⟨some ⟨[120], by decide⟩, .NOTFOUND, Dictrec.blank, .done⟩]

/-- The second word looked up is xbc. -/
theorem shortRequest_stale :
    (usock_server Dictrec.blank shortRequest).1.map (·.asked.word.str) = [[97, 98, 99], [120, 98, 99]] ∧
    (¬ ∀ l ∈ (usock_server Dictrec.blank shortRequest).1, l.Proper) ∧
    (¬ ∀ l ∈ (isock_server Dictrec.blank shortRequest).1, l.Proper) ∧
    (¬ ∀ l ∈ (udp_server Dictrec.blank shortRequest).1, l.Proper) := by
  have hstream : ¬ ∀ l ∈ (dialogue Dictrec.blank shortRequest).1, l.Proper := by
    intro h
    have hlast := (h (dialogue Dictrec.blank shortRequest).1[1] (by decide +kernel)).2 Dictrec.blank
    revert hlast
    decide +kernel
  have hudp : ¬ ∀ l ∈ (udp_server Dictrec.blank shortRequest).1, l.Proper := by
    intro h
    have hlast := (h (udp_server Dictrec.blank shortRequest).1[1] (by decide +kernel)).2 Dictrec.blank
    revert hlast
    decide +kernel
  exact ⟨by decide +kernel, hstream, hstream, hudp⟩

/-! ## The end of a dialogue -/

/-- The dialogue does not go on after this turn. -/
def Turn.Last (t : Turn) : Prop :=
  t.received.map (·.bytes) = some [] ∨ t.status = .UNAVAIL ∨ t.wrote = .killed

theorem dialogue_last {t : Turn} (h : t.Last) (tryit : Dictrec) :
    ∃ calls e, ∀ ts, dialogue tryit (t :: ts) = (calls, some e) := by
  by_cases heof : t.received.map (·.bytes) = some []
  · exact ⟨[], .exit 0, fun ts => by rw [dialogue, if_pos heof]⟩
  · rcases h with h | h | h
    · exact absurd h heof
    · exact ⟨[⟨t.received, receive tryit t.received⟩], .exit 1, fun ts => by rw [dialogue, if_neg heof, h]⟩
    · cases hs : t.status with
      | FOUND | NOTFOUND =>
        exact ⟨[⟨t.received, receive tryit t.received⟩], .sigpipe, fun ts => by rw [dialogue, if_neg heof, hs, h]⟩
      | UNAVAIL =>
        exact ⟨[⟨t.received, receive tryit t.received⟩], .exit 1, fun ts => by rw [dialogue, if_neg heof, hs]⟩

theorem dialogue_goes_on {t : Turn} (h : ¬ t.Last) (tryit : Dictrec) (ts : List Turn) :
    dialogue tryit (t :: ts) =
      (⟨t.received, receive tryit t.received⟩ :: (dialogue t.got ts).1, (dialogue t.got ts).2) := by
  rw [Turn.Last, not_or, not_or] at h
  obtain ⟨heof, hs, hw⟩ := h
  rw [dialogue, if_neg heof]
  cases hst : t.status with
  | FOUND | NOTFOUND => cases hwr : t.wrote <;> first | rfl | exact absurd hwr hw
  | UNAVAIL => exact absurd hst hs

theorem dialogue_ends_iff (tryit : Dictrec) (ts : List Turn) :
    (dialogue tryit ts).2.isSome ↔ ∃ t ∈ ts, t.Last := by
  induction ts generalizing tryit with
  | nil => simp [dialogue]
  | cons t ts ih =>
    simp only [List.mem_cons, exists_eq_or_imp]
    by_cases h : t.Last
    · obtain ⟨calls, e, hall⟩ := dialogue_last h tryit
      rw [hall ts]
      exact iff_of_true rfl (.inl h)
    · rw [dialogue_goes_on h, or_iff_right h]
      exact ih t.got

theorem dialogue_length {tryit : Dictrec} {ts : List Turn} (h : ∀ t ∈ ts, ¬ t.Last) :
    (dialogue tryit ts).1.length = ts.length := by
  induction ts generalizing tryit with
  | nil => rfl
  | cons t ts ih =>
    obtain ⟨hgo, hts⟩ := List.forall_mem_cons.1 h
    rw [dialogue_goes_on hgo, List.length_cons, List.length_cons, ih hts]

theorem dialogue_append {tryit : Dictrec} {ts : List Turn} (h : (dialogue tryit ts).2.isSome) (more : List Turn) :
    dialogue tryit (ts ++ more) = dialogue tryit ts := by
  induction ts generalizing tryit with
  | nil => cases h
  | cons t ts ih =>
    rw [List.cons_append]
    by_cases hlast : t.Last
    · obtain ⟨calls, e, hall⟩ := dialogue_last hlast tryit
      rw [hall, hall]
    · rw [dialogue_goes_on hlast] at h ⊢
      rw [dialogue_goes_on hlast, ih h]

/-- What `read` returns on a connection, up to end of file or to an error that stays. -/
structure Connection where
  reads : Nat → Option Packet
  ending : (∃ n, (reads n).map (·.bytes) = some []) ∨ ∃ n, ∀ i ≥ n, reads i = none

/-- The turns in which it meets these outcomes of `lookup` and `write`. -/
def Connection.turns (c : Connection) (status : Nat → Status) (got : Nat → Dictrec) (wrote : Nat → Wrote) (n : Nat) :
    List Turn := (List.range n).map fun i => ⟨c.reads i, status i, got i, wrote i⟩

/-- The process ends, after finitely many calls of `lookup`. -/
def Finishes (process : List Turn → List Lookup × Option Ending) (turns : Nat → List Turn) : Prop :=
  ∃ n calls e, ∀ m ≥ n, process (turns m) = (calls, some e)

theorem finishes_iff_last (tryit : Dictrec) (c : Connection) (status : Nat → Status) (got : Nat → Dictrec)
    (wrote : Nat → Wrote) : Finishes (dialogue tryit) (c.turns status got wrote) ↔
      ∃ i, Turn.Last ⟨c.reads i, status i, got i, wrote i⟩ := by
  constructor
  · intro hfinishes
    obtain ⟨n, calls, e, hall⟩ := hfinishes
    have hends : (dialogue tryit (c.turns status got wrote n)).2.isSome := by rw [hall n le_rfl]; rfl
    obtain ⟨t, ht, hlast⟩ := (dialogue_ends_iff _ _).1 hends
    obtain ⟨i, -, rfl⟩ := List.mem_map.1 ht
    exact ⟨i, hlast⟩
  · intro hexists
    obtain ⟨i, hlast⟩ := hexists
    have hends : (dialogue tryit (c.turns status got wrote (i + 1))).2.isSome :=
      (dialogue_ends_iff _ _).2 ⟨_, List.mem_map_of_mem (List.mem_range.2 (Nat.lt_succ_self i)), hlast⟩
    obtain ⟨e, he⟩ := Option.isSome_iff_exists.1 hends
    refine ⟨i + 1, (dialogue tryit (c.turns status got wrote (i + 1))).1, e, fun m hm => ?_⟩
    obtain ⟨k, rfl⟩ := Nat.exists_eq_add_of_le hm
    have hmore : c.turns status got wrote (i + 1 + k) = c.turns status got wrote (i + 1) ++
        (List.range k).map fun j => ⟨c.reads (i + 1 + j), status (i + 1 + j), got (i + 1 + j), wrote (i + 1 + j)⟩ := by
      rw [Connection.turns, List.range_add, List.map_append, List.map_map]
      rfl
    rw [hmore, dialogue_append hends, ← he]

/-- The child of either server ends exactly when its connection comes to end
of file, or else when a `lookup` returns UNAVAIL or a `write` kills it. -/
theorem finishes_iff (tryit : Dictrec) (c : Connection) (status : Nat → Status) (got : Nat → Dictrec)
    (wrote : Nat → Wrote) :
    (Finishes (usock_server tryit) (c.turns status got wrote) ↔
      (∃ n, (c.reads n).map (·.bytes) = some []) ∨ ∃ i, status i = .UNAVAIL ∨ wrote i = .killed) ∧
    (Finishes (isock_server tryit) (c.turns status got wrote) ↔
      (∃ n, (c.reads n).map (·.bytes) = some []) ∨ ∃ i, status i = .UNAVAIL ∨ wrote i = .killed) := by
  rw [← exists_or]
  exact ⟨finishes_iff_last tryit c status got wrote, finishes_iff_last tryit c status got wrote⟩

/-- The descriptor of a failed `accept`: every `read` fails. -/
def refused : Connection := ⟨fun _ => none, .inr ⟨0, fun _ _ => rfl⟩⟩

/-- The child of one looks up whatever is in its record for ever. -/
theorem refused_never_finishes :
    (∀ n, (usock_server Dictrec.blank (refused.turns (fun _ => .NOTFOUND) (fun _ => Dictrec.blank)
      (fun _ => .fails) n)).1.length = n) ∧
    ¬ Finishes (usock_server Dictrec.blank)
      (refused.turns (fun _ => .NOTFOUND) (fun _ => Dictrec.blank) (fun _ => .fails)) ∧
    ¬ Finishes (isock_server Dictrec.blank)
      (refused.turns (fun _ => .NOTFOUND) (fun _ => Dictrec.blank) (fun _ => .fails)) := by
  have hgo : ¬ Turn.Last ⟨none, .NOTFOUND, Dictrec.blank, .fails⟩ := by simp [Turn.Last]
  have hnever : ¬ Finishes (dialogue Dictrec.blank)
      (refused.turns (fun _ => .NOTFOUND) (fun _ => Dictrec.blank) (fun _ => .fails)) := by
    rw [finishes_iff_last]
    intro hexists
    obtain ⟨i, hlast⟩ := hexists
    exact hgo hlast
  refine ⟨fun n => ?_, hnever, hnever⟩
  have hturns : ∀ t ∈ refused.turns (fun _ => .NOTFOUND) (fun _ => Dictrec.blank) (fun _ => .fails) n, ¬ t.Last := by
    intro t ht
    obtain ⟨i, -, rfl⟩ := List.mem_map.1 ht
    exact hgo
  rw [usock_server, dialogue_length hturns, Connection.turns, List.length_map, List.length_range]

end SysProg.Dialogue
