/-
The result of a server's `lookup` as a message: what `msgq_server.c`,
`usock_server.c`, `isock_server.c` and `udp_server.c` send for it, what
`shm_server.c` leaves in the shared text, and what `lookup4.c` and
`lookup6.c` to `lookup9.c` make of that.
-/
import SysProg.Dict

namespace SysProg

/-- What a server's `lookup` comes to: FOUND with a terminated text in the
record, or NOTFOUND with whatever the record's text was. -/
structure Result where
  status : Status
  tryit : Dictrec
  available : status ≠ .UNAVAIL
  terminated : status = .FOUND → tryit.text.Terminated

/-- What a caller of `lookup` sees of it: the status, and the text of its
record when there is one. -/
def seen (r : Status × Dictrec) : Status × Option (List Byte) :=
  (r.1, if r.1 = .FOUND then some r.2.text.str else none)

/-- What a caller can tell of the result. -/
def Result.seen (r : Result) : Status × Option (List Byte) := SysProg.seen (r.status, r.tryit)

namespace Encoding

/-! ## The servers -/

/-- A server on a socket sends the text up to its NUL, or XXXX. -/
def socketReply (r : Result) : List Byte :=
  if r.status = .FOUND then r.tryit.text.bytes.take (r.tryit.text.str.length + 1) else XXXX.chars ++ [NUL]

/-- What `usock_server` writes for a result. -/
def usock_server (r : Result) : List Byte := socketReply r

/-- What `isock_server` writes for a result. -/
def isock_server (r : Result) : List Byte := socketReply r

/-- What `udp_server` sends for a result. -/
def udp_server (r : Result) : List Byte := socketReply r

/-- `snd.text` is copied to first, and sent up to its NUL. -/
def msgq_server (snd : Buf TEXT) (r : Result) : List Byte :=
  let text := snd.strcpy (if r.status = .FOUND then r.tryit.text.str else XXXX.chars)
  text.bytes.take (text.str.length + 1)

/-- The record looked up is the shared one: its `lookup` has written the text
there, and XXXX is copied over it. -/
def shm_server (r : Result) : Buf TEXT :=
  if r.status = .FOUND then r.tryit.text else r.tryit.text.strcpy XXXX.chars

/-! ## The clients -/

/-- XXXX is how a server says that there is no text. -/
def status (text : Buf TEXT) : Status := if strcmp text.str XXXX.chars ≠ .eq then .FOUND else .NOTFOUND

/-- A client on a socket reads the message to its record. -/
def socketLookup (received : List Byte) (sought : Dictrec) : Status × Dictrec :=
  let text := sought.text.store 0 received
  (status text, { sought with text })

/-- What `lookup7` makes of the bytes it has read. -/
def lookup7 (received : List Byte) (sought : Dictrec) : Status × Dictrec := socketLookup received sought

/-- What `lookup8` makes of the bytes it has read. -/
def lookup8 (received : List Byte) (sought : Dictrec) : Status × Dictrec := socketLookup received sought

/-- What `lookup9` makes of the bytes it has received. -/
def lookup9 (received : List Byte) (sought : Dictrec) : Status × Dictrec := socketLookup received sought

/-- The message is read to `rcv`, and its text copied from there. -/
def lookup4 (rcv : Buf TEXT) (received : List Byte) (sought : Dictrec) : Status × Dictrec :=
  let text := rcv.store 0 received
  (status text, { sought with text := sought.text.strcpy text.str })

/-- The text is copied from the shared record when it is not XXXX. -/
def lookup6 (shm : Buf TEXT) (sought : Dictrec) : Status × Dictrec :=
  (status shm, if status shm = .FOUND then { sought with text := sought.text.strcpy shm.str } else sought)

/-! ## From one to the other -/

/-- The text a server answers with. -/
def text (r : Result) : CStr TEXT :=
  if h : r.status = .FOUND then r.tryit.text.toCStr (r.terminated h) else XXXX

theorem text_found {r : Result} (h : r.status = .FOUND) : (text r).chars = r.tryit.text.str := by
  rw [text, dif_pos h, Buf.toCStr_chars]

theorem text_notFound {r : Result} (h : r.status ≠ .FOUND) : text r = XXXX := by rw [text, dif_neg h]

theorem socketReply_eq (r : Result) : socketReply r = (text r).chars ++ [NUL] := by
  by_cases h : r.status = .FOUND
  · rw [socketReply, if_pos h, text_found h, Buf.take_str_nul (r.terminated h)]
  · rw [socketReply, if_neg h, text_notFound h]

theorem msgq_server_eq (snd : Buf TEXT) (r : Result) : msgq_server snd r = (text r).chars ++ [NUL] := by
  have hcopied : (if r.status = .FOUND then r.tryit.text.str else XXXX.chars) = (text r).chars := by
    by_cases h : r.status = .FOUND
    · rw [if_pos h, text_found h]
    · rw [if_neg h, text_notFound h]
  have htake := Buf.take_str_nul (Buf.strcpy_terminated (b := snd) (text r))
  rw [Buf.strcpy_str] at htake
  simp only [msgq_server, hcopied, Buf.strcpy_str, htake]

theorem shm_server_str (r : Result) : (shm_server r).str = (text r).chars := by
  by_cases h : r.status = .FOUND
  · rw [shm_server, if_pos h, text_found h]
  · rw [shm_server, if_neg h, text_notFound h, Buf.strcpy_str]

/-- What a client sees of a text. -/
def decoded (t : CStr TEXT) : Status × Option (List Byte) :=
  if t = XXXX then (.NOTFOUND, none) else (.FOUND, some t.chars)

theorem seen_of_str {b : Buf TEXT} {t : CStr TEXT} {got : Dictrec} (h : b.str = t.chars)
    (hg : t ≠ XXXX → got.text.str = t.chars) : seen (status b, got) = decoded t := by
  by_cases ht : t = XXXX
  · have hs : status b = .NOTFOUND := by simp [status, h, ht, strcmp_eq]
    simp [seen, hs, decoded, ht]
  · have hs : status b = .FOUND := by simp [status, h, strcmp_eq, CStr.chars_inj, ht]
    simp [seen, hs, decoded, ht, hg ht]

theorem socketLookup_seen (t : CStr TEXT) (sought : Dictrec) :
    seen (socketLookup (t.chars ++ [NUL]) sought) = decoded t := by
  have h : (sought.text.store 0 (t.chars ++ [NUL])).str = t.chars := Buf.strcpy_str t
  exact seen_of_str h fun _ => h

theorem lookup4_seen (rcv : Buf TEXT) (t : CStr TEXT) (sought : Dictrec) :
    seen (lookup4 rcv (t.chars ++ [NUL]) sought) = decoded t := by
  have h : (rcv.store 0 (t.chars ++ [NUL])).str = t.chars := Buf.strcpy_str t
  refine seen_of_str h fun _ => ?_
  show (sought.text.strcpy (rcv.store 0 (t.chars ++ [NUL])).str).str = t.chars
  rw [h, Buf.strcpy_str]

theorem lookup6_seen {shm : Buf TEXT} {t : CStr TEXT} (h : shm.str = t.chars) (sought : Dictrec) :
    seen (lookup6 shm sought) = decoded t := by
  refine seen_of_str h fun ht => ?_
  have hs : status shm = .FOUND := by simp [status, h, strcmp_eq, CStr.chars_inj, ht]
  simp only [hs, if_true, h, Buf.strcpy_str]

theorem decoded_iff (r : Result) : decoded (text r) = r.seen ↔ r.seen ≠ (.FOUND, some XXXX.chars) := by
  by_cases h : r.status = .FOUND
  · have hchars := text_found h
    have hseen : r.seen = (.FOUND, some (text r).chars) := by rw [Result.seen, seen, if_pos h, h, hchars]
    rw [hseen]
    by_cases ht : text r = XXXX
    · simp [decoded, ht]
    · simp [decoded, ht, CStr.chars_inj]
  · have hseen : r.seen = (.NOTFOUND, none) := by
      have hs : r.status = .NOTFOUND := by
        cases hr : r.status with
        | FOUND => exact absurd hr h
        | NOTFOUND => rfl
        | UNAVAIL => exact absurd hr r.available
      rw [Result.seen, seen, if_neg h, hs]
    rw [hseen, text_notFound h]
    simp [decoded]

theorem decoded_reply {dict : Dictionary} (w : CStr WORD) (hx : dict w.chars ≠ some XXXX) :
    decoded (reply dict w.chars) = answer dict w := by
  cases hd : dict w.chars with
  | none => simp [decoded, reply, answer, outcomeOf, hd]
  | some t =>
    have ht : t ≠ XXXX := fun he => hx (he ▸ hd)
    simp [decoded, reply, answer, outcomeOf, hd, ht]

/-- Through each of the five pairs of a server and a client a result arrives
as it was sent exactly when it is not the text XXXX. -/
theorem reversible_iff (r : Result) (snd rcv : Buf TEXT) (sought : Dictrec) :
    (seen (lookup4 rcv (msgq_server snd r) sought) = r.seen ↔ r.seen ≠ (.FOUND, some XXXX.chars)) ∧
    (seen (lookup7 (usock_server r) sought) = r.seen ↔ r.seen ≠ (.FOUND, some XXXX.chars)) ∧
    (seen (lookup8 (isock_server r) sought) = r.seen ↔ r.seen ≠ (.FOUND, some XXXX.chars)) ∧
    (seen (lookup9 (udp_server r) sought) = r.seen ↔ r.seen ≠ (.FOUND, some XXXX.chars)) ∧
    (seen (lookup6 (shm_server r) sought) = r.seen ↔ r.seen ≠ (.FOUND, some XXXX.chars)) := by
  have hsocket : seen (socketLookup (socketReply r) sought) = r.seen ↔ r.seen ≠ (.FOUND, some XXXX.chars) := by
    rw [socketReply_eq, socketLookup_seen, decoded_iff]
  refine ⟨?_, hsocket, hsocket, hsocket, ?_⟩
  · rw [msgq_server_eq, lookup4_seen, decoded_iff]
  · rw [lookup6_seen (shm_server_str r), decoded_iff]

/-- The text XXXX of a dictionary. -/
def foundXXXX : Result where
  status := .FOUND
  tryit := ⟨Buf.zero WORD, (Buf.zero TEXT).strcpy XXXX.chars⟩
  available := nofun
  terminated _ := Buf.strcpy_terminated XXXX

/-- It arrives as NOTFOUND, whichever way it goes. -/
theorem foundXXXX_lost :
    seen (lookup4 (Buf.zero TEXT) (msgq_server (Buf.zero TEXT) foundXXXX) Dictrec.blank) ≠ foundXXXX.seen ∧
    seen (lookup7 (usock_server foundXXXX) Dictrec.blank) ≠ foundXXXX.seen ∧
    seen (lookup8 (isock_server foundXXXX) Dictrec.blank) ≠ foundXXXX.seen ∧
    seen (lookup9 (udp_server foundXXXX) Dictrec.blank) ≠ foundXXXX.seen ∧
    seen (lookup6 (shm_server foundXXXX) Dictrec.blank) ≠ foundXXXX.seen := by
  decide +kernel

end Encoding

end SysProg
