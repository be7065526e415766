/-
Whose answer a client of the shared-memory service gets. It releases the
service before it reads the text there, so its own only as long as the server
writes none for the next client meanwhile.
-/
import SysProg.Handshake

namespace SysProg.Shm

variable {dict : Dictionary} {keeps : Bool}

/-- The results a client has got are those of its own words, in their order. -/
def OwnAnswers {ι : Type} (dict : Dictionary) (q : Queries ι) (s : State ι) (i : ι) : Prop :=
  ∃ n, (s.clients i).past = ((q.words i).take n).map fun w => (w, answer dict w)

/-- The server is writing an answer. -/
def ServerPc.writing : ServerPc → Bool
  | .write _ _ => true
  | _ => false

/-- The server writes to the shared text only while no client that has
released the service is still reading there. -/
def Undisturbed {ι : Type} (s : State ι) : Proc ι → Prop
  | .server => s.server.pc.writing = true → ∀ i, (s.clients i).pc.reading = false
  | .client _ => True

instance {ι : Type} [Fintype ι] (s : State ι) : (p : Proc ι) → Decidable (Undisturbed s p)
  | .server => inferInstanceAs (Decidable (_ → _))
  | .client _ => inferInstanceAs (Decidable True)

/-! ## What a client has read -/

/-- A client past its release has its answer before it, and of it what it has
read; its results are those of its words. -/
structure Client.Reads (dict : Dictionary) (text : Buf TEXT) (c : Client) : Prop where
  compare : ∀ k, c.pc = .compare k →
    text.Holds (reply dict c.word.chars) ∧ ∀ j < k, (reply dict c.word.chars).byte j = XXXX.byte j ∧ XXXX.byte j ≠ NUL
  copyText : ∀ k, c.pc = .copyText k → text.Holds (reply dict c.word.chars) ∧ (dict c.word.chars).isSome ∧
    k ≤ (reply dict c.word.chars).chars.length ∧ c.text.Copied (reply dict c.word.chars) k
  past : ∀ r ∈ c.past, r.2 = answer dict r.1

theorem Client.Reads.of_quiet {text text' : Buf TEXT} {c c' : Client} (h : c.Reads dict text)
    (hp : c'.past = c.past) (hr : c'.pc.reading = false) : c'.Reads dict text' where
  compare k pc := by rw [pc] at hr; cases hr
  copyText k pc := by rw [pc] at hr; cases hr
  past := hp ▸ h.past

theorem Client.Reads.return {text : Buf TEXT} {c c' : Client} (h : c.Reads dict text)
    (hp : c'.past = c.past) {r : Status × Option (List Byte)} (hr : r = answer dict c'.word) :
    (c'.return r).Reads dict text where
  compare k pc := by cases pc
  copyText k pc := by cases pc
  past := by
    intro x hx
    rcases List.mem_append.1 hx with hx | hx
    · exact h.past x (hp ▸ hx)
    · obtain rfl := List.mem_singleton.1 hx
      exact hr

theorem Client.Reads.get {text : Buf TEXT} {c : Client} (h : c.Reads dict text) {k : Nat}
    (pc : c.pc = .compare k) :
    text.get k = (reply dict c.word.chars).byte k := by
  obtain ⟨ht, hj⟩ := h.compare k pc
  have hle : k ≤ (reply dict c.word.chars).chars.length := by
    by_contra hlt
    obtain ⟨hsame, hnul⟩ := hj (reply dict c.word.chars).chars.length (by omega)
    exact hnul (hsame ▸ CStr.byte_eq_nul.2 le_rfl)
  exact ht k (by omega)

theorem isSome_of_reply_ne {w : List Byte} (h : reply dict w ≠ XXXX) : (dict w).isSome := by
  cases hd : dict w with
  | none => exact absurd (by rw [reply, hd]; rfl) h
  | some t => rfl

/-- A step of a client keeps this, when its answer is there at its release
and the dictionary has no text XXXX for its word. -/
theorem Client.Move.reads {served : Nat} {sems sems' : Sems} {shm shm' : Dictrec} {c c' : Client}
    (hm : Client.Move served sems shm c sems' shm' c') (h : c.Reads dict shm.text)
    (hrel : c.pc = .release → shm.text.Holds (reply dict c.word.chars))
    (hx : c.pc ≠ .idle → dict c.word.chars ≠ some XXXX) : c'.Reads dict shm'.text := by
  cases hm with
  | call | grab | alert | await => exact h.of_quiet rfl rfl
  | copyWord => exact h.of_quiet rfl (by split <;> rfl)
  | release pc =>
    refine ⟨?_, fun _ hk => (nomatch hk), h.past⟩
    intro k hk
    cases hk
    exact ⟨hrel pc, fun j hj => absurd hj (Nat.not_lt_zero _)⟩
  | @differs k pc x =>
    obtain ⟨ht, hj⟩ := h.compare k pc
    have hg := h.get pc
    have hne : reply dict c.word.chars ≠ XXXX := fun he => x (by rw [hg, he])
    refine ⟨fun _ hk => (nomatch hk), ?_, h.past⟩
    intro k hk
    cases hk
    exact ⟨ht, isSome_of_reply_ne hne, Nat.zero_le _, .zero _ _⟩
  | @same k pc x nul =>
    obtain ⟨ht, hj⟩ := h.compare k pc
    have hg := h.get pc
    refine ⟨?_, fun _ hk => (nomatch hk), h.past⟩
    intro k' hk
    cases hk
    refine ⟨ht, ?_⟩
    intro j hlt
    rcases Nat.lt_succ_iff_lt_or_eq.1 hlt with hlt | rfl
    · exact hj j hlt
    · exact ⟨hg ▸ x, x ▸ nul⟩
  | @absent k pc x nul =>
    obtain ⟨ht, hj⟩ := h.compare k pc
    have hg := h.get pc
    have he : reply dict c.word.chars = XXXX := by
      refine CStr.eq_of_byte ?_ (x ▸ nul)
      intro j hlt
      rcases Nat.lt_succ_iff_lt_or_eq.1 hlt with hlt | rfl
      · exact (hj j hlt).1
      · exact hg ▸ x
    have hnone : dict c.word.chars = none := by
      cases hd : dict c.word.chars with
      | none => rfl
      | some t =>
        rw [reply, hd, Option.getD_some] at he
        exact absurd (he ▸ hd) (hx (by rw [pc]; simp))
    exact h.return rfl (by rw [answer, hnone]; rfl)
  | @copyText k pc lt nul =>
    obtain ⟨ht, hs, hk, hc⟩ := h.copyText k pc
    have hg := ht k (Nat.lt_succ_of_le hk)
    refine ⟨fun _ hk => (nomatch hk), ?_, h.past⟩
    intro k' hk'
    cases hk'
    rw [hg, ne_eq, CStr.byte_eq_nul] at nul
    exact ⟨ht, hs, by show k + 1 ≤ (reply dict c.word.chars).chars.length; omega, hg ▸ hc.put lt⟩
  | @found k pc lt nul =>
    obtain ⟨ht, hs, hk, hc⟩ := h.copyText k pc
    have hg := ht k (Nat.lt_succ_of_le hk)
    rw [hg] at nul
    obtain rfl : k = (reply dict c.word.chars).chars.length := le_antisymm hk (CStr.byte_eq_nul.1 nul)
    have hput : (c.text.put (reply dict c.word.chars).chars.length NUL).Holds (reply dict c.word.chars) :=
      nul ▸ hc.put lt
    obtain ⟨t, hd⟩ := Option.isSome_iff_exists.1 hs
    refine h.return ?_ ?_
    · rfl
    · rw [hput.str, answer, reply, hd]
      rfl

/-! ## Undisturbed runs -/

variable {ι : Type}

theorem Inv.release {q : Queries ι} {s : State ι} (h : Inv dict q s) {i : ι}
    (pc : (s.clients i).pc = .release) :
    s.shm.text.Holds (reply dict (s.clients i).word.chars) := by
  cases h.phase.of_held (i := i) (by rw [pc]; rfl) with
  | passed _ text => exact text
  | copying pc' | copied pc' | alerted pc' | looking pc' | dead pc' | answered pc' => rw [pc] at pc'; cases pc'

theorem Client.Ok.word_mem {c : Client} {ws : List (CStr WORD)} (h : c.Ok ws) (hpc : c.pc ≠ .idle) :
    c.word ∈ ws := by
  rw [← h.asks, Client.words, if_neg hpc]
  simp

theorem Client.Ok.past_eq {c : Client} {ws : List (CStr WORD)} (h : c.Ok ws) :
    c.past.map (·.1) = ws.take c.past.length := by
  rw [← h.asks, Client.words, List.take_left' (by simp)]

variable [DecidableEq ι]

/-- An undisturbed step keeps what the clients have read. -/
theorem Inv.reads {q : Queries ι} {s s' : State ι} {p : Proc ι} (h : Inv dict q s)
    (hx : ∀ i, ∀ w ∈ q.words i, dict w.chars ≠ some XXXX) (hr : ∀ i, (s.clients i).Reads dict s.shm.text)
    (hok : Undisturbed s p) (hs : Shm.step dict keeps s p = some s') : ∀ i, (s'.clients i).Reads dict s'.shm.text := by
  cases p with
  | client i =>
    obtain ⟨sems', shm', c', hm, rfl⟩ := h.client hs
    have hc := hm.reads (hr i) h.release fun hpc => hx i _ ((h.clients i).word_mem hpc)
    have htext : shm'.text = s.shm.text := by cases hm <;> rfl
    refine (Function.forall_update_iff _ fun _ (c : Client) => c.Reads dict shm'.text).2 ⟨hc, ?_⟩
    intro j _
    rw [htext]
    exact hr j
  | server =>
    obtain ⟨sems', shm', srv', hm, rfl⟩ := h.server hs
    intro i
    cases hm with
    | write pc => exact (hr i).of_quiet rfl (hok (by rw [pc]; rfl) i)
    | wait1 | read | readEnd | wait2 | die => exact hr i

/-- In a run that leaves the clients undisturbed, over a dictionary without
the text XXXX for any word asked, every client gets its own answers. -/
theorem own_answers (shm : Dictrec) (q : Queries ι)
    (hx : ∀ i, ∀ w ∈ q.words i, dict w.chars ≠ some XXXX) {s : State ι}
    (h : Reach (step dict keeps) Undisturbed (.init shm q) s) (i : ι) : OwnAnswers dict q s i := by
  have hinv : Inv dict q s ∧ ∀ i, (s.clients i).Reads dict s.shm.text :=
    h.invariant (I := fun s => Inv dict q s ∧ ∀ i, (s.clients i).Reads dict s.shm.text)
      (fun _ _ _ hi hok hs => ⟨hi.1.step hs, hi.1.reads hx hi.2 hok hs⟩)
      ⟨Inv.init shm q, fun i => ⟨fun _ hk => (nomatch hk), fun _ hk => (nomatch hk), by simp [State.init, Client.init]⟩⟩
  refine ⟨(s.clients i).past.length, ?_⟩
  rw [← (hinv.1.clients i).past_eq]
  exact past_of_answers (hinv.2 i).past

/-- The second client asks while the first has released but not yet read, and
the server writes its answer when the first has. -/
theorem own_answers_both :
    ∃ s, exec (step twoWords false) Undisturbed (.init Dictrec.blank twoClients)
        (List.replicate 5 (.client false) ++ List.replicate 6 .server ++ List.replicate 2 (.client false) ++
          List.replicate 5 (.client true) ++ List.replicate 3 (.client false) ++ List.replicate 6 .server ++
          List.replicate 5 (.client true)) = some s ∧
      (∀ i, (s.clients i).past.length = 1) ∧ ∀ i, OwnAnswers twoWords twoClients s i := by
  have hrun : (exec (step twoWords false) Undisturbed (.init Dictrec.blank twoClients)
      (List.replicate 5 (.client false) ++ List.replicate 6 .server ++ List.replicate 2 (.client false) ++
        List.replicate 5 (.client true) ++ List.replicate 3 (.client false) ++ List.replicate 6 .server ++
        List.replicate 5 (.client true))).map
        (fun s => decide (∀ i, (s.clients i).past.length = 1)) = some true := by
    decide +kernel
  obtain ⟨s, hs, hpast⟩ := Option.map_eq_some_iff.1 hrun
  exact ⟨s, hs, of_decide_eq_true hpast,
    own_answers Dictrec.blank twoClients (by decide +kernel) (reach_of_exec hs)⟩

/-- The first client passes `await` and releases; the second is served before
the first has read a byte, and the first returns the second's answer. -/
theorem first_gets_second :
    ¬ ∀ s, Reach (step twoWords false) anyStep (.init Dictrec.blank twoClients) s →
      ∀ i, OwnAnswers twoWords twoClients s i := by
  have hrun : (exec (step twoWords false) anyStep (.init Dictrec.blank twoClients)
      (List.replicate 5 (.client false) ++ List.replicate 6 .server ++ List.replicate 2 (.client false) ++
        List.replicate 5 (.client true) ++ List.replicate 5 .server ++ List.replicate 3 (.client false))).map
        (fun s => (s.clients false).past.map (·.2)) = some [(.FOUND, some [66])] := by
    decide +kernel
  obtain ⟨s, hs, hpast⟩ := Option.map_eq_some_iff.1 hrun
  intro h
  obtain ⟨n, hn⟩ := h s (reach_of_exec hs) false
  rw [hn, List.map_map] at hpast
  cases n with
  | zero => cases hpast
  | succ n =>
    have h65 : answer twoWords ⟨[97], by decide, by decide⟩ = (.FOUND, some [65]) := by decide +kernel
    simp [twoClients, Queries.one, h65] at hpast

end SysProg.Shm
