/-
When the message-queue service comes to a stop. Requests and replies share
the one queue, and a server that cannot send its reply takes no request out
of it: so much room must be left by the requests of all other clients.
-/
import Mathlib.Data.Finset.Card
import Mathlib.Data.Fintype.Card
import SysProg.MsgqAnswers

namespace SysProg.Msgq

/-- The bytes of a request (`sizeof(Client)`). -/
abbrev REQUEST : Nat := WORD + IDSIZE

/-- The bytes of the reply for a word. -/
def replySize (dict : Dictionary) (w : CStr WORD) : Nat := (reply dict w.chars).chars.length + 1

variable {ι : Type}

section

variable {S : Service} {P : Pids ι} {words : ι → List (CStr WORD)} {s s' : State ι S.σ} {cap : Nat}

/-- Some client's call of `lookup` has not returned. -/
def State.Waiting (s : State ι S.σ) : Prop := ∃ i, (s.clients i).pc ≠ .idle

/-- Some process can take its next step. -/
def State.GoesOn [DecidableEq ι] (S : Service) (cap : Nat) (P : Pids ι) (s : State ι S.σ) : Prop :=
  ∃ a, (step S cap P s a).isSome

/-- The clients other than `i` that ask anything. -/
def others [Fintype ι] [DecidableEq ι] (words : ι → List (CStr WORD)) (i : ι) : Finset ι :=
  Finset.univ.filter fun j => j ≠ i ∧ words j ≠ []

/-! ## What is in the queue -/

/-- The queue never holds more than its capacity. -/
theorem used_step [DecidableEq ι] {a : Action ι} (h : used s.queue ≤ cap) (hs : step S cap P s a = some s') :
    used s'.queue ≤ cap := by
  cases a with
  | call i =>
    obtain ⟨c', -, rfl⟩ := Option.map_eq_some_iff.1 hs
    exact h
  | send i =>
    simp only [step] at hs
    split at hs
    · obtain ⟨queue, hq, rfl⟩ := Option.map_eq_some_iff.1 hs
      exact msgsnd_used hq
    · cases hs
  | receive i rcv =>
    simp only [step] at hs
    split at hs
    · obtain ⟨⟨m, queue⟩, hq, rfl⟩ := Option.map_eq_some_iff.1 hs
      exact (msgrcv_used hq).trans h
    · cases hs
  | server =>
    simp only [step] at hs
    split at hs
    · obtain ⟨⟨m, queue⟩, hq, hs⟩ := Option.bind_eq_some_iff.1 hs
      obtain ⟨srv', -, rfl⟩ := Option.map_eq_some_iff.1 hs
      exact (msgrcv_used hq).trans h
    · obtain ⟨queue, hq, rfl⟩ := Option.map_eq_some_iff.1 hs
      exact msgsnd_used hq

/-- Every message in the queue is a request or a reply to a client that
waits for it. -/
theorem Inv.message (h : Inv S P words s) {m : Message} (hm : m ∈ s.queue) :
    ∃ i, owner m = P.pid i ∧ (s.clients i).pc = .receive ∧
      ((m.type = SERVER ∧ m.bytes.length = REQUEST) ∨ m.type = P.pid i) := by
  obtain ⟨i, hown⟩ := h.owned m hm
  have hmine := mem_mine hm hown
  cases h.phase i with
  | idle _ none | held _ none => rw [none] at hmine; cases hmine
  | @asked req pc one =>
    rw [one, List.mem_singleton] at hmine
    subst hmine
    exact ⟨i, hown, pc, .inl ⟨rfl, req.flat_length⟩⟩
  | replied pc one =>
    rw [one, List.mem_singleton] at hmine
    subst hmine
    exact ⟨i, hown, pc, .inr rfl⟩

theorem Inv.mine_length (h : Inv S P words s) (i : ι) : (mine P i s.queue).length ≤ 1 := by
  cases h.phase i with
  | idle _ none | held _ none => simp [none]
  | asked _ one | replied _ one => simp [one]

/-- While the server holds the reply to a client, there are no more messages
in the queue than other clients that ask anything. -/
theorem Inv.queue_length [Fintype ι] [DecidableEq ι] (h : Inv S P words s) {i : ι} (hi : mine P i s.queue = []) :
    s.queue.length ≤ (others words i).card := by
  have hnodup : (s.queue.map owner).Nodup := by
    rw [List.nodup_iff_count_le_one]
    intro a
    by_cases ha : a ∈ s.queue.map owner
    · obtain ⟨m, hm, rfl⟩ := List.mem_map.1 ha
      obtain ⟨j, hown⟩ := h.owned m hm
      have hcount : (s.queue.map owner).count (owner m) = (mine P j s.queue).length := by
        rw [List.count, List.countP_map, List.countP_eq_length_filter, mine, hown]
        congr 1
      rw [hcount]
      exact h.mine_length j
    · rw [List.count_eq_zero_of_not_mem ha]
      exact Nat.zero_le 1
  have hsub : (s.queue.map owner).toFinset ⊆ (others words i).image fun j => (P.pid j : Int) := by
    intro a ha
    obtain ⟨m, hm, rfl⟩ := List.mem_map.1 (List.mem_toFinset.1 ha)
    obtain ⟨j, hown, pc, -⟩ := h.message hm
    refine Finset.mem_image.2 ⟨j, Finset.mem_filter.2 ⟨Finset.mem_univ j, ?_, ?_⟩, hown.symm⟩
    · rintro rfl
      have := mem_mine hm hown
      rw [hi] at this
      cases this
    · intro hw
      have hasks := (h.clients j).asks
      rw [hw, pc] at hasks
      simp at hasks
  calc s.queue.length = (s.queue.map owner).toFinset.card := by rw [List.toFinset_card_of_nodup hnodup, List.length_map]
    _ ≤ _ := Finset.card_le_card hsub
    _ ≤ _ := Finset.card_image_le

/-! ## The service goes on -/

theorem Inv.receives [DecidableEq ι] (h : Inv S P words s) {m : Message} (hm : m ∈ s.queue) (ht : m.type ≠ SERVER) :
    s.GoesOn S cap P := by
  obtain ⟨i, -, pc, htype⟩ := h.message hm
  have htype : m.type = P.pid i := htype.resolve_left fun hs => ht hs.1
  refine ⟨.receive i (Buf.zero TEXT), ?_⟩
  have hrcv : msgrcv s.queue (P.pid i) ≠ none := fun hn => msgrcv_eq_none.1 hn m hm htype
  simp only [Msgq.step, if_pos pc, Option.isSome_map]
  exact Option.isSome_iff_ne_none.2 hrcv

theorem Inv.serves [DecidableEq ι] (h : Inv S P words s) {m : Message} (hm : m ∈ s.queue) (ht : m.type = SERVER)
    (pc : s.server.pc = .receive) : s.GoesOn S cap P := by
  obtain ⟨⟨m', queue⟩, hq⟩ : ∃ r, msgrcv s.queue SERVER = some r :=
    Option.ne_none_iff_exists'.1 fun hn => msgrcv_eq_none.1 hn m hm ht
  obtain ⟨i, req, rfl, -, -, hreq, -⟩ := h.request hq
  obtain ⟨srv', hwork, -⟩ := Server.work_eq h.ready hreq SERVER
  refine ⟨.server, ?_⟩
  simp only [Msgq.step, pc, hq, Option.bind_some, hwork, Option.map_some, Option.isSome_some]

/-- A server that holds a reply can send it, or a client can receive its own,
when the room the others' requests leave is enough. -/
theorem Inv.replies [Fintype ι] [DecidableEq ι] (h : Inv S P words s) (hused : used s.queue ≤ cap)
    (hroom : ∀ i, ∀ w ∈ words i, REQUEST * min (others words i).card (cap / REQUEST) + replySize S.dict w ≤ cap)
    {m : Message} {word : List Byte} (pc : s.server.pc = .send m word) : s.GoesOn S cap P := by
  by_cases hreq : ∀ m ∈ s.queue, m.type = SERVER
  · obtain ⟨i, htype⟩ := h.sends m word pc
    cases h.phase i with
    | idle _ _ free | asked _ _ _ free | replied _ _ free => exact absurd ⟨m, word, pc, htype⟩ free
    | held hpc none here =>
      rw [pc] at here
      cases here
      have hw : (s.clients i).word ∈ words i := by
        rw [← (h.clients i).asks, hpc, if_neg (by simp)]
        simp
      have hsize : ∀ m ∈ s.queue, m.bytes.length = REQUEST := by
        intro m hm
        obtain ⟨j, -, -, hs | hr⟩ := h.message hm
        · exact hs.2
        · exact absurd ((hreq m hm).symm.trans hr).symm (P.ne_server j)
      have hlen : s.queue.length ≤ min (others words i).card (cap / REQUEST) := by
        refine le_min (h.queue_length none) ((Nat.le_div_iff_mul_le (by decide)).2 ?_)
        rw [Nat.mul_comm, ← used_const hsize]
        exact hused
      have hfits : used s.queue + (replyTo S.dict (P.pid i) (s.clients i).word).bytes.length ≤ cap := by
        rw [used_const hsize, replyTo, List.length_append, List.length_singleton]
        exact (Nat.add_le_add_right (Nat.mul_le_mul_left REQUEST hlen) _).trans (hroom i _ hw)
      refine ⟨.server, ?_⟩
      simp only [Msgq.step, pc, msgsnd, if_pos hfits, Option.map_some, Option.isSome_some]
  · push Not at hreq
    obtain ⟨m', hm, ht⟩ := hreq
    exact h.receives hm ht

/-- In a state where some client waits some process can go on. -/
theorem Inv.goes_on [Fintype ι] [DecidableEq ι] (h : Inv S P words s) (hused : used s.queue ≤ cap)
    (hcap : ∀ i, ∀ w ∈ words i, REQUEST + replySize S.dict w ≤ cap)
    (hroom : ∀ i, ∀ w ∈ words i, REQUEST * min (others words i).card (cap / REQUEST) + replySize S.dict w ≤ cap)
    (hw : s.Waiting) : s.GoesOn S cap P := by
  cases pc : s.server.pc with
  | send m word => exact h.replies hused hroom pc
  | receive =>
    cases hq : s.queue with
    | cons m q =>
      have hm : m ∈ s.queue := by simp [hq]
      by_cases ht : m.type = SERVER
      · exact h.serves hm ht pc
      · exact h.receives hm ht
    | nil =>
      -- with nothing in the queue and nothing at the server, that client has still to send its request
      obtain ⟨i, hi⟩ := hw
      cases h.phase i with
      | asked _ one | replied _ one => simp [mine, hq] at one
      | held _ _ here => rw [pc] at here; cases here
      | idle hpc =>
        have hpc := hpc.resolve_left hi
        have hmem : (s.clients i).word ∈ words i := by
          rw [← (h.clients i).asks, hpc, if_neg (by simp)]
          simp
        have hfits : used s.queue + (s.clients i).snd.flat.length ≤ cap := by
          rw [hq, Request.flat_length]
          exact (Nat.zero_add _).le.trans ((Nat.le_add_right _ _).trans (hcap i _ hmem))
        refine ⟨.send i, ?_⟩
        simp only [Msgq.step, if_pos hpc, msgsnd, if_pos hfits, Option.map_some, Option.isSome_some]

/-! ## The service comes to a stop -/

/-- No call is in progress: `i` has the words `ws` left to ask, and every
other client all of its words. -/
structure Alone [DecidableEq ι] (S : Service) (P : Pids ι) (words : ι → List (CStr WORD)) (i : ι)
    (ws : List (CStr WORD)) (s : State ι S.σ) : Prop where
  inv : Inv S P words s
  idle : ∀ j, (s.clients j).pc = .idle ∧ (s.clients j).todo = Function.update words i ws j
  queue : s.queue = []
  server : s.server.pc = .receive

/-- The server holds the reply to `i` for `w`. The clients of `J` have sent
their first request, those of `R` are about to, the others have not begun. -/
structure Crowd [DecidableEq ι] (S : Service) (P : Pids ι) (words : ι → List (CStr WORD)) (i : ι) (w : CStr WORD)
    (ws : List (CStr WORD)) (J R : Finset ι) (s : State ι S.σ) : Prop where
  inv : Inv S P words s
  server : s.server.pc = .send (replyTo S.dict (P.pid i) w) w.chars
  waits : (s.clients i).pc = .receive ∧ (s.clients i).todo = ws
  sent : ∀ j ∈ J, (s.clients j).pc = .receive
  called : ∀ j ∈ R, (s.clients j).pc = .send
  idle : ∀ j, j ≠ i → j ∉ J → j ∉ R → (s.clients j).pc = .idle ∧ (s.clients j).todo = words j
  requests : ∀ m ∈ s.queue, m.type = SERVER ∧ m.bytes.length = REQUEST
  length : s.queue.length = J.card

theorem Client.call_some {c : Client} (pid : Nat) {w : CStr WORD} {ws : List (CStr WORD)} (pc : c.pc = .idle)
    (todo : c.todo = w :: ws) : ∃ c', c.call pid = some c' ∧ c'.pc = .send ∧ c'.word = w ∧ c'.todo = ws := by
  unfold Client.call
  rw [pc, todo]
  exact ⟨_, rfl, rfl, rfl, rfl⟩

theorem Client.call_none {c : Client} (pid : Nat) (h : c.pc ≠ .idle ∨ c.todo = []) : c.call pid = none := by
  unfold Client.call
  split
  · next pc todo => rcases h with h | h <;> simp_all
  · rfl

variable [DecidableEq ι] {i : ι} {w : CStr WORD} {ws : List (CStr WORD)}

/-- A query of a client that is alone, up to the reply. -/
theorem Alone.asks (h : Alone S P words i (w :: ws) s) (hcap : REQUEST ≤ cap) :
    ∃ s', Reach (step S cap P) anyStep s s' ∧ Crowd S P words i w ws ∅ ∅ s' := by
  have ⟨hpc, htodo⟩ := h.idle i
  rw [Function.update_self] at htodo
  obtain ⟨c, hcall, pc, hword, htodo⟩ := Client.call_some (P.pid i) hpc htodo
  let s₁ : State ι S.σ := { s with clients := Function.update s.clients i c }
  have hs₁ : step S cap P s (.call i) = some s₁ := by simp only [step, hcall, Option.map_some, s₁]
  have h₁ := h.inv.step hs₁
  have hc : s₁.clients i = c := Function.update_self ..
  have hreq : IsRequest (P.pid i) w c.snd := by
    have := (h₁.clients i).snd (by rw [hc, pc])
    rwa [hc, hword] at this
  let s₂ : State ι S.σ :=
    { s₁ with queue := [⟨SERVER, c.snd.flat⟩], clients := Function.update s₁.clients i { c with pc := .receive } }
  have hs₂ : step S cap P s₁ (.send i) = some s₂ := by
    have hq : s₁.queue = [] := h.queue
    have hfits : used [] + c.snd.flat.length ≤ cap := by
      rw [Request.flat_length]
      exact (Nat.zero_add _).le.trans hcap
    simp only [step, hc, pc, if_true, hq, msgsnd, if_pos hfits, Option.map_some, List.nil_append, s₂]
  obtain ⟨srv, hwork, hsend, -⟩ := Server.work_eq (h.inv.ready) hreq SERVER
  let s₃ : State ι S.σ := { s₂ with queue := [], server := srv }
  have hs₃ : step S cap P s₂ .server = some s₃ := by
    have hpc : s₂.server.pc = .receive := h.server
    have hrcv : msgrcv s₂.queue SERVER = some (⟨SERVER, c.snd.flat⟩, []) := by simp [msgrcv, s₂]
    have hwork : s₂.server.work S.lookup ⟨SERVER, c.snd.flat⟩ = some srv := hwork
    simp only [step, hpc, hrcv, Option.bind_some, hwork, Option.map_some, s₃]
  have hother (j : ι) (hj : j ≠ i) : s₃.clients j = s.clients j := by
    show Function.update (Function.update s.clients i c) i _ j = s.clients j
    rw [Function.update_of_ne hj, Function.update_of_ne hj]
  have hself : s₃.clients i = { c with pc := .receive } := Function.update_self ..
  refine ⟨s₃, .head ⟨_, trivial, hs₁⟩ (.head ⟨_, trivial, hs₂⟩ (.single ⟨_, trivial, hs₃⟩)),
    (h₁.step hs₂).step hs₃, hsend, by rw [hself]; exact ⟨rfl, htodo⟩, by simp, by simp, ?_, by simp [s₃], rfl⟩
  intro j hj _ _
  rw [hother j hj]
  have := h.idle j
  rwa [Function.update_of_ne hj] at this

/-- A client alone gets its reply, and is alone again. -/
theorem Crowd.answered (h : Crowd S P words i w ws ∅ ∅ s) (hcap : replySize S.dict w ≤ cap) :
    ∃ s', Reach (step S cap P) anyStep s s' ∧ Alone S P words i ws s' := by
  have hq : s.queue = [] := List.eq_nil_of_length_eq_zero h.length
  let m := replyTo S.dict (P.pid i) w
  let s₁ : State ι S.σ := { s with
    queue := [m], server := { s.server with
      pc := .receive, answered := s.server.answered ++ [((P.pid i : Int), w.chars)] } }
  have hs₁ : step S cap P s .server = some s₁ := by
    have hfits : used [] + m.bytes.length ≤ cap := by
      simp only [m, replyTo, List.length_append, List.length_singleton]
      exact (Nat.zero_add _).le.trans hcap
    simp only [step, h.server, hq, msgsnd]
    rw [if_pos hfits]
    rfl
  let s₂ : State ι S.σ := { s₁ with
    queue := [], clients := Function.update s.clients i ((s.clients i).return (Buf.zero TEXT) m) }
  have hs₂ : step S cap P s₁ (.receive i (Buf.zero TEXT)) = some s₂ := by
    have hpc : (s₁.clients i).pc = .receive := h.waits.1
    have hrcv : msgrcv s₁.queue (P.pid i) = some (m, []) := by simp [msgrcv, s₁, m, replyTo]
    simp only [step, if_pos hpc, hrcv, Option.map_some]
    rfl
  refine ⟨s₂, .head ⟨_, trivial, hs₁⟩ (.single ⟨_, trivial, hs₂⟩), (h.inv.step hs₁).step hs₂, fun j => ?_, rfl, rfl⟩
  by_cases hj : j = i
  · subst hj
    simp only [s₂, Function.update_self]
    exact ⟨rfl, h.waits.2⟩
  · simp only [s₂, Function.update_of_ne hj]
    exact h.idle j hj (by simp) (by simp)

/-- Alone, a client asks its words up to any of them. -/
theorem Alone.asks_all {l : List (CStr WORD)} (hs : Alone S P words i (l ++ w :: ws) s)
    (hcap : ∀ v ∈ l ++ w :: ws, REQUEST + replySize S.dict v ≤ cap) :
    ∃ s', Reach (step S cap P) anyStep s s' ∧ Crowd S P words i w ws ∅ ∅ s' := by
  induction l generalizing s with
  | nil =>
    have hw := hcap w (by simp)
    exact hs.asks (by omega)
  | cons v l ih =>
    have hv := hcap v (by simp)
    have hrequest : REQUEST ≤ cap := by omega
    have hreply : replySize S.dict v ≤ cap := by omega
    obtain ⟨s₁, hr₁, h₁⟩ := hs.asks hrequest
    obtain ⟨s₂, hr₂, h₂⟩ := h₁.answered hreply
    obtain ⟨s₃, hr₃, h₃⟩ := ih h₂ fun v hv => hcap v (List.mem_cons_of_mem _ hv)
    exact ⟨s₃, hr₁.trans (hr₂.trans hr₃), h₃⟩

variable {J R : Finset ι} {j : ι}

/-- One more client begins its first call. -/
theorem Crowd.call (h : Crowd S P words i w ws J R s) (hj : j ≠ i) (hJ : j ∉ J) (hR : j ∉ R) (hw : words j ≠ []) :
    ∃ s', step S cap P s (.call j) = some s' ∧ Crowd S P words i w ws J (insert j R) s' := by
  obtain ⟨hpc, htodo⟩ := h.idle j hj hJ hR
  obtain ⟨v, vs, hvs⟩ := List.exists_cons_of_ne_nil hw
  obtain ⟨c, hcall, pc, -⟩ := Client.call_some (P.pid j) hpc (htodo.trans hvs)
  let s' : State ι S.σ := { s with clients := Function.update s.clients j c }
  have hs : Msgq.step S cap P s (.call j) = some s' := by simp only [step, hcall, Option.map_some, s']
  have hother (k : ι) (hk : k ≠ j) : s'.clients k = s.clients k := Function.update_of_ne hk ..
  refine ⟨s', hs, h.inv.step hs, h.server, ?_, ?_, ?_, ?_, h.requests, h.length⟩
  · rw [hother i hj.symm]
    exact h.waits
  · intro k hk
    rw [hother k fun he => hJ (he ▸ hk)]
    exact h.sent k hk
  · intro k hk
    by_cases he : k = j
    · subst he
      simp only [s', Function.update_self, pc]
    · rw [hother k he]
      exact h.called k ((Finset.mem_insert.1 hk).resolve_left he)
  · intro k hki hkJ hkR
    rw [Finset.mem_insert, not_or] at hkR
    rw [hother k hkR.1]
    exact h.idle k hki hkJ hkR.2

/-- One more request goes to the queue, if there is room for it. -/
theorem Crowd.send (h : Crowd S P words i w ws J R s) (hj : j ≠ i) (hJ : j ∉ J) (hR : j ∈ R)
    (hcap : REQUEST * (J.card + 1) ≤ cap) :
    ∃ s', step S cap P s (.send j) = some s' ∧ Crowd S P words i w ws (insert j J) (R.erase j) s' := by
  have hpc := h.called j hR
  let m : Message := ⟨SERVER, (s.clients j).snd.flat⟩
  let s' : State ι S.σ := { s with
    queue := s.queue ++ [m], clients := Function.update s.clients j { s.clients j with pc := .receive } }
  have hs : Msgq.step S cap P s (.send j) = some s' := by
    have hfits : used s.queue + m.bytes.length ≤ cap := by
      rw [used_const fun m hm => (h.requests m hm).2, h.length, Request.flat_length]
      exact hcap
    simp only [Msgq.step, if_pos hpc, msgsnd]
    rw [if_pos hfits]
    rfl
  have hother (k : ι) (hk : k ≠ j) : s'.clients k = s.clients k := Function.update_of_ne hk ..
  refine ⟨s', hs, h.inv.step hs, h.server, ?_, ?_, ?_, ?_, ?_, ?_⟩
  · rw [hother i hj.symm]
    exact h.waits
  · intro k hk
    by_cases he : k = j
    · subst he
      simp only [s', Function.update_self]
    · rw [hother k he]
      exact h.sent k ((Finset.mem_insert.1 hk).resolve_left he)
  · intro k hk
    rw [hother k (Finset.ne_of_mem_erase hk)]
    exact h.called k (Finset.mem_of_mem_erase hk)
  · intro k hki hkJ hkR
    rw [Finset.mem_insert, not_or] at hkJ
    rw [hother k hkJ.1]
    exact h.idle k hki hkJ.2 fun hk => hkR (Finset.mem_erase.2 ⟨hkJ.1, hk⟩)
  · intro m' hm
    rcases List.mem_append.1 hm with hm | hm
    · exact h.requests m' hm
    · obtain rfl := List.mem_singleton.1 hm
      exact ⟨rfl, Request.flat_length _⟩
  · rw [Finset.card_insert_of_notMem hJ, ← h.length]
    exact List.length_append

/-- While the server holds its reply any of the other clients may begin. -/
theorem Crowd.calls [Fintype ι] (h : Crowd S P words i w ws ∅ ∅ s) {B : Finset ι} (hB : B ⊆ others words i) :
    ∃ s', Reach (step S cap P) anyStep s s' ∧ Crowd S P words i w ws ∅ B s' := by
  induction B using Finset.induction_on with
  | empty => exact ⟨s, .refl, h⟩
  | insert j B hj ih =>
    obtain ⟨hjo, hB⟩ := Finset.insert_subset_iff.1 hB
    obtain ⟨-, hji, hjw⟩ := Finset.mem_filter.1 hjo
    obtain ⟨s₁, hr, h₁⟩ := ih hB
    obtain ⟨s₂, hs, h₂⟩ := h₁.call hji (by simp) hj hjw
    exact ⟨s₂, hr.tail ⟨_, trivial, hs⟩, h₂⟩

/-- As many of them send their request as there is room for. -/
theorem Crowd.sends {A K : Finset ι} (h : Crowd S P words i w ws ∅ A s) (hi : i ∉ A) (hK : K ⊆ A)
    (hcap : REQUEST * K.card ≤ cap) :
    ∃ s', Reach (step S cap P) anyStep s s' ∧ Crowd S P words i w ws K (A \ K) s' := by
  induction K using Finset.induction_on with
  | empty => exact ⟨s, .refl, by rwa [Finset.sdiff_empty]⟩
  | insert j K hj ih =>
    obtain ⟨hjA, hKA⟩ := Finset.insert_subset_iff.1 hK
    rw [Finset.card_insert_of_notMem hj] at hcap
    obtain ⟨s₁, hr, h₁⟩ := ih hKA ((Nat.mul_le_mul_left _ (Nat.le_succ _)).trans hcap)
    obtain ⟨s₂, hs, h₂⟩ := h₁.send (fun he => hi (he ▸ hjA)) hj (Finset.mem_sdiff.2 ⟨hjA, hj⟩) hcap
    rw [← Finset.sdiff_insert] at h₂
    exact ⟨s₂, hr.tail ⟨_, trivial, hs⟩, h₂⟩

/-- With no room for the reply, nor for the request of a client that waits
with it, no process can go on. -/
theorem Crowd.stops [Fintype ι] (h : Crowd S P words i w ws J R s)
    (hall : ∀ j, j ≠ i → j ∉ J → j ∉ R → words j = []) (hrequest : R ≠ ∅ → cap < REQUEST * J.card + REQUEST)
    (hreply : cap < REQUEST * J.card + replySize S.dict w) : ¬ s.GoesOn S cap P := by
  have hused : used s.queue = REQUEST * J.card := by rw [used_const fun m hm => (h.requests m hm).2, h.length]
  rintro ⟨a, ha⟩
  rw [Option.isSome_iff_ne_none] at ha
  refine ha ?_
  cases a with
  | call j =>
    have hnone : (s.clients j).call (P.pid j) = none := by
      refine Client.call_none _ ?_
      by_cases hj : j = i
      · subst hj
        exact .inl (by rw [h.waits.1]; simp)
      by_cases hJ : j ∈ J
      · exact .inl (by rw [h.sent j hJ]; simp)
      by_cases hR : j ∈ R
      · exact .inl (by rw [h.called j hR]; simp)
      · exact .inr ((h.idle j hj hJ hR).2.trans (hall j hj hJ hR))
    simp only [step, hnone, Option.map_none]
  | send j =>
    by_cases hpc : (s.clients j).pc = .send
    · have hR : R ≠ ∅ := by
        rintro rfl
        by_cases hj : j = i
        · subst hj
          rw [h.waits.1] at hpc
          cases hpc
        by_cases hJ : j ∈ J
        · rw [h.sent j hJ] at hpc
          cases hpc
        · rw [(h.idle j hj hJ (by simp)).1] at hpc
          cases hpc
      have hfull : msgsnd cap s.queue ⟨SERVER, (s.clients j).snd.flat⟩ = none := by
        rw [msgsnd_eq_none, hused, Request.flat_length]
        exact hrequest hR
      simp only [step, if_pos hpc, hfull, Option.map_none]
    · simp only [step, if_neg hpc]
  | receive j rcv =>
    have hempty : msgrcv s.queue (P.pid j) = none :=
      msgrcv_eq_none.2 fun m hm => (h.requests m hm).1 ▸ (P.ne_server j).symm
    simp only [step, hempty, Option.map_none, ite_self]
  | server =>
    have hfull : msgsnd cap s.queue (replyTo S.dict (P.pid i) w) = none := by
      rw [msgsnd_eq_none, hused, replyTo, List.length_append, List.length_singleton]
      exact hreply
    simp only [step, h.server, hfull, Option.map_none]

/-- When the others' requests leave no room for a reply, the service can come
to a stop with a client waiting for it. -/
theorem deadlock_reached [Fintype ι] (words : ι → List (CStr WORD)) (cap : Nat) (sought : ι → Dictrec)
    (tryit : Dictrec) (snd : Buf TEXT) (hcap : ∀ i, ∀ w ∈ words i, REQUEST + replySize S.dict w ≤ cap)
    (hw : w ∈ words i) (hfull : cap < REQUEST * min (others words i).card (cap / REQUEST) + replySize S.dict w) :
    ∃ s, Reach (step S cap P) anyStep (.init S sought tryit snd words) s ∧ s.Waiting ∧ ¬ s.GoesOn S cap P := by
  obtain ⟨l, ws, hwords⟩ := List.append_of_mem hw
  have hinit : Alone S P words i (l ++ w :: ws) (.init S sought tryit snd words) := by
    refine ⟨.init sought tryit snd words, fun j => ⟨rfl, ?_⟩, rfl, rfl⟩
    rw [← hwords, Function.update_eq_self]
    rfl
  have hcap : ∀ v ∈ l ++ w :: ws, REQUEST + replySize S.dict v ≤ cap := hwords ▸ hcap i
  obtain ⟨s₁, hr₁, h₁⟩ := hinit.asks_all hcap
  obtain ⟨s₂, hr₂, h₂⟩ : ∃ s', Reach (step S cap P) anyStep s₁ s' ∧ Crowd S P words i w ws ∅ (others words i) s' :=
    h₁.calls (Finset.Subset.refl _)
  obtain ⟨J, hJ, hcard⟩ := Finset.exists_subset_card_eq (min_le_left (others words i).card (cap / REQUEST))
  have hroom : REQUEST * J.card ≤ cap := by
    rw [hcard]
    exact (Nat.mul_le_mul_left _ (min_le_right _ _)).trans (Nat.mul_div_le _ _)
  have hi : i ∉ others words i := by simp [others]
  obtain ⟨s₃, hr₃, h₃⟩ := h₂.sends hi hJ hroom
  refine ⟨s₃, hr₁.trans (hr₂.trans hr₃), ⟨i, by rw [h₃.waits.1]; simp⟩, h₃.stops ?_ ?_ (hcard ▸ hfull)⟩
  · intro j hj hjJ hjR
    have hjo : j ∉ others words i := fun hjo => hjR (Finset.mem_sdiff.2 ⟨hjo, hjJ⟩)
    simpa [others, hj] using hjo
  · intro hR
    have hlt : J.card < (others words i).card := by
      refine Finset.card_lt_card (Finset.ssubset_iff_subset_ne.2 ⟨hJ, ?_⟩)
      rintro rfl
      exact hR (Finset.sdiff_self _)
    have hdiv : J.card = cap / REQUEST := by omega
    rw [hdiv, ← Nat.mul_succ]
    exact Nat.lt_mul_div_succ cap (by decide)

end

/-- In every state in which a client waits some process can take its next
step, whatever the order of the calls, exactly when of every word asked the
reply has room besides the requests that the other clients may have sent: one
each, and no more than fit. -/
theorem goes_on_iff [Fintype ι] [DecidableEq ι] (d : IndexFile) (qsort : Qsort Index) (bsearch : Bsearch Index Index)
    (P : Pids ι) (words : ι → List (CStr WORD)) (cap : Nat)
    (hcap : ∀ i, ∀ w ∈ words i, REQUEST + replySize (lookup2Service d qsort bsearch).dict w ≤ cap)
    (sought : ι → Dictrec) (tryit : Dictrec) (snd : Buf TEXT) :
    (∀ s, Reach (step (lookup2Service d qsort bsearch) cap P) anyStep (.init _ sought tryit snd words) s →
      s.Waiting → s.GoesOn (lookup2Service d qsort bsearch) cap P) ↔
    ∀ i, ∀ w ∈ words i, REQUEST * min (others words i).card (cap / REQUEST) +
      replySize (lookup2Service d qsort bsearch).dict w ≤ cap := by
  constructor
  · intro hgo i w hw
    by_contra hfull
    obtain ⟨s, hr, hwait, hstop⟩ := deadlock_reached words cap sought tryit snd hcap hw (Nat.not_le.1 hfull)
    exact hstop (hgo s hr hwait)
  · intro hroom s hr hwait
    have hinv : Inv (lookup2Service d qsort bsearch) P words s ∧ used s.queue ≤ cap :=
      hr.invariant (I := fun s => Inv _ P words s ∧ used s.queue ≤ cap)
        (fun _ _ _ hi _ hs => ⟨hi.1.step hs, used_step hi.2 hs⟩) ⟨.init sought tryit snd words, Nat.zero_le cap⟩
    exact hinv.1.goes_on hinv.2 hcap hroom hwait

/-- The service never stops with two clients that ask a word each and a queue
with room for one request and one reply of any size. -/
theorem goes_on_two :
    (∀ _ : Bool, ∀ w ∈ [(⟨[97], by decide, by decide⟩ : CStr WORD)],
      REQUEST + replySize (lookup2Service oneRecord default default).dict w ≤ 608) ∧
    ∀ s, Reach (step (lookup2Service oneRecord default default) 608 twoPids) anyStep
        (.init _ (fun _ => Dictrec.blank) Dictrec.blank (Buf.zero TEXT) fun _ => [⟨[97], by decide, by decide⟩]) s →
      s.Waiting → s.GoesOn (lookup2Service oneRecord default default) 608 twoPids := by
  have hcap : ∀ _ : Bool, ∀ w ∈ [(⟨[97], by decide, by decide⟩ : CStr WORD)],
      REQUEST + replySize (lookup2Service oneRecord default default).dict w ≤ 608 := by
    decide +kernel
  have hroom : ∀ i : Bool, ∀ w ∈ [(⟨[97], by decide, by decide⟩ : CStr WORD)],
      REQUEST * min (others (fun _ => [⟨[97], by decide, by decide⟩]) i).card (608 / REQUEST) +
        replySize (lookup2Service oneRecord default default).dict w ≤ 608 := by
    decide +kernel
  exact ⟨hcap, (goes_on_iff oneRecord default default twoPids _ 608 hcap (fun _ => Dictrec.blank) Dictrec.blank
    (Buf.zero TEXT)).2 hroom⟩

/-- The processes 2 to 130. -/
def manyPids : Pids (Fin 129) where
  pid i := i + 2
  distinct i j h := Fin.ext (Nat.add_right_cancel h)
  gt_one i := by omega
  int i := by omega

/-- With room for 128 requests, as a queue commonly has, 129 clients that ask
a word each bring the service to a stop. -/
theorem deadlock_many :
    ¬ ∀ s, Reach (step (lookup2Service oneRecord default default) 16384 manyPids) anyStep
        (.init _ (fun _ => Dictrec.blank) Dictrec.blank (Buf.zero TEXT) fun _ => [⟨[97], by decide, by decide⟩]) s →
      s.Waiting → s.GoesOn (lookup2Service oneRecord default default) 16384 manyPids := by
  have hcard : (others (fun _ : Fin 129 => [(⟨[97], by decide, by decide⟩ : CStr WORD)]) 0).card = 128 := by
    decide +kernel
  have hsize : replySize (lookup2Service oneRecord default default).dict ⟨[97], by decide, by decide⟩ = 2 := by
    decide +kernel
  have hcap : ∀ i : Fin 129, ∀ w ∈ [(⟨[97], by decide, by decide⟩ : CStr WORD)],
      REQUEST + replySize (lookup2Service oneRecord default default).dict w ≤ 16384 := by
    intro i w hw
    rw [List.mem_singleton.1 hw, hsize]
    decide
  obtain ⟨s, hr, hwait, hstop⟩ := deadlock_reached (S := lookup2Service oneRecord default default) (P := manyPids)
    (i := 0) (fun _ => [⟨[97], by decide, by decide⟩]) 16384 (fun _ => Dictrec.blank) Dictrec.blank (Buf.zero TEXT)
    hcap (List.mem_singleton_self _) (by rw [hcard, hsize]; decide)
  exact fun hall => hstop (hall s hr hwait)

end SysProg.Msgq
