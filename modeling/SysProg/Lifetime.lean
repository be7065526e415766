/-
How many queries one server answers: each of its two waits of a query adds one
to its adjustment of semaphore 1, which is full at the second wait of the
16384th, whatever the clients ask and whenever they exit.
-/
import SysProg.Exits

namespace SysProg.Shm

variable {dict : Dictionary} {keeps : Bool} {ι : Type} [DecidableEq ι]

/-! ## A query carried through -/

/-- `s'` is reached from `s` by the programs' steps. -/
abbrev Runs (dict : Dictionary) (keeps : Bool) : State ι → State ι → Prop := Reach (step dict keeps) anyStep

section

variable {sems sems' : Sems} {shm shm' : Dictrec} {cl : ι → Client} {i : ι} {c c' : Client} {srv srv' : Server}

theorem Runs.client (h : c.step keeps srv.served sems shm = some (sems', shm', c')) :
    Runs dict keeps ⟨sems, shm, Function.update cl i c, srv⟩ ⟨sems', shm', Function.update cl i c', srv⟩ := by
  refine .single ⟨.client i, trivial, ?_⟩
  simp only [step, Function.update_self, h, Option.map_some, Function.update_idem]

theorem Runs.server (h : srv.step dict sems shm = some (sems', shm', srv')) :
    Runs dict keeps ⟨sems, shm, cl, srv⟩ ⟨sems', shm', cl, srv'⟩ := by
  refine .single ⟨.server, trivial, ?_⟩
  simp only [step, h, Option.map_some]

/-- A client writes what is left of its word, and its NUL. -/
theorem runs_copyWord {k n : Nat} (ha : c.attached = true) (pc : c.pc = .copyWord k)
    (hn : k + n = c.word.chars.length) (hw : shm.word.Copied c.word k) : ∃ shm', shm'.word.Holds c.word ∧
      Runs dict keeps ⟨sems, shm, Function.update cl i c, srv⟩
        ⟨sems, shm', Function.update cl i { c with pc := .alert }, srv⟩ := by
  have hput := hw.put (n := WORD) (by have := c.word.fits; omega)
  induction n generalizing k shm c with
  | zero =>
    have hnul : c.word.byte k = NUL := CStr.byte_eq_nul.2 hn.ge
    refine ⟨{ shm with word := shm.word.put k (c.word.byte k) }, ?_, .client ?_⟩
    · rw [Buf.Holds, ← hn]
      exact hput
    · simp [Client.step, ha, pc, hnul]
  | succ n ih =>
    have hne : c.word.byte k ≠ NUL := fun h => by have := CStr.byte_eq_nul.1 h; omega
    have hput' : ({ shm with word := shm.word.put k (c.word.byte k) } : Dictrec).word.Copied c.word (k + 1) := hput
    obtain ⟨shm', hw', hr⟩ := ih (c := { c with pc := .copyWord (k + 1) }) ha rfl
      (by show k + 1 + n = c.word.chars.length; omega) hput' (hput.put (by have := c.word.fits; omega))
    refine ⟨shm', hw', (Runs.client ?_).trans hr⟩
    simp [Client.step, ha, pc, hne]

/-- The server reads what is left of the word in the shared record. -/
theorem runs_read {w : CStr WORD} {k n : Nat} (pc : srv.pc = .read (w.chars.take k))
    (hn : k + n = w.chars.length) (hw : shm.word.Holds w) :
    Runs dict keeps ⟨sems, shm, cl, srv⟩ ⟨sems, shm, cl, { srv with pc := .write (reply dict w.chars) 0 }⟩ := by
  have hlen : (w.chars.take k).length = k := by rw [List.length_take]; omega
  have hlt : k < WORD := by have := w.fits; omega
  have hget : shm.word.get k = w.byte k := hw k (by omega)
  induction n generalizing k srv with
  | zero =>
    have hnul : w.byte k = NUL := CStr.byte_eq_nul.2 hn.ge
    have hall : w.chars.take k = w.chars := List.take_of_length_le hn.ge
    refine .server ?_
    simp only [Server.step, pc, hlen, hlt, if_true, hget, hnul]
    rw [hall]
  | succ n ih =>
    have hne : w.byte k ≠ NUL := fun h => by have := CStr.byte_eq_nul.1 h; omega
    have hnext : w.chars.take k ++ [w.byte k] = w.chars.take (k + 1) := by
      rw [List.take_add_one, CStr.byte, List.getD_eq_getElem?_getD, List.getElem?_eq_getElem (by omega)]
      rfl
    have hrest : Runs dict keeps ⟨sems, shm, cl, { srv with pc := .read (w.chars.take (k + 1)) }⟩
        ⟨sems, shm, cl, { srv with pc := .write (reply dict w.chars) 0 }⟩ :=
      ih rfl (by omega) (by rw [List.length_take]; omega) (by have := w.fits; omega) (hw (k + 1) (by omega))
    refine (Runs.server ?_).trans hrest
    simp only [Server.step, pc, hlen, hlt, if_true, hget, if_neg hne, hnext]

theorem runs_write {t : CStr TEXT} {k n : Nat} (pc : srv.pc = .write t k) (hn : k + n = t.chars.length) :
    ∃ shm', Runs dict keeps ⟨sems, shm, cl, srv⟩ ⟨sems, shm', cl, { srv with pc := .wait2 }⟩ := by
  induction n generalizing k shm srv with
  | zero =>
    have hnul : t.byte k = NUL := CStr.byte_eq_nul.2 hn.ge
    refine ⟨{ shm with text := shm.text.put k (t.byte k) }, .server ?_⟩
    simp only [Server.step, pc, hnul, if_true]
  | succ n ih =>
    have hne : t.byte k ≠ NUL := fun h => by have := CStr.byte_eq_nul.1 h; omega
    obtain ⟨shm', hr⟩ : ∃ shm', Runs dict keeps
        ⟨sems, { shm with text := shm.text.put k (t.byte k) }, cl, { srv with pc := .write t (k + 1) }⟩
        ⟨sems, shm', cl, { srv with pc := .wait2 }⟩ := ih rfl (by omega)
    refine ⟨shm', (Runs.server ?_).trans hr⟩
    simp only [Server.step, pc, if_neg hne]

theorem Server.semop_done {next : ServerPc} {served v : Nat} (h1 : sems 1 = v + 1) (hv : v ≤ SEMVMX)
    (ha : 0 ≤ srv.adj 1 ∧ srv.adj 1 + 1 ≤ SEMVMX) : srv.semop sems next served =
      some (Function.update sems 1 v, ⟨next, Function.update srv.adj 1 (srv.adj 1 + 1), served⟩) := by
  have hrange : -SEMVMX - 1 ≤ srv.adj 1 - -1 ∧ srv.adj 1 - -1 ≤ SEMVMX := by
    simp only [SEMVMX] at *
    omega
  rw [Server.semop, semop_undo (v := v) (by decide) rfl (by simp only [wait, h1]; omega) hv]
  rw [if_pos (by exact hrange)]
  simp only [wait, Int.sub_neg]

theorem Client.semop_grab_free {next : ClientPc} (ha : c.adj 0 = 0) (h0 : sems 0 = 1) :
    c.semop grab sems next =
      some (Function.update sems 0 0, { c with pc := next, adj := Function.update c.adj 0 1 }) := by
  rw [Client.semop, semop_undo (v := 0) (by decide) rfl (by simp [grab, h0]) (by decide)]
  simp only [grab, ha, SEMVMX]
  rfl

/-- A query of a client that has asked none before, up to the server's second
wait. -/
theorem runs_looked (dict : Dictionary) (keeps : Bool) (shm : Dictrec) (cl : ι → Client) (i : ι) (w : CStr WORD)
    (ws : List (CStr WORD)) (adj : Semadj) (n : Nat) (h0 : sems 0 = 1) (h1 : sems 1 = 0)
    (ha : 0 ≤ adj 1 ∧ adj 1 + 1 ≤ SEMVMX) :
    ∃ sems' shm' c', sems' 0 = 0 ∧ sems' 1 = 1 ∧ c'.pc = .await n ∧ c'.attached = true ∧ c'.adj 0 = 1 ∧
      Runs dict keeps ⟨sems, shm, Function.update cl i (.init (w :: ws)), ⟨.wait1, adj, n⟩⟩
        ⟨sems', shm', Function.update cl i c', ⟨.wait2, Function.update adj 1 (adj 1 + 1), n⟩⟩ := by
  let c₁ : Client := ⟨.grab, false, true, w, Buf.zero TEXT, fun _ => 0, ws, []⟩
  let c₂ : Client := { c₁ with pc := .copyWord 0, adj := Function.update c₁.adj 0 1 }
  let c₃ : Client := { c₂ with pc := .alert }
  let c₄ : Client := { c₃ with pc := .await n, adj := Function.update c₃.adj 1 (c₃.adj 1 - 2) }
  let srv₁ : Server := ⟨.read (w.chars.take 0), Function.update adj 1 (adj 1 + 1), n⟩
  let srv₂ : Server := { srv₁ with pc := .write (reply dict w.chars) 0 }
  let sems₁ : Sems := Function.update sems 0 0
  let sems₂ : Sems := Function.update sems₁ 1 (sems₁ 1 + 2)
  have hcall : (Client.init (w :: ws)).step keeps n sems shm = some (sems, shm, c₁) := rfl
  have hgrab : c₁.step keeps n sems shm = some (sems₁, shm, c₂) := by
    rw [Client.step, if_neg (by simp [c₁])]
    simp only [c₁, Client.semop_grab_free (c := c₁) rfl h0, Option.map_some]
    rfl
  have halert (shm) : c₃.step keeps n sems₁ shm = some (sems₂, shm, c₄) := by
    rw [Client.step, if_neg (by simp [c₃, c₂, c₁])]
    have hr : sems₁ 1 + 2 ≤ SEMVMX ∧ -SEMVMX - 1 ≤ c₃.adj 1 - 2 ∧ c₃.adj 1 - 2 ≤ SEMVMX := by
      simp [sems₁, h1, c₃, c₂, c₁, SEMVMX]
    simp only [c₃, Client.semop_alert c₃, if_pos hr, Option.map_some]
    rfl
  have hwait (shm) : (⟨.wait1, adj, n⟩ : Server).step dict sems₂ shm = some (Function.update sems₂ 1 1, shm, srv₁) := by
    have h2 : sems₂ 1 = 1 + 1 := by simp [sems₂, sems₁, h1]
    have hsem : (⟨.wait1, adj, n⟩ : Server).semop sems₂ (.read []) n = some (Function.update sems₂ 1 1, srv₁) :=
      Server.semop_done h2 (by decide) ha
    simp only [Server.step, hsem]
    rfl
  obtain ⟨shm₁, hw, hcopy⟩ : ∃ shm', shm'.word.Holds w ∧ Runs dict keeps
      ⟨sems₁, shm, Function.update cl i c₂, ⟨.wait1, adj, n⟩⟩
      ⟨sems₁, shm', Function.update cl i c₃, ⟨.wait1, adj, n⟩⟩ :=
    runs_copyWord (c := c₂) rfl rfl (Nat.zero_add _) (.zero _ _)
  have hread : Runs dict keeps ⟨Function.update sems₂ 1 1, shm₁, Function.update cl i c₄, srv₁⟩
      ⟨Function.update sems₂ 1 1, shm₁, Function.update cl i c₄, srv₂⟩ := runs_read rfl (Nat.zero_add _) hw
  obtain ⟨shm₂, hwrite⟩ : ∃ shm', Runs dict keeps ⟨Function.update sems₂ 1 1, shm₁, Function.update cl i c₄, srv₂⟩
      ⟨Function.update sems₂ 1 1, shm', Function.update cl i c₄, { srv₂ with pc := .wait2 }⟩ :=
    runs_write rfl (Nat.zero_add _)
  refine ⟨Function.update sems₂ 1 1, shm₂, c₄, by simp [sems₂, sems₁], Function.update_self .., rfl, rfl, rfl, ?_⟩
  exact (Runs.client hcall).trans <| (Runs.client hgrab).trans <| hcopy.trans <| (Runs.client (halert _)).trans <|
    (Runs.server (hwait _)).trans <| hread.trans hwrite

/-- From there to the client's release, the service free again. -/
theorem runs_released (dict : Dictionary) (keeps : Bool) (shm : Dictrec) (cl : ι → Client) (i : ι) (adj : Semadj)
    (n : Nat) (h0 : sems 0 = 0) (h1 : sems 1 = 1) (hc : c.pc = .await n ∧ c.attached = true ∧ c.adj 0 = 1)
    (ha : 0 ≤ adj 1 ∧ adj 1 + 1 ≤ SEMVMX) :
    ∃ sems' c', sems' 0 = 1 ∧ sems' 1 = 0 ∧
      Runs dict keeps ⟨sems, shm, Function.update cl i c, ⟨.wait2, adj, n⟩⟩
        ⟨sems', shm, Function.update cl i c', ⟨.wait1, Function.update adj 1 (adj 1 + 1), n + 1⟩⟩ := by
  let sems₁ : Sems := Function.update sems 1 0
  let c₁ : Client := { c with pc := .release }
  let srv₁ : Server := ⟨.wait1, Function.update adj 1 (adj 1 + 1), n + 1⟩
  have hz : sems₁ 0 = 0 := h0
  have hwait : (⟨.wait2, adj, n⟩ : Server).step dict sems shm = some (sems₁, shm, srv₁) := by
    have hsem : (⟨.wait2, adj, n⟩ : Server).semop sems .wait1 (n + 1) = some (sems₁, srv₁) :=
      Server.semop_done h1 (Nat.zero_le _) ha
    simp only [Server.step, hsem]
    rfl
  have hawait : c.step keeps srv₁.served sems₁ shm = some (sems₁, shm, c₁) := by
    rw [Client.step, if_neg (by simp [hc.2.1])]
    have hzero : SysProg.semop await sems₁ c.adj = .done sems₁ c.adj := semop_zero rfl rfl (Function.update_self ..)
    simp only [hc.1, Client.semop, hzero]
    rfl
  have hrelease : c₁.step keeps srv₁.served sems₁ shm =
      some (Function.update sems₁ 0 (sems₁ 0 + 1), shm,
        { c₁ with pc := .compare 0, adj := Function.update c₁.adj 0 0 }) := by
    rw [Client.step, if_neg (by simp [c₁, hc.2.1])]
    have hrel : c₁.semop release sems₁ (.compare 0) = _ := Client.semop_release hc.2.2 (by omega)
    simp only [c₁, hrel]
    rfl
  refine ⟨Function.update sems₁ 0 (sems₁ 0 + 1), { c₁ with pc := .compare 0, adj := Function.update c₁.adj 0 0 },
    by simp [hz], by simp [sems₁], ?_⟩
  exact (Runs.server hwait).trans <| (Runs.client hawait).trans (Runs.client hrelease)

theorem runs_died (h1 : sems 1 = 1) (pc : srv.pc = .wait2) (ha : srv.adj 1 = SEMVMX) :
    Runs dict keeps ⟨sems, shm, cl, srv⟩ ⟨sems, shm, cl, { srv with pc := .died }⟩ := by
  have hfull : ¬ (-SEMVMX - 1 ≤ srv.adj 1 - -1 ∧ srv.adj 1 - -1 ≤ SEMVMX) := by
    simp only [ha, SEMVMX]
    omega
  have hsemop : SysProg.semop wait sems srv.adj = .fails := by
    rw [semop_undo (v := 0) (by decide) rfl (by simp only [wait, h1]; omega) (by decide), if_neg (by exact hfull)]
  refine Runs.server ?_
  simp only [Server.step, pc, Server.semop, hsemop]
  rfl

end

/-! ## Many queries -/

/-- Clients with a word each to ask: as many of them as there are, up to
16383, can be answered one after the other. -/
theorem runs_many (dict : Dictionary) (keeps : Bool) {N : Nat} (word : Fin N → CStr WORD) (shm : Dictrec)
    {m : Nat} (hm : m ≤ 16383) (hN : m ≤ N) :
    ∃ (sems : Sems) (shm' : Dictrec) (cl : Fin N → Client) (adj : Semadj), sems 0 = 1 ∧ sems 1 = 0 ∧
      adj 1 = 2 * m ∧ (∀ i : Fin N, m ≤ i → cl i = .init [word i]) ∧
      Runs dict keeps (State.init shm (.one word)) ⟨sems, shm', cl, ⟨.wait1, adj, m⟩⟩ := by
  induction m with
  | zero => exact ⟨_, _, _, fun _ => 0, rfl, rfl, rfl, fun _ _ => rfl, .refl⟩
  | succ m ih =>
    obtain ⟨sems, shm, cl, adj, h0, h1, ha, hcl, hr⟩ := ih (by omega) (by omega)
    let i : Fin N := ⟨m, hN⟩
    have hlt : 2 * (m : Int) + 2 ≤ SEMVMX := by simp only [SEMVMX]; omega
    obtain ⟨sems₁, shm₁, c₁, h0, h1, pc, hatt, hadj, hlook⟩ := runs_looked dict keeps shm cl i (word i) [] adj m h0 h1
      (by omega)
    obtain ⟨sems₂, c₂, h0, h1, hrel⟩ := runs_released dict keeps shm₁ cl i (Function.update adj 1 (adj 1 + 1)) m h0 h1
      ⟨pc, hatt, hadj⟩ (by rw [Function.update_self]; omega)
    rw [← hcl i le_rfl, Function.update_eq_self] at hlook
    refine ⟨sems₂, shm₁, Function.update cl i c₂, _, h0, h1, ?_, ?_, hr.trans (hlook.trans hrel)⟩
    · simp only [Function.update_self]
      push_cast
      omega
    · intro j hj
      have hne : j ≠ i := fun h => by simp only [h, i] at hj; omega
      rw [Function.update_of_ne hne]
      exact hcl j (by omega)

/-- A run of the programs is one in which no process exits. -/
theorem Runs.host {s s' : State ι} (h : Runs dict keeps s s') :
    Reach (Host.step dict keeps) anyStep ⟨s, fun _ => false, false⟩ ⟨s', fun _ => false, false⟩ := by
  refine Relation.ReflTransGen.lift (fun s : State ι => (⟨s, fun _ => false, false⟩ : Host ι)) (fun a b hab => ?_) _ _ h
  obtain ⟨p, -, hp⟩ := hab
  refine ⟨.step p, trivial, ?_⟩
  cases p <;> simp [Host.step, Host.alive, hp]

/-! ## The server's waits -/

/-- The server's next step is a call of `semop` that fails. -/
def Server.Fails (srv : Server) (sems : Sems) : Prop :=
  (srv.pc = .wait1 ∨ srv.pc = .wait2) ∧ SysProg.semop wait sems srv.adj = .fails

theorem Server.Ok.fails_iff {srv : Server} (h : srv.Ok) {sems : Sems} (h1 : sems 1 ≤ SEMVMX) :
    srv.Fails sems ↔ srv.pc = .wait2 ∧ srv.served = 16383 ∧ 0 < sems 1 := by
  obtain ⟨-, ha, hs, -⟩ := h
  cases hz : sems 1 with
  | zero =>
    have hb : SysProg.semop wait sems srv.adj = .blocks := semop_blocks (by simp [wait, hz])
    simp [Server.Fails, hb]
  | succ v =>
    have hsem : SysProg.semop wait sems srv.adj = .fails ↔ _ :=
      semop_undo_fails (v := v) (by decide) rfl (by simp only [wait, hz]; omega) (by omega)
    simp only [wait, Int.sub_neg] at hsem
    simp only [Server.Fails, wait, hsem, Nat.succ_pos, and_true]
    constructor
    · intro hf
      obtain ⟨pc | pc, hn⟩ := hf
      · rw [if_pos pc] at ha
        simp only [SEMVMX] at hn
        omega
      · rw [if_neg (by simp [pc])] at ha
        simp only [SEMVMX] at hn
        exact ⟨pc, by omega⟩
    · intro hf
      obtain ⟨pc, hserved⟩ := hf
      rw [if_neg (by simp [pc])] at ha
      refine ⟨.inr pc, ?_⟩
      simp only [SEMVMX]
      omega

/-- No step is the server's second wait of its 16384th query. -/
def Below (h : Host ι) : Event ι → Prop
  | .step .server => ¬ (h.service.server.pc = .wait2 ∧ h.service.server.served = 16383)
  | .step (.client _) | .exit _ | .down => True

instance (h : Host ι) : (e : Event ι) → Decidable (Below h e)
  | .step .server => inferInstanceAs (Decidable (¬ (_ ∧ _)))
  | .step (.client _) | .exit _ | .down => .isTrue trivial

/-- The server has died of no failed wait, and its adjustment is in range. -/
def Server.Survives (srv : Server) : Prop := srv.pc ≠ .died ∧ -SEMVMX - 1 ≤ srv.adj 1 ∧ srv.adj 1 ≤ SEMVMX

theorem Server.Ok.survives {srv : Server} (h : srv.Ok) (hd : srv.pc ≠ .died) : srv.Survives := by
  obtain ⟨-, ha, hs, -⟩ := h
  refine ⟨hd, ?_⟩
  simp only [SEMVMX]
  split at ha <;> omega

theorem Server.semop_died {srv srv' : Server} {sems sems' : Sems} {next : ServerPc} {served : Nat}
    (hr : srv.semop sems next served = some (sems', srv')) (hn : next ≠ .died) (hd : srv'.pc = .died) :
    SysProg.semop wait sems srv.adj = .fails := by
  unfold Server.semop at hr
  split at hr
  · cases hr
    exact absurd hd hn
  · cases hr
  · next he => exact he

/-- A server that dies does so at a wait that fails. -/
theorem Server.fails_of_died {srv srv' : Server} {sems sems' : Sems} {shm shm' : Dictrec}
    (hs : srv.step dict sems shm = some (sems', shm', srv')) (hd : srv'.pc = .died) : srv.Fails sems := by
  simp only [Server.step] at hs
  split at hs
  · next pc =>
    obtain ⟨r, hr, hs⟩ := Option.map_eq_some_iff.1 hs
    cases hs
    exact ⟨.inl pc, Server.semop_died hr (by simp) hd⟩
  · split at hs
    · cases hs
      split at hd <;> cases hd
    · cases hs
  · cases hs
    split at hd <;> cases hd
  · next pc =>
    obtain ⟨r, hr, hs⟩ := Option.map_eq_some_iff.1 hs
    cases hs
    exact ⟨.inr pc, Server.semop_died hr (by simp) hd⟩
  · cases hs

/-- A step other than the server's last wait leaves it alive. -/
theorem Host.Inv.alive {h h' : Host ι} (hi : h.Inv) (hl : h.service.server.pc ≠ .died) {e : Event ι} (hok : Below h e)
    (hs : h.step dict keeps e = some h') : h'.service.server.pc ≠ .died := by
  cases e with
  | step p =>
    simp only [Host.step] at hs
    split at hs
    · obtain ⟨s', hs', rfl⟩ := Option.map_eq_some_iff.1 hs
      cases p with
      | client i =>
        simp only [Shm.step, Option.map_eq_some_iff] at hs'
        obtain ⟨_, -, rfl⟩ := hs'
        exact hl
      | server =>
        simp only [Shm.step, Option.map_eq_some_iff] at hs'
        obtain ⟨_, hs', rfl⟩ := hs'
        intro hd
        obtain ⟨pc, hserved, -⟩ := (hi.server.fails_iff hi.sem1).1 (Server.fails_of_died hs' hd)
        exact hok ⟨pc, hserved⟩
    · cases hs
  | exit i =>
    simp only [Host.step] at hs
    split at hs
    · cases hs
      exact hl
    · cases hs
  | down =>
    simp only [Host.step] at hs
    split at hs
    · cases hs
      exact hl
    · cases hs

/-- In every state of every run the one call of the server's `semop` that
fails is the second wait of its 16384th query; before it the server is alive
with its adjustment in range. -/
theorem server_survives_iff (shm : Dictrec) (words : ι → List (CStr WORD)) :
    (∀ h, Reach (Host.step dict keeps) anyStep (.init shm words) h →
      (h.service.server.Fails h.service.sems ↔
        h.service.server.pc = .wait2 ∧ h.service.server.served = 16383 ∧ 0 < h.service.sems 1)) ∧
    (∀ h, Reach (Host.step dict keeps) Below (.init shm words) h → h.service.server.Survives) := by
  constructor
  · intro h hr
    have hi := (Host.Inv.init shm words).reach hr
    exact hi.server.fails_iff hi.sem1
  · intro h hr
    have hi : h.Inv ∧ h.service.server.pc ≠ .died :=
      hr.invariant (I := fun h => h.Inv ∧ h.service.server.pc ≠ .died)
        (fun _ _ _ hi hok hs => ⟨hi.1.step hs, hi.1.alive hi.2 hok hs⟩)
        ⟨.init shm words, by simp [Host.init]⟩
    exact hi.1.server.survives hi.2

/-- A server at the second wait of its first query, and one that has answered
it. -/
theorem server_survives_first :
    (∃ h, exec (Host.step twoWords false) anyStep (.init Dictrec.blank twoClients.words) (firstAsks.take 10) = some h ∧
      h.service.server.pc = .wait2 ∧ ¬ h.service.server.Fails h.service.sems) ∧
    (∃ h, exec (Host.step twoWords false) Below (.init Dictrec.blank twoClients.words) firstAsks = some h ∧
      h.service.server.served = 1 ∧ h.service.server.Survives) := by
  constructor
  · have hrun : (exec (Host.step twoWords false) anyStep (.init Dictrec.blank twoClients.words) (firstAsks.take 10)).map
        (fun h => (h.service.server.pc, h.service.server.served)) = some (.wait2, 0) := by
      decide +kernel
    obtain ⟨h, hs, hh⟩ := Option.map_eq_some_iff.1 hrun
    obtain ⟨pc, hserved⟩ := Prod.mk.inj hh
    refine ⟨h, hs, pc, fun hf => ?_⟩
    have := ((server_survives_iff Dictrec.blank twoClients.words).1 h (reach_of_exec hs)).1 hf
    omega
  · have hrun : (exec (Host.step twoWords false) Below (.init Dictrec.blank twoClients.words) firstAsks).map
        (·.service.server.served) = some 1 := by
      decide +kernel
    obtain ⟨h, hs, hserved⟩ := Option.map_eq_some_iff.1 hrun
    exact ⟨h, hs, hserved, (server_survives_iff Dictrec.blank twoClients.words).2 h (reach_of_exec hs)⟩

/-- Asked by 16384 clients, one word each, the server dies under the last. -/
theorem server_dies :
    ¬ ∀ h, Reach (Host.step twoWords false) anyStep
        (.init Dictrec.blank (Queries.one fun _ : Fin 16384 => ⟨[97], by decide, by decide⟩).words) h →
      h.service.server.Survives := by
  obtain ⟨sems, shm, cl, adj, h0, h1, ha, hcl, hr⟩ := runs_many twoWords false
    (fun _ : Fin 16384 => ⟨[97], by decide, by decide⟩) Dictrec.blank le_rfl (Nat.le_succ 16383)
  have hlast : cl (Fin.last 16383) = _ := hcl (Fin.last 16383) le_rfl
  obtain ⟨sems₁, shm₁, c₁, -, h1, -, -, -, hlook⟩ := runs_looked twoWords false shm cl (Fin.last 16383)
    ⟨[97], by decide, by decide⟩ [] adj 16383 h0 h1 (by simp only [ha, SEMVMX]; omega)
  rw [← hlast, Function.update_eq_self] at hlook
  have hdied : Runs twoWords false
      ⟨sems₁, shm₁, Function.update cl (Fin.last 16383) c₁, ⟨.wait2, Function.update adj 1 (adj 1 + 1), 16383⟩⟩
      ⟨sems₁, shm₁, Function.update cl (Fin.last 16383) c₁, ⟨.died, Function.update adj 1 (adj 1 + 1), 16383⟩⟩ :=
    runs_died h1 rfl (by simp only [Function.update_self, ha, SEMVMX]; omega)
  intro h
  exact (h _ (Runs.host (hr.trans (hlook.trans hdied)))).1 rfl

end SysProg.Shm
