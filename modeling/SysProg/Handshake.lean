/-
The handshake on the two semaphores: the phases a query goes through, which
every step keeps to (`Inv.step`), and what they say of the semaphores, the
clients and the shared word in every state.
-/
import SysProg.Shm
import Mathlib.Data.Fintype.Card

namespace SysProg.Shm

variable {dict : Dictionary} {keeps : Bool}

/-! ## What a step of a client does -/

/-- The alerts a client has sent. -/
def Client.alerts (c : Client) : Nat :=
  c.past.length + match c.pc with
    | .await _ | .release | .compare _ | .copyText _ => 1
    | _ => 0

/-- The words of its calls, past and present and to come. -/
def Client.words (c : Client) : List (CStr WORD) :=
  c.past.map (·.1) ++ ((if c.pc = .idle then [] else [c.word]) ++ c.todo)

/-- A client's adjustments are those of the operations it has made. -/
structure Client.Ok (words : List (CStr WORD)) (c : Client) : Prop where
  adj0 : c.adj 0 = if c.pc.held then 1 else 0
  adj1 : c.adj 1 = -2 * c.alerts
  asks : c.words = words
  few : words.length ≤ 16384

/-- The steps of a client whose adjustments are as they should be, while the
semaphores are in range. -/
inductive Client.Move (served : Nat) (sems : Sems) (shm : Dictrec) (c : Client) :
    Sems → Dictrec → Client → Prop
  | call {w ws att} (pc : c.pc = .idle) (todo : c.todo = w :: ws) : Move served sems shm c sems shm
      { c with pc := .grab, first_time := false, attached := att, word := w, todo := ws }
  | grab (pc : c.pc = .grab) (sem : sems 0 = 1) : Move served sems shm c (Function.update sems 0 0) shm
      { c with pc := .copyWord 0, adj := Function.update c.adj 0 1 }
  | copyWord {k} (pc : c.pc = .copyWord k) : Move served sems shm c sems
      { shm with word := shm.word.put k (c.word.byte k) }
      { c with pc := if c.word.byte k = NUL then .alert else .copyWord (k + 1) }
  | alert (pc : c.pc = .alert) : Move served sems shm c (Function.update sems 1 (sems 1 + 2)) shm
      { c with pc := .await served, adj := Function.update c.adj 1 (c.adj 1 - 2) }
  | await {n} (pc : c.pc = .await n) (sem : sems 1 = 0) : Move served sems shm c sems shm { c with pc := .release }
  | release (pc : c.pc = .release) : Move served sems shm c (Function.update sems 0 (sems 0 + 1)) shm
      { c with pc := .compare 0, adj := Function.update c.adj 0 0 }
  | differs {k} (pc : c.pc = .compare k) (x : shm.text.get k ≠ XXXX.byte k) :
      Move served sems shm c sems shm { c with pc := .copyText 0 }
  | same {k} (pc : c.pc = .compare k) (x : shm.text.get k = XXXX.byte k) (nul : shm.text.get k ≠ NUL) :
      Move served sems shm c sems shm { c with pc := .compare (k + 1) }
  | absent {k} (pc : c.pc = .compare k) (x : shm.text.get k = XXXX.byte k) (nul : shm.text.get k = NUL) :
      Move served sems shm c sems shm (c.return (.NOTFOUND, none))
  | copyText {k} (pc : c.pc = .copyText k) (lt : k < TEXT) (nul : shm.text.get k ≠ NUL) :
      Move served sems shm c sems shm { c with text := c.text.put k (shm.text.get k), pc := .copyText (k + 1) }
  | found {k} (pc : c.pc = .copyText k) (lt : k < TEXT) (nul : shm.text.get k = NUL) :
      Move served sems shm c sems shm
        (Client.return { c with text := c.text.put k NUL } (.FOUND, some (c.text.put k NUL).str))

section

variable {ws : List (CStr WORD)} {c : Client} {sems : Sems} {next : ClientPc}

theorem Client.semop_grab (ha : c.adj 0 = 0) (h0 : sems 0 ≤ 1) {r : Sems × Client}
    (hr : c.semop grab sems next = some r) :
    sems 0 = 1 ∧ r = (Function.update sems 0 0, { c with pc := next, adj := Function.update c.adj 0 1 }) := by
  rcases (by omega : sems 0 = 0 ∨ sems 0 = 1) with hs | hs
  · rw [Client.semop, semop_blocks (by simp [grab, hs])] at hr
    cases hr
  · rw [Client.semop, semop_undo (v := 0) (by decide) rfl (by simp [grab, hs]) (by decide)] at hr
    simp only [grab, ha, SEMVMX] at hr
    cases hr
    exact ⟨hs, rfl⟩

/-- An alert never blocks; it fails when its semaphore or its adjustment
would leave its range. -/
theorem Client.semop_alert (c : Client) (sems : Sems) (next : ClientPc) :
    c.semop alert sems next =
      if sems 1 + 2 ≤ SEMVMX ∧ -SEMVMX - 1 ≤ c.adj 1 - 2 ∧ c.adj 1 - 2 ≤ SEMVMX then
        some (Function.update sems 1 (sems 1 + 2),
          { c with pc := next, adj := Function.update c.adj 1 (c.adj 1 - 2) })
      else some (sems, { c with pc := next }) := by
  by_cases hv : sems 1 + 2 ≤ SEMVMX
  · rw [Client.semop, semop_undo (v := sems 1 + 2) (by decide) rfl (by simp [alert]) hv]
    by_cases ha : -SEMVMX - 1 ≤ c.adj 1 - 2 ∧ c.adj 1 - 2 ≤ SEMVMX
    · rw [if_pos (by simpa only [alert] using ha), if_pos ⟨hv, ha⟩]
      rfl
    · rw [if_neg (by simpa only [alert] using ha), if_neg fun h => ha h.2]
  · rw [Client.semop, semop_fails (v := sems 1 + 2) (by decide) (by simp [alert]) (by omega), if_neg fun h => hv h.1]

theorem Client.semop_await {r : Sems × Client} (hr : c.semop await sems next = some r) :
    sems 1 = 0 ∧ r = (sems, { c with pc := next }) := by
  by_cases hs : sems 1 = 0
  · rw [Client.semop, semop_zero rfl rfl hs] at hr
    cases hr
    exact ⟨hs, rfl⟩
  · rw [Client.semop, semop_blocks (.inl ⟨rfl, hs⟩)] at hr
    cases hr

theorem Client.semop_release (ha : c.adj 0 = 1) (h0 : sems 0 ≤ 1) :
    c.semop release sems next =
      some (Function.update sems 0 (sems 0 + 1), { c with pc := next, adj := Function.update c.adj 0 0 }) := by
  rw [Client.semop, semop_undo (v := sems 0 + 1) (by decide) rfl (by simp [release]) (by simp only [SEMVMX]; omega)]
  simp only [release, ha, SEMVMX]
  rfl

/-- A step of a client whose adjustment of semaphore 0 is as it should be,
taken apart: one of its moves, or an alert that fails. -/
theorem Client.acts (ha : c.adj 0 = if c.pc.held then 1 else 0) (h0 : sems 0 ≤ 1) {served : Nat}
    {shm shm' : Dictrec} {sems' : Sems} {c' : Client}
    (hs : c.step keeps served sems shm = some (sems', shm', c')) :
    Client.Move served sems shm c sems' shm' c' ∨
      (c.pc = .alert ∧ ¬ (sems 1 + 2 ≤ SEMVMX ∧ -SEMVMX - 1 ≤ c.adj 1 - 2 ∧ c.adj 1 - 2 ≤ SEMVMX) ∧
        sems' = sems ∧ shm' = shm ∧ c' = { c with pc := .await served }) := by
  simp only [Client.step] at hs
  split at hs
  · cases hs
  · split at hs
    · next pc =>
      split at hs
      · cases hs
      · next todo => cases hs; exact .inl (.call pc todo)
    · next pc =>
      obtain ⟨r, hr, hs⟩ := Option.map_eq_some_iff.1 hs
      rw [pc] at ha
      obtain ⟨sem, rfl⟩ := Client.semop_grab ha h0 hr
      cases hs
      exact .inl (.grab pc sem)
    · next pc => cases hs; exact .inl (.copyWord pc)
    · next pc =>
      rw [Client.semop_alert] at hs
      split at hs
      · cases hs
        exact .inl (.alert pc)
      · next hn =>
        cases hs
        exact .inr ⟨pc, hn, rfl, rfl, rfl⟩
    · next pc =>
      obtain ⟨r, hr, hs⟩ := Option.map_eq_some_iff.1 hs
      obtain ⟨sem, rfl⟩ := Client.semop_await hr
      cases hs
      exact .inl (.await pc sem)
    · next pc =>
      rw [pc] at ha
      rw [Client.semop_release ha h0] at hs
      cases hs
      exact .inl (.release pc)
    · next k pc =>
      by_cases hx : shm.text.get k = XXXX.byte k
      · rw [if_neg (not_not.2 hx)] at hs
        split at hs
        · next hn => cases hs; exact .inl (.absent pc hx hn)
        · next hn => cases hs; exact .inl (.same pc hx hn)
      · rw [if_pos hx] at hs
        cases hs
        exact .inl (.differs pc hx)
    · next k pc =>
      split at hs
      · next hk =>
        split at hs
        · next hn => rw [hn] at hs; cases hs; exact .inl (.found pc hk hn)
        · next hn => cases hs; exact .inl (.copyText pc hk hn)
      · cases hs

/-- The alerts of a client asking few enough words do not fail. -/
theorem Client.Ok.alert (h : c.Ok ws) (pc : c.pc = .alert) (h1 : sems 1 ≤ 2) :
    sems 1 + 2 ≤ SEMVMX ∧ -SEMVMX - 1 ≤ c.adj 1 - 2 ∧ c.adj 1 - 2 ≤ SEMVMX := by
  have ha : c.adj 1 = -2 * (c.past.length : Int) := by rw [h.adj1, Client.alerts, pc]; rfl
  have hl : c.past.length + 1 ≤ 16384 := by
    have := congrArg List.length h.asks
    have := h.few
    simp only [Client.words, pc, List.length_append, List.length_map, reduceCtorEq, if_false, List.length_singleton]
      at *
    omega
  simp only [ha, SEMVMX]
  omega

theorem Client.move (h : c.Ok ws) (h0 : sems 0 ≤ 1) (h1 : sems 1 ≤ 2) {served : Nat}
    {shm shm' : Dictrec} {sems' : Sems} {c' : Client}
    (hs : c.step keeps served sems shm = some (sems', shm', c')) :
    Client.Move served sems shm c sems' shm' c' := by
  rcases Client.acts h.adj0 h0 hs with hm | ⟨pc, hn, -⟩
  · exact hm
  · exact absurd (h.alert pc h1) hn

end

/-- A client's step keeps its adjustments as they should be. -/
theorem Client.Move.ok {served : Nat} {sems sems' : Sems} {shm shm' : Dictrec} {c c' : Client}
    {ws : List (CStr WORD)} (h : Client.Move served sems shm c sems' shm' c') (hc : c.Ok ws) :
    c'.Ok ws := by
  obtain ⟨h0, h1, ha, hf⟩ := hc
  subst ha
  cases h with
  | copyWord pc =>
    split
    all_goals
      rw [pc] at h0
      refine ⟨h0, ?_, ?_, hf⟩
      · simpa [Client.alerts, pc] using h1
      · simp [Client.words, pc]
  | alert pc =>
    rw [pc] at h0
    simp only [Client.alerts, pc] at h1
    refine ⟨h0, ?_, ?_, hf⟩
    · simp only [Client.alerts, Function.update_self, h1]
      omega
    · simp [Client.words, pc]
  | call pc | grab pc | await pc | release pc | differs pc | same pc | absent pc | copyText pc | found pc =>
    rw [pc] at h0
    simp only [Client.alerts, pc] at h1
    refine ⟨?_, ?_, ?_, hf⟩
    · simp_all [Client.return, ClientPc.held]
    · simp_all [Client.return, Client.alerts]
    · simp_all [Client.return, Client.words]

/-! ## What a step of the server does -/

/-- The steps of the server, while the semaphores are in range. -/
inductive Server.Move (dict : Dictionary) (sems : Sems) (shm : Dictrec) (srv : Server) :
    Sems → Dictrec → Server → Prop
  | wait1 {v adj} (pc : srv.pc = .wait1) (sem : sems 1 = v + 1) :
      Move dict sems shm srv (Function.update sems 1 v) shm ⟨.read [], adj, srv.served⟩
  | read {acc} (pc : srv.pc = .read acc) (lt : acc.length < WORD) (nul : shm.word.get acc.length ≠ NUL) :
      Move dict sems shm srv sems shm { srv with pc := .read (acc ++ [shm.word.get acc.length]) }
  | readEnd {acc} (pc : srv.pc = .read acc) (lt : acc.length < WORD) (nul : shm.word.get acc.length = NUL) :
      Move dict sems shm srv sems shm { srv with pc := .write (reply dict acc) 0 }
  | write {t k} (pc : srv.pc = .write t k) : Move dict sems shm srv sems
      { shm with text := shm.text.put k (t.byte k) }
      { srv with pc := if t.byte k = NUL then .wait2 else .write t (k + 1) }
  | wait2 {v adj} (pc : srv.pc = .wait2) (sem : sems 1 = v + 1) :
      Move dict sems shm srv (Function.update sems 1 v) shm ⟨.wait1, adj, srv.served + 1⟩
  | die (pc : srv.pc = .wait1 ∨ srv.pc = .wait2) (sem : 0 < sems 1) :
      Move dict sems shm srv sems shm { srv with pc := .died }

/-- A wait of the server: it takes one from semaphore 1, and its adjustment
grows by one; with that out of range the server is in `DIE`. -/
theorem Server.semop_wait {srv : Server} {sems : Sems} {next : ServerPc} {served : Nat}
    {r : Sems × Server} (h1 : sems 1 ≤ SEMVMX) (hr : srv.semop sems next served = some r) :
    ∃ v, sems 1 = v + 1 ∧
      ((srv.adj 1 + 1 ≤ SEMVMX ∧
          r = (Function.update sems 1 v, ⟨next, Function.update srv.adj 1 (srv.adj 1 + 1), served⟩)) ∨
        (¬ (-SEMVMX - 1 ≤ srv.adj 1 + 1 ∧ srv.adj 1 + 1 ≤ SEMVMX) ∧ r = (sems, { srv with pc := .died }))) := by
  cases hs : sems 1 with
  | zero =>
    rw [Server.semop, semop_blocks (by simp [wait, hs])] at hr
    cases hr
  | succ v =>
    have he : SysProg.semop wait sems srv.adj =
        if -SEMVMX - 1 ≤ srv.adj 1 + 1 ∧ srv.adj 1 + 1 ≤ SEMVMX then
          .done (Function.update sems 1 v) (Function.update srv.adj 1 (srv.adj 1 + 1))
        else .fails := by
      rw [semop_undo (v := v) (by decide) rfl (by simp only [wait, hs]; omega) (by omega)]
      simp only [wait, Int.sub_neg]
    rw [Server.semop, he] at hr
    refine ⟨v, rfl, ?_⟩
    by_cases ha : -SEMVMX - 1 ≤ srv.adj 1 + 1 ∧ srv.adj 1 + 1 ≤ SEMVMX
    · rw [if_pos ha] at hr
      cases hr
      exact .inl ⟨ha.2, rfl⟩
    · rw [if_neg ha] at hr
      cases hr
      exact .inr ⟨ha, rfl⟩

theorem Server.move {srv srv' : Server} {sems sems' : Sems} {shm shm' : Dictrec} (h1 : sems 1 ≤ SEMVMX)
    (hs : srv.step dict sems shm = some (sems', shm', srv')) : Server.Move dict sems shm srv sems' shm' srv' := by
  simp only [Server.step] at hs
  split at hs
  · next pc =>
    obtain ⟨r, hr, hs⟩ := Option.map_eq_some_iff.1 hs
    obtain ⟨v, sem, ⟨-, rfl⟩ | ⟨-, rfl⟩⟩ := Server.semop_wait h1 hr
    · cases hs; exact .wait1 pc sem
    · cases hs; exact .die (.inl pc) (by omega)
  · next acc pc =>
    split at hs
    · next lt =>
      split at hs
      · next nul => cases hs; exact .readEnd pc lt nul
      · next nul => cases hs; exact .read pc lt nul
    · cases hs
  · next t k pc => cases hs; exact .write pc
  · next pc =>
    obtain ⟨r, hr, hs⟩ := Option.map_eq_some_iff.1 hs
    obtain ⟨v, sem, ⟨-, rfl⟩ | ⟨-, rfl⟩⟩ := Server.semop_wait h1 hr
    · cases hs; exact .wait2 pc sem
    · cases hs; exact .die (.inr pc) (by omega)
  · cases hs

/-! ## The phases of a query -/

/-- What the server has done between its two waits for the word `w`. -/
inductive Looking (dict : Dictionary) (text : Buf TEXT) (w : CStr WORD) : ServerPc → Prop
  | read {acc} (eq : acc = w.chars.take acc.length) (le : acc.length ≤ w.chars.length) :
      Looking dict text w (.read acc)
  | write {k} (le : k ≤ (reply dict w.chars).chars.length) (copied : text.Copied (reply dict w.chars) k) :
      Looking dict text w (.write (reply dict w.chars) k)
  | wait2 (ans : text.Holds (reply dict w.chars)) : Looking dict text w .wait2

/-- The phases of the query of a client that holds the service, from its grab
to its release. -/
inductive Held (dict : Dictionary) (sem1 : Nat) (shm : Dictrec) (srv : Server) (c : Client) : Prop
  | copying {k} (pc : c.pc = .copyWord k) (le : k ≤ c.word.chars.length) (word : shm.word.Copied c.word k)
      (sem : sem1 = 0) (loop : srv.pc = .wait1)
  | copied (pc : c.pc = .alert) (word : shm.word.Holds c.word) (sem : sem1 = 0) (loop : srv.pc = .wait1)
  | alerted (pc : c.pc = .await srv.served) (word : shm.word.Holds c.word) (sem : sem1 = 2) (loop : srv.pc = .wait1)
  | looking (pc : c.pc = .await srv.served) (word : shm.word.Holds c.word) (sem : sem1 = 1)
      (loop : Looking dict shm.text c.word srv.pc)
  | dead (pc : c.pc = .await srv.served) (sem : sem1 = 1 ∨ sem1 = 2) (loop : srv.pc = .died)
  | answered {n} (pc : c.pc = .await n) (text : shm.text.Holds (reply dict c.word.chars)) (sem : sem1 = 0)
      (loop : srv.pc = .wait1) (served : srv.served = n + 1)
  | passed (pc : c.pc = .release) (text : shm.text.Holds (reply dict c.word.chars)) (sem : sem1 = 0)
      (loop : srv.pc = .wait1)

variable {ι : Type}

/-- The service is free, or in a phase of the query of the one client that
holds it. -/
inductive Phase (dict : Dictionary) (s : State ι) : Prop
  | free (sem0 : s.sems 0 = 1) (sem1 : s.sems 1 = 0) (srv : s.server.pc = .wait1)
      (none : ∀ i, (s.clients i).pc.held = false)
  | held (i : ι) (sem0 : s.sems 0 = 0) (here : (s.clients i).pc.held = true)
      (only : ∀ j, j ≠ i → (s.clients j).pc.held = false)
      (phase : Held dict (s.sems 1) s.shm s.server (s.clients i))

theorem Phase.sem0_le {s : State ι} (h : Phase dict s) : s.sems 0 ≤ 1 := by
  cases h with
  | free sem0 => exact sem0.le
  | held i sem0 => exact sem0.le.trans (Nat.zero_le 1)

theorem Held.sem1_le {sem1 : Nat} {shm : Dictrec} {srv : Server} {c : Client}
    (h : Held dict sem1 shm srv c) :
    sem1 ≤ 2 := by
  cases h with
  | dead _ sem => omega
  | copying _ _ _ sem | copied _ _ sem | alerted _ _ sem | looking _ _ sem | answered _ _ sem | passed _ _ sem => omega

theorem Phase.sem1_le {s : State ι} (h : Phase dict s) : s.sems 1 ≤ 2 := by
  cases h with
  | free _ sem1 => omega
  | held i _ _ _ phase => exact phase.sem1_le

theorem Phase.of_held {s : State ι} (h : Phase dict s) {i : ι} (hi : (s.clients i).pc.held = true) :
    Held dict (s.sems 1) s.shm s.server (s.clients i) := by
  cases h with
  | free _ _ _ none => rw [none i] at hi; cases hi
  | held j _ _ only phase =>
    obtain rfl : i = j := by
      by_contra hj
      rw [only i hj] at hi
      cases hi
    exact phase

/-- The next byte of the word is written. -/
theorem Held.copyWord {sem1 : Nat} {shm : Dictrec} {srv : Server} {c : Client} {k : Nat}
    (pc : c.pc = .copyWord k) (h : Held dict sem1 shm srv c) :
    Held dict sem1 { shm with word := shm.word.put k (c.word.byte k) } srv
      { c with pc := if c.word.byte k = NUL then .alert else .copyWord (k + 1) } := by
  cases h with
  | copying pc' le copied sem srv =>
    rw [pc, ClientPc.copyWord.injEq] at pc'
    subst pc'
    have hk : k < WORD := by have := c.word.fits; omega
    have hput := copied.put hk
    split
    · next nul =>
      obtain rfl : k = c.word.chars.length := le_antisymm le (CStr.byte_eq_nul.1 nul)
      exact .copied rfl hput sem srv
    · next nul =>
      rw [CStr.byte_eq_nul] at nul
      exact .copying rfl (by show k + 1 ≤ c.word.chars.length; omega) hput sem srv
  | copied pc' | alerted pc' | looking pc' | dead pc' | answered pc' | passed pc' => rw [pc] at pc'; cases pc'

/-- The server's steps, while a client holds the service. -/
theorem Held.server {sems sems' : Sems} {shm shm' : Dictrec} {srv srv' : Server} {c : Client}
    (h : Held dict (sems 1) shm srv c) (hm : Server.Move dict sems shm srv sems' shm' srv') :
    Held dict (sems' 1) shm' srv' c ∧ sems' 0 = sems 0 ∧ shm'.word = shm.word := by
  have hidle (sem : sems 1 = 0) (pc : srv.pc = .wait1) : False := by
    cases hm with
    | wait1 _ sem' => omega
    | die _ sem' => omega
    | read pc' | readEnd pc' | write pc' | wait2 pc' => rw [pc] at pc'; cases pc'
  cases h with
  | copying _ _ _ sem pc | copied _ _ sem pc | answered _ _ sem pc | passed _ _ sem pc =>
    exact (hidle sem pc).elim
  | dead cpc sem pc =>
    cases hm with
    | die pc' => rw [pc] at pc'; cases pc' <;> contradiction
    | wait1 pc' | read pc' | readEnd pc' | write pc' | wait2 pc' => rw [pc] at pc'; cases pc'
  | alerted cpc word sem pc =>
    cases hm with
    | @wait1 v adj _ sem' =>
      obtain rfl : v = 1 := by omega
      exact ⟨.looking cpc word (Function.update_self ..) (.read rfl (Nat.zero_le _)), rfl, rfl⟩
    | die _ _ => exact ⟨.dead cpc (.inr sem) rfl, rfl, rfl⟩
    | read pc' | readEnd pc' | write pc' | wait2 pc' => rw [pc] at pc'; cases pc'
  | looking cpc word sem look =>
    have hfits := c.word.fits
    cases hm with
    | wait1 pc => rw [pc] at look; cases look
    | @read acc pc lt nul =>
      rw [pc] at look
      cases look with
      | read eq le =>
        have hb := word acc.length (by omega)
        rw [hb] at nul ⊢
        have hlt : acc.length < c.word.chars.length := by rw [ne_eq, CStr.byte_eq_nul] at nul; omega
        refine ⟨.looking cpc word sem (.read ?_ (by rw [List.length_append]; exact hlt)), rfl, rfl⟩
        rw [List.length_append, List.length_singleton, List.take_add_one, ← eq, CStr.byte,
          List.getD_eq_getElem?_getD, List.getElem?_eq_getElem hlt]
        rfl
    | @readEnd acc pc lt nul =>
      rw [pc] at look
      cases look with
      | read eq le =>
        have hb := word acc.length (by omega)
        rw [hb, CStr.byte_eq_nul] at nul
        obtain rfl : acc = c.word.chars := by rw [eq, List.take_of_length_le nul]
        exact ⟨.looking cpc word sem (.write (Nat.zero_le _) (.zero _ _)), rfl, rfl⟩
    | @write t k pc =>
      rw [pc] at look
      cases look with
      | write le copied =>
        have hk : k < TEXT := by have := (reply dict c.word.chars).fits; omega
        have hput := copied.put hk
        refine ⟨.looking cpc word sem ?_, rfl, rfl⟩
        split
        · next nul =>
          obtain rfl : k = (reply dict c.word.chars).chars.length := le_antisymm le (CStr.byte_eq_nul.1 nul)
          exact .wait2 hput
        · next nul =>
          rw [CStr.byte_eq_nul] at nul
          exact .write (by omega) hput
    | @wait2 v adj pc sem' =>
      rw [pc] at look
      cases look with
      | wait2 text =>
        obtain rfl : v = 0 := by omega
        exact ⟨.answered cpc text (Function.update_self ..) rfl rfl, rfl, rfl⟩
    | die _ _ => exact ⟨.dead cpc (.inl sem) rfl, rfl, rfl⟩

/-- The steps of the client that holds the service: it still does, or has
released it. -/
theorem Held.client {sems sems' : Sems} {shm shm' : Dictrec} {srv : Server} {c c' : Client}
    (h : Held dict (sems 1) shm srv c) (sem0 : sems 0 = 0)
    (hm : Client.Move srv.served sems shm c sems' shm' c') :
    (c'.pc.held = true ∧ sems' 0 = 0 ∧ Held dict (sems' 1) shm' srv c') ∨
      (c'.pc.held = false ∧ sems' 0 = 1 ∧ sems' 1 = 0 ∧ srv.pc = .wait1) := by
  cases hm with
  | copyWord pc =>
    refine .inl ⟨?_, sem0, h.copyWord pc⟩
    split <;> rfl
  | alert pc =>
    cases h with
    | copied _ word sem loop =>
      exact .inl ⟨rfl, sem0, .alerted rfl word (by rw [Function.update_self, sem]) loop⟩
    | copying pc' | alerted pc' | looking pc' | dead pc' | answered pc' | passed pc' => rw [pc] at pc'; cases pc'
  | await pc sem =>
    cases h with
    | answered _ text sem loop => exact .inl ⟨rfl, sem0, .passed rfl text sem loop⟩
    | alerted _ _ sem' | looking _ _ sem' | dead _ sem' => omega
    | copying pc' | copied pc' | passed pc' => rw [pc] at pc'; cases pc'
  | release pc =>
    cases h with
    | passed _ _ sem loop => exact .inr ⟨rfl, by rw [Function.update_self, sem0], sem, loop⟩
    | copying pc' | copied pc' | alerted pc' | looking pc' | dead pc' | answered pc' => rw [pc] at pc'; cases pc'
  | call pc | grab pc | differs pc | same pc | absent pc | copyText pc | found pc =>
    cases h with
    | copying pc' | copied pc' | alerted pc' | looking pc' | dead pc' | answered pc' | passed pc' =>
      rw [pc] at pc'; cases pc'

/-- The steps of a client that does not hold the service: it grabs it, or
touches nothing others see. -/
theorem Client.Move.free {served : Nat} {sems sems' : Sems} {shm shm' : Dictrec} {c c' : Client}
    (hm : Client.Move served sems shm c sems' shm' c') (h : c.pc.held = false) :
    (sems 0 = 1 ∧ c'.pc = .copyWord 0 ∧ sems' = Function.update sems 0 0 ∧ shm' = shm) ∨
      (c'.pc.held = false ∧ sems' = sems ∧ shm' = shm) := by
  cases hm with
  | grab pc sem => exact .inl ⟨sem, rfl, rfl, rfl⟩
  | copyWord pc | alert pc | await pc | release pc => rw [pc] at h; cases h
  | call | differs | same | absent | copyText | found => exact .inr ⟨rfl, rfl, rfl⟩

theorem Phase.server {s : State ι} (h : Phase dict s) {sems' : Sems} {shm' : Dictrec}
    {srv' : Server} (hm : Server.Move dict s.sems s.shm s.server sems' shm' srv') :
    Phase dict { s with sems := sems', shm := shm', server := srv' } := by
  cases h with
  | free _ sem1 loop =>
    cases hm with
    | wait1 _ sem | die _ sem => omega
    | read pc | readEnd pc | write pc | wait2 pc => rw [loop] at pc; cases pc
  | held i sem0 here only phase =>
    obtain ⟨hh, h0, -⟩ := phase.server hm
    exact .held i (h0.trans sem0) here only hh

theorem Phase.client [DecidableEq ι] {s : State ι} (h : Phase dict s) (i : ι) {sems' : Sems}
    {shm' : Dictrec} {c' : Client}
    (hm : Client.Move s.server.served s.sems s.shm (s.clients i) sems' shm' c') :
    Phase dict { s with sems := sems', shm := shm', clients := Function.update s.clients i c' } := by
  have hself : Function.update s.clients i c' i = c' := Function.update_self ..
  have hfree (hc : c'.pc.held = false) (hn : ∀ j, j ≠ i → (s.clients j).pc.held = false) :
      ∀ j, (Function.update s.clients i c' j).pc.held = false :=
    (Function.forall_update_iff _ fun _ (c : Client) => c.pc.held = false).2 ⟨hc, hn⟩
  cases h with
  | free sem0 sem1 loop none =>
    rcases hm.free (none i) with ⟨-, pc, rfl, rfl⟩ | ⟨hc, rfl, rfl⟩
    · refine .held i (Function.update_self 0 0 s.sems) (by simp only [hself, pc]; rfl) (fun j hj => ?_) ?_
      · simpa only [Function.update_of_ne hj] using none j
      · simp only [hself]
        exact .copying (k := 0) pc (Nat.zero_le _) (.zero _ _) sem1 loop
    · exact .free sem0 sem1 loop (hfree hc fun j _ => none j)
  | held i₀ sem0 here only phase =>
    by_cases hi : i = i₀
    · subst hi
      rcases phase.client sem0 hm with ⟨hc, h0, hh⟩ | ⟨hc, h0, h1, loop⟩
      · refine .held i h0 (by simpa only [hself] using hc) (fun j hj => ?_) (by simpa only [hself] using hh)
        simpa only [Function.update_of_ne hj] using only j hj
      · exact .free h0 h1 loop (hfree hc only)
    · have hkeep : Function.update s.clients i c' i₀ = s.clients i₀ := Function.update_of_ne (Ne.symm hi) ..
      rcases hm.free (only i hi) with ⟨sem, -⟩ | ⟨hc, rfl, rfl⟩
      · omega
      · refine .held i₀ sem0 (by simpa only [hkeep] using here) ?_ (by simpa only [hkeep] using phase)
        exact (Function.forall_update_iff _ fun j (c : Client) => j ≠ i₀ → c.pc.held = false).2
          ⟨fun _ => hc, fun j _ hj => only j hj⟩

/-! ## Every state of a run -/

/-- What every step keeps. -/
structure Inv (dict : Dictionary) (q : Queries ι) (s : State ι) : Prop where
  clients : ∀ i, (s.clients i).Ok (q.words i)
  phase : Phase dict s

theorem Inv.init (shm : Dictrec) (q : Queries ι) : Inv dict q (State.init shm q) where
  clients i := ⟨rfl, rfl, rfl, q.few i⟩
  phase := .free rfl rfl rfl fun _ => rfl

/-- While the server is between its waits, the client it serves waits. -/
theorem Inv.between {q : Queries ι} {s : State ι} (h : Inv dict q s)
    (hb : s.server.pc.between = true) :
    ∃ i, s.sems 0 = 0 ∧ s.sems 1 = 1 ∧ (s.clients i).pc = .await s.server.served ∧
      s.shm.word.Holds (s.clients i).word ∧ ∀ j, j ≠ i → (s.clients j).pc.held = false := by
  cases h.phase with
  | free _ _ loop => rw [loop] at hb; cases hb
  | held i sem0 here only phase =>
    cases phase with
    | looking pc word sem => exact ⟨i, sem0, sem, pc, word, only⟩
    | copying _ _ _ _ loop | copied _ _ _ loop | alerted _ _ _ loop | dead _ _ loop | answered _ _ _ loop
    | passed _ _ _ loop => rw [loop] at hb; cases hb

theorem ClientPc.held_of_awaiting {pc : ClientPc} (h : pc.awaiting = true) : pc.held = true := by
  cases pc <;> first | rfl | cases h

variable [DecidableEq ι]

theorem Inv.client {q : Queries ι} {s s' : State ι} (h : Inv dict q s) {i : ι}
    (hs : step dict keeps s (.client i) = some s') : ∃ sems' shm' c',
      Client.Move s.server.served s.sems s.shm (s.clients i) sems' shm' c' ∧
      s' = { s with sems := sems', shm := shm', clients := Function.update s.clients i c' } := by
  simp only [Shm.step, Option.map_eq_some_iff] at hs
  obtain ⟨⟨sems', shm', c'⟩, hc, rfl⟩ := hs
  exact ⟨sems', shm', c', Client.move (h.clients i) h.phase.sem0_le h.phase.sem1_le hc, rfl⟩

theorem Inv.server {q : Queries ι} {s s' : State ι} (h : Inv dict q s)
    (hs : step dict keeps s .server = some s') : ∃ sems' shm' srv',
      Server.Move dict s.sems s.shm s.server sems' shm' srv' ∧
      s' = { s with sems := sems', shm := shm', server := srv' } := by
  simp only [Shm.step, Option.map_eq_some_iff] at hs
  obtain ⟨⟨sems', shm', srv'⟩, hc, rfl⟩ := hs
  exact ⟨sems', shm', srv', Server.move (h.phase.sem1_le.trans (by decide)) hc, rfl⟩

theorem Inv.step {q : Queries ι} {s s' : State ι} {p : Proc ι} (h : Inv dict q s)
    (hs : Shm.step dict keeps s p = some s') : Inv dict q s' := by
  cases p with
  | client i =>
    obtain ⟨sems', shm', c', hm, rfl⟩ := h.client hs
    refine ⟨?_, h.phase.client i hm⟩
    exact (Function.forall_update_iff _ fun j (c : Client) => c.Ok (q.words j)).2
      ⟨hm.ok (h.clients i), fun j _ => h.clients j⟩
  | server =>
    obtain ⟨sems', shm', srv', hm, rfl⟩ := h.server hs
    exact ⟨h.clients, h.phase.server hm⟩

theorem Inv.reach {q : Queries ι} {ok : State ι → Proc ι → Prop} {s s' : State ι} (h : Inv dict q s)
    (hr : Reach (Shm.step dict keeps) ok s s') : Inv dict q s' :=
  hr.invariant (fun _ _ _ h _ hs => h.step hs) h

/-- The word stays while the server looks it up. -/
theorem Inv.word_kept {q : Queries ι} {s s' : State ι} {p : Proc ι} (h : Inv dict q s)
    (hb : s.server.pc.between = true) (hs : Shm.step dict keeps s p = some s') : s'.shm.word = s.shm.word := by
  obtain ⟨i, sem0, -, pc, -, only⟩ := h.between hb
  cases p with
  | client j =>
    obtain ⟨sems', shm', c', hm, rfl⟩ := h.client hs
    by_cases hj : j = i
    · subst hj
      cases hm with
      | copyWord pc' => rw [pc] at pc'; cases pc'
      | call | grab | alert | await | release | differs | same | absent | copyText | found => rfl
    · rcases hm.free (only j hj) with ⟨sem, -⟩ | ⟨-, -, rfl⟩
      · omega
      · rfl
  | server =>
    obtain ⟨sems', shm', srv', hm, rfl⟩ := h.server hs
    cases h.phase with
    | free _ sem => omega
    | held i _ _ _ phase => exact (phase.server hm).2.2

/-- A client that passes `await` finds its answer. -/
theorem Inv.answered {q : Queries ι} {s s' : State ι} {i : ι} {n : Nat} (h : Inv dict q s)
    (pc : (s.clients i).pc = .await n) (hs : Shm.step dict keeps s (.client i) = some s') :
    s.server.served = n + 1 ∧ s.shm.text.Holds (reply dict (s.clients i).word.chars) := by
  obtain ⟨sems', shm', c', hm, rfl⟩ := h.client hs
  have sem : s.sems 1 = 0 := by
    cases hm with
    | await _ sem => exact sem
    | call pc' | grab pc' | copyWord pc' | alert pc' | release pc' | differs pc' | same pc' | absent pc'
    | copyText pc' | found pc' => rw [pc] at pc'; cases pc'
  cases h.phase.of_held (i := i) (by rw [pc]; rfl) with
  | answered pc' text _ _ served =>
    rw [pc, ClientPc.await.injEq] at pc'
    subst pc'
    exact ⟨served, text⟩
  | alerted _ _ sem' | looking _ _ sem' | dead _ sem' => omega
  | copying pc' | copied pc' | passed pc' => rw [pc] at pc'; cases pc'

/-- The handshake in a state: the semaphores by where the clients and the
server are, and what no step out of it does. -/
structure Handshake [Fintype ι] (dict : Dictionary) (keeps : Bool) (s : State ι) : Prop where
  sem0 : s.sems 0 + (Finset.univ.filter fun i => (s.clients i).pc.held = true).card = 1
  sem1 : s.sems 1 ≤ 2
  alerted : 0 < s.sems 1 → ∃! i, (s.clients i).pc.awaiting = true
  between : s.server.pc.between = true → s.sems 1 = 1 ∧
    ∃ i, (s.clients i).pc = .await s.server.served ∧ s.shm.word.str = (s.clients i).word.chars
  word : s.server.pc.between = true → ∀ p s', step dict keeps s p = some s' → s'.shm.word = s.shm.word
  answered : ∀ i n s', (s.clients i).pc = .await n → step dict keeps s (.client i) = some s' →
    s.server.served = n + 1 ∧ s.shm.text.str = (reply dict (s.clients i).word.chars).chars

theorem Inv.handshake [Fintype ι] {q : Queries ι} {s : State ι} (h : Inv dict q s) :
    Handshake dict keeps s where
  sem0 := by
    cases h.phase with
    | free sem0 _ _ none => simp [sem0, none]
    | held i sem0 here only =>
      have : (Finset.univ.filter fun j => (s.clients j).pc.held = true) = {i} := by
        ext j
        simp only [Finset.mem_filter, Finset.mem_univ, true_and, Finset.mem_singleton]
        constructor
        · intro hj
          by_contra hji
          rw [only j hji] at hj
          cases hj
        · intro hji
          rw [hji]
          exact here
      rw [sem0, this, Finset.card_singleton]
  sem1 := h.phase.sem1_le
  alerted hpos := by
    cases h.phase with
    | free _ sem1 => omega
    | held i _ _ only phase =>
      refine ⟨i, ?_, ?_⟩
      · cases phase with
        | alerted pc | looking pc | dead pc => exact congrArg ClientPc.awaiting pc
        | copying _ _ _ sem | copied _ _ sem | answered _ _ sem | passed _ _ sem => omega
      · intro j hj
        by_contra hji
        have := only j hji
        rw [ClientPc.held_of_awaiting hj] at this
        cases this
  between hb := by
    obtain ⟨i, -, sem1, pc, word, -⟩ := h.between hb
    exact ⟨sem1, i, pc, word.str⟩
  word hb _ _ hs := h.word_kept hb hs
  answered i n s' pc hs := by
    obtain ⟨hn, ht⟩ := h.answered pc hs
    exact ⟨hn, ht.str⟩

/-- Every state the service reaches keeps the handshake, whatever the clients
ask and in whatever order they and the server take their steps. -/
theorem handshake_reached [Fintype ι] (shm : Dictrec) (q : Queries ι) {s : State ι}
    (h : Reach (step dict keeps) anyStep (.init shm q) s) : Handshake dict keeps s :=
  ((Inv.init shm q).reach h).handshake

/-! ## A run -/

/-- Two clients: one asks for a, the other for b. -/
def twoClients : Queries Bool := .one fun i => if i then ⟨[98], by decide, by decide⟩ else ⟨[97], by decide, by decide⟩

/-- A state in which the server has written its answer to the first client. -/
theorem handshake_reached_answering :
    ∃ s, exec (step twoWords false) anyStep (.init Dictrec.blank twoClients)
        (List.replicate 5 (.client false) ++ List.replicate 5 .server) = some s ∧
      s.server.pc = .wait2 ∧ Handshake twoWords false s := by
  have hrun : (exec (step twoWords false) anyStep (.init Dictrec.blank twoClients)
      (List.replicate 5 (.client false) ++ List.replicate 5 .server)).map (·.server.pc) = some .wait2 := by
    decide +kernel
  obtain ⟨s, hs, hpc⟩ := Option.map_eq_some_iff.1 hrun
  exact ⟨s, hs, hpc, handshake_reached Dictrec.blank twoClients (reach_of_exec hs)⟩

end SysProg.Shm
