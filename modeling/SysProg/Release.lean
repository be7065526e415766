/-
What the last shell (`sh9`) frees of the memory of a command line. The
array says by its NULL how much of it there is to free, and `is_background`
moves that in front of a last token that begins with `&`.
-/
import SysProg.Parse

namespace SysProg.Release

open SysProg.Parse
open SysProg.Shell (Token AMP is_builtin command Call Line LONGLINE pieces stdinOf)

/-! ## is_background, free_argv -/

/-- The number of slots of an array. -/
def size (h : Mem) (a : Nat) : Nat :=
  match h.get a with
  | some (.array slots) => slots.length
  | _ => 0

/-- The end of the vector, looked for from slot `i` on. -/
def nullFrom (h : Mem) (myArgv : Nat) : Nat → Nat → Option Nat
  | 0, _ => none
  | n + 1, i =>
    match load h myArgv i with
    | some (.ptr _) => nullFrom h myArgv n (i + 1)
    | some .null => some i
    | _ => none

/-- Whether there is a `&` at the end; it is removed from the vector then. -/
def is_background (h : Mem) (myArgv : Nat) : Option (Bool × Mem) :=
  (nullFrom h myArgv (size h myArgv) 0).bind fun i =>
  if i = 0 then some (false, h)
  else
    match load h myArgv (i - 1) with
    | some (.ptr p) =>
      match h.get p with
      | some (.string s) =>
        if s.headD NUL = AMP then (store h myArgv (i - 1) .null).map fun h => (true, h) else some (false, h)
      | _ => none
    | _ => none

/-- The tokens hanging off the array are freed from slot `i` on, and then the array. -/
def freeFrom : Nat → Mem → Nat → Nat → Option Mem
  | 0, _, _, _ => none
  | n + 1, h, oldArgv, i =>
    match load h oldArgv i with
    | some (.ptr p) => (h.free p).bind fun h => freeFrom n h oldArgv (i + 1)
    | some .null => h.free oldArgv
    | _ => none

/-- The tokens are freed from the first on, then the array. -/
def free_argv (h : Mem) (oldArgv : Nat) : Option Mem := freeFrom (size h oldArgv) h oldArgv 0

/-! ## main -/

/-- The string `myArgv[0]`. -/
def arg0 (h : Mem) (myArgv : Nat) : Option Token :=
  match load h myArgv 0 with
  | some (.ptr p) =>
    match h.get p with
    | some (.string s) => some s
    | _ => none
  | _ => none

/-- What a turn of the loop comes to: the shell ends, or reads its next line. -/
inductive Next where
  | exits
  | reads (h : Mem)

/-- A turn of the loop for a line read, where `fork` succeeds or not. What the
child does to the vector it does to its own. -/
def turn (h : Mem) (line : List Byte) (forks : Bool) : Option Next :=
  (parse h line).bind fun (h, myArgv) =>
  match myArgv with
  | none => some (.reads h)
  | some myArgv =>
    (arg0 h myArgv).bind fun cmd =>
    match is_builtin cmd with
    | some this => if this = .bi_quit then some .exits else (free_argv h myArgv).map .reads
    | none =>
      (is_background h myArgv).bind fun (_, h) =>
      if forks then (free_argv h myArgv).map .reads else some .exits

/-- A line that was done: the memory when it was read, and when the next was. -/
structure Done where
  before : Mem
  line : List Byte
  after : Mem

/-- The lines done, of these. -/
def session : Mem → List (List Byte × Bool) → Option (List Done)
  | _, [] => some []
  | h, (line, forks) :: ls =>
    (turn h line forks).bind fun
      | .exits => some []
      | .reads h' => (session h' ls).map (⟨h, line, h'⟩ :: ·)

/-- The line is a command, not a built-in one, with `&` at its end. -/
def Backgrounds (line : List Byte) : Prop :=
  ∃ ts, Shell.parse line = some ts ∧ is_builtin (ts.headD []) = none ∧ (ts.getLast?.getD []).headD NUL = AMP

/-! ## What is freed -/

variable {h₀ h : Mem} {a : Nat} {ps : List Nat} {slots more : List Slot} {ts : List Token}

theorem load_eq (ha : h.get a = some (.array slots)) (i : Nat) : load h a i = slots[i]? := by rw [load, ha]

theorem size_eq (ha : h.get a = some (.array slots)) : size h a = slots.length := by rw [size, ha]

/-- Slot by slot everything before the NULL is freed, and the array. -/
theorem freeFrom_eq {n : Nat} (done rest : List Nat) (hn : rest.length < n)
    (ha : h.get a = some (.array ((done ++ rest).map .ptr ++ .null :: more)))
    (hlive : ∀ p ∈ rest, ∃ b, h.get p = some b) (hnodup : (a :: rest).Nodup) :
    ∃ h', freeFrom n h a done.length = some h' ∧ ∀ q, h'.get q = if q ∈ a :: rest then none else h.get q := by
  induction rest generalizing h n done with
  | nil =>
    obtain ⟨n, rfl⟩ : ∃ m, n = m + 1 := ⟨n - 1, by omega⟩
    have hload : load h a done.length = some .null := by
      rw [load_eq ha, List.append_nil, List.getElem?_append_right (by simp)]
      simp
    obtain ⟨h', hfree, hget⟩ := Heap.free_eq ha
    refine ⟨h', by rw [freeFrom, hload]; exact hfree, fun q => ?_⟩
    rw [hget]
    simp
  | cons p rest ih =>
    obtain ⟨n, rfl⟩ : ∃ m, n = m + 1 := ⟨n - 1, by omega⟩
    obtain ⟨⟨b, hp⟩, hlive⟩ := List.forall_mem_cons.1 hlive
    have hne : a ≠ p ∧ a ∉ rest := by simpa using (List.nodup_cons.1 hnodup).1
    have hrest := List.nodup_cons.1 (List.nodup_cons.1 hnodup).2
    have hload : load h a done.length = some (.ptr p) := by
      rw [load_eq ha, List.getElem?_append_left (by simp)]
      simp
    obtain ⟨h₁, hfree, hget⟩ := Heap.free_eq hp
    obtain ⟨h', hmore, hget'⟩ := ih (h := h₁) (n := n) (done ++ [p]) (by simp at hn; omega)
      (by rw [hget, if_neg hne.1, ha]; simp)
      (fun q hq => by
        have hqp : q ≠ p := fun he => hrest.1 (he ▸ hq)
        rw [hget, if_neg hqp]
        exact hlive q hq)
      (List.nodup_cons.2 ⟨hne.2, hrest.2⟩)
    refine ⟨h', ?_, fun q => ?_⟩
    · rw [freeFrom, hload]
      rw [List.length_append] at hmore
      simp only [hfree, Option.bind_some]
      exact hmore
    · rw [hget', hget]
      by_cases hqp : q = p
      · simp [hqp]
      · simp [hqp]

/-- Of a line's blocks those are left that the vector does not come to. -/
theorem free_argv_eq {left : List Nat} (hh : Holds h₀ h a (ps ++ left) (ps.map .ptr ++ .null :: more) ts) :
    ∃ h', free_argv h a = some h' ∧ (Heap.Released h₀ h' ↔ left = []) := by
  have hnodup : (a :: ps).Nodup := hh.nodup.sublist ((List.sublist_append_left ps left).cons_cons a)
  obtain ⟨h', hfree, hget⟩ := freeFrom_eq (n := size h a) [] ps
    (by rw [size_eq hh.array]; simp) (by simpa using hh.array)
    (fun p hp => by
      obtain ⟨t, ht⟩ := hh.string p (List.mem_append_left _ hp)
      exact ⟨_, ht⟩) hnodup
  refine ⟨h', hfree, ?_⟩
  constructor
  · intro hreleased
    by_contra hne
    obtain ⟨p, hp⟩ := List.exists_mem_of_ne_nil _ hne
    have hmem : p ∈ ps ++ left := List.mem_append_right _ hp
    have hout : p ∉ a :: ps := by
      rw [List.mem_cons, not_or]
      refine ⟨fun he => (List.nodup_cons.1 hh.nodup).1 (he ▸ hmem), fun hm => ?_⟩
      exact (List.nodup_append.1 (List.nodup_cons.1 hh.nodup).2).2.2 p hm p hp rfl
    obtain ⟨t, ht⟩ := hh.string p hmem
    have := hreleased p
    rw [hget, if_neg hout, ht, Heap.get_of_le (hh.new p (List.mem_cons_of_mem _ hmem))] at this
    cases this
  · rintro rfl q
    rw [List.append_nil] at hh
    rw [hget]
    split
    · next hq => rw [Heap.get_of_le (hh.new q hq)]
    · next hq => rw [hh.others q hq]

/-! ## What the vector is cut to -/

theorem nullFrom_eq {n : Nat} (done rest : List Nat) (hn : rest.length < n)
    (ha : h.get a = some (.array ((done ++ rest).map .ptr ++ .null :: more))) :
    nullFrom h a n done.length = some (done ++ rest).length := by
  induction rest generalizing n done with
  | nil =>
    obtain ⟨n, rfl⟩ : ∃ m, n = m + 1 := ⟨n - 1, by omega⟩
    have hload : load h a done.length = some .null := by
      rw [load_eq ha, List.append_nil, List.getElem?_append_right (by simp)]
      simp
    rw [nullFrom, hload, List.append_nil]
  | cons p rest ih =>
    obtain ⟨n, rfl⟩ : ∃ m, n = m + 1 := ⟨n - 1, by omega⟩
    have hload : load h a done.length = some (.ptr p) := by
      rw [load_eq ha, List.getElem?_append_left (by simp)]
      simp
    have hmore := ih (n := n) (done ++ [p]) (by simp at hn; omega) (by rw [ha]; simp)
    rw [nullFrom, hload]
    rw [List.length_append] at hmore
    simpa using hmore

/-- A last token that begins with `&` is cut from the vector; nothing else is. -/
theorem is_background_eq {p : Nat} {t : Token} (hh : Holds h₀ h a (ps ++ [p]) (argv (ps ++ [p])) (ts ++ [t])) :
    if t.headD NUL = AMP then
      ∃ h', is_background h a = some (true, h') ∧ Holds h₀ h' a (ps ++ [p]) (ps.map .ptr ++ [.null, .null]) (ts ++ [t])
    else is_background h a = some (false, h) := by
  have hslots : argv (ps ++ [p]) = ps.map .ptr ++ [.ptr p, .null] := by simp [argv]
  have hnull : nullFrom h a (size h a) 0 = some (ps.length + 1) := by
    have := nullFrom_eq (n := size h a) [] (ps ++ [p])
      (by rw [size_eq hh.array]; simp [argv]) (by rw [hh.array]; rfl)
    simpa using this
  have hload : load h a ps.length = some (.ptr p) := by
    rw [load_eq hh.array, hslots, List.getElem?_append_right (by simp)]
    simp
  have hlen : ps.length = ts.length := by simpa using congrArg List.length hh.strings
  have hp : h.get p = some (.string t) := by
    have := hh.strings
    rw [List.map_append, List.map_append] at this
    exact List.singleton_inj.1 (List.append_inj_right this (by simpa using hlen))
  have hcall : is_background h a = if t.headD NUL = AMP then (store h a ps.length .null).map fun h => (true, h)
      else some (false, h) := by
    rw [is_background, hnull, Option.bind_some, if_neg (Nat.succ_ne_zero _), Nat.add_sub_cancel, hload]
    simp only [hp]
  rw [hcall]
  split
  · obtain ⟨h', hstore, -, hcut⟩ := hh.store (i := ps.length) (by simp [argv]) .null
    have hset : (argv (ps ++ [p])).set ps.length .null = ps.map .ptr ++ [.null, .null] := by
      rw [hslots, List.set_append_right _ _ (by simp)]
      simp
    rw [hset] at hcut
    exact ⟨h', by rw [hstore]; rfl, hcut⟩
  · rfl

/-! ## A turn of the loop -/

theorem arg0_eq {p : Nat} {t : Token} (hh : Holds h₀ h a (p :: ps) (argv (p :: ps)) (t :: ts)) : arg0 h a = some t := by
  have hload : load h a 0 = some (.ptr p) := by
    rw [load_eq hh.array]
    rfl
  have hp : h.get p = some (.string t) := (List.cons.inj hh.strings).1
  simp only [arg0, hload, hp]

theorem free_all (hh : Holds h₀ h a ps (argv ps) ts) :
    ∃ h', free_argv h a = some h' ∧ Heap.Released h₀ h' := by
  have hh' : Holds h₀ h a (ps ++ []) (ps.map .ptr ++ .null :: []) ts := by
    rw [List.append_nil]
    exact hh
  obtain ⟨h', hfree, hiff⟩ := free_argv_eq hh'
  exact ⟨h', hfree, hiff.2 rfl⟩

/-- What a command that is not built in leaves behind. -/
theorem command_eq (hh : Holds h₀ h a ps (argv ps) ts) (hne : ts ≠ []) :
    ∃ b h₁ h₂, is_background h a = some (b, h₁) ∧ free_argv h₁ a = some h₂ ∧
      (Heap.Released h₀ h₂ ↔ (ts.getLast?.getD []).headD NUL ≠ AMP) := by
  have hlen : ps.length = ts.length := by simpa using congrArg List.length hh.strings
  obtain ⟨ts, t, rfl⟩ := (List.eq_nil_or_concat ts).resolve_left hne
  obtain ⟨ps, p, rfl⟩ := (List.eq_nil_or_concat ps).resolve_left (by rintro rfl; simp at hlen)
  rw [List.concat_eq_append, List.concat_eq_append] at *
  have hlast : (ts ++ [t]).getLast?.getD [] = t := by simp
  have hcut := is_background_eq hh
  rw [hlast]
  split at hcut
  · next hamp =>
    obtain ⟨h₁, hback, hholds⟩ := hcut
    obtain ⟨h₂, hfree, hiff⟩ := free_argv_eq hholds
    exact ⟨true, h₁, h₂, hback, hfree, hiff.trans (iff_of_false (by simp) (not_not.2 hamp))⟩
  · next hamp =>
    obtain ⟨h₂, hfree, hreleased⟩ := free_all hh
    exact ⟨false, h, h₂, hcut, hfree, iff_of_true hreleased hamp⟩

/-- The shell ends where the line's call ends it. -/
def Ends (line : List Byte) (forks : Bool) : Prop := ∃ c, command line = some c ∧ c.ends forks

/-- A turn comes to its end, and if the shell reads on then all the line's
blocks are freed exactly when it was not put in the background. -/
theorem turn_eq (h : Mem) (line : List Byte) (forks : Bool) :
    (turn h line forks = some .exits ∧ Ends line forks) ∨
    ∃ h', turn h line forks = some (.reads h') ∧ ¬ Ends line forks ∧ (Heap.Released h h' ↔ ¬ Backgrounds line) := by
  rcases parse_refines h line with ⟨hnone, hp⟩ | ⟨h₁, a, ps, ts, hsome, hp, hholds⟩
  · refine .inr ⟨h, by rw [turn, hp]; rfl, by simp [Ends, command, hnone], iff_of_true (fun _ => rfl) ?_⟩
    intro hbg
    obtain ⟨ts, hts, -⟩ := hbg
    rw [hnone] at hts
    cases hts
  · have hback : Backgrounds line ↔ is_builtin (ts.headD []) = none ∧ (ts.getLast?.getD []).headD NUL = AMP := by
      simp only [Backgrounds, hsome, Option.some.injEq, exists_eq_left']
    have hends : Ends line forks ↔ (Shell.dispatch ts).ends forks := by
      simp only [Ends, command, hsome, Option.map_some, Option.some.injEq, exists_eq_left']
    cases ts with
    | nil =>
      rw [Shell.parse_eq] at hsome
      split at hsome
      · cases hsome
      · next hne => exact absurd (Option.some.inj hsome) hne
    | cons t ts =>
      have hlen := congrArg List.length hholds.strings
      obtain ⟨p, ps, rfl⟩ := List.exists_cons_of_length_eq_add_one (show ps.length = ts.length + 1 by simpa using hlen)
      rw [turn, hp, hback, hends]
      simp only [Option.bind_some, arg0_eq hholds, Shell.dispatch, List.headD_cons]
      cases hb : is_builtin t with
      | some this =>
        simp only [Call.ends, decide_eq_true_eq]
        split
        · next hquit => exact .inl ⟨rfl, hquit⟩
        · next hquit =>
          obtain ⟨h', hfree, hreleased⟩ := free_all hholds
          exact .inr ⟨h', by rw [hfree]; rfl, hquit, iff_of_true hreleased (by simp)⟩
      | none =>
        obtain ⟨b, h₂, h₃, hcut, hfree, hiff⟩ := command_eq hholds (List.cons_ne_nil _ _)
        simp only [hcut, Option.bind_some, Call.ends, true_and]
        cases forks with
        | false => exact .inl ⟨rfl, rfl⟩
        | true => exact .inr ⟨h₃, by rw [if_pos rfl, hfree]; rfl, by simp, hiff⟩

/-! ## Sessions -/

/-- The lines read, each with the outcome of its fork, when `n` calls have been
made. -/
def paired (forks : Nat → Bool) : Nat → List (List Byte) → List (List Byte × Bool)
  | _, [] => []
  | n, line :: lines => (line, forks n) :: paired forks (if (command line).isSome then n + 1 else n) lines

/-- The calls are those of the lines done, and of the one the shell ends with. -/
theorem session_calls (forks : Nat → Bool) (n : Nat) (h : Mem) (lines : List (List Byte)) :
    ∃ ds, session h (paired forks n lines) = some ds ∧
      Shell.untilEnd forks n (lines.filterMap command) = (lines.take (ds.length + 1)).filterMap command := by
  induction lines generalizing n h with
  | nil => exact ⟨[], rfl, rfl⟩
  | cons line lines ih =>
    rcases turn_eq h line (forks n) with ⟨hexits, c, hc, hends⟩ | ⟨h', hreads, hends, -⟩
    · refine ⟨[], by rw [paired, session, hexits]; rfl, ?_⟩
      simp [hc, Shell.untilEnd, hends]
    · obtain ⟨ds, hds, hcalls⟩ := ih (if (command line).isSome then n + 1 else n) h'
      refine ⟨⟨h, line, h'⟩ :: ds, by rw [paired, session, hreads]; simp [hds], ?_⟩
      rw [List.length_cons, List.take_succ_cons, List.filterMap_cons, List.filterMap_cons]
      cases hc : command line with
      | none =>
        rw [hc] at hcalls
        exact hcalls
      | some c =>
        rw [hc] at hcalls
        have hgo : ¬ c.ends (forks n) := fun he => hends ⟨c, hc, he⟩
        simp only [Shell.untilEnd, if_neg hgo]
        exact congrArg (c :: ·) hcalls

/-- The main loop's turns are those of a session, on the pieces the lines are
read in. -/
theorem mainLoop_session {w : Shell.World} {turns : Nat} (line : Buf LONGLINE) {ls : List Line}
    (hn : (stdinOf ls).length < turns)
    (hw : Shell.Undisturbed (Shell.mainLoop w turns 0 line (.ofFile (stdinOf ls)))) (h : Mem) :
    ∃ ds, session h (paired w.forks 0 (ls.flatMap fun l => pieces l.chars)) = some ds ∧
      Shell.calls w turns line (.ofFile (stdinOf ls)) =
        ((ls.flatMap fun l => pieces l.chars).take (ds.length + 1)).filterMap command := by
  rw [Shell.calls, Shell.mainLoop_eq line rfl hn hw]
  exact session_calls w.forks 0 h _

/-- In every session no block is freed twice, and each that was allocated for
a line is free when the next is read exactly when no command that is not built
in has a last token that begins with `&`. -/
theorem released_iff (h : Mem) (ls : List (List Byte × Bool)) : ∃ ds, session h ls = some ds ∧
    ((∀ d ∈ ds, Heap.Released d.before d.after) ↔ ∀ d ∈ ds, ¬ Backgrounds d.line) := by
  induction ls generalizing h with
  | nil => exact ⟨[], rfl, by simp⟩
  | cons l ls ih =>
    obtain ⟨line, forks⟩ := l
    rcases turn_eq h line forks with ⟨hexits, -⟩ | ⟨h', hreads, -, hiff⟩
    · exact ⟨[], by rw [session, hexits]; rfl, by simp⟩
    · obtain ⟨ds, hds, hall⟩ := ih h'
      refine ⟨⟨h, line, h'⟩ :: ds, by rw [session, hreads]; simp [hds], ?_⟩
      rw [List.forall_mem_cons, List.forall_mem_cons, hiff, hall]

/-- The command a, with `&` after it: the copy of `&` is left when it is done. -/
theorem ampersand_left :
    (session [] [([97, 32, AMP, NL], true)]).map (·.map (·.after)) =
      some [[none, none, none, some (.string [AMP]), none]] ∧
    ¬ ∃ ds, session [] [([97, 32, AMP, NL], true)] = some ds ∧ ∀ d ∈ ds, Heap.Released d.before d.after := by
  have hafter : (session [] [([97, 32, AMP, NL], true)]).map (·.map fun d => (d.before, d.after)) =
      some [([], [none, none, none, some (.string [AMP]), none])] := by
    decide +kernel
  obtain ⟨ds, hds, hmap⟩ := Option.map_eq_some_iff.1 hafter
  rw [hds]
  obtain ⟨d, rest, rfl, hd, -⟩ := List.map_eq_cons_iff.1 hmap
  obtain ⟨hbefore, hleft⟩ := Prod.mk.inj hd
  refine ⟨?_, ?_⟩
  · have := congrArg (List.map Prod.snd) hmap
    rw [List.map_map] at this
    exact congrArg some this
  · intro hdone
    obtain ⟨ds, hds', hall⟩ := hdone
    cases hds'
    have hfour := hall d List.mem_cons_self 3
    rw [hbefore, hleft] at hfour
    cases hfour

end SysProg.Release
