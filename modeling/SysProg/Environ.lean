/-
The environment of a process (`myunsetenv.c`): the array of strings that
`environ` points to, in which `myunsetenv` moves the entries up over the first
one it finds, and the values that names have by it.

`getenv` and `putenv` are the library's: the first entry for a name counts, and
is the one that is replaced. A string is given by its bytes before the NUL.
-/
import SysProg.Lib.Assoc
import SysProg.Lib.Decimal
import Mathlib.Logic.Function.Basic

namespace SysProg.Environ

/-- The character `=`. -/
def EQ : Byte := 61

/-- The name of a variable. -/
structure Name where
  chars : List Byte
  nonempty : chars ≠ []
  noEq : EQ ∉ chars
  deriving DecidableEq

theorem Name.chars_inj {n m : Name} : n.chars = m.chars ↔ n = m := by
  constructor
  · intro h
    cases n
    cases m
    cases h
    rfl
  · rintro rfl
    rfl

/-! ## The array -/

/-- The strings from a place in the array on, and NULL. -/
abbrev Slots := List (Option (List Byte))

/-- The array that `environ` points to. -/
structure Env where
  slots : Slots
  ended : none ∈ slots

/-- The comparison of at most `n` characters. -/
def strncmp (a b : List Byte) (n : Nat) : Ordering := strcmp (a.take n) (b.take n)

/-- `(strncmp(var, *env, len) == 0) && ((*env)[len] == '=')` -/
def isFor (var entry : List Byte) : Bool :=
  strncmp var entry var.length == .eq && (entry ++ [NUL])[var.length]? == some EQ

/-- All entries from `env` on one up, until NULL has moved. -/
def moveUp : Slots → Slots
  | some _ :: next :: env => next :: moveUp (next :: env)
  | env => env

/-- The search of `myunsetenv` from `env` on, and what it does from there. -/
def unset (var : List Byte) : Slots → Slots
  | some entry :: env => if isFor var entry then moveUp (some entry :: env) else some entry :: unset var env
  | env => env

/-- Where there is no entry for the name, the array is copied to one with room for it. -/
def put (var entry : List Byte) : Slots → Slots
  | some e :: env => if isFor var e then some entry :: env else some e :: put var entry env
  | _ => [some entry, none]

/-- The strings up to NULL. -/
def strings : Slots → List (List Byte)
  | some entry :: env => entry :: strings env
  | _ => []

theorem ended_moveUp {env : Slots} (h : none ∈ env) : none ∈ moveUp env := by
  induction env with
  | nil => cases h
  | cons entry env ih =>
    cases entry with
    | none => exact h
    | some e =>
      cases env with
      | nil => simp at h
      | cons next env => exact List.mem_cons_of_mem _ (ih (by simpa using h))

theorem ended_unset {var : List Byte} {env : Slots} (h : none ∈ env) : none ∈ unset var env := by
  induction env with
  | nil => cases h
  | cons entry env ih =>
    cases entry with
    | none => exact h
    | some e =>
      unfold unset
      split
      · exact ended_moveUp h
      · exact List.mem_cons_of_mem _ (ih (by simpa using h))

theorem ended_put {var entry : List Byte} {env : Slots} (h : none ∈ env) : none ∈ put var entry env := by
  induction env with
  | nil => cases h
  | cons e env ih =>
    cases e with
    | none => simp [put]
    | some e =>
      unfold put
      split
      · exact List.mem_cons_of_mem _ (by simpa using h)
      · exact List.mem_cons_of_mem _ (ih (by simpa using h))

/-- Function to remove an environment variable. -/
def myunsetenv (var : Name) (environ : Env) : Env := ⟨unset var.chars environ.slots, ended_unset environ.ended⟩

/-- `putenv("name=value")` -/
def putenv (name : Name) (value : List Byte) (environ : Env) : Env :=
  ⟨put name.chars (name.chars ++ EQ :: value) environ.slots, ended_put environ.ended⟩

/-- The value of the first entry for a name. -/
def getenv (environ : Env) (name : Name) : Option (List Byte) :=
  ((strings environ.slots).find? (isFor name.chars)).map fun entry => entry.drop (name.chars.length + 1)

/-- Function to display an environment variable. -/
def checkvar (environ : Env) (var : Name) : List Byte :=
  match getenv environ var with
  | none => var.chars ++ ascii " not defined\n"
  | some value => var.chars ++ ascii " = " ++ value ++ ascii "\n"

/-! ## The values of the names -/

/-- What stands before the first `=`, if there is one. -/
def nameOf (entry : List Byte) : Option (List Byte) :=
  if EQ ∈ entry then some (entry.takeWhile (· != EQ)) else none

theorem nameOf_append {name : List Byte} (h : EQ ∉ name) (value : List Byte) :
    nameOf (name ++ EQ :: value) = some name := by
  rw [nameOf, if_pos (by simp), takeWhile_until h]

theorem isFor_iff {var entry : List Byte} (h : EQ ∉ var) : isFor var entry = true ↔ nameOf entry = some var := by
  have hfor : isFor var entry = true ↔
      var = entry.take var.length ∧ (entry ++ [NUL])[var.length]? = some EQ := by
    simp [isFor, strncmp, strcmp_eq]
  rw [hfor]
  constructor
  · rintro ⟨htake, hget⟩
    have hlt : var.length < entry.length := by
      by_contra hge
      rw [List.getElem?_append_right (Nat.le_of_not_lt hge)] at hget
      have := List.mem_of_getElem? hget
      simp [EQ, NUL] at this
    rw [List.getElem?_append_left hlt, List.getElem?_eq_getElem hlt, Option.some_inj] at hget
    have hsplit : entry = var ++ EQ :: entry.drop (var.length + 1) := by
      conv_lhs => rw [← List.take_append_drop var.length entry, ← htake, List.drop_eq_getElem_cons hlt, hget]
    rw [hsplit]
    exact nameOf_append h _
  · intro hname
    unfold nameOf at hname
    split at hname
    · next hmem =>
      obtain ⟨name, value, rfl, hname'⟩ := List.eq_append_cons_of_mem hmem
      rw [takeWhile_until hname', Option.some_inj] at hname
      subst hname
      simp
    · cases hname

theorem strings_moveUp {entry : List Byte} {env : Slots} (h : none ∈ env) :
    strings (moveUp (some entry :: env)) = strings env := by
  induction env generalizing entry with
  | nil => cases h
  | cons next env ih =>
    cases next with
    | none => rfl
    | some e =>
      rw [moveUp, strings, ih (by simpa using h)]
      rfl

/-- To the strings, `myunsetenv` erases the first for the name. -/
theorem strings_unset (var : Name) {env : Slots} (h : none ∈ env) :
    strings (unset var.chars env) = Assoc.erase nameOf (strings env) var.chars := by
  induction env with
  | nil => cases h
  | cons entry env ih =>
    cases entry with
    | none => rfl
    | some e =>
      have hrest : none ∈ env := by simpa using h
      have hfor : isFor var.chars e = true ↔ nameOf e = some var.chars := isFor_iff var.noEq
      unfold unset
      split
      · next he =>
        rw [strings_moveUp hrest, strings, Assoc.erase, List.eraseP_cons_of_pos (by simpa using hfor.1 he)]
      · next he =>
        rw [strings, ih hrest, strings, Assoc.erase, Assoc.erase,
          List.eraseP_cons_of_neg (by simpa using fun hn => he (hfor.2 hn))]

theorem strings_put (name : Name) (value : List Byte) {env : Slots} (h : none ∈ env) :
    strings (put name.chars (name.chars ++ EQ :: value) env) =
      Assoc.put nameOf (name.chars ++ EQ :: value) (strings env) := by
  induction env with
  | nil => cases h
  | cons entry env ih =>
    cases entry with
    | none => rfl
    | some e =>
      have hrest : none ∈ env := by simpa using h
      have hfor : isFor name.chars e = true ↔ nameOf e = some name.chars := isFor_iff name.noEq
      rw [← nameOf_append name.noEq value] at hfor
      unfold put
      split
      · next he => rw [strings, strings, Assoc.put, if_pos (hfor.1 he)]
      · next he => rw [strings, ih hrest, strings, Assoc.put, if_neg fun hn => he (hfor.2 hn)]

theorem getenv_eq (environ : Env) (name : Name) : getenv environ name =
    (Assoc.lookup nameOf (strings environ.slots) name.chars).map fun entry => entry.drop (name.chars.length + 1) := by
  have hfor : isFor name.chars = fun entry => decide (nameOf entry = some name.chars) := by
    funext entry
    rw [Bool.eq_iff_iff, isFor_iff name.noEq, decide_eq_true_iff]
  rw [getenv, hfor, Assoc.lookup]

/-- How many entries there are for a name. -/
def Env.defined (environ : Env) (name : Name) : Nat := Assoc.entries nameOf (strings environ.slots) name.chars

theorem defined_putenv_self (environ : Env) (name : Name) (value : List Byte) :
    (putenv name value environ).defined name = max 1 (environ.defined name) := by
  rw [Env.defined, putenv, strings_put name value environ.ended, Assoc.entries_put_self (nameOf_append name.noEq value)]
  rfl

theorem defined_putenv_of_ne (environ : Env) {name name' : Name} (h : name' ≠ name) (value : List Byte) :
    (putenv name value environ).defined name' = environ.defined name' := by
  rw [Env.defined, putenv, strings_put name value environ.ended,
    Assoc.entries_put_of_ne (nameOf_append name.noEq value) (Name.chars_inj.not.2 h)]
  rfl

theorem defined_myunsetenv_self (environ : Env) (name : Name) :
    (myunsetenv name environ).defined name = environ.defined name - 1 := by
  rw [Env.defined, myunsetenv, strings_unset name environ.ended, Assoc.entries_erase_self]
  rfl

theorem defined_myunsetenv_of_ne (environ : Env) {name name' : Name} (h : name' ≠ name) :
    (myunsetenv name environ).defined name' = environ.defined name' := by
  rw [Env.defined, myunsetenv, strings_unset name environ.ended, Assoc.entries_erase_of_ne (Name.chars_inj.not.2 h)]
  rfl

theorem getenv_putenv_self (environ : Env) (name : Name) (value : List Byte) :
    getenv (putenv name value environ) name = some value := by
  rw [getenv_eq, putenv, strings_put name value environ.ended, Assoc.lookup_put_self (nameOf_append name.noEq value)]
  simp

theorem getenv_putenv_of_ne (environ : Env) {name name' : Name} (h : name' ≠ name) (value : List Byte) :
    getenv (putenv name value environ) name' = getenv environ name' := by
  rw [getenv_eq, getenv_eq, putenv, strings_put name value environ.ended,
    Assoc.lookup_put_of_ne (nameOf_append name.noEq value) (Name.chars_inj.not.2 h)]

theorem getenv_myunsetenv_of_ne (environ : Env) {name name' : Name} (h : name' ≠ name) :
    getenv (myunsetenv name environ) name' = getenv environ name' := by
  rw [getenv_eq, getenv_eq, myunsetenv, strings_unset name environ.ended,
    Assoc.lookup_erase_of_ne (Name.chars_inj.not.2 h)]

/-- A name that is defined twice keeps a value. -/
theorem getenv_myunsetenv_self (environ : Env) (name : Name) :
    getenv (myunsetenv name environ) name = none ↔ environ.defined name ≤ 1 := by
  rw [getenv_eq, Option.map_eq_none_iff, myunsetenv, strings_unset name environ.ended, Assoc.lookup_erase_self]
  rfl

/-! ## Runs of operations -/

/-- A call that changes the environment. -/
inductive Op where
  | putenv (name : Name) (value : List Byte)
  | myunsetenv (name : Name)

/-- The environment after a call. -/
def Op.run (environ : Env) : Op → Env
  | .putenv name value => Environ.putenv name value environ
  | .myunsetenv name => Environ.myunsetenv name environ

/-- What an operation is for. -/
def Op.effect (values : Name → Option (List Byte)) : Op → Name → Option (List Byte)
  | .putenv name value => Function.update values name (some value)
  | .myunsetenv name => Function.update values name none

theorem Op.getenv_run {environ : Env} (h : ∀ name, environ.defined name ≤ 1) (op : Op) :
    getenv (op.run environ) = op.effect (getenv environ) := by
  funext name'
  cases op with
  | putenv name value =>
    by_cases hn : name' = name
    · subst hn
      rw [effect, Function.update_self]
      exact getenv_putenv_self ..
    · rw [effect, Function.update_of_ne hn]
      exact getenv_putenv_of_ne _ hn _
  | myunsetenv name =>
    by_cases hn : name' = name
    · subst hn
      rw [effect, Function.update_self]
      exact (getenv_myunsetenv_self ..).2 (h _)
    · rw [effect, Function.update_of_ne hn]
      exact getenv_myunsetenv_of_ne _ hn

theorem Op.defined_run {environ : Env} (h : ∀ name, environ.defined name ≤ 1) (op : Op) (name : Name) :
    (op.run environ).defined name ≤ 1 := by
  cases op with
  | putenv name' value =>
    by_cases hn : name = name'
    · subst hn
      rw [run, defined_putenv_self]
      exact max_le le_rfl (h name)
    · rw [run, defined_putenv_of_ne _ hn]
      exact h name
  | myunsetenv name' =>
    by_cases hn : name = name'
    · subst hn
      rw [run, defined_myunsetenv_self]
      exact (Nat.sub_le _ 1).trans (h name)
    · rw [run, defined_myunsetenv_of_ne _ hn]
      exact h name

/-- The environment can be taken for the values of its names, whatever is done
with it, exactly when it defines no name twice at first. -/
theorem values_run_iff (environ : Env) :
    (∀ ops : List Op, getenv (ops.foldl Op.run environ) = ops.foldl Op.effect (getenv environ)) ↔
      ∀ name, environ.defined name ≤ 1 := by
  constructor
  · intro hall name
    have hunset := congrFun (hall [.myunsetenv name]) name
    rw [List.foldl_cons, List.foldl_nil, List.foldl_cons, List.foldl_nil, Op.effect, Function.update_self] at hunset
    exact (getenv_myunsetenv_self environ name).1 hunset
  · intro h ops
    induction ops generalizing environ with
    | nil => rfl
    | cons op ops ih =>
      rw [List.foldl_cons, List.foldl_cons, ih _ (Op.defined_run h op), Op.getenv_run h op]

/-! ## `main` -/

/-- The name `MYVAR0`. -/
def MYVAR0 : Name := ⟨ascii "MYVAR0", by decide, by decide⟩

/-- The name `MYVAR`. -/
def MYVAR : Name := ⟨ascii "MYVAR", by decide, by decide⟩

/-- The name `MYVAR2`. -/
def MYVAR2 : Name := ⟨ascii "MYVAR2", by decide, by decide⟩

/-- What it prints. -/
def main (environ : Env) : List Byte :=
  let environ := putenv MYVAR (ascii "somevalue") (myunsetenv MYVAR0 environ)
  let first := checkvar environ MYVAR
  let environ := putenv MYVAR2 (ascii "anothervalue") environ
  let second := checkvar environ MYVAR2
  let environ := myunsetenv MYVAR environ
  first ++ second ++ checkvar environ MYVAR ++ checkvar environ MYVAR2

/-- Only what is printed of MYVAR after it is unset depends on the environment. -/
theorem main_eq (environ : Env) : ∃ e : Env, main environ = ascii "MYVAR = somevalue\nMYVAR2 = anothervalue\n" ++
    checkvar (myunsetenv MYVAR e) MYVAR ++ ascii "MYVAR2 = anothervalue\n" ∧
      e.defined MYVAR = max 1 (environ.defined MYVAR) := by
  have hne : MYVAR2 ≠ MYVAR := by decide
  have hvalue (e : Env) : getenv (putenv MYVAR (ascii "somevalue") e) MYVAR = some (ascii "somevalue") :=
    getenv_putenv_self ..
  have hother (e : Env) : getenv (putenv MYVAR2 (ascii "anothervalue") e) MYVAR2 = some (ascii "anothervalue") :=
    getenv_putenv_self ..
  refine ⟨putenv MYVAR2 (ascii "anothervalue") (putenv MYVAR (ascii "somevalue") (myunsetenv MYVAR0 environ)), ?_, ?_⟩
  · simp only [main, checkvar, hvalue, hother, getenv_myunsetenv_of_ne _ hne]
    rfl
  · rw [defined_putenv_of_ne _ hne.symm, defined_putenv_self, defined_myunsetenv_of_ne _ (by decide)]

/-- Whatever the environment, but for one that defines MYVAR twice. -/
theorem main_prints_iff (environ : Env) :
    main environ = ascii "MYVAR = somevalue\nMYVAR2 = anothervalue\nMYVAR not defined\nMYVAR2 = anothervalue\n" ↔
      environ.defined MYVAR ≤ 1 := by
  obtain ⟨e, hmain, hdefined⟩ := main_eq environ
  have hwant : ascii "MYVAR = somevalue\nMYVAR2 = anothervalue\nMYVAR not defined\nMYVAR2 = anothervalue\n" =
      ascii "MYVAR = somevalue\nMYVAR2 = anothervalue\n" ++ (MYVAR.chars ++ ascii " not defined\n") ++
        ascii "MYVAR2 = anothervalue\n" := rfl
  rw [hmain, hwant, List.append_left_inj, List.append_right_inj]
  have hone : environ.defined MYVAR ≤ 1 ↔ getenv (myunsetenv MYVAR e) MYVAR = none := by
    rw [getenv_myunsetenv_self, hdefined]
    omega
  rw [hone, checkvar]
  cases getenv (myunsetenv MYVAR e) MYVAR with
  | none => simp
  | some value =>
    -- the byte after the name is a blank in both, the next one not
    simp only [List.append_assoc, List.append_right_inj, reduceCtorEq, iff_false]
    intro h
    cases h

end SysProg.Environ
