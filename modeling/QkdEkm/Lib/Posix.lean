import QkdEkm.Lib.Script
import Mathlib.Data.Nat.Bitwise
import Mathlib.Logic.Function.Basic

/-!
# Posix — files and processes, as a script sees them

A call returns, or raises what Python would raise; its fate is given from
outside. Files have permission bits, and other users see everything but
the content of the files that are the owner's alone (`Files.seen`), what
is written and what is piped to a process (`Op.look`). `Policy` says which
files may hold a secret; calls that keep to it look the same whatever the
secrets are (`respects`). What a script's calls are not about stays as it
was (`framed_ends`).
-/

namespace QkdEkm.Lib.Posix

/-- A file's name in its directory. -/
structure Path where
  dir : String
  name : String
  deriving DecidableEq, Repr

/-- `os.path.join(dir, name)`. -/
def Path.text (path : Path) : String := path.dir ++ "/" ++ path.name

structure File where
  content : List UInt8
  mode : Nat
  deriving DecidableEq, Repr

abbrev Files := Path → Option File

/-- Group and others have no permission. -/
def OwnerOnly (mode : Nat) : Prop := mode &&& 0o077 = 0

instance (mode : Nat) : Decidable (OwnerOnly mode) := inferInstanceAs (Decidable (_ = _))

/-- What another user sees of the files. -/
def Files.seen (files : Files) (path : Path) : Option (Nat × Option (List UInt8)) :=
  (files path).map fun file => (file.mode, if OwnerOnly file.mode then none else some file.content)

/-- `CompletedProcess`. -/
structure Completed where
  code : Int
  stdout : String
  stderr : String
  deriving DecidableEq, Repr

/-- An exception. An `OSError` has the call that raised it. -/
inductive Raised
  | osError (call path : String)
  | runtimeError (message : String)
  | other (kind message : String)
  deriving DecidableEq, Repr

/-- The calls of a script. `N` are its calls that are neither about files
nor about processes. -/
inductive Op (N : Type)
  | run (argv : List String) (stdin : Option String)
  | mkstemp (dir stem : String)
  | fchmod (path : Path) (mode : Nat)
  | openFile (path : Path) (mode : Nat)
  | write (path : Path) (content : List UInt8)
  | unlink (path : Path)
  | pathExists (path : Path)
  | read (path : Path)
  | makedirs (dir : String) (mode : Nat)
  | log (text : String)
  | net (request : N)
  deriving DecidableEq, Repr

variable {N A L : Type}

/-- What a call returns. -/
@[reducible] def Answer (A : Type) : Op N → Type
  | .run .. => Completed
  | .mkstemp .. => Path
  | .pathExists _ => Bool
  | .read _ => List UInt8
  | .net _ => A
  | _ => Unit

/-- What becomes of a call. A write that raises has written the first
`left` bytes. -/
inductive Fate (A : Type)
  | returns
  | names (suffix : String)
  | exits (completed : Completed)
  | answers (a : A)
  | raises (left : Nat)
  | fails (e : Raised)
  deriving DecidableEq, Repr

/-- The `OSError` of a call. -/
def Op.osError : Op N → Raised
  | .run argv _ => .osError "exec" (argv.headD "")
  | .mkstemp dir _ => .osError "mkstemp" dir
  | .fchmod path _ => .osError "fchmod" path.text
  | .openFile path _ => .osError "open" path.text
  | .write path _ => .osError "write" path.text
  | .unlink path => .osError "unlink" path.text
  | .pathExists path => .osError "stat" path.text
  | .read path => .osError "read" path.text
  | .makedirs dir _ => .osError "mkdir" dir
  | .log _ => .osError "log" ""
  | .net _ => .osError "net" ""

namespace Files

def put (files : Files) (path : Path) (file : Option File) : Files := Function.update files path file

@[simp] theorem put_self (files : Files) (path : Path) (file : Option File) :
    files.put path file path = file := Function.update_self ..

theorem put_ne {path other : Path} (files : Files) (file : Option File) (h : other ≠ path) :
    files.put path file other = files other := Function.update_of_ne h ..

/-- `O_CREAT | O_TRUNC`: an old file keeps its mode, a new one gets what the
umask lets through. -/
def truncated (files : Files) (keep : Nat) (path : Path) (mode : Nat) : File :=
  match files path with
  | some file => { file with content := [] }
  | none => ⟨[], mode &&& keep⟩

end Files

/-- One call, where the umask lets the bits of `keep` through. -/
def step (keep : Nat) (files : Files) :
    (op : Op N) → Fate A → Files × Except Raised (Answer A op)
  | .run _ _, .exits completed => (files, .ok completed)
  | .mkstemp dir stem, .names suffix =>
    if files ⟨dir, stem ++ suffix⟩ = none then
      (files.put ⟨dir, stem ++ suffix⟩ (some ⟨[], 0o600⟩), .ok ⟨dir, stem ++ suffix⟩)
    else (files, .error (Op.mkstemp dir stem : Op N).osError)
  | .fchmod path mode, .returns =>
    (files.put path ((files path).map fun file => { file with mode }), .ok ())
  | .openFile path mode, .returns =>
    (files.put path (some (files.truncated keep path mode)), .ok ())
  | .write path content, .returns =>
    (files.put path ((files path).map fun file => { file with content }), .ok ())
  | .write path content, .raises left =>
    (files.put path ((files path).map fun file => { file with content := content.take left }),
      .error (Op.write path content : Op N).osError)
  | .unlink path, .returns =>
    if files path = none then (files, .error (Op.unlink path : Op N).osError)
    else (files.put path none, .ok ())
  | .pathExists path, _ => (files, .ok (files path).isSome)
  | .read path, .returns =>
    match files path with
    | some file => (files, .ok file.content)
    | none => (files, .error (Op.read path : Op N).osError)
  | .makedirs _ _, .returns => (files, .ok ())
  | .log _, _ => (files, .ok ())
  | .net _, .answers a => (files, .ok a)
  | .net _, .fails e => (files, .error e)
  | op, _ => (files, .error op.osError)

/-- A system in which fates come from outside, and something comes to
them. -/
def world (keep : Nat) (resolve : Op N → Fate A → Fate A) (files : Files) (op : Op N)
    (fate : Fate A) : Files × Except Raised (Answer A op) :=
  step keep files op (resolve op fate)

/-- The call changes no file but those of `own`. -/
def Op.Within (own : Path → Prop) : Op N → Prop
  | .fchmod path _ | .openFile path _ | .write path _ | .unlink path => own path
  | .mkstemp _ _ => False
  | _ => True

/-- A script of such calls. -/
abbrev Routine (N A α : Type) := Script (Op N) (Answer A) Raised α

namespace Sys

open Script

def run (argv : List String) (stdin : Option String) : Routine N A Completed :=
  perform (Op.run argv stdin)

def mkstemp (dir stem : String) : Routine N A Path := perform (Op.mkstemp dir stem)

def fchmod (path : Path) (mode : Nat) : Routine N A Unit := perform (Op.fchmod path mode)

def openFile (path : Path) (mode : Nat) : Routine N A Unit := perform (Op.openFile path mode)

def write (path : Path) (content : List UInt8) : Routine N A Unit :=
  perform (Op.write path content)

def unlink (path : Path) : Routine N A Unit := perform (Op.unlink path)

def pathExists (path : Path) : Routine N A Bool := perform (Op.pathExists path)

def read (path : Path) : Routine N A (List UInt8) := perform (Op.read path)

def makedirs (dir : String) (mode : Nat) : Routine N A Unit := perform (Op.makedirs dir mode)

def log (text : String) : Routine N A Unit := perform (Op.log text)

def net (request : N) : Routine N A A := perform (Op.net request)

end Sys

/-- What another user sees of a call. -/
def Op.look (look : N → L) : Op N → Op L
  | .run argv _ => .run argv none
  | .mkstemp dir stem => .mkstemp dir stem
  | .fchmod path mode => .fchmod path mode
  | .openFile path mode => .openFile path mode
  | .write path _ => .write path []
  | .unlink path => .unlink path
  | .pathExists path => .pathExists path
  | .read path => .read path
  | .makedirs dir mode => .makedirs dir mode
  | .log text => .log text
  | .net request => .net (look request)

section

variable {keep : Nat} {files : Files} {path : Path}

theorem step_unlink (keep : Nat) (files : Files) (path : Path) (fate : Fate A) :
    step keep files (Op.unlink path : Op N) fate = (files, .error (.osError "unlink" path.text)) ∨
      step keep files (Op.unlink path : Op N) fate = (files.put path none, .ok ()) := by
  cases fate with
  | returns =>
    by_cases hnone : files path = none
    · rw [step, if_pos hnone]
      exact .inl rfl
    · rw [step, if_neg hnone]
      exact .inr rfl
  | _ => exact .inl rfl

theorem step_openFile (keep : Nat) (files : Files) (path : Path) (mode : Nat) (fate : Fate A) :
    (∃ e, step keep files (Op.openFile path mode : Op N) fate = (files, .error e)) ∨
      step keep files (Op.openFile path mode : Op N) fate =
        (files.put path (some (files.truncated keep path mode)), .ok ()) := by
  cases fate with
  | returns => exact .inr rfl
  | _ => exact .inl ⟨_, rfl⟩

theorem step_mkstemp (keep : Nat) (files : Files) (dir stem : String) (fate : Fate A) :
    (∃ e, step keep files (Op.mkstemp dir stem : Op N) fate = (files, .error e)) ∨
      ∃ suffix, files ⟨dir, stem ++ suffix⟩ = none ∧
        step keep files (Op.mkstemp dir stem : Op N) fate =
          (files.put ⟨dir, stem ++ suffix⟩ (some ⟨[], 0o600⟩), .ok ⟨dir, stem ++ suffix⟩) := by
  cases fate with
  | names suffix =>
    by_cases hnone : files ⟨dir, stem ++ suffix⟩ = none
    · refine .inr ⟨suffix, hnone, ?_⟩
      rw [step, if_pos hnone]
    · left
      rw [step, if_neg hnone]
      exact ⟨_, rfl⟩
  | _ => exact .inl ⟨_, rfl⟩

/-- **A call leaves the files alone that it is not about.** -/
theorem step_within {own : Path → Prop} {op : Op N} (h : op.Within own) (hpath : ¬ own path)
    (fate : Fate A) : (step keep files op fate).1 path = files path := by
  have hput : ∀ (other : Path) (file : Option File), own other →
      files.put other file path = files path :=
    fun other file hother => Files.put_ne _ _ (fun heq => hpath (heq ▸ hother))
  cases op with
  | mkstemp dir stem => exact h.elim
  | fchmod other mode => cases fate <;> first | rfl | exact hput _ _ h
  | openFile other mode => cases fate <;> first | rfl | exact hput _ _ h
  | write other content => cases fate <;> first | rfl | exact hput _ _ h
  | unlink other =>
    rcases step_unlink keep files other (N := N) fate with heq | heq
    · rw [heq]
    · rw [heq]
      exact hput _ _ h
  | read other =>
    cases fate <;> try rfl
    simp only [step]
    cases files other <;> rfl
  | _ => cases fate <;> rfl

/-- Only `unlink` takes a file away. -/
theorem step_present {op : Op N} (h : ∀ other, op ≠ .unlink other) (hpath : files path ≠ none)
    (fate : Fate A) : (step keep files op fate).1 path ≠ none := by
  have hput : ∀ (other : Path) (file : Option File), (other = path → file ≠ none) →
      files.put other file path ≠ none := by
    intro other file hfile
    by_cases hother : path = other
    · subst hother
      rw [Files.put_self]
      exact hfile rfl
    · rw [Files.put_ne _ _ hother]
      exact hpath
  have hmap : ∀ (other : Path) (f : File → File),
      files.put other ((files other).map f) path ≠ none := by
    refine fun other f => hput _ _ fun heq => ?_
    subst heq
    simpa using hpath
  cases op with
  | mkstemp dir stem =>
    rcases step_mkstemp keep files dir stem (N := N) fate with ⟨e, heq⟩ | ⟨suffix, _, heq⟩
    · rw [heq]
      exact hpath
    · rw [heq]
      exact hput _ _ fun _ => Option.some_ne_none _
  | openFile other mode =>
    rcases step_openFile keep files other mode (N := N) fate with ⟨e, heq⟩ | heq
    · rw [heq]
      exact hpath
    · rw [heq]
      exact hput _ _ fun _ => Option.some_ne_none _
  | fchmod other mode => cases fate <;> first | exact hpath | exact hmap other _
  | write other content => cases fate <;> first | exact hpath | exact hmap other _
  | unlink other => exact absurd rfl (h other)
  | _ =>
    have hwithin : ∀ op : Op N, op.Within (fun _ => False) →
        (step keep files op fate).1 path ≠ none := by
      intro op hop
      rw [step_within hop id]
      exact hpath
    exact hwithin _ trivial

/-! ## What a script leaves -/

/-- The files outside `own` are as they were. -/
def Framed (own : Path → Prop) (files now : Files) : Prop :=
  ∀ path, ¬ own path → now path = files path

variable {resolve : Op N → Fate A → Fate A} {now : Files} {calls : List (Op N)} {α : Type}
  {own : Path → Prop} {I : Files → Prop}

theorem framed_ends {t : Routine N A α} (h : t.Only (Op.Within own))
    (hway : ∀ now, Framed own files now → I now) (hnow : Framed own files now) :
    t.Ends (world keep resolve) I (fun now _ _ => Framed own files now) now calls := by
  refine h.ends (fun s op fate hop hs path hpath => ?_) hway hnow
  exact (step_within hop hpath _).trans (hs path hpath)

/-- A script that changes no file. -/
theorem still_ends {t : Routine N A α} (h : t.Only (Op.Within fun _ => False)) (hI : I files) :
    t.Ends (world keep resolve) I (fun now _ _ => now = files) files calls := by
  have hsame : ∀ now, Framed (fun _ => False) files now → now = files :=
    fun now hnow => funext fun path => hnow path id
  refine (framed_ends h (fun now hnow => ?_) fun _ _ => rfl).mono fun now _ _ hnow => hsame now hnow
  rw [hsame now hnow]
  exact hI

theorem world_log (text : String) (fate : Fate A) :
    (world keep resolve files (Op.log text) fate).1 = files := by
  have hlog : Op.Within (fun _ => False) (Op.log text : Op N) := trivial
  funext path
  exact step_within hlog id _

theorem pathExists_ends (hI : I files) (path : Path) :
    (Sys.pathExists path : Routine N A Bool).Ends (world keep resolve) I
      (fun now _ r => now = files ∧ r = .ok (files path).isSome) files calls :=
  fun _ => ⟨hI, rfl, rfl⟩

end

/-! ## Secrets -/

/-- Which files may hold a secret, which files are there to stay, which
commands print a secret and which outputs differ in a secret only, and what
can be told of requests and answers. -/
structure Policy (N A L : Type) where
  Secret : Path → Prop
  Stays : Path → Prop
  Mints : List String → Prop
  Minted : String → String → Prop
  look : N → L
  Like : N → N → A → A → Prop

namespace Policy

variable (pol : Policy N A L)

/-- Two calls that look the same, and keep secrets where they belong. -/
def Same : Op N → Op N → Prop
  | .run argv _, .run argv' _ => argv = argv'
  | .mkstemp dir stem, .mkstemp dir' stem' => dir = dir' ∧ stem = stem' ∧
    ∀ suffix, pol.Secret ⟨dir, stem ++ suffix⟩ ∨ pol.Stays ⟨dir, stem ++ suffix⟩
  | .fchmod path mode, .fchmod path' mode' =>
    path = path' ∧ mode = mode' ∧ (pol.Secret path → OwnerOnly mode)
  | .openFile path mode, .openFile path' mode' =>
    path = path' ∧ mode = mode' ∧ (pol.Secret path → OwnerOnly mode)
  | .write path content, .write path' content' =>
    path = path' ∧ (content = content' ∨ pol.Secret path)
  | .unlink path, .unlink path' => path = path' ∧ ¬ pol.Stays path
  | .pathExists path, .pathExists path' => path = path'
  | .read path, .read path' => path = path' ∧ ¬ pol.Secret path
  | .makedirs dir mode, .makedirs dir' mode' => dir = dir' ∧ mode = mode'
  | .log text, .log text' => text = text'
  | .net request, .net request' => pol.look request = pol.look request'
  | _, _ => False

/-- Two processes that end alike. -/
def Alike (argv : List String) (p p' : Completed) : Prop :=
  p = p' ∨ pol.Mints argv ∧ p.code = 0 ∧ p'.code = 0 ∧ p.stderr = p'.stderr ∧
    pol.Minted p.stdout p'.stdout

def coupling : Coupling (Op N) (Answer A) where
  Same := pol.Same
  Like
    | .run argv _, .run _ _ => fun p p' => pol.Alike argv p p'
    | .mkstemp _ _, .mkstemp _ _ => fun path path' => path = path' ∧ pol.Secret path
    | .pathExists _, .pathExists _ => fun b b' => b = b'
    | .read _, .read _ => fun content content' => content = content'
    | .net request, .net request' => pol.Like request request'
    | _, _ => fun _ _ => True

/-- The files of two runs. -/
structure Veiled (files files' : Files) : Prop where
  same : ∀ path, files path = files' path ∨ pol.Secret path ∧
    ∃ file file', files path = some file ∧ files' path = some file' ∧ file.mode = file'.mode
  owned : ∀ path, pol.Secret path → ∀ file, files path = some file → OwnerOnly file.mode
  stays : ∀ path, pol.Stays path → files path ≠ none

/-- Two fates that differ in a secret only. -/
def Twins : Op N → Op N → Fate A → Fate A → Prop
  | .run argv _, _, .exits p, .exits p' => pol.Alike argv p p'
  | .net request, .net request', .answers a, .answers a' => pol.Like request request' a a'
  | _, _, fate, fate' => fate = fate'

variable {pol} {files files' : Files} {path : Path}

theorem Veiled.none_iff (h : pol.Veiled files files') (path : Path) :
    files path = none ↔ files' path = none := by
  rcases h.same path with hsame | ⟨_, file, file', hfile, hfile', _⟩
  · rw [hsame]
  · simp [hfile, hfile']

/-- A file is replaced in both runs. -/
theorem Veiled.put (h : pol.Veiled files files') {file file' : Option File}
    (hsame : file = file' ∨ pol.Secret path ∧
      ∃ f f', file = some f ∧ file' = some f' ∧ f.mode = f'.mode)
    (howned : pol.Secret path → ∀ f, file = some f → OwnerOnly f.mode)
    (hstays : pol.Stays path → file ≠ none) :
    pol.Veiled (files.put path file) (files'.put path file') := by
  constructor
  case same =>
    intro other
    by_cases hother : other = path
    · subst hother
      simpa using hsame
    · rw [Files.put_ne _ _ hother, Files.put_ne _ _ hother]
      exact h.same other
  case owned =>
    intro other hsecret
    by_cases hother : other = path
    · subst hother
      simpa using howned hsecret
    · rw [Files.put_ne _ _ hother]
      exact h.owned other hsecret
  case stays =>
    intro other hstay
    by_cases hother : other = path
    · subst hother
      simpa using hstays hstay
    · rw [Files.put_ne _ _ hother]
      exact h.stays other hstay

/-- A file is changed alike in both runs, if it is there. -/
theorem Veiled.change (h : pol.Veiled files files') {f f' : File → File}
    (hsame : f = f' ∨ pol.Secret path) (hmode : ∀ file file', file.mode = file'.mode →
      (f file).mode = (f' file').mode)
    (howned : ∀ file, pol.Secret path → OwnerOnly file.mode → OwnerOnly (f file).mode) :
    pol.Veiled (files.put path ((files path).map f)) (files'.put path ((files' path).map f')) := by
  refine h.put ?_ ?_ ?_
  · rcases h.same path with heq | ⟨hsecret, file, file', hfile, hfile', hmodes⟩
    · rw [← heq]
      cases hfile : files path with
      | none => exact .inl rfl
      | some file =>
        rcases hsame with rfl | hsecret
        · exact .inl rfl
        · exact .inr ⟨hsecret, _, _, rfl, rfl, hmode file file rfl⟩
    · rw [hfile, hfile']
      exact .inr ⟨hsecret, _, _, rfl, rfl, hmode file file' hmodes⟩
  · intro hsecret file hfile
    obtain ⟨old, hold, rfl⟩ := Option.map_eq_some_iff.mp hfile
    exact howned old hsecret (h.owned path hsecret old hold)
  · intro hstay hnone
    exact h.stays path hstay (Option.map_eq_none_iff.mp hnone)

theorem ownerOnly_and {mode : Nat} (h : OwnerOnly mode) (keep : Nat) : OwnerOnly (mode &&& keep) := by
  unfold OwnerOnly at h ⊢
  rw [Nat.land_assoc, Nat.land_comm keep, ← Nat.land_assoc, h, Nat.zero_and]

theorem Veiled.truncate (h : pol.Veiled files files') {mode : Nat} (keep : Nat)
    (hmode : pol.Secret path → OwnerOnly mode) :
    pol.Veiled (files.put path (some (files.truncated keep path mode)))
      (files'.put path (some (files'.truncated keep path mode))) := by
  refine h.put ?_ ?_ (fun _ => by simp)
  · rcases h.same path with heq | ⟨hsecret, file, file', hfile, hfile', hmodes⟩
    · exact .inl (by rw [Files.truncated, Files.truncated, heq])
    · refine .inr ⟨hsecret, _, _, rfl, rfl, ?_⟩
      rw [Files.truncated, Files.truncated, hfile, hfile']
      exact hmodes
  · intro hsecret file hfile
    cases hfile
    cases hold : files path with
    | none =>
      rw [Files.truncated, hold]
      exact ownerOnly_and (hmode hsecret) keep
    | some old =>
      rw [Files.truncated, hold]
      exact h.owned path hsecret old hold

/-- **Calls that keep to the policy** are answered alike, and other users
see the same files afterwards. -/
theorem respects (keep : Nat) {resolve resolve' : Op N → Fate A → Fate A}
    (hresolve : ∀ op op' fate, pol.Same op op' →
      pol.Twins op op' (resolve op fate) (resolve' op' fate)) :
    Script.Respects pol.coupling pol.Veiled (world keep resolve) (world keep resolve') := by
  intro files files' op op' fate h hsame
  have htwins := hresolve op op' fate hsame
  unfold world
  generalize resolve op fate = f at htwins
  generalize resolve' op' fate = f' at htwins
  cases op with
  | run argv stdin =>
    cases op' with
    | run argv' stdin' =>
      obtain rfl : argv = argv' := hsame
      cases f <;> cases f' <;> first | cases htwins <;> exact ⟨h, .error _⟩ | exact ⟨h, .ok htwins⟩
    | _ => exact hsame.elim
  | mkstemp dir stem =>
    cases op' with
    | mkstemp dir' stem' =>
      obtain ⟨rfl, rfl, hsecret⟩ := hsame
      obtain rfl : f = f' := htwins
      cases f with
      | names suffix =>
        by_cases hnone : files ⟨dir, stem ++ suffix⟩ = none
        · have hsecret := (hsecret suffix).resolve_right fun hstay => h.stays _ hstay hnone
          rw [step, step, if_pos hnone, if_pos ((h.none_iff _).mp hnone)]
          refine ⟨h.put (.inl rfl) (fun _ file hfile => ?_) (fun _ => by simp), .ok ⟨rfl, hsecret⟩⟩
          cases hfile
          decide
        · rw [step, step, if_neg hnone, if_neg fun hnone' => hnone ((h.none_iff _).mpr hnone')]
          exact ⟨h, .error _⟩
      | _ => exact ⟨h, .error _⟩
    | _ => exact hsame.elim
  | fchmod path mode =>
    cases op' with
    | fchmod path' mode' =>
      obtain ⟨rfl, rfl, hmode⟩ := hsame
      obtain rfl : f = f' := htwins
      cases f with
      | returns =>
        exact ⟨h.change (.inl rfl) (fun _ _ _ => rfl) fun _ hsecret _ => hmode hsecret, .ok trivial⟩
      | _ => exact ⟨h, .error _⟩
    | _ => exact hsame.elim
  | openFile path mode =>
    cases op' with
    | openFile path' mode' =>
      obtain ⟨rfl, rfl, hmode⟩ := hsame
      obtain rfl : f = f' := htwins
      cases f with
      | returns => exact ⟨h.truncate keep hmode, .ok trivial⟩
      | _ => exact ⟨h, .error _⟩
    | _ => exact hsame.elim
  | write path content =>
    cases op' with
    | write path' content' =>
      obtain ⟨rfl, hcontent⟩ := hsame
      obtain rfl : f = f' := htwins
      have hwrite : ∀ g : List UInt8 → List UInt8,
          (fun file : File => { file with content := g content }) =
            (fun file : File => { file with content := g content' }) ∨ pol.Secret path :=
        fun g => hcontent.imp_left fun heq => by rw [heq]
      cases f with
      | returns =>
        exact ⟨h.change (hwrite id) (fun _ _ hmodes => hmodes) fun _ _ howned => howned, .ok trivial⟩
      | raises left =>
        exact ⟨h.change (hwrite (·.take left)) (fun _ _ hmodes => hmodes) fun _ _ howned => howned,
          .error _⟩
      | _ => exact ⟨h, .error _⟩
    | _ => exact hsame.elim
  | unlink path =>
    cases op' with
    | unlink path' =>
      obtain ⟨rfl, hstay⟩ := hsame
      obtain rfl : f = f' := htwins
      cases f with
      | returns =>
        by_cases hnone : files path = none
        · rw [step, step, if_pos hnone, if_pos ((h.none_iff _).mp hnone)]
          exact ⟨h, .error _⟩
        · rw [step, step, if_neg hnone, if_neg fun hnone' => hnone ((h.none_iff _).mpr hnone')]
          refine ⟨h.put (.inl rfl) (fun _ _ hfile => ?_) (absurd · hstay), .ok trivial⟩
          cases hfile
      | _ => exact ⟨h, .error _⟩
    | _ => exact hsame.elim
  | pathExists path =>
    cases op' with
    | pathExists path' =>
      obtain rfl : path = path' := hsame
      obtain rfl : f = f' := htwins
      have hsome : (files path).isSome = (files' path).isSome := by
        rw [Bool.eq_iff_iff, Option.isSome_iff_ne_none, Option.isSome_iff_ne_none]
        exact not_congr (h.none_iff path)
      exact ⟨h, .ok hsome⟩
    | _ => exact hsame.elim
  | read path =>
    cases op' with
    | read path' =>
      obtain ⟨rfl, hsecret⟩ := hsame
      obtain rfl : f = f' := htwins
      have heq : files path = files' path := (h.same path).resolve_right fun hboth => hsecret hboth.1
      cases f with
      | returns =>
        simp only [step]
        rw [← heq]
        cases files path with
        | none => exact ⟨h, .error _⟩
        | some file => exact ⟨h, .ok rfl⟩
      | _ => exact ⟨h, .error _⟩
    | _ => exact hsame.elim
  | makedirs dir mode =>
    cases op' with
    | makedirs dir' mode' =>
      obtain ⟨rfl, rfl⟩ := hsame
      obtain rfl : f = f' := htwins
      cases f with
      | returns => exact ⟨h, .ok trivial⟩
      | _ => exact ⟨h, .error _⟩
    | _ => exact hsame.elim
  | log text =>
    cases op' with
    | log text' => exact ⟨h, .ok trivial⟩
    | _ => exact hsame.elim
  | net request =>
    cases op' with
    | net request' =>
      cases f <;> cases f' <;> first | cases htwins <;> exact ⟨h, .error _⟩ | exact ⟨h, .ok htwins⟩
    | _ => exact hsame.elim

/-! ## Rules -/

open Script

/-- Two routines that look the same, and end with `V`. -/
abbrev Hides (pol : Policy N A L) {α β : Type} (V : α → β → Prop) (t : Routine N A α)
    (t' : Routine N A β) : Prop :=
  Couples pol.coupling V t t'

theorem hides_log (text : String) : pol.Hides (fun _ _ => True) (Sys.log text) (Sys.log text) :=
  couples_perform (Op.log text) (Op.log text) rfl

theorem hides_makedirs (dir : String) (mode : Nat) :
    pol.Hides (fun _ _ => True) (Sys.makedirs dir mode) (Sys.makedirs dir mode) :=
  couples_perform (Op.makedirs dir mode) (Op.makedirs dir mode) ⟨rfl, rfl⟩

theorem hides_run (argv : List String) (stdin stdin' : Option String) :
    pol.Hides (pol.Alike argv) (Sys.run argv stdin) (Sys.run argv stdin') :=
  couples_perform (Op.run argv stdin) (Op.run argv stdin') rfl

theorem hides_mkstemp {dir stem : String}
    (h : ∀ suffix, pol.Secret ⟨dir, stem ++ suffix⟩ ∨ pol.Stays ⟨dir, stem ++ suffix⟩) :
    pol.Hides (fun path path' => path = path' ∧ pol.Secret path) (Sys.mkstemp dir stem)
      (Sys.mkstemp dir stem) :=
  couples_perform (Op.mkstemp dir stem) (Op.mkstemp dir stem) ⟨rfl, rfl, h⟩

theorem hides_fchmod {mode : Nat} (path : Path) (h : OwnerOnly mode) :
    pol.Hides (fun _ _ => True) (Sys.fchmod path mode) (Sys.fchmod path mode) :=
  couples_perform (Op.fchmod path mode) (Op.fchmod path mode) ⟨rfl, rfl, fun _ => h⟩

theorem hides_openFile {mode : Nat} (path : Path) (h : OwnerOnly mode) :
    pol.Hides (fun _ _ => True) (Sys.openFile path mode) (Sys.openFile path mode) :=
  couples_perform (Op.openFile path mode) (Op.openFile path mode) ⟨rfl, rfl, fun _ => h⟩

theorem hides_write {content content' : List UInt8} (h : content = content' ∨ pol.Secret path) :
    pol.Hides (fun _ _ => True) (Sys.write path content) (Sys.write path content') :=
  couples_perform (Op.write path content) (Op.write path content') ⟨rfl, h⟩

theorem hides_unlink (h : ¬ pol.Stays path) :
    pol.Hides (fun _ _ => True) (Sys.unlink path) (Sys.unlink path) :=
  couples_perform (Op.unlink path) (Op.unlink path) ⟨rfl, h⟩

theorem hides_pathExists (path : Path) :
    pol.Hides Eq (Sys.pathExists path) (Sys.pathExists path) :=
  couples_perform (Op.pathExists path) (Op.pathExists path) rfl

theorem hides_read (h : ¬ pol.Secret path) : pol.Hides Eq (Sys.read path) (Sys.read path) :=
  couples_perform (Op.read path) (Op.read path) ⟨rfl, h⟩

theorem hides_net {request request' : N} (h : pol.look request = pol.look request') :
    pol.Hides (pol.Like request request') (Sys.net request) (Sys.net request') :=
  couples_perform (Op.net request) (Op.net request') h

/-! ## What is seen -/

theorem Veiled.seen (h : pol.Veiled files files') : files.seen = files'.seen := by
  funext path
  unfold Files.seen
  rcases h.same path with heq | ⟨hsecret, file, file', hfile, hfile', hmodes⟩
  · rw [heq]
  · have howned := h.owned path hsecret file hfile
    rw [hfile, hfile', Option.map_some, Option.map_some, ← hmodes, if_pos howned,
      if_pos howned]

theorem Same.look {op op' : Op N} (h : pol.Same op op') : op.look pol.look = op'.look pol.look := by
  cases op <;> cases op' <;> simp_all [Same, Op.look]

theorem look_calls {calls calls' : List (Op N)} (h : List.Forall₂ pol.Same calls calls') :
    calls.map (Op.look pol.look) = calls'.map (Op.look pol.look) := by
  induction h with
  | nil => rfl
  | cons hsame _ ih => rw [List.map_cons, List.map_cons, Same.look hsame, ih]

/-- **Two routines that hide their secrets** are seen alike: their calls, how
they end, and the files that they leave. -/
theorem hides_seen {α : Type} {t t' : Routine N A α} (h : pol.Hides Eq t t') (keep : Nat)
    {resolve resolve' : Op N → Fate A → Fate A}
    (hresolve : ∀ op op' fate, pol.Same op op' →
      pol.Twins op op' (resolve op fate) (resolve' op' fate))
    (hfiles : pol.Veiled files files') (fates : List (Fate A)) :
    pol.Veiled (t.exec (world keep resolve) files fates).state
        (t'.exec (world keep resolve') files' fates).state ∧
      ((t.exec (world keep resolve) files fates).calls.map (Op.look pol.look),
        (t.exec (world keep resolve) files fates).result,
        Files.seen (t.exec (world keep resolve) files fates).state) =
      ((t'.exec (world keep resolve') files' fates).calls.map (Op.look pol.look),
        (t'.exec (world keep resolve') files' fates).result,
        Files.seen (t'.exec (world keep resolve') files' fates).state) := by
  obtain ⟨hveiled, hcalls, hresult⟩ := Couples.exec h (respects keep hresolve) hfiles fates
  refine ⟨hveiled, Prod.ext ?_ (Prod.ext ?_ ?_)⟩
  · exact look_calls hcalls
  · exact eq_of_agree hresult
  · exact hveiled.seen

end Policy

end QkdEkm.Lib.Posix
