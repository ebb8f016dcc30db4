import QkdEkm.Common.Crypto
import QkdEkm.Lib.Percent
import QkdEkm.Lib.Posix
import QkdEkm.Lib.Text

/-!
# Wg — the calls of WireGuard's tools

What the server's `WG` and the client's `WGClient` have in common: the
commands they run, and the file by which a pre-shared key gets to `wg`.
-/

namespace QkdEkm.Common

open QkdEkm.Lib QkdEkm.Lib.Posix QkdEkm.Lib.Script

variable {N A : Type}

/-- `s.strip()`. -/
def stripped (s : String) : String := String.ofList (strip s.toList)

/-- `s.encode()`. -/
def encoded (s : String) : Bytes := Percent.utf8 s.toList

/-- The message of the exception for a command that failed. -/
def failure (args : List String) (result : Completed) : Raised :=
  let output := if result.stderr = "" then result.stdout else result.stderr
  .runtimeError (" ".intercalate args ++ ": " ++ stripped output)

/-- `_run`. -/
def runArgs (args : List String) (stdin : Option String) (check : Bool) : Routine N A Completed := do
  let result ← Sys.run args stdin
  if check ∧ result.code ≠ 0 then raise (failure args result) else pure result

/-- A file that holds a pre-shared key, handed to the command `args` and
deleted whatever the command does. -/
def withPsk (tmp : String) (psk : Bytes) (args : String → List String) : Routine N A Unit := do
  let path ← Sys.mkstemp tmp "wg-psk-"
  ensuring
    (do
      Sys.fchmod path 0o600
      Sys.write path (encoded (b64e psk))
      let _ ← runArgs (args path.text) none true
      pure ())
    (Sys.unlink path)

section

variable {own : Path → Prop} {keep : Nat} {resolve : Op N → Fate A → Fate A} {files : Files}
  {calls : List (Op N)}

theorem only_runArgs (args : List String) (stdin : Option String) (check : Bool) :
    (runArgs (A := A) args stdin check).Only (Op.Within (N := N) own) := by
  refine (only_perform _ trivial).bind fun result => ?_
  split <;> trivial

/-- The files, and perhaps a new temporary one. -/
def Spilled (tmp : String) (files now : Files) : Prop :=
  ∀ path, now path = files path ∨
    files path = none ∧ path.dir = tmp ∧ ∃ suffix, path.name = "wg-psk-" ++ suffix

/-- **The file of a pre-shared key is deleted**, or the exception tells of
it. -/
theorem withPsk_ends (tmp : String) (psk : Bytes) (args : String → List String) :
    (withPsk tmp psk args).Ends (world keep resolve) (Spilled tmp files)
      (fun now _ r => now = files ∨ ∃ path : Path, path.dir = tmp ∧
        (∃ suffix, path.name = "wg-psk-" ++ suffix) ∧ r = .error (.osError "unlink" path.text))
      files calls := by
  intro fate
  unfold world
  rcases step_mkstemp keep files tmp "wg-psk-" (N := N) (resolve (.mkstemp tmp "wg-psk-") fate) with
    ⟨e, heq⟩ | ⟨suffix, hnone, heq⟩
  · rw [heq]
    exact ⟨fun _ => .inl rfl, .inl rfl⟩
  · rw [heq]
    generalize hpath : (⟨tmp, "wg-psk-" ++ suffix⟩ : Path) = path at hnone heq ⊢
    -- up to the `unlink` nothing but the temporary file changes
    have hspilled : ∀ now, Framed (· = path) files now → Spilled tmp files now := by
      intro now hnow other
      by_cases hother : other = path
      · subst hother
        exact .inr ⟨hnone, by rw [← hpath], suffix, by rw [← hpath]⟩
      · exact .inl (hnow other hother)
    have hput : ∀ file, Framed (· = path) files (files.put path file) :=
      fun file other hother => Files.put_ne _ _ hother
    refine ⟨hspilled _ (hput _), Ends.ensuring (framed_ends ?_ hspilled (hput _)) ?_⟩
    · refine Only.bind (only_perform _ rfl) fun _ => Only.bind (only_perform _ rfl) fun _ => ?_
      exact (only_runArgs _ _ _).bind fun _ => only_pure ()
    · intro now calls r hnow fate
      dsimp only
      rcases step_unlink keep now path (N := N) (resolve (.unlink path) fate) with hunlink | hunlink
      · rw [hunlink]
        refine ⟨hspilled now hnow, .inr ⟨path, by rw [← hpath], ⟨suffix, by rw [← hpath]⟩, rfl⟩⟩
      · rw [hunlink]
        have hgone : now.put path none = files := by
          funext other
          by_cases hother : other = path
          · rw [hother, Files.put_self, hnone]
          · rw [Files.put_ne _ _ hother, hnow other hother]
        exact ⟨fun other => .inl (congrFun hgone other), .inl hgone⟩

end

section

variable {L : Type} {pol : Policy N A L}

theorem hides_runArgs {args : List String} (h : ¬ pol.Mints args) (stdin stdin' : Option String)
    (check : Bool) : pol.Hides Eq (runArgs args stdin check) (runArgs args stdin' check) := by
  refine (Policy.hides_run args stdin stdin').bind fun p p' hp => ?_
  obtain rfl : p = p' := hp.resolve_right fun hmint => h hmint.1
  split
  · exact couples_raise _
  · exact couples_pure rfl

/-- **A pre-shared key is handed over unseen.** -/
theorem hides_withPsk {tmp : String} {args : String → List String}
    (hargs : ∀ path, ¬ pol.Mints (args path))
    (htemp : ∀ suffix, pol.Secret ⟨tmp, "wg-psk-" ++ suffix⟩ ∨ pol.Stays ⟨tmp, "wg-psk-" ++ suffix⟩)
    (hstays : ∀ path, pol.Secret path → ¬ pol.Stays path) (psk psk' : Bytes) :
    pol.Hides (fun _ _ => True) (withPsk tmp psk args) (withPsk tmp psk' args) := by
  refine (Policy.hides_mkstemp htemp).bind fun path path' hpath => ?_
  obtain ⟨rfl, hsecret⟩ := hpath
  refine Couples.ensuring ?_ (Policy.hides_unlink (hstays path hsecret))
  refine (Policy.hides_fchmod path (by decide)).bind fun _ _ _ => ?_
  refine (Policy.hides_write (.inr hsecret)).bind fun _ _ _ => ?_
  refine (hides_runArgs (hargs path.text) none none true).bind fun _ _ _ => ?_
  exact couples_pure trivial

end

end QkdEkm.Common
