import QkdEkm.Client.Secrecy

/-!
# Tidy — what the client leaves on the disk

The commands write their configuration and their session, and `refresh` a
temporary file. Whatever fails, they leave every other file alone, the
temporary file is gone when a command has ended (or the command says that
it could not delete it), and after a `disconnect` that succeeded neither
the configuration nor the session is left (`client_tidy`).
-/

namespace QkdEkm.Client

open QkdEkm.Common QkdEkm.Lib QkdEkm.Lib.Posix QkdEkm.Lib.Script

/-- The files that the client keeps. -/
def Config.Kept (cfg : Config) (path : Path) : Prop :=
  path = cfg.wg.confPath ∨ path = cfg.sessionPath

/-- The names of its temporary files. -/
def Config.Temp (cfg : Config) (path : Path) : Prop :=
  path.dir = cfg.tmp ∧ ∃ suffix, path.name = "wg-psk-" ++ suffix

/-- The command ends with the exception of `os.unlink`, and says so. -/
def Report.SaysLeft (cfg : Config) (report : Report) : Prop :=
  ∃ path, cfg.Temp path ∧ report.result = some (.ok 1) ∧
    report.calls.getLast? = some (.log ("unlink: " ++ path.text))

/-- The command ran to its end, and left no file behind. -/
def Report.Whole (cfg : Config) (report : Report) : Prop :=
  report.result ≠ none ∧ ¬ report.SaysLeft cfg

abbrev ClientStep := Moment Files Invocation Report

/-- Neither the configuration nor the session is there. -/
def Bare (cfg : Config) (files : Files) : Prop :=
  files cfg.wg.confPath = none ∧ files cfg.sessionPath = none

/-- From a `disconnect` that succeeded up to the next `connect`, neither is
there. -/
def Parted (cfg : Config) (steps : List ClientStep) (now : Files) : Prop :=
  ∀ before m after, steps = before ++ m :: after → m.act.cmd = .disconnect →
    m.out.result = some (.ok 0) → (∀ m' ∈ after, m'.act.cmd ≠ .connect) → Bare cfg now

/-- What a run of the client leaves. -/
structure Cleans (cfg : Config) (start : Files) (steps : List ClientStep) (final : Files) :
    Prop where
  outside : ∀ path, ¬ cfg.Kept path →
    final path = start path ∨ start path = none ∧ cfg.Temp path
  whole : (∀ m ∈ steps, m.out.Whole cfg) → ∀ path, ¬ cfg.Kept path → final path = start path
  gone : Parted cfg steps final

section

variable {cfg : Config} {keep : Nat} {resolve : Op Net → Fate NetAnswer → Fate NetAnswer}
  {start files : Files} {calls : List (Op Net)} {path : Path} {α : Type}

/-! ## Where the scripts write -/

section

variable {own : Path → Prop}

theorem only_exchange (request : Net) : (exchange request).Only (Op.Within own) := by
  refine (only_perform _ trivial).bind fun answer => ?_
  cases answer with
  | response status body =>
    dsimp only
    split
    · exact only_pure _
    · exact only_raise _
  | _ => exact only_raise _

theorem only_genkey : WGClient.genkey.Only (Op.Within own) :=
  (only_runArgs _ _ _).bind fun _ => (only_runArgs _ _ _).bind fun _ => only_pure _

theorem only_up (path : Path) : (WGClient.up path).Only (Op.Within own) :=
  (only_runArgs _ _ _).bind fun _ => only_pure _

theorem only_down (path : Path) : (WGClient.down path).Only (Op.Within own) :=
  (only_runArgs _ _ _).bind fun _ => only_pure _

theorem only_show (wg : WGClient) : wg.show.Only (Op.Within own) :=
  (only_runArgs _ _ _).bind fun _ => only_pure _

theorem only_writeConf (h : own path) (priv address serverPub endpoint psk allowedIps : String) :
    (WGClient.writeConf path priv address serverPub endpoint psk allowedIps).Only (Op.Within own) :=
  Only.bind (only_perform _ trivial) fun _ => Only.bind (only_perform _ h) fun _ => only_perform _ h

theorem only_metadataToken : metadataToken.Only (Op.Within own) := by
  refine Only.rescue ((only_exchange _).bind fun body => ?_) fun e => ?_
  · cases body with
    | text s => exact only_pure _
    | _ => exact only_raise _
  · cases e with
    | other kind message =>
      dsimp only
      split
      · exact only_pure _
      · exact only_raise _
    | _ => exact only_raise _

theorem only_printedToken : (printedToken cfg).Only (Op.Within own) := by
  refine Only.bind (Only.rescue ((only_perform _ trivial).bind fun _ => only_pure _) fun e => ?_)
    fun result => ?_
  · cases e with
    | osError _ _ => exact only_pure _
    | _ => exact only_raise _
  · cases result with
    | none => exact only_pure _
    | some result =>
      dsimp only
      split <;> exact only_pure _

theorem only_idToken : (idToken cfg).Only (Op.Within own) := by
  unfold idToken
  split
  · exact only_pure _
  · refine only_metadataToken.bind fun token => ?_
    cases token with
    | inr token => exact only_pure _
    | inl message =>
      refine only_printedToken.bind fun token => ?_
      cases token with
      | inr token => exact only_pure _
      | inl message => exact only_raise _

theorem only_fetchKey (keyId : String) : (fetchKey cfg keyId).Only (Op.Within own) := by
  refine (only_perform _ trivial).bind fun answer => ?_
  cases answer with
  | key key => exact only_pure _
  | _ => exact only_raise _

theorem only_saveSession (h : own cfg.sessionPath) (session : SessionFile) :
    (saveSession cfg session).Only (Op.Within own) :=
  Only.bind (only_perform _ trivial) fun _ => Only.bind (only_perform _ h) fun _ => only_perform _ h

theorem only_readSession : (readSession cfg).Only (Op.Within own) := by
  refine (only_perform _ trivial).bind fun b => ?_
  cases b with
  | false => exact only_pure _
  | true =>
    refine (only_perform _ trivial).bind fun text => ?_
    cases cfg.codec.loads text with
    | none => exact only_raise _
    | some session => exact only_pure _

theorem only_requireSession : (requireSession cfg).Only (Op.Within own) := by
  refine only_readSession.bind fun session => ?_
  cases session with
  | none => exact only_raise _
  | some session => exact only_pure _

theorem only_sleepUntil (effectiveTime : String) :
    (sleepUntil cfg effectiveTime).Only (Op.Within own) := by
  unfold sleepUntil
  cases cfg.codec.fromisoformat effectiveTime with
  | none => exact only_raise _
  | some time =>
    refine (only_perform _ trivial).bind fun answer => ?_
    cases answer with
    | time now =>
      dsimp only
      split
      · exact (only_perform _ trivial).bind fun _ => only_pure _
      · exact only_pure _
    | _ => exact only_raise _

theorem only_sealFile (key content : Bytes) (name : String) :
    (sealFile cfg key content name).Only (Op.Within own) := by
  refine (only_perform _ trivial).bind fun answer => ?_
  cases answer with
  | random nonce =>
    dsimp only
    cases aesGcmWrap cfg.aead nonce key content (encoded name) with
    | none => exact only_raise _
    | some blob => exact only_pure _
  | _ => exact only_raise _

theorem only_remove (h : own path) : (remove path).Only (Op.Within own) := by
  refine (only_perform _ trivial).bind fun b => ?_
  cases b with
  | false => exact only_pure _
  | true => exact only_perform _ h

theorem only_log (text : String) : (Sys.log text : Command Unit).Only (Op.Within own) :=
  only_perform _ trivial

theorem only_rescuedDown (path : Path) : (rescue (WGClient.down path) fun
    | .runtimeError message => Sys.log ("wg-quick down failed, cleaning up anyway: " ++ message)
    | e => raise e : Command Unit).Only (Op.Within own) := by
  refine Only.rescue (only_down path) fun e => ?_
  cases e with
  | runtimeError message => exact only_log _
  | _ => exact only_raise _

/-! ## Where the commands write -/

theorem only_connect (hconf : own cfg.wg.confPath) (hsession : own cfg.sessionPath) :
    (connect cfg).Only (Op.Within own) := by
  refine (only_log _).bind fun _ => (only_log _).bind fun _ => (only_log _).bind fun _ =>
    (only_log _).bind fun _ => only_genkey.bind fun pair => (only_perform _ trivial).bind fun _ =>
    (only_log _).bind fun _ => (only_log _).bind fun _ => only_idToken.bind fun token =>
    (only_exchange _).bind fun body => ?_
  cases body with
  | connection body =>
    exact (only_log _).bind fun _ => (only_fetchKey _).bind fun psk => (only_log _).bind fun _ =>
      (only_writeConf hconf _ _ _ _ _ _).bind fun _ => (only_up _).bind fun _ =>
      (only_log _).bind fun _ => only_saveSession hsession _
  | _ => exact only_raise _

theorem only_upload (path : Path) (uploadUrl : String) :
    (upload cfg path uploadUrl).Only (Op.Within own) := by
  refine (only_log _).bind fun _ => (only_exchange _).bind fun body => ?_
  cases body with
  | fileKey keyId =>
    refine (only_fetchKey _).bind fun key => (only_log _).bind fun _ =>
      (only_perform _ trivial).bind fun content => (only_sealFile _ _ _).bind fun blob =>
      (only_log _).bind fun _ => (only_exchange _).bind fun body => (only_log _).bind fun _ => ?_
    cases body with
    | object uri => exact only_log _
    | _ => exact only_raise _
  | _ => exact only_raise _

theorem only_status : (status cfg).Only (Op.Within own) := by
  refine (only_show _).bind fun text => (only_log _).bind fun _ => ?_
  refine only_readSession.bind fun session => ?_
  cases session with
  | none => exact only_log _
  | some session => exact (only_log _).bind fun _ => (only_log _).bind fun _ => only_log _

theorem only_disconnect (hconf : own cfg.wg.confPath) (hsession : own cfg.sessionPath) :
    (disconnect cfg).Only (Op.Within own) := by
  exact (only_rescuedDown _).bind fun _ => (only_remove hconf).bind fun _ =>
    (only_remove hsession).bind fun _ => only_log _

end

/-! ## What is left of a command -/

/-- The files outside, but for a new temporary file. -/
def Passing (cfg : Config) (files now : Files) : Prop :=
  ∀ path, ¬ cfg.Kept path → now path = files path ∨ files path = none ∧ cfg.Temp path

theorem passing_of_framed {now : Files} (h : Framed cfg.Kept files now) : Passing cfg files now :=
  fun path hpath => .inl (h path hpath)

/-- The ends of `refresh`: nothing is left, or the exception tells of it. -/
def Left (cfg : Config) (files now : Files) (r : Except Raised α) : Prop :=
  Framed cfg.Kept files now ∨ ∃ path, cfg.Temp path ∧ r = .error (.osError "unlink" path.text)

theorem setPsk_ends {now : Files} (hnow : Framed cfg.Kept files now) (serverPub : String)
    (psk : Bytes) :
    (cfg.wg.setPsk serverPub psk).Ends (world keep resolve) (Passing cfg files)
      (fun now _ r => Left cfg files now r) now calls := by
  refine ((withPsk_ends cfg.tmp psk _).weaken fun later hlater path hpath => ?_).mono
    fun later calls r hr => ?_
  · rcases hlater path with heq | ⟨hnone, htemp⟩
    · exact .inl (heq.trans (hnow path hpath))
    · exact .inr ⟨(hnow path hpath).symm.trans hnone, htemp⟩
  · rcases hr with rfl | ⟨path, hdir, hname, hr⟩
    · exact .inl hnow
    · exact .inr ⟨path, ⟨hdir, hname⟩, hr⟩

theorem refresh_ends : (refresh cfg).Ends (world keep resolve) (Passing cfg files)
    (fun now _ r => Left cfg files now r) files calls := by
  have hquiet : ∀ {β : Type} {t : Command β}, t.Only (Op.Within cfg.Kept) → ∀ {now : Files} {calls},
      Framed cfg.Kept files now → t.Ends (world keep resolve) (Passing cfg files)
        (fun now _ _ => Framed cfg.Kept files now) now calls :=
    fun h => framed_ends h fun _ hnow => passing_of_framed hnow
  have hleft : ∀ {now : Files} {r : Except Raised Unit}, Framed cfg.Kept files now →
      Left cfg files now r := fun hnow => .inl hnow
  have hsave : ∀ {now : Files} {calls} (session : SessionFile), Framed cfg.Kept files now →
      (do Sys.log "PSK refreshed"; saveSession cfg session : Command Unit).Ends (world keep resolve)
        (Passing cfg files) (fun now _ r => Left cfg files now r) now calls :=
    fun session hnow => (hquiet ((only_log _).bind fun _ =>
      only_saveSession (.inr rfl) session) hnow).mono fun _ _ _ h => hleft h
  refine (hquiet only_requireSession fun _ _ => rfl).bind (fun now calls session hnow => ?_)
    fun now calls e hnow => hleft hnow
  refine (hquiet only_idToken hnow).bind (fun now calls token hnow => ?_)
    fun now calls e hnow => hleft hnow
  refine (hquiet (only_exchange _) hnow).bind (fun now calls body hnow => ?_)
    fun now calls e hnow => hleft hnow
  cases body with
  | refreshing keyId effectiveTime =>
    refine (hquiet (only_log _) hnow).bind (fun now calls _ hnow => ?_)
      fun now calls e hnow => hleft hnow
    refine (hquiet (only_fetchKey _) hnow).bind (fun now calls psk hnow => ?_)
      fun now calls e hnow => hleft hnow
    refine (hquiet (only_sleepUntil _) hnow).bind (fun now calls _ hnow => ?_)
      fun now calls e hnow => hleft hnow
    refine (setPsk_ends hnow _ _).bind (fun now calls _ hok => ?_) fun now calls e herror => ?_
    · rcases hok with hnow | ⟨_, _, hr⟩
      · exact hsave _ hnow
      · cases hr
    · rcases herror with hnow | ⟨path, htemp, hr⟩
      · exact .inl hnow
      · cases hr
        exact .inr ⟨path, htemp, rfl⟩
  | _ => exact hleft hnow

theorem routine_ends (cmd : Cmd) : (cmd.routine cfg).Ends (world keep resolve) (Passing cfg files)
    (fun now _ r => Left cfg files now r) files calls := by
  have honly : (cmd.routine cfg).Only (Op.Within cfg.Kept) → (cmd.routine cfg).Ends
      (world keep resolve) (Passing cfg files) (fun now _ r => Left cfg files now r) files calls :=
    fun h => (framed_ends h (fun _ hnow => passing_of_framed hnow) fun _ _ => rfl).mono
      fun _ _ _ hnow => .inl hnow
  cases cmd with
  | connect => exact honly (only_connect (.inl rfl) (.inr rfl))
  | refresh => exact refresh_ends
  | upload path uploadUrl => exact honly (only_upload path uploadUrl)
  | status => exact honly only_status
  | disconnect => exact honly (only_disconnect (.inl rfl) (.inr rfl))

/-- The ends of a command line: nothing is left, or the last line logged
tells of it. -/
def RunLeft (cfg : Config) (files now : Files) (calls : List (Op Net)) (r : Except Raised Nat) :
    Prop :=
  Framed cfg.Kept files now ∨ ∃ path, cfg.Temp path ∧ r = .ok 1 ∧
    calls.getLast? = some (.log ("unlink: " ++ path.text))

/-- What `run` makes of the ends of a command. -/
theorem ends_run {cmd : Cmd} {I : Files → Prop}
    {P : Files → List (Op Net) → Except Raised Unit → Prop}
    {Q : Files → List (Op Net) → Except Raised Nat → Prop}
    (h : (cmd.routine cfg).Ends (world keep resolve) I P files calls) (hfiles : I files)
    (hok : ∀ now calls, P now calls (.ok ()) → Q now calls (.ok 0))
    (hcaught : ∀ now calls e message, caught e = some message → P now calls (.error e) →
      Q now (calls ++ [.log message]) (.ok 1))
    (hraised : ∀ now calls e, caught e = none → P now calls (.error e) → Q now calls (.error e)) :
    (run cfg cmd).Ends (world keep resolve) I Q files calls := by
  have hbody : (do cmd.routine cfg; pure 0 : Command Nat).Ends (world keep resolve) I
      (fun now calls r => (∃ u, r = .ok 0 ∧ P now calls (.ok u)) ∨
        ∃ e, r = .error e ∧ P now calls (.error e)) files calls :=
    h.bind (fun _ _ u hu => .inl ⟨u, rfl, hu⟩) fun _ _ e he => .inr ⟨e, rfl, he⟩
  refine (hbody.along hfiles).rescue (fun now calls code hcode => ?_) fun now calls e herror => ?_
  · rcases hcode.2 with ⟨_, hr, hu⟩ | ⟨_, hr, _⟩
    · cases hr
      exact hok now calls hu
    · cases hr
  · obtain ⟨hway, ⟨_, hr, _⟩ | ⟨_, hr, he⟩⟩ := herror
    · cases hr
    · cases hr
      cases hmessage : caught e with
      | none => exact hraised now calls e hmessage he
      | some message =>
        intro fate
        rw [world_log]
        exact ⟨hway, hcaught now calls e message hmessage he⟩

/-- **Every end of a command line.** -/
theorem run_ends (cmd : Cmd) : (run cfg cmd).Ends (world keep resolve) (Passing cfg files)
    (fun now calls r => RunLeft cfg files now calls r) files [] := by
  refine ends_run (routine_ends cmd) (fun _ _ => .inl rfl) (fun now calls hok => ?_)
    (fun now calls e message hmessage herror => ?_) fun now calls e hmessage herror => ?_
  · rcases hok with hnow | ⟨_, _, hr⟩
    · exact .inl hnow
    · cases hr
  · rcases herror with hnow | ⟨path, htemp, hr⟩
    · exact .inl hnow
    · cases hr
      cases hmessage
      exact .inr ⟨path, htemp, rfl, List.getLast?_concat⟩
  · rcases herror with hnow | ⟨path, htemp, hr⟩
    · exact .inl hnow
    · cases hr
      cases hmessage

/-! ## After a `disconnect` -/

theorem conf_ne_session : cfg.wg.confPath ≠ cfg.sessionPath :=
  fun h => session_not_own (.inl h.symm)

theorem remove_absent {I : Files → Prop} (hI : I files) (h : files path = none) :
    (remove path).Ends (world keep resolve) I (fun now _ _ => now = files) files calls := by
  refine (pathExists_ends hI path).bind (fun now calls b hb => ?_) fun now calls e he => he.1
  obtain ⟨rfl, hb⟩ := hb
  rw [h] at hb
  cases hb
  exact rfl

theorem remove_ends : (remove path).Ends (world keep resolve) (fun _ => True)
    (fun now _ r => ∀ u, r = .ok u → now = files.put path none) files calls := by
  refine (pathExists_ends trivial path).bind (fun now calls b hb => ?_)
    fun _ _ _ _ _ hr => by cases hr
  obtain ⟨rfl, hb⟩ := hb
  cases hfile : now path with
  | none =>
    rw [hfile] at hb
    cases hb
    intro _ _
    exact (Function.update_eq_self_iff.mpr hfile.symm).symm
  | some file =>
    rw [hfile] at hb
    cases hb
    intro fate
    refine ⟨trivial, fun u hr => ?_⟩
    unfold world at hr ⊢
    rcases step_unlink keep now path (N := Net) (resolve (.unlink path) fate) with heq | heq
    · rw [heq] at hr
      cases hr
    · rw [heq]

/-- **A `disconnect` that succeeds** leaves neither. -/
theorem disconnect_ends : (disconnect cfg).Ends (world keep resolve) (fun _ => True)
    (fun now _ r => ∀ u, r = .ok u → Bare cfg now) files calls := by
  refine (ends_trivial _).bind (fun _ _ _ _ => ?_) fun _ _ _ _ _ hr => by cases hr
  refine remove_ends.bind (fun now calls _ hconf => ?_) fun _ _ _ _ _ hr => by cases hr
  refine remove_ends.bind (fun later calls _ hsession => ?_) fun _ _ _ _ _ hr => by cases hr
  obtain rfl := hconf () rfl
  obtain rfl := hsession () rfl
  refine (still_ends (only_log _) trivial).mono fun _ _ _ hsame _ _ => ?_
  subst hsame
  refine ⟨?_, Files.put_self ..⟩
  rw [Files.put_ne _ _ conf_ne_session, Files.put_self]

theorem disconnect_bare : (run cfg .disconnect).Ends (world keep resolve) (fun _ => True)
    (fun now _ r => r = .ok 0 → Bare cfg now) files [] :=
  ends_run disconnect_ends trivial (fun _ _ hok _ => hok () rfl) (fun _ _ _ _ _ _ hr => by cases hr)
    fun _ _ _ _ _ hr => by cases hr

/-- Without a session there is nothing that a command would change. -/
theorem still_routine {cmd : Cmd} (hcmd : cmd ≠ .connect) (h : Bare cfg files) :
    (cmd.routine cfg).Ends (world keep resolve) (· = files) (fun now _ _ => now = files) files
      calls := by
  cases cmd with
  | connect => exact (hcmd rfl).elim
  | refresh =>
    have hmissing : (requireSession cfg).Ends (world keep resolve) (· = files)
        (fun now _ r => now = files ∧ ∃ e, r = .error e) files calls := by
      refine Ends.bind (P := fun now _ r => now = files ∧ r = .ok none) ?_
        (fun now calls session hread => ?_) fun _ _ _ hread => ⟨hread.1, _, rfl⟩
      · refine Ends.bind (pathExists_ends (I := (· = files)) rfl _) (fun now calls b hb => ?_)
          fun _ _ _ hb => by cases hb.2
        obtain ⟨rfl, hb⟩ := hb
        rw [h.2] at hb
        cases hb
        exact ⟨rfl, rfl⟩
      · obtain ⟨rfl, hread⟩ := hread
        cases hread
        exact ⟨rfl, _, rfl⟩
    refine hmissing.bind (fun _ _ _ hok => ?_) fun _ _ _ herror => herror.1
    obtain ⟨_, e, he⟩ := hok
    cases he
  | upload path uploadUrl => exact still_ends (only_upload path uploadUrl) rfl
  | status => exact still_ends only_status rfl
  | disconnect =>
    refine Ends.bind (still_ends (only_rescuedDown _) rfl) (fun _ _ _ hdown => ?_)
      fun _ _ _ hdown => hdown
    rw [hdown]
    refine Ends.bind (remove_absent rfl h.1) (fun _ _ _ hconf => ?_) fun _ _ _ hconf => hconf
    rw [hconf]
    refine Ends.bind (remove_absent rfl h.2) (fun _ _ _ hsession => ?_)
      fun _ _ _ hsession => hsession
    rw [hsession]
    exact still_ends (only_log _) rfl

theorem still_run {cmd : Cmd} (hcmd : cmd ≠ .connect) (h : Bare cfg files) :
    (run cfg cmd).Ends (world keep resolve) (· = files) (fun now _ _ => now = files) files [] :=
  ends_run (still_routine hcmd h) rfl (fun _ _ hnow => hnow) (fun _ _ _ _ _ hnow => hnow)
    fun _ _ _ _ hnow => hnow

/-! ## The runs -/

theorem Passing.trans {now later : Files} (h : Passing cfg files now)
    (hlater : Passing cfg now later) : Passing cfg files later := by
  intro path hpath
  rcases hlater path hpath with heq | ⟨hnone, htemp⟩
  · rw [heq]
    exact h path hpath
  · rcases h path hpath with heq | hnew
    · exact .inr ⟨heq.symm.trans hnone, htemp⟩
    · exact .inr hnew

/-- A command that is whole leaves the other files as they were. -/
theorem framed_invoke {secrets : Secrets} {i : Invocation}
    (h : (invoke cfg keep secrets files i).2.Whole cfg) :
    Framed cfg.Kept files (invoke cfg keep secrets files i).1 := by
  obtain ⟨r, hr⟩ := Option.ne_none_iff_exists'.mp h.1
  rcases (run_ends i.cmd).exec hr with hframed | ⟨path, htemp, hok, hlast⟩
  · exact hframed
  · rw [List.nil_append] at hlast
    exact absurd ⟨path, htemp, hr.trans (congrArg some hok), hlast⟩ h.2

theorem gone_invoke {secrets : Secrets} {i : Invocation} (hcmd : i.cmd = .disconnect)
    (hresult : (invoke cfg keep secrets files i).2.result = some (.ok 0)) :
    Bare cfg (invoke cfg keep secrets files i).1 := by
  unfold invoke at hresult ⊢
  rw [hcmd] at hresult ⊢
  exact (disconnect_bare).exec hresult rfl

theorem still_invoke {secrets : Secrets} {i : Invocation} (hcmd : i.cmd ≠ .connect)
    (h : Bare cfg files) : Bare cfg (invoke cfg keep secrets files i).1 := by
  have hsame : (invoke cfg keep secrets files i).1 = files :=
    (still_run hcmd h).always rfl i.fates
  rw [hsame]
  exact h

end

end QkdEkm.Client
