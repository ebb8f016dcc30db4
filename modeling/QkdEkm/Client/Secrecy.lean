import QkdEkm.Client.Commands
import QkdEkm.Lib.Machine

/-!
# Secrecy — what other users see of the client's keys

The private key and the keys that come over the quantum link are what the
commands must not show. Two clients that differ in these keys only run
side by side: whatever fails, and wherever a command is killed, they run
the same processes, send the same requests but for the sealed file, log
the same lines and leave the same files to be seen (`secrets_unseen`).
-/

namespace QkdEkm.Client

open QkdEkm.Common QkdEkm.Lib QkdEkm.Lib.Posix QkdEkm.Lib.Script

/-- The private key that `wg genkey` prints, by what tells one from
another, and the keys of the quantum link by their ids. -/
structure Secrets where
  priv : String → String
  material : String → Bytes

/-- A fate, with the secrets in it. -/
def Secrets.resolve (secrets : Secrets) : Op Net → Fate NetAnswer → Fate NetAnswer
  | .run argv _, .exits completed =>
    if argv = ["wg", "genkey"] ∧ completed.code = 0 then
      .exits { completed with stdout := secrets.priv completed.stdout }
    else .exits completed
  | .net (.decKeys _ keyId), .answers (.key _) => .answers (.key (secrets.material keyId))
  | _, fate => fate

/-- What is seen of a request: all but the sealed file. -/
def Net.look : Net → Net
  | .upload url name _ keyId => .upload url name [] keyId
  | request => request

/-- A command line, with the fates of its calls. -/
structure Invocation where
  cmd : Cmd
  fates : List (Fate NetAnswer)

/-- What a command did. -/
structure Report where
  calls : List (Op Net)
  result : Option (Except Raised Nat)

/-- One command after the other, where the umask lets the bits of `keep`
through. -/
def invoke (cfg : Config) (keep : Nat) (secrets : Secrets) (files : Files) (i : Invocation) :
    Files × Report :=
  let out := (run cfg i.cmd).exec (world keep secrets.resolve) files i.fates
  (out.state, ⟨out.calls, out.result⟩)

/-- What another user sees of a command: its calls, how it ended, and the
files that it left. -/
def observed (m : Moment Files Invocation Report) :
    List (Op Net) × Option (Except Raised Nat) × (Path → Option (Nat × Option Bytes)) :=
  (m.out.calls.map (Op.look Net.look), m.out.result, Files.seen m.post)

/-- Whether a key and a nonce seal a file depends on the key's length only. -/
def SealsAlike (aead : Aead) : Prop := ∀ key key' nonce content aad, key.length = key'.length →
  ((aead.encrypt key nonce content aad).isSome ↔ (aead.encrypt key' nonce content aad).isSome)

/-- The files in which the client keeps secrets. -/
def Config.Own (cfg : Config) (path : Path) : Prop :=
  path = cfg.wg.confPath ∨ path.dir = cfg.tmp ∧ ∃ suffix, path.name = "wg-psk-" ++ suffix

section

variable {cfg : Config}

/-- Secrets are in the configuration and in new temporary files. -/
def policy (cfg : Config) (start : Files) : Policy Net NetAnswer Net where
  Secret path := cfg.Own path ∧ (path = cfg.wg.confPath ∨ start path = none)
  Stays path := start path ≠ none ∧ path ≠ cfg.wg.confPath ∧ path ≠ cfg.sessionPath
  Mints argv := argv = ["wg", "genkey"]
  Minted _ _ := True
  look := Net.look
  Like request _ a a' := a = a' ∨ ∃ sae keyId key key', request = .decKeys sae keyId ∧
    a = .key key ∧ a' = .key key' ∧ key.length = key'.length

variable {start : Files} {α β : Type} {path : Path}

/-- A temporary file has a name of its own. -/
theorem temp_ne (dir suffix : String) : (⟨dir, "wg-psk-" ++ suffix⟩ : Path) ≠ cfg.wg.confPath ∧
    (⟨dir, "wg-psk-" ++ suffix⟩ : Path) ≠ cfg.sessionPath := by
  constructor
  · intro h
    have hname := congrArg (fun path => path.name.toList.take 3) h
    simp [WGClient.confPath, Config.wg] at hname
  · intro h
    have hname := congrArg (fun path => path.name.toList.take 1) h
    simp [Config.sessionPath] at hname

theorem temp_secret_or_stays (suffix : String) :
    (policy cfg start).Secret ⟨cfg.tmp, "wg-psk-" ++ suffix⟩ ∨
      (policy cfg start).Stays ⟨cfg.tmp, "wg-psk-" ++ suffix⟩ := by
  by_cases hstart : start ⟨cfg.tmp, "wg-psk-" ++ suffix⟩ = none
  · exact .inl ⟨.inr ⟨rfl, suffix, rfl⟩, .inr hstart⟩
  · exact .inr ⟨hstart, temp_ne _ _⟩

theorem secret_not_stays (h : (policy cfg start).Secret path) : ¬ (policy cfg start).Stays path := by
  intro hstays
  rcases h.2 with hconf | hnone
  · exact hstays.2.1 hconf
  · exact hstays.1 hnone

theorem conf_secret : (policy cfg start).Secret cfg.wg.confPath := ⟨.inl rfl, .inl rfl⟩

theorem session_not_own : ¬ cfg.Own cfg.sessionPath := by
  intro h
  rcases h with hconf | ⟨_, suffix, hname⟩
  · have hname := congrArg (fun path => path.name.toList.take 1) hconf
    simp [Config.sessionPath, WGClient.confPath, Config.wg] at hname
  · have hname := congrArg (fun name => name.toList.take 1) hname
    simp [Config.sessionPath] at hname

/-! ## The scripts -/

theorem hides_net_eq {request request' : Net} (h : request.look = request'.look)
    (hkey : ∀ sae keyId, request ≠ .decKeys sae keyId) :
    (policy cfg start).Hides Eq (Sys.net request) (Sys.net request') := by
  refine (Policy.hides_net h).mono fun a a' ha => ?_
  rcases ha with heq | ⟨sae, keyId, _, _, hrequest, _⟩
  · exact heq
  · exact absurd hrequest (hkey sae keyId)

theorem hides_exchange {request request' : Net} (h : request.look = request'.look)
    (hkey : ∀ sae keyId, request ≠ .decKeys sae keyId) :
    (policy cfg start).Hides Eq (exchange request) (exchange request') := by
  refine (hides_net_eq h hkey).bind fun answer answer' heq => ?_
  subst heq
  cases answer with
  | response status body =>
    dsimp only
    split
    · exact couples_pure rfl
    · exact couples_raise _
  | _ => exact couples_raise _

theorem hides_genkey :
    (policy cfg start).Hides (fun a b => a.2 = b.2) WGClient.genkey WGClient.genkey := by
  have hpriv : (policy cfg start).Hides (fun _ _ => True) (runArgs ["wg", "genkey"] none true)
      (runArgs ["wg", "genkey"] none true) := by
    refine (Policy.hides_run ["wg", "genkey"] none none).bind fun p p' hp => ?_
    rcases hp with rfl | ⟨_, hcode, hcode', _⟩
    · split
      · exact couples_raise _
      · exact couples_pure trivial
    · rw [if_neg (by simp [hcode]), if_neg (by simp [hcode'])]
      exact couples_pure trivial
  have hpubkey : ¬ (policy cfg start).Mints ["wg", "pubkey"] := by simp [policy]
  refine hpriv.bind fun p p' _ => (hides_runArgs hpubkey _ _ true).bind fun q q' hq => ?_
  subst hq
  exact couples_pure rfl

theorem hides_tool {args : List String} (h : args.head? = some "wg-quick") :
    (policy cfg start).Hides (fun _ _ => True)
      (do let _ ← runArgs args none true; pure ()) (do let _ ← runArgs args none true; pure ()) := by
  have hargs : ¬ (policy cfg start).Mints args := by
    rintro rfl
    simp at h
  exact (hides_runArgs hargs none none true).bind fun _ _ _ => couples_pure trivial

theorem hides_writeConf {priv priv' address serverPub endpoint psk psk' allowedIps : String} :
    (policy cfg start).Hides (fun _ _ => True)
      (WGClient.writeConf cfg.wg.confPath priv address serverPub endpoint psk allowedIps)
      (WGClient.writeConf cfg.wg.confPath priv' address serverPub endpoint psk' allowedIps) :=
  (Policy.hides_makedirs _ _).bind fun _ _ _ =>
    (Policy.hides_openFile _ (by decide)).bind fun _ _ _ => Policy.hides_write (.inr conf_secret)

theorem hides_setPsk (serverPub : String) (psk psk' : Bytes) :
    (policy cfg start).Hides (fun _ _ => True) (cfg.wg.setPsk serverPub psk)
      (cfg.wg.setPsk serverPub psk') :=
  hides_withPsk (fun path => by simp [policy]) temp_secret_or_stays
    (fun _ => secret_not_stays) psk psk'

theorem hides_show : (policy cfg start).Hides Eq cfg.wg.show cfg.wg.show := by
  have hshow : ¬ (policy cfg start).Mints ["wg", "show", cfg.wg.iface] := by simp [policy]
  refine (hides_runArgs hshow none none false).bind fun p p' hp => ?_
  subst hp
  exact couples_pure rfl

theorem hides_metadataToken : (policy cfg start).Hides Eq metadataToken metadataToken := by
  refine Couples.rescue ?_ fun e => ?_
  · refine (hides_exchange rfl (by simp)).bind fun body body' hbody => ?_
    subst hbody
    cases body with
    | text s => exact couples_pure rfl
    | _ => exact couples_raise _
  · cases e with
    | other kind message =>
      dsimp only
      split
      · exact couples_pure rfl
      · exact couples_raise _
    | _ => exact couples_raise _

theorem hides_printedToken (hargv : cfg.idTokenArgv ≠ ["wg", "genkey"]) :
    (policy cfg start).Hides Eq (printedToken cfg) (printedToken cfg) := by
  have hrun : (policy cfg start).Hides Eq (do pure (some (← Sys.run cfg.idTokenArgv none)))
      (do pure (some (← Sys.run cfg.idTokenArgv none))) := by
    refine (Policy.hides_run cfg.idTokenArgv none none).bind fun p p' hp => ?_
    obtain rfl : p = p' := hp.resolve_right fun hmint => hargv hmint.1
    exact couples_pure rfl
  refine Couples.bind (hrun.rescue fun e => ?_) fun result result' hresult => ?_
  · cases e with
    | osError _ _ => exact couples_pure rfl
    | _ => exact couples_raise _
  · subst hresult
    cases result with
    | none => exact couples_pure rfl
    | some result =>
      dsimp only
      split <;> exact couples_pure rfl

theorem hides_idToken (hargv : cfg.idTokenArgv ≠ ["wg", "genkey"]) :
    (policy cfg start).Hides Eq (idToken cfg) (idToken cfg) := by
  unfold idToken
  split
  · exact couples_pure rfl
  · refine hides_metadataToken.bind fun token token' htoken => ?_
    subst htoken
    cases token with
    | inr token => exact couples_pure rfl
    | inl message =>
      refine (hides_printedToken hargv).bind fun token token' htoken => ?_
      subst htoken
      cases token with
      | inr token => exact couples_pure rfl
      | inl message => exact couples_raise _

theorem hides_fetchKey (keyId : String) :
    (policy cfg start).Hides (fun key key' => key.length = key'.length) (fetchKey cfg keyId)
      (fetchKey cfg keyId) := by
  refine (Policy.hides_net rfl).bind fun answer answer' hanswer => ?_
  rcases hanswer with rfl | ⟨_, _, key, key', _, rfl, rfl, hlength⟩
  · cases answer with
    | key key => exact couples_pure rfl
    | _ => exact couples_raise _
  · exact couples_pure hlength

theorem hides_saveSession (session : SessionFile) :
    (policy cfg start).Hides (fun _ _ => True) (saveSession cfg session) (saveSession cfg session) :=
  (Policy.hides_makedirs _ _).bind fun _ _ _ =>
    (Policy.hides_openFile _ (by decide)).bind fun _ _ _ => Policy.hides_write (.inl rfl)

theorem hides_readSession :
    (policy cfg start).Hides Eq (readSession cfg) (readSession cfg) := by
  refine (Policy.hides_pathExists _).bind fun b b' hb => ?_
  subst hb
  cases b with
  | false => exact couples_pure rfl
  | true =>
    have hsession : ¬ (policy cfg start).Secret cfg.sessionPath := fun h => session_not_own h.1
    refine (Policy.hides_read hsession).bind fun text text' htext => ?_
    subst htext
    cases cfg.codec.loads text with
    | none => exact couples_raise _
    | some session => exact couples_pure rfl

theorem hides_requireSession :
    (policy cfg start).Hides Eq (requireSession cfg) (requireSession cfg) := by
  refine hides_readSession.bind fun session session' hsession => ?_
  subst hsession
  cases session with
  | none => exact couples_raise _
  | some session => exact couples_pure rfl

theorem hides_sleepUntil (effectiveTime : String) :
    (policy cfg start).Hides (fun _ _ => True) (sleepUntil cfg effectiveTime)
      (sleepUntil cfg effectiveTime) := by
  unfold sleepUntil
  cases cfg.codec.fromisoformat effectiveTime with
  | none => exact couples_raise _
  | some time =>
    refine (hides_net_eq rfl (by simp)).bind fun answer answer' hanswer => ?_
    subst hanswer
    cases answer with
    | time now =>
      dsimp only
      split
      · exact (hides_net_eq rfl (by simp)).bind fun _ _ _ => couples_pure trivial
      · exact couples_pure trivial
    | _ => exact couples_raise _

theorem hides_sealFile (haead : SealsAlike cfg.aead) {key key' : Bytes}
    (hlength : key.length = key'.length) (content : Bytes) (name : String) :
    (policy cfg start).Hides (fun _ _ => True) (sealFile cfg key content name)
      (sealFile cfg key' content name) := by
  refine (hides_net_eq rfl (by simp)).bind fun answer answer' hanswer => ?_
  subst hanswer
  cases answer with
  | random nonce =>
    have hsome : (aesGcmWrap cfg.aead nonce key content (encoded name)).isSome ↔
        (aesGcmWrap cfg.aead nonce key' content (encoded name)).isSome := by
      simpa [aesGcmWrap] using haead key key' nonce.bytes content (encoded name) hlength
    dsimp only
    cases hblob : aesGcmWrap cfg.aead nonce key content (encoded name) <;>
      cases hblob' : aesGcmWrap cfg.aead nonce key' content (encoded name) <;>
      simp only [hblob, hblob', Option.isSome_none, Option.isSome_some, Bool.false_eq_true,
        iff_true, iff_false, not_true_eq_false] at hsome
    · exact couples_raise _
    · exact couples_pure trivial
  | _ => exact couples_raise _

/-! ## The commands -/

theorem hides_connect (hargv : cfg.idTokenArgv ≠ ["wg", "genkey"]) :
    (policy cfg start).Hides (fun _ _ => True) (connect cfg) (connect cfg) := by
  refine (Policy.hides_log _).bind fun _ _ _ => (Policy.hides_log _).bind fun _ _ _ =>
    (Policy.hides_log _).bind fun _ _ _ => (Policy.hides_log _).bind fun _ _ _ =>
    hides_genkey.bind fun pair pair' hpub => ?_
  obtain ⟨priv, pub⟩ := pair
  obtain ⟨priv', pub'⟩ := pair'
  obtain rfl : pub = pub' := hpub
  refine (Policy.hides_makedirs _ _).bind fun _ _ _ => (Policy.hides_log _).bind fun _ _ _ =>
    (Policy.hides_log _).bind fun _ _ _ => (hides_idToken hargv).bind fun token token' htoken => ?_
  subst htoken
  refine (hides_exchange rfl (by simp)).bind fun body body' hbody => ?_
  subst hbody
  cases body with
  | connection body =>
    refine (Policy.hides_log _).bind fun _ _ _ => (hides_fetchKey _).bind fun psk psk' _ => ?_
    refine (Policy.hides_log _).bind fun _ _ _ => hides_writeConf.bind fun _ _ _ => ?_
    refine (hides_tool rfl).bind fun _ _ _ => (Policy.hides_log _).bind fun _ _ _ => ?_
    exact hides_saveSession _
  | _ => exact couples_raise _

theorem hides_refresh (hargv : cfg.idTokenArgv ≠ ["wg", "genkey"]) :
    (policy cfg start).Hides (fun _ _ => True) (refresh cfg) (refresh cfg) := by
  refine hides_requireSession.bind fun session session' hsession => ?_
  subst hsession
  refine (hides_idToken hargv).bind fun token token' htoken => ?_
  subst htoken
  refine (hides_exchange rfl (by simp)).bind fun body body' hbody => ?_
  subst hbody
  cases body with
  | refreshing keyId effectiveTime =>
    refine (Policy.hides_log _).bind fun _ _ _ => (hides_fetchKey _).bind fun psk psk' _ => ?_
    refine (hides_sleepUntil _).bind fun _ _ _ => (hides_setPsk _ psk psk').bind fun _ _ _ => ?_
    exact (Policy.hides_log _).bind fun _ _ _ => hides_saveSession _
  | _ => exact couples_raise _

theorem hides_upload (haead : SealsAlike cfg.aead) {path : Path} (hpath : ¬ cfg.Own path)
    (uploadUrl : String) :
    (policy cfg start).Hides (fun _ _ => True) (upload cfg path uploadUrl)
      (upload cfg path uploadUrl) := by
  refine (Policy.hides_log _).bind fun _ _ _ => ?_
  refine (hides_exchange rfl (by simp)).bind fun body body' hbody => ?_
  subst hbody
  cases body with
  | fileKey keyId =>
    have hread : ¬ (policy cfg start).Secret path := fun h => hpath h.1
    refine (hides_fetchKey keyId).bind fun key key' hlength => (Policy.hides_log _).bind fun _ _ _ =>
      (Policy.hides_read hread).bind fun content content' hcontent => ?_
    subst hcontent
    refine (hides_sealFile haead hlength content path.name).bind fun blob blob' _ => ?_
    have hsend : (policy cfg start).Hides Eq (exchange (.upload uploadUrl path.name blob keyId))
        (exchange (.upload uploadUrl path.name blob' keyId)) := hides_exchange rfl (by simp)
    refine (Policy.hides_log _).bind fun _ _ _ => hsend.bind fun body body' hbody => ?_
    subst hbody
    refine (Policy.hides_log _).bind fun _ _ _ => ?_
    cases body with
    | object uri => exact Policy.hides_log _
    | _ => exact couples_raise _
  | _ => exact couples_raise _

theorem hides_status : (policy cfg start).Hides (fun _ _ => True) (status cfg) (status cfg) := by
  refine hides_show.bind fun text text' htext => ?_
  subst htext
  refine (Policy.hides_log _).bind fun _ _ _ => ?_
  refine hides_readSession.bind fun session session' hsession => ?_
  subst hsession
  cases session with
  | none => exact Policy.hides_log _
  | some session =>
    exact (Policy.hides_log _).bind fun _ _ _ => (Policy.hides_log _).bind fun _ _ _ =>
      Policy.hides_log _

theorem hides_remove (h : ¬ (policy cfg start).Stays path) :
    (policy cfg start).Hides (fun _ _ => True) (remove path) (remove path) := by
  refine (Policy.hides_pathExists path).bind fun b b' hb => ?_
  subst hb
  cases b with
  | false => exact couples_pure trivial
  | true => exact Policy.hides_unlink h

theorem hides_disconnect :
    (policy cfg start).Hides (fun _ _ => True) (disconnect cfg) (disconnect cfg) := by
  refine Couples.bind (Couples.rescue (hides_tool rfl) fun e => ?_) fun _ _ _ => ?_
  · cases e with
    | runtimeError message => exact Policy.hides_log _
    | _ => exact couples_raise _
  · refine (hides_remove fun h => h.2.1 rfl).bind fun _ _ _ => ?_
    exact (hides_remove fun h => h.2.2 rfl).bind fun _ _ _ => Policy.hides_log _

/-- The client uploads no file in which it keeps secrets. -/
def Cmd.Public (cfg : Config) : Cmd → Prop
  | .upload path _ => ¬ cfg.Own path
  | _ => True

theorem hides_commandRun (start : Files) (hargv : cfg.idTokenArgv ≠ ["wg", "genkey"])
    (haead : SealsAlike cfg.aead) {cmd : Cmd} (hcmd : cmd.Public cfg) :
    (policy cfg start).Hides Eq (run cfg cmd) (run cfg cmd) := by
  refine Couples.rescue ?_ fun e => ?_
  · have hroutine : (policy cfg start).Hides (fun _ _ => True) (cmd.routine cfg)
        (cmd.routine cfg) := by
      cases cmd with
      | connect => exact hides_connect hargv
      | refresh => exact hides_refresh hargv
      | upload path uploadUrl => exact hides_upload haead hcmd uploadUrl
      | status => exact hides_status
      | disconnect => exact hides_disconnect
    exact hroutine.bind fun _ _ _ => couples_pure rfl
  · cases caught e with
    | none => exact couples_raise _
    | some message => exact (Policy.hides_log _).bind fun _ _ _ => couples_pure rfl

/-! ## The runs -/

/-- Secrets that differ are resolved into fates that differ in them. -/
theorem twins_resolve {secrets secrets' : Secrets}
    (hlength : ∀ keyId, (secrets.material keyId).length = (secrets'.material keyId).length)
    (op op' : Op Net) (fate : Fate NetAnswer) (hsame : (policy cfg start).Same op op') :
    (policy cfg start).Twins op op' (secrets.resolve op fate) (secrets'.resolve op' fate) := by
  cases op with
  | run argv stdin =>
    cases op' with
    | run argv' stdin' =>
      obtain rfl : argv = argv' := hsame
      cases fate with
      | exits completed =>
        simp only [Secrets.resolve]
        split
        · rename_i hmint
          exact .inr ⟨hmint.1, hmint.2, hmint.2, rfl, trivial⟩
        · exact .inl rfl
      | _ => rfl
    | _ => exact hsame.elim
  | net request =>
    cases op' with
    | net request' =>
      cases fate with
      | answers answer =>
        have hlook : request.look = request'.look := hsame
        cases request with
        | decKeys sae keyId =>
          obtain rfl : request' = .decKeys sae keyId := by
            cases request' <;> simp_all [Net.look]
          cases answer with
          | key key => exact .inr ⟨sae, keyId, _, _, rfl, rfl, rfl, hlength keyId⟩
          | _ => exact .inl rfl
        | _ => cases request' <;> first | exact .inl rfl | simp [Net.look] at hlook
      | _ =>
        cases request <;> cases request' <;> rfl
    | _ => exact hsame.elim
  | _ => cases op' <;> first | exact hsame.elim | cases fate <;> rfl

/-- The two runs of a command. -/
theorem invoke_veiled {secrets secrets' : Secrets}
    (hlength : ∀ keyId, (secrets.material keyId).length = (secrets'.material keyId).length)
    (hargv : cfg.idTokenArgv ≠ ["wg", "genkey"]) (haead : SealsAlike cfg.aead) {i : Invocation}
    (hcmd : i.cmd.Public cfg) {files files' : Files} (h : (policy cfg start).Veiled files files')
    (keep : Nat) :
    (policy cfg start).Veiled (invoke cfg keep secrets files i).1
        (invoke cfg keep secrets' files' i).1 ∧
      observed (moment (invoke cfg keep secrets) files i) =
        observed (moment (invoke cfg keep secrets') files' i) :=
  Policy.hides_seen (hides_commandRun start hargv haead hcmd) keep (twins_resolve hlength) h i.fates

end

theorem sealsAlike_tagging : SealsAlike Aead.tagging := by
  intro key key' nonce content aad hlength
  simp only [Aead.tagging, hlength]

/-- A client whose sessions are not read back. -/
def demoConfig : Config where
  idToken := "token"
  stateDir := "/home/user/.qkd-ekm-client"
  codec := ⟨fun session => encoded session.presharedKeyId, fun _ => none, fun _ => none⟩
  aead := .tagging

/-- The secrets of one byte each. -/
def Secrets.of (c : Char) (byte : UInt8) : Secrets := ⟨fun _ => c.toString, fun _ => [byte]⟩

/-- A `connect` that goes well, one that fails when it has written half of
its configuration and is killed before it says so, and a `disconnect`. -/
def clientRun : List Invocation :=
  let asked : List (Fate NetAnswer) := [.returns, .returns, .returns, .returns, .exits ⟨0, "h", ""⟩,
    .exits ⟨0, "P", ""⟩, .returns, .returns, .returns,
    .answers (.response 200 (.connection ⟨"S", "E", "k1", "10.20.0.2", "A"⟩)), .returns,
    .answers (.key []), .returns, .returns, .returns]
  [⟨.connect, asked ++ [.returns, .exits ⟨0, "", ""⟩, .returns, .returns, .returns, .returns]⟩,
    ⟨.connect, asked ++ [.raises 90]⟩,
    ⟨.disconnect, [.exits ⟨1, "", "gone"⟩, .returns, .returns, .returns, .returns, .returns, .returns]⟩]

end QkdEkm.Client
