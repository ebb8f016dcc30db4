import QkdEkm.Common.Wg
import QkdEkm.Lib.Machine

/-!
# Host — the VPN server's calls of the host

The methods of `WG`, `ensure_private_key` and the start of the server as
scripts. A server runs them in any order, fails in them and is started
again. Other users see nothing of its private key and of the keys of its
peers (`host_unseen`), and the private key, once it is there, is the
server's key for good (`host_keeps`).
-/

namespace QkdEkm.Vpn.Host

open QkdEkm.Common QkdEkm.Lib QkdEkm.Lib.Posix QkdEkm.Lib.Script

abbrev Command (α : Type) := Routine Empty Empty α

structure WG where
  iface : String := "wg0"
  tmp : String := "/tmp"
  deriving DecidableEq

/-- `s.split()`. -/
def words (s : String) : List String :=
  ((s.toList.splitOnP isSpace).filter (· ≠ [])).map String.ofList

namespace WG

variable (wg : WG)

def «exists» : Command Bool := do
  let result ← runArgs ["ip", "link", "show", wg.iface] none false
  pure (result.code = 0)

def ensureInterface (privateKeyFile : String) (listenPort : Nat) (address : String) :
    Command Unit := do
  let there ← wg.exists
  (if there then pure () else do
    let _ ← runArgs ["ip", "link", "add", wg.iface, "type", "wireguard"] none true
    Sys.log ("Created vpn interface " ++ wg.iface))
  let _ ← runArgs ["wg", "set", wg.iface, "listen-port", toString listenPort, "private-key",
    privateKeyFile] none true
  -- the address may be there already
  let _ ← runArgs ["ip", "addr", "add", address, "dev", wg.iface] none false
  let _ ← runArgs ["ip", "link", "set", wg.iface, "up"] none true
  pure ()

def publicKey : Command String := do
  let result ← runArgs ["wg", "show", wg.iface, "public-key"] none true
  pure (stripped result.stdout)

def setPeer (pubkey : String) (psk : Bytes) (allowedIps : String) : Command Unit :=
  withPsk wg.tmp psk fun path =>
    ["wg", "set", wg.iface, "peer", pubkey, "preshared-key", path, "allowed-ips", allowedIps]

def removePeer (pubkey : String) : Command Unit := do
  let _ ← runArgs ["wg", "set", wg.iface, "peer", pubkey, "remove"] none true
  pure ()

def «show» : Command String := do
  let result ← runArgs ["wg", "show", wg.iface] none true
  pure (stripped result.stdout)

def ensureIpForward : Command Unit := do
  let _ ← runArgs ["sysctl", "-w", "net.ipv4.ip_forward=1"] none true
  pure ()

def defaultRouteIface : Command String := do
  let result ← runArgs ["ip", "-o", "-4", "route", "show", "to", "default"] none true
  match (words result.stdout).dropWhile (· ≠ "dev") with
  | [] => raise (.other "ValueError" "'dev' is not in list")
  | [_] => raise (.other "IndexError" "list index out of range")
  | _ :: iface :: _ => pure iface

def ensureMasquerade (tunnelCidr : String) : Command Unit := do
  let uplink ← defaultRouteIface
  let rule := ["POSTROUTING", "-s", tunnelCidr, "-o", uplink, "-j", "MASQUERADE"]
  let result ← runArgs (["iptables", "-t", "nat", "-C"] ++ rule) none false
  if result.code ≠ 0 then do
    let _ ← runArgs (["iptables", "-t", "nat", "-A"] ++ rule) none true
    Sys.log ("Added MASQUERADE rule for " ++ tunnelCidr)
  else pure ()

end WG

def ensurePrivateKey (path : Path) : Command Path := do
  if ← Sys.pathExists path then pure path
  else do
    Sys.makedirs path.dir 0o777
    let result ← Sys.run ["wg", "genkey"] none
    if result.code ≠ 0 ∨ stripped result.stdout = "" then
      raise (.runtimeError ("wg genkey failed: " ++ stripped result.stderr))
    else do
      Sys.openFile path 0o600
      Sys.write path (encoded (stripped result.stdout ++ "\n"))
      Sys.log ("Generated WireGuard private key at " ++ path.text)
      pure path

structure Config where
  wg : WG := {}
  keyFile : Path := ⟨"/etc/qkd-ekm", "wg_private.key"⟩
  listenPort : Nat := 51819
  address : String := "10.20.0.1/24"
  tunnelCidr : String := "10.20.0.0/24"
  deriving DecidableEq

/-- `build_app`, as far as it calls the host. -/
def buildApp (cfg : Config) : Command Unit := do
  let keyFile ← ensurePrivateKey cfg.keyFile
  cfg.wg.ensureInterface keyFile.text cfg.listenPort cfg.address
  WG.ensureIpForward
  WG.ensureMasquerade cfg.tunnelCidr

/-- What a server does to its host. The pre-shared key of a peer is known by
its id. -/
inductive Cmd
  | buildApp
  | publicKey
  | setPeer (pubkey keyId allowedIps : String)
  | removePeer (pubkey : String)
  | «show»
  deriving DecidableEq

/-- The private key that `wg genkey` prints, by what tells one from another,
and the pre-shared keys by their ids. -/
structure Secrets where
  priv : String → String
  material : String → Bytes

def Cmd.routine (cfg : Config) (material : String → Bytes) : Cmd → Command String
  | .buildApp => do
    Host.buildApp cfg
    pure ""
  | .publicKey => cfg.wg.publicKey
  | .setPeer pubkey keyId allowedIps => do
    cfg.wg.setPeer pubkey (material keyId) allowedIps
    pure ""
  | .removePeer pubkey => do
    cfg.wg.removePeer pubkey
    pure ""
  | .show => cfg.wg.show

/-- A fate, with the private key in it. -/
def Secrets.resolve (secrets : Secrets) : Op Empty → Fate Empty → Fate Empty
  | .run argv _, .exits completed =>
    if argv = ["wg", "genkey"] ∧ completed.code = 0 then
      .exits { completed with stdout := secrets.priv completed.stdout }
    else .exits completed
  | _, fate => fate

/-- A command, with the fates of its calls. -/
structure Invocation where
  cmd : Cmd
  fates : List (Fate Empty)

/-- What a command did. -/
structure Report where
  calls : List (Op Empty)
  result : Option (Except Raised String)

/-- One command after the other, where the umask lets the bits of `keep`
through. A server that was killed is started again with `buildApp`. -/
def invoke (cfg : Config) (keep : Nat) (secrets : Secrets) (files : Files) (i : Invocation) :
    Files × Report :=
  let out := (i.cmd.routine cfg secrets.material).exec (world keep secrets.resolve) files i.fates
  (out.state, ⟨out.calls, out.result⟩)

/-- What another user sees of a command. -/
def observed (m : Moment Files Invocation Report) :
    List (Op Empty) × Option (Except Raised String) × (Path → Option (Nat × Option Bytes)) :=
  (m.out.calls.map (Op.look id), m.out.result, Files.seen m.post)

/-- The names of the temporary files. -/
def Config.Temp (cfg : Config) (path : Path) : Prop :=
  path.dir = cfg.wg.tmp ∧ ∃ suffix, path.name = "wg-psk-" ++ suffix

/-- A call that touches no file and prints no secret. -/
def Plain : Op Empty → Prop
  | .run argv _ => argv ≠ ["wg", "genkey"]
  | .log _ => True
  | _ => False

section

variable {cfg : Config} {keep : Nat} {material : String → Bytes} {start files : Files}
  {calls : List (Op Empty)} {path : Path}

/-! ## The plain scripts -/

theorem plain_runArgs {args : List String} (h : args ≠ ["wg", "genkey"]) (check : Bool) :
    (runArgs args none check : Command Completed).Only Plain := by
  refine Only.bind (only_perform (P := Plain) _ h) fun result => ?_
  split <;> trivial

theorem plain_log (text : String) : (Sys.log text : Command Unit).Only Plain :=
  only_perform _ trivial

theorem plain_ensureInterface (wg : WG) (privateKeyFile : String) (listenPort : Nat)
    (address : String) : (wg.ensureInterface privateKeyFile listenPort address).Only Plain := by
  have hexists : wg.exists.Only Plain :=
    (plain_runArgs (by simp) _).bind fun _ => only_pure _
  refine hexists.bind fun there => Only.bind ?_ fun _ => ?_
  · cases there with
    | true => exact only_pure _
    | false => exact (plain_runArgs (by simp) _).bind fun _ => plain_log _
  · exact (plain_runArgs (by simp) _).bind fun _ => (plain_runArgs (by simp) _).bind fun _ =>
      (plain_runArgs (by simp) _).bind fun _ => only_pure _

theorem plain_ensureMasquerade (tunnelCidr : String) :
    (WG.ensureMasquerade tunnelCidr).Only Plain := by
  have huplink : WG.defaultRouteIface.Only Plain := by
    refine (plain_runArgs (by simp) _).bind fun result => ?_
    split
    · exact only_raise _
    · exact only_raise _
    · exact only_pure _
  refine huplink.bind fun uplink => (plain_runArgs (by simp) _).bind fun result => ?_
  split
  · exact (plain_runArgs (by simp) _).bind fun _ => plain_log _
  · exact only_pure _

/-- The start of the server, after the private key. -/
theorem plain_buildApp (keyFile : Path) : (do
    cfg.wg.ensureInterface keyFile.text cfg.listenPort cfg.address
    WG.ensureIpForward
    WG.ensureMasquerade cfg.tunnelCidr : Command Unit).Only Plain := by
  have hforward : WG.ensureIpForward.Only Plain :=
    (plain_runArgs (by simp) _).bind fun _ => only_pure _
  exact (plain_ensureInterface _ _ _ _).bind fun _ => hforward.bind fun _ =>
    plain_ensureMasquerade _

theorem plain_publicKey (wg : WG) : wg.publicKey.Only Plain :=
  (plain_runArgs (by simp) _).bind fun _ => only_pure _

theorem plain_removePeer (wg : WG) (pubkey : String) : (wg.removePeer pubkey).Only Plain :=
  (plain_runArgs (by simp) _).bind fun _ => only_pure _

theorem plain_show (wg : WG) : wg.show.Only Plain :=
  (plain_runArgs (by simp) _).bind fun _ => only_pure _

/-! ## What is seen -/

/-- Secrets are in the file of the private key and in new temporary files. -/
def policy (cfg : Config) (start : Files) : Policy Empty Empty Empty where
  Secret path := path = cfg.keyFile ∨ cfg.Temp path ∧ start path = none
  Stays path := start path ≠ none ∧ path ≠ cfg.keyFile
  Mints argv := argv = ["wg", "genkey"]
  Minted out out' := stripped out = "" ↔ stripped out' = ""
  look := id
  Like _ _ _ _ := True

theorem temp_secret_or_stays (suffix : String) :
    (policy cfg start).Secret ⟨cfg.wg.tmp, "wg-psk-" ++ suffix⟩ ∨
      (policy cfg start).Stays ⟨cfg.wg.tmp, "wg-psk-" ++ suffix⟩ := by
  by_cases hkey : (⟨cfg.wg.tmp, "wg-psk-" ++ suffix⟩ : Path) = cfg.keyFile
  · exact .inl (.inl hkey)
  · by_cases hstart : start ⟨cfg.wg.tmp, "wg-psk-" ++ suffix⟩ = none
    · exact .inl (.inr ⟨⟨rfl, suffix, rfl⟩, hstart⟩)
    · exact .inr ⟨hstart, hkey⟩

theorem key_secret : (policy cfg start).Secret cfg.keyFile := .inl rfl

theorem secret_not_stays (h : (policy cfg start).Secret path) :
    ¬ (policy cfg start).Stays path := by
  intro hstays
  rcases h with hkey | ⟨_, hnone⟩
  · exact hstays.2 hkey
  · exact hstays.1 hnone

theorem hides_plain {α : Type} {t : Command α} (h : t.Only Plain) :
    (policy cfg start).Hides Eq t t := by
  refine h.couples fun op hop => ?_
  cases op with
  | run argv stdin => exact ⟨rfl, fun p p' hp => hp.resolve_right fun hmint => hop hmint.1⟩
  | log text => exact ⟨rfl, fun _ _ _ => rfl⟩
  | _ => exact hop.elim

theorem hides_ensurePrivateKey :
    (policy cfg start).Hides Eq (ensurePrivateKey cfg.keyFile) (ensurePrivateKey cfg.keyFile) := by
  refine (Policy.hides_pathExists _).bind fun there there' hthere => ?_
  subst hthere
  cases there with
  | true => exact couples_pure rfl
  | false =>
    refine (Policy.hides_makedirs _ _).bind fun _ _ _ => ?_
    refine (Policy.hides_run ["wg", "genkey"] none none).bind fun p p' hp => ?_
    -- the two keys are there together
    have hbad : (p.code ≠ 0 ∨ stripped p.stdout = "" ↔ p'.code ≠ 0 ∨ stripped p'.stdout = "") ∧
        p.stderr = p'.stderr := by
      rcases hp with rfl | ⟨_, hcode, hcode', hstderr, hminted⟩
      · exact ⟨Iff.rfl, rfl⟩
      · rw [hcode, hcode']
        exact ⟨or_congr_right hminted, hstderr⟩
    by_cases hp : p.code ≠ 0 ∨ stripped p.stdout = ""
    · rw [if_pos hp, if_pos (hbad.1.mp hp), hbad.2]
      exact couples_raise _
    · rw [if_neg hp, if_neg fun hp' => hp (hbad.1.mpr hp')]
      exact (Policy.hides_openFile _ (by decide)).bind fun _ _ _ =>
        (Policy.hides_write (.inr key_secret)).bind fun _ _ _ =>
        (Policy.hides_log _).bind fun _ _ _ => couples_pure rfl

theorem hides_routine (start : Files) (material material' : String → Bytes) (cmd : Cmd) :
    (policy cfg start).Hides Eq (cmd.routine cfg material) (cmd.routine cfg material') := by
  cases cmd with
  | buildApp =>
    have hbuild : (policy cfg start).Hides Eq (buildApp cfg) (buildApp cfg) := by
      refine hides_ensurePrivateKey.bind fun keyFile keyFile' hkey => ?_
      subst hkey
      exact hides_plain (plain_buildApp keyFile)
    exact hbuild.bind fun _ _ _ => couples_pure rfl
  | publicKey => exact hides_plain (plain_publicKey _)
  | setPeer pubkey keyId allowedIps =>
    have hset : (policy cfg start).Hides (fun _ _ => True)
        (cfg.wg.setPeer pubkey (material keyId) allowedIps)
        (cfg.wg.setPeer pubkey (material' keyId) allowedIps) :=
      hides_withPsk (fun path => by simp [policy]) temp_secret_or_stays
        (fun _ => secret_not_stays) _ _
    exact hset.bind fun _ _ _ => couples_pure rfl
  | removePeer pubkey =>
    exact (hides_plain (plain_removePeer _ pubkey)).bind fun _ _ _ => couples_pure rfl
  | «show» => exact hides_plain (plain_show _)

theorem twins_resolve {secrets secrets' : Secrets}
    (hpriv : ∀ out, stripped (secrets.priv out) = "" ↔ stripped (secrets'.priv out) = "")
    (op op' : Op Empty) (fate : Fate Empty) (hsame : (policy cfg start).Same op op') :
    (policy cfg start).Twins op op' (secrets.resolve op fate) (secrets'.resolve op' fate) := by
  cases op with
  | run argv stdin =>
    cases op' with
    | run argv' stdin' =>
      obtain rfl : argv = argv' := hsame
      cases fate with
      | exits completed =>
        simp only [Secrets.resolve]
        split
        · rename_i hmint
          exact .inr ⟨hmint.1, hmint.2, hmint.2, rfl, hpriv _⟩
        · exact .inl rfl
      | _ => rfl
    | _ => exact hsame.elim
  | net request => exact request.elim
  | _ => cases op' <;> first | exact hsame.elim | cases fate <;> rfl

end

/-- The secrets of one byte each. -/
def Secrets.of (c : Char) (byte : UInt8) : Secrets := ⟨fun _ => c.toString, fun _ => [byte]⟩

/-- What a first start asks about the key, and what it asks after. -/
def keyFates : List (Fate Empty) := [.returns, .returns, .exits ⟨0, "h", ""⟩, .returns]

def startFates : List (Fate Empty) :=
  [.exits ⟨1, "", "no such device"⟩, .exits ⟨0, "", ""⟩, .returns, .exits ⟨0, "", ""⟩,
    .exits ⟨2, "", "File exists"⟩, .exits ⟨0, "", ""⟩, .exits ⟨0, "", ""⟩,
    .exits ⟨0, "default via 10.0.0.1 dev ens4", ""⟩, .exits ⟨1, "", ""⟩, .exits ⟨0, "", ""⟩,
    .returns]

/-- A first start, a peer that `wg` does not take, and a start that is
killed. -/
def hostRun : List Invocation :=
  [⟨.buildApp, keyFates ++ [.returns, .returns] ++ startFates⟩,
    ⟨.setPeer "P" "k1" "A", [.names "x", .returns, .returns, .exits ⟨1, "", "bad peer"⟩, .returns]⟩,
    ⟨.buildApp, [.returns]⟩]

/-- The file of the private key, while there is none. -/
def Config.Missing (cfg : Config) (files : Files) (path : Path) : Prop :=
  path = cfg.keyFile ∧ files path = none

/-- The files as they were, but for a private key where there was none and
for a new temporary file. -/
def Passing (cfg : Config) (files now : Files) : Prop :=
  ∀ path, ¬ cfg.Missing files path → now path = files path ∨ files path = none ∧ cfg.Temp path

/-- The command ends with the exception of `os.unlink`. -/
def Report.SaysLeft (cfg : Config) (report : Report) : Prop :=
  ∃ path, cfg.Temp path ∧ report.result = some (.error (.osError "unlink" path.text))

/-- The command ran to its end, and left no file behind. -/
def Report.Whole (cfg : Config) (report : Report) : Prop :=
  report.result ≠ none ∧ ¬ report.SaysLeft cfg

abbrev HostStep := Moment Files Invocation Report

/-- A start of the server went well. -/
def Started (steps : List HostStep) : Prop :=
  ∃ m ∈ steps, m.act.cmd = .buildApp ∧ m.out.result = some (.ok "")

/-- What a run of the server leaves of its host's files. -/
structure Keeps (cfg : Config) (start : Files) (steps : List HostStep) (final : Files) :
    Prop where
  key : start cfg.keyFile ≠ none → final cfg.keyFile = start cfg.keyFile
  started : Started steps → final cfg.keyFile ≠ none
  outside : ∀ path, path ≠ cfg.keyFile →
    final path = start path ∨ start path = none ∧ cfg.Temp path
  whole : (∀ m ∈ steps, m.out.Whole cfg) → ∀ path, path ≠ cfg.keyFile → final path = start path

section

variable {cfg : Config} {keep : Nat} {resolve : Op Empty → Fate Empty → Fate Empty}
  {material : String → Bytes} {files now : Files} {calls : List (Op Empty)} {α : Type}

theorem passing_of_framed (h : Framed (cfg.Missing files) files now) : Passing cfg files now :=
  fun path hpath => .inl (h path hpath)

theorem plain_within {own : Path → Prop} (op : Op Empty) (h : Plain op) : op.Within own := by
  cases op with
  | run argv stdin => trivial
  | log text => trivial
  | _ => exact h.elim

/-- What a plain script leaves is what it found. -/
theorem plain_ends {I : Files → Prop} {t : Command α} (h : t.Only Plain) (hI : I files) :
    t.Ends (world keep resolve) I (fun now _ _ => now = files) files calls :=
  still_ends (h.mono fun op hop => plain_within op hop) hI

/-- A call that changes the file of the private key only, and leaves it
there. -/
def Config.Fills (cfg : Config) (op : Op Empty) : Prop :=
  op.Within (· = cfg.keyFile) ∧ ∀ other, op ≠ .unlink other

theorem fills_write (content : Bytes) (text : String) : (do
    Sys.write cfg.keyFile content
    Sys.log text
    pure cfg.keyFile : Command Path).Only cfg.Fills :=
  Only.bind (only_perform (P := cfg.Fills) _ ⟨rfl, nofun⟩) fun _ =>
    Only.bind (only_perform (P := cfg.Fills) _ ⟨trivial, nofun⟩) fun _ => only_pure _

/-- The private key is written where there is none, and is there when the
script returns. -/
theorem ensurePrivateKey_ends : (ensurePrivateKey cfg.keyFile).Ends (world keep resolve)
    (Framed (cfg.Missing files) files)
    (fun now _ r => Framed (cfg.Missing files) files now ∧
      ∀ path, r = .ok path → now cfg.keyFile ≠ none) files calls := by
  have hsame : Framed (cfg.Missing files) files files := fun _ _ => rfl
  refine (pathExists_ends hsame _).bind (fun now calls there hthere => ?_)
    fun _ _ _ h => by cases h.2
  obtain ⟨rfl, hthere⟩ := hthere
  cases hfile : now cfg.keyFile with
  | some file =>
    rw [hfile] at hthere
    cases hthere
    exact ⟨hsame, fun _ _ => by simp [hfile]⟩
  | none =>
    rw [hfile] at hthere
    cases hthere
    have hframed : ∀ later, Framed (· = cfg.keyFile) now later →
        Framed (cfg.Missing now) now later :=
      fun later h path hpath => h path fun heq => hpath ⟨heq, heq ▸ hfile⟩
    have hfails : ∀ e : Raised, Framed (cfg.Missing now) now now ∧
        ∀ path, (.error e : Except Raised Path) = .ok path → now cfg.keyFile ≠ none :=
      fun e => ⟨hsame, fun _ hr => by cases hr⟩
    refine Ends.bind (still_ends (only_perform _ trivial) hsame) (fun _ _ _ hdir => ?_)
      fun _ _ e hdir => hdir ▸ hfails e
    rw [hdir]
    refine Ends.bind (still_ends (only_perform _ trivial) hsame) (fun _ _ result hrun => ?_)
      fun _ _ e hrun => hrun ▸ hfails e
    rw [hrun]
    split
    · exact hfails _
    · intro fate
      unfold world
      rcases step_openFile keep now cfg.keyFile 0o600 (N := Empty)
        (resolve (.openFile cfg.keyFile 0o600) fate) with ⟨e, heq⟩ | heq
      · rw [heq]
        exact ⟨hsame, hfails e⟩
      · rw [heq]
        -- from here on the file is there
        have hopened : Framed (· = cfg.keyFile) now
            (now.put cfg.keyFile (some (now.truncated keep cfg.keyFile 0o600))) :=
          fun path hpath => Files.put_ne _ _ hpath
        refine ⟨hframed _ hopened, (Only.ends (P := cfg.Fills) (J := fun later =>
          Framed (· = cfg.keyFile) now later ∧ later cfg.keyFile ≠ none) ?_ (fun later h => hframed later h.1) ?_ ?_).mono ?_⟩
        · intro later op fate hop h
          refine ⟨fun path hpath => ?_, step_present hop.2 h.2 _⟩
          exact (step_within hop.1 hpath _).trans (h.1 path hpath)
        · exact fills_write _ _
        · exact ⟨hopened, by simp⟩
        · exact fun later _ _ h => ⟨hframed later h.1, fun _ _ => h.2⟩

/-- The ends of a command. -/
def Left (cfg : Config) (files now : Files) (cmd : Cmd) (r : Except Raised String) : Prop :=
  Framed (cfg.Missing files) files now ∧
      (cmd = .buildApp → ∀ s, r = .ok s → now cfg.keyFile ≠ none) ∨
    ∃ path, cfg.Temp path ∧ r = .error (.osError "unlink" path.text)

theorem routine_ends (cmd : Cmd) : (cmd.routine cfg material).Ends (world keep resolve)
    (Passing cfg files) (fun now _ r => Left cfg files now cmd r) files [] := by
  have hsame : Framed (cfg.Missing files) files files := fun _ _ => rfl
  have hplain : ∀ {t : Command String}, t.Only Plain → cmd ≠ .buildApp →
      t.Ends (world keep resolve) (Passing cfg files) (fun now _ r => Left cfg files now cmd r)
        files [] := by
    intro t h hcmd
    refine (plain_ends h (passing_of_framed hsame)).mono fun now _ r hnow => .inl ⟨?_, ?_⟩
    · rw [hnow]
      exact hsame
    · exact fun heq => absurd heq hcmd
  cases cmd with
  | buildApp =>
    refine Ends.bind (P := fun now _ r => Framed (cfg.Missing files) files now ∧
      ∀ u, r = .ok u → now cfg.keyFile ≠ none) ?_
      (fun _ _ u h => .inl ⟨h.1, fun _ _ _ => h.2 u rfl⟩) fun _ _ _ h => .inl ⟨h.1, fun _ _ hr => by cases hr⟩
    refine (ensurePrivateKey_ends.weaken fun _ h => passing_of_framed h).bind
      (fun now calls keyFile h => ?_) fun _ _ _ h => ⟨h.1, fun _ hr => by cases hr⟩
    refine (plain_ends (plain_buildApp keyFile) (passing_of_framed h.1)).mono
      fun later _ _ hlater => ?_
    rw [hlater]
    exact ⟨h.1, fun _ _ => h.2 keyFile rfl⟩
  | publicKey => exact hplain (plain_publicKey _) nofun
  | setPeer pubkey keyId allowedIps =>
    have hspilled : ∀ now, Spilled cfg.wg.tmp files now → Passing cfg files now :=
      fun now h path _ => (h path).imp_right fun hnew => ⟨hnew.1, hnew.2⟩
    refine ((withPsk_ends cfg.wg.tmp (material keyId) _).weaken hspilled).bind (fun now _ _ h => ?_)
      fun now _ e h => ?_
    · rcases h with rfl | ⟨_, _, _, hr⟩
      · exact .inl ⟨hsame, nofun⟩
      · cases hr
    · rcases h with rfl | ⟨path, hdir, hname, hr⟩
      · exact .inl ⟨hsame, nofun⟩
      · cases hr
        exact .inr ⟨path, ⟨hdir, hname⟩, rfl⟩
  | removePeer pubkey =>
    exact hplain ((plain_removePeer _ pubkey).bind fun _ => only_pure _) nofun
  | «show» => exact hplain (plain_show _) nofun

/-! ## The runs -/

theorem missing_of_framed {start : Files} {path : Path}
    (h : ¬ cfg.Missing start path → now path = start path ∨ start path = none ∧ cfg.Temp path)
    (hpath : ¬ cfg.Missing start path) : ¬ cfg.Missing now path := by
  rintro ⟨rfl, hnone⟩
  have hstart : start cfg.keyFile ≠ none := fun hstart => hpath ⟨rfl, hstart⟩
  rcases h hpath with heq | ⟨hold, _⟩
  · exact hstart (heq.symm.trans hnone)
  · exact hstart hold

theorem Passing.trans {start : Files} (h : Passing cfg start files) (hnow : Passing cfg files now) :
    Passing cfg start now := by
  intro path hpath
  rcases hnow path (missing_of_framed (h path) hpath) with heq | ⟨hnone, htemp⟩
  · rw [heq]
    exact h path hpath
  · rcases h path hpath with heq | hnew
    · exact .inr ⟨heq.symm.trans hnone, htemp⟩
    · exact .inr hnew

theorem framed_trans {start : Files} (h : Framed (cfg.Missing start) start files)
    (hnow : Framed (cfg.Missing files) files now) : Framed (cfg.Missing start) start now :=
  fun path hpath => (hnow path (missing_of_framed (passing_of_framed h path) hpath)).trans
    (h path hpath)

/-- A private key that is there stays. -/
theorem Passing.key (h : Passing cfg files now) (hkey : files cfg.keyFile ≠ none) :
    now cfg.keyFile = files cfg.keyFile :=
  (h cfg.keyFile fun hmissing => hkey hmissing.2).resolve_right fun hnew => hkey hnew.1

theorem passing_invoke (secrets : Secrets) (i : Invocation) :
    Passing cfg files (invoke cfg keep secrets files i).1 :=
  (routine_ends i.cmd).always (fun _ _ => .inl rfl) i.fates

end

/-- A start that is killed before it has written its private key leaves an
empty file, and the next start takes that. -/
example : exec (invoke {} 0o755 (.of 'a' 1)) (fun _ => none)
    [⟨.buildApp, keyFates⟩, ⟨.buildApp, .returns :: startFates⟩]
    ⟨"/etc/qkd-ekm", "wg_private.key"⟩ = some ⟨[], 0o600 &&& 0o755⟩ := by
  decide +kernel

end QkdEkm.Vpn.Host
