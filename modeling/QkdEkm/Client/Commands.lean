import QkdEkm.Common.Wg
import QkdEkm.Vpn.App

/-!
# Commands — the client's commands, call by call

`WGClient` and the commands of the CLI as scripts over files, processes
and the network. What is fetched or generated comes from outside; each
call may raise, and each command may be killed between two calls.
-/

namespace QkdEkm.Client

open QkdEkm.Common QkdEkm.Lib QkdEkm.Lib.Posix QkdEkm.Lib.Script QkdEkm.Vpn

/-! ## Requests -/

/-- What a command asks of others. -/
inductive Net
  | metadata
  | startConnection (token qkdId publicKey : String)
  | refreshConnection (token publicKey : String)
  | fileKey (url peer : String)
  | upload (url name : String) (blob : Bytes) (keyId : String)
  | decKeys (masterSae keyId : String)
  | urandom
  | clock
  | sleep (delay : Time)
  deriving DecidableEq

/-- What `/api/start_connection` answers, as text. -/
structure ConnectionBody where
  serverPublicKey : String
  endpoint : String
  presharedKeyId : String
  clientIp : String
  allowedIps : String
  deriving DecidableEq

/-- The body of a response. `other` is no JSON, or lacks a field. -/
inductive Body
  | connection (body : ConnectionBody)
  | refreshing (presharedKeyId effectiveTime : String)
  | fileKey (keyId : String)
  | object (uri : String)
  | text (s : String)
  | other
  deriving DecidableEq

inductive NetAnswer
  | response (status : Nat) (body : Body)
  | key (key : Bytes)
  | random (nonce : Nonce)
  | time (now : Time)
  | done

abbrev Command (α : Type) := Routine Net NetAnswer α

/-- The exceptions of `httpx` that are an `httpx.HTTPError`. -/
def httpErrors : List String :=
  ["HTTPError", "RequestError", "TransportError", "TimeoutException", "ConnectTimeout", "ReadTimeout",
    "WriteTimeout", "PoolTimeout", "NetworkError", "ConnectError", "ReadError", "WriteError",
    "CloseError", "ProtocolError", "LocalProtocolError", "RemoteProtocolError", "ProxyError",
    "UnsupportedProtocol", "DecodingError", "TooManyRedirects", "HTTPStatusError"]

/-- What the code's use of an answer raises when it is of another shape. -/
def unusable : Raised := .other "KeyError" ""

/-- A response, after `raise_for_status`. -/
def exchange (request : Net) : Command Body := do
  match ← Sys.net request with
  | .response status body =>
    if 200 ≤ status ∧ status < 300 then pure body
    else raise (.other "HTTPStatusError" (toString status))
  | _ => raise unusable

/-! ## `WGClient` -/

structure WGClient where
  iface : String := "wgqkd"
  stateDir : String
  tmp : String

namespace WGClient

variable (wg : WGClient)

def confPath : Path := ⟨wg.stateDir, wg.iface ++ ".conf"⟩

def genkey : Command (String × String) := do
  let priv ← runArgs ["wg", "genkey"] none true
  let pub ← runArgs ["wg", "pubkey"] (some (stripped priv.stdout)) true
  pure (stripped priv.stdout, stripped pub.stdout)

/-- `_CONF_TEMPLATE`. -/
def confText (priv address serverPub endpoint psk allowedIps : String) (keepalive : Nat) : String :=
  "[Interface]\nPrivateKey = " ++ priv ++ "\nAddress = " ++ address ++ "\n\n[Peer]\nPublicKey = " ++
    serverPub ++ "\nPresharedKey = " ++ psk ++ "\nEndpoint = " ++ endpoint ++ "\nAllowedIPs = " ++
    allowedIps ++ "\nPersistentKeepalive = " ++ toString keepalive ++ "\n"

def writeConf (path : Path) (priv address serverPub endpoint pskB64 allowedIps : String) :
    Command Unit := do
  Sys.makedirs path.dir 0o700
  Sys.openFile path 0o600
  Sys.write path (encoded (confText priv address serverPub endpoint pskB64 allowedIps 25))

def up (path : Path) : Command Unit := do
  let _ ← runArgs ["wg-quick", "up", path.text] none true
  pure ()

def down (path : Path) : Command Unit := do
  let _ ← runArgs ["wg-quick", "down", path.text] none true
  pure ()

def setPsk (serverPub : String) (psk : Bytes) : Command Unit :=
  withPsk wg.tmp psk fun path => ["wg", "set", wg.iface, "peer", serverPub, "preshared-key", path]

def «show» : Command String := do
  let result ← runArgs ["wg", "show", wg.iface] none false
  pure (stripped result.stdout)

end WGClient

/-! ## The commands -/

/-- `session.json`, as text. -/
structure SessionFile where
  publicKey : String
  serverPublicKey : String
  endpoint : String
  clientIp : String
  presharedKeyId : String
  deriving DecidableEq

/-- `json.dump` and `json.load` of a session, and `datetime.fromisoformat`. -/
structure Codec where
  dumps : SessionFile → Bytes
  loads : Bytes → Option SessionFile
  fromisoformat : String → Option Time

/-- `idTokenArgv` is `shlex.split` of the command. -/
structure Config where
  idToken : String := ""
  idTokenCmd : String := "gcloud auth print-identity-token --audiences=qkd-ekm-vpn"
  idTokenArgv : List String := ["gcloud", "auth", "print-identity-token", "--audiences=qkd-ekm-vpn"]
  stateDir : String
  tmp : String := "/tmp"
  myQkd : String := "QKD2"
  peerQkd : String := "QKD1"
  codec : Codec
  aead : Aead

variable (cfg : Config)

/-- `_wg`. -/
def Config.wg : WGClient := { stateDir := cfg.stateDir, tmp := cfg.tmp }

/-- The token of the metadata server, or why there is none. -/
def metadataToken : Command (String ⊕ String) :=
  rescue
    (do
      match ← exchange .metadata with
      | .text s => pure (.inr (stripped s))
      | _ => raise unusable)
    fun
      | .other kind message =>
        if kind ∈ httpErrors then pure (.inl (if message = "" then kind else message))
        else raise (.other kind message)
      | e => raise e

/-- The token that the command prints, or what it says instead. -/
def printedToken : Command (String ⊕ String) := do
  let result ← rescue (do pure (some (← Sys.run cfg.idTokenArgv none))) fun
    | .osError _ _ => pure none
    | e => raise e
  match result with
  | some result =>
    if result.code = 0 ∧ stripped result.stdout ≠ "" then pure (.inr (stripped result.stdout))
    else pure (.inl (stripped result.stderr))
  | none => pure (.inl "not executable")

/-- `_id_token`. -/
def idToken : Command String :=
  if cfg.idToken ≠ "" then pure cfg.idToken
  else do
    match ← metadataToken with
    | .inr token => pure token
    | .inl metadataError =>
      match ← printedToken cfg with
      | .inr token => pure token
      | .inl stderr =>
        raise (.runtimeError ("no identity token: the metadata server is unreachable (" ++
          metadataError ++ ") and `" ++ cfg.idTokenCmd ++ "` failed (" ++ stderr ++ ")"))

/-- `_fetch_key`. -/
def fetchKey (keyId : String) : Command Bytes := do
  match ← Sys.net (.decKeys cfg.peerQkd keyId) with
  | .key key => pure key
  | _ => raise unusable

/-- `_session_path`. -/
def Config.sessionPath : Path := ⟨cfg.stateDir, "session.json"⟩

/-- `_save_session`. -/
def saveSession (session : SessionFile) : Command Unit := do
  Sys.makedirs cfg.stateDir 0o700
  Sys.openFile cfg.sessionPath 0o600
  Sys.write cfg.sessionPath (cfg.codec.dumps session)

/-- `_read_session`. -/
def readSession : Command (Option SessionFile) := do
  if ← Sys.pathExists cfg.sessionPath then
    match cfg.codec.loads (← Sys.read cfg.sessionPath) with
    | some session => pure (some session)
    | none => raise (.other "JSONDecodeError" "")
  else pure none

/-- `_require_session`. -/
def requireSession : Command SessionFile := do
  match ← readSession cfg with
  | some session => pure session
  | none => raise (.runtimeError ("no session at " ++ cfg.sessionPath.text ++ ": run `connect` first"))

def connect : Command Unit := do
  Sys.log "Client Started"
  Sys.log "User is trying to connect to the vpn server"
  Sys.log "Creating local vpn interface"
  Sys.log "Generating public-private key pair"
  let (priv, pub) ← WGClient.genkey
  Sys.makedirs cfg.stateDir 0o700
  Sys.log "WG Interface file created"
  Sys.log "Initiating connection to VPN Server"
  let token ← idToken cfg
  match ← exchange (.startConnection token cfg.myQkd pub) with
  | .connection body =>
    Sys.log ("Fetching Key from QKD with keyId: " ++ body.presharedKeyId)
    let psk ← fetchKey cfg body.presharedKeyId
    Sys.log "Configuring the Wireguard VPN Interface"
    WGClient.writeConf cfg.wg.confPath priv (body.clientIp ++ "/32") body.serverPublicKey
      body.endpoint (b64e psk) body.allowedIps
    WGClient.up cfg.wg.confPath
    Sys.log "Connected"
    saveSession cfg
      { publicKey := pub
        serverPublicKey := body.serverPublicKey
        endpoint := body.endpoint
        clientIp := body.clientIp
        presharedKeyId := body.presharedKeyId }
  | _ => raise unusable

/-- The wait for the effective time. -/
def sleepUntil (effectiveTime : String) : Command Unit := do
  match cfg.codec.fromisoformat effectiveTime with
  | none => raise (.other "ValueError" "")
  | some time =>
    match ← Sys.net .clock with
    | .time now =>
      if 0 < time - now then
        let _ ← Sys.net (.sleep (time - now))
        pure ()
      else pure ()
    | _ => raise unusable

def refresh : Command Unit := do
  let session ← requireSession cfg
  let token ← idToken cfg
  match ← exchange (.refreshConnection token session.publicKey) with
  | .refreshing keyId effectiveTime =>
    Sys.log ("Refreshing PSK with keyId: " ++ keyId ++ " effective at " ++ effectiveTime)
    let psk ← fetchKey cfg keyId
    sleepUntil cfg effectiveTime
    cfg.wg.setPsk session.serverPublicKey psk
    Sys.log "PSK refreshed"
    saveSession cfg { session with presharedKeyId := keyId }
  | _ => raise unusable

/-- `aes_gcm_wrap` with the file's name. -/
def sealFile (key content : Bytes) (name : String) : Command Bytes := do
  match ← Sys.net .urandom with
  | .random nonce =>
    match aesGcmWrap cfg.aead nonce key content (encoded name) with
    | some blob => pure blob
    | none => raise (.other "ValueError" "")
  | _ => raise unusable

def upload (path : Path) (uploadUrl : String) : Command Unit := do
  Sys.log ("Getting key for file encryption shared with " ++ cfg.peerQkd)
  match ← exchange (.fileKey uploadUrl cfg.myQkd) with
  | .fileKey keyId =>
    let key ← fetchKey cfg keyId
    Sys.log ("Encrypting the file with key: " ++ keyId)
    let content ← Sys.read path
    let blob ← sealFile cfg key content path.name
    Sys.log ("Uploading file " ++ path.name)
    let body ← exchange (.upload uploadUrl path.name blob keyId)
    Sys.log ("File " ++ path.name ++ " uploaded successfully")
    match body with
    | .object uri => Sys.log uri
    | _ => raise unusable
  | _ => raise unusable

def status : Command Unit := do
  Sys.log (← cfg.wg.show)
  match ← readSession cfg with
  | none => Sys.log ("no session at " ++ cfg.sessionPath.text)
  | some session =>
    Sys.log ("endpoint: " ++ session.endpoint)
    Sys.log ("client ip: " ++ session.clientIp)
    Sys.log ("preshared key id: " ++ session.presharedKeyId)

/-- `if os.path.exists(path): os.unlink(path)`. -/
def remove (path : Path) : Command Unit := do
  if ← Sys.pathExists path then Sys.unlink path else pure ()

def disconnect : Command Unit := do
  rescue (WGClient.down cfg.wg.confPath) fun
    -- an `OSError` is not caught: then nothing is cleaned up
    | .runtimeError message => Sys.log ("wg-quick down failed, cleaning up anyway: " ++ message)
    | e => raise e
  remove cfg.wg.confPath
  remove cfg.sessionPath
  Sys.log "Disconnected"

/-! ## Entry point -/

/-- A command line. -/
inductive Cmd
  | connect
  | refresh
  | upload (path : Path) (uploadUrl : String)
  | status
  | disconnect
  deriving DecidableEq

def Cmd.routine : Cmd → Command Unit
  | .connect => Client.connect cfg
  | .refresh => Client.refresh cfg
  | .upload path uploadUrl => Client.upload cfg path uploadUrl
  | .status => Client.status cfg
  | .disconnect => Client.disconnect cfg

/-- What `run` logs of the exceptions that it catches. The text of an
`OSError` has the call in the place of the error number. -/
def caught : Raised → Option String
  | .osError what path => some (what ++ ": " ++ path)
  | .runtimeError message => some message
  | .other kind message => if kind ∈ httpErrors then some message else none

/-- `run`: the exit code, or the exception that gets through. -/
def run (cmd : Cmd) : Command Nat :=
  rescue (do cmd.routine cfg; pure 0) fun e =>
    match caught e with
    | some message => do
      Sys.log message
      pure 1
    | none => raise e

end QkdEkm.Client
