import QkdEkm.Common.Crypto
import QkdEkm.Common.Errors
import QkdEkm.Vpn.Peers

/-!
# App — the handlers and timers of the VPN server

A handler that needs a key is suspended while a worker thread asks the
EKM for it; a scheduled task is suspended while it sleeps. Everything
else runs in sections that nothing interrupts. `Server` holds what is
suspended next to the tables, and `step` is one section. The record that
a suspended handler refers to is named by its public key: a record
leaves the table only in the section that put it there.
-/

namespace QkdEkm.Vpn

open QkdEkm.Common QkdEkm.Lib

/-- What a `wg` call raises. -/
inductive WgError
  | runtimeError (message : String)
  | other
  deriving DecidableEq, Repr

/-- What `EkmClient.new` raises. -/
inductive EkmError
  | runtimeError (message : String)
  | other
  deriving DecidableEq, Repr

/-- What a section meets: how its `wg` calls end, and what the clock
reads when a key is installed and when the answer is made. -/
structure Env where
  setPeer : Except WgError Unit := .ok ()
  publicKey : Except WgError String
  installedAt : Time
  answeredAt : Time

/-- A peer of the WireGuard interface. -/
structure WgPeer where
  psk : Bytes
  allowedIps : Address
  deriving DecidableEq, Repr

/-- What a scheduled task does when its sleep is over. -/
inductive Work
  | due (pubkey : String)
  | activate (pubkey keyId : String) (key : Bytes)
  deriving DecidableEq, Repr

/-- The dictionary that a task is registered in. -/
inductive Kind
  | timer
  | activation
  deriving DecidableEq, Repr

def Work.kind : Work → Kind
  | .due _ => .timer
  | .activate _ _ _ => .activation

def Work.pubkey : Work → String
  | .due pubkey => pubkey
  | .activate pubkey _ _ => pubkey

structure Task where
  delay : Time
  work : Work
  deriving DecidableEq, Repr

/-- A suspended handler, with the SAE whose key it asked the EKM for. -/
inductive Call
  | start (pubkey qkdId : String)
  | refresh (pubkey qkdId : String)
  deriving DecidableEq, Repr

def Call.pubkey : Call → String
  | .start pubkey _ => pubkey
  | .refresh pubkey _ => pubkey

/-- The server process, `peers.json` and the WireGuard interface. `tasks`
are the scheduled tasks that are neither done nor cancelled; `timers` and
`activations` may also name tasks that are. -/
structure Server where
  peers : PeerTable := ∅
  file : Option PeerTable := none
  wg : String → Option WgPeer := fun _ => none
  tasks : Dict Nat Task := ∅
  timers : Dict String Nat := ∅
  activations : Dict String Nat := ∅
  calls : Dict Nat Call := ∅
  nextId : Nat := 0

/-- A fresh process over a peers file and an interface. -/
def boot (file : Option PeerTable) (wg : String → Option WgPeer) : Server :=
  { peers := file.getD ∅, file, wg }

/-- An entry of `/api/status`. -/
structure PeerStatus where
  pubkey : String
  clientIp : Address
  presharedKeyId : Option String
  nextRefreshAt : Option Time
  refreshDue : Bool
  deriving DecidableEq

inductive Reply
  | connected (qkdId serverPublicKey endpoint presharedKeyId : String) (clientIp : Address)
      (allowedIps : String) (effectiveTime refreshAfterS : Time)
  | refreshing (presharedKeyId : String) (effectiveTime : Time)
  | status (peers : List PeerStatus)
  | error (detail : ErrorBody)
  | internalServerError
  deriving DecidableEq

structure Response where
  status : Nat
  reply : Reply
  deriving DecidableEq

/-- A response to an `HTTPException` with an error body. -/
def httpError (code : Nat) (message : String) (status : Option String := none) : Response :=
  ⟨code, .error (errorBody code message status)⟩

/-- The answer to a request whose handler raised anything else. -/
def unhandled : Response := ⟨500, .internalServerError⟩

/-! ## Tasks -/

namespace Server

def registry (s : Server) : Kind → Dict String Nat
  | .timer => s.timers
  | .activation => s.activations

def register (s : Server) (kind : Kind) (pubkey : String) (task : Nat) : Server :=
  match kind with
  | .timer => { s with timers := s.timers.insert pubkey task }
  | .activation => { s with activations := s.activations.insert pubkey task }

/-- `task.cancel()`, which does nothing to a task that is done. -/
def cancel (s : Server) (task : Nat) : Server := { s with tasks := s.tasks.erase task }

/-- `schedule`. -/
def schedule (s : Server) (delay : Time) (work : Work) : Nat × Server :=
  (s.nextId, { s with tasks := s.tasks.insert s.nextId ⟨delay, work⟩, nextId := s.nextId + 1 })

def cancelRegistered (s : Server) (kind : Kind) (pubkey : String) : Server :=
  match (s.registry kind).lookup pubkey with
  | some task => s.cancel task
  | none => s

/-- Schedules a task in the place of the one registered for the same peer. -/
def reschedule (s : Server) (delay : Time) (work : Work) : Server :=
  let (task, s) := (s.cancelRegistered work.kind work.pubkey).schedule delay work
  s.register work.kind work.pubkey task

def armRefreshTimer (settings : VpnSettings) (s : Server) (pubkey : String) : Server :=
  s.reschedule settings.refreshS (.due pubkey)

/-! ## Installing a key -/

/-- `peers.save()`. -/
def save (s : Server) : Server := { s with file := some s.peers }

def applyKey (settings : VpnSettings) (env : Env) (s : Server) (pubkey : String)
    (record : PeerRecord) (keyId : String) (key : Bytes) (newRecord : Bool) :
    Except WgError Unit × Server :=
  match env.setPeer with
  | .error e => (.error e, if newRecord then { s with peers := s.peers.erase pubkey } else s)
  | .ok _ =>
    let s := { s with wg := Function.update s.wg pubkey (some ⟨key, record.clientIp⟩) }
    let record :=
      { record with
        presharedKeyId := some keyId
        refreshDue := false
        nextRefreshAt := some (env.installedAt + settings.refreshS) }
    let s := { s with peers := s.peers.assign pubkey record }.save
    (.ok (), s.armRefreshTimer settings pubkey)

/-! ## The handlers -/

/-- A handler is suspended until the EKM answers. -/
def suspend (s : Server) (call : Call) : Nat × Server :=
  (s.nextId, { s with calls := s.calls.insert s.nextId call, nextId := s.nextId + 1 })

/-- The answer to a handler whose call of the EKM failed. -/
def noKey : EkmError → Response
  | .runtimeError message => httpError 503 message
  | .other => unhandled

/-- `start_connection` after the EKM answered. -/
def startConnection (settings : VpnSettings) (env : Env) (s : Server) (pubkey qkdId : String)
    (answer : Except EkmError (String × Bytes)) : Server × Response :=
  match answer with
  | .error e => (s, noKey e)
  | .ok (keyId, key) =>
    match recordFor settings s.peers pubkey qkdId with
    | none => (s, httpError 503 "tunnel address pool exhausted")
    | some (record, newRecord, peers) =>
      match applyKey settings env { s with peers } pubkey record keyId key newRecord with
      | (.error (.runtimeError _), s) =>
        (s, httpError 500 "failed to configure WireGuard peer" (some "INTERNAL"))
      | (.error .other, s) => (s, unhandled)
      | (.ok _, s) =>
        match env.publicKey with
        | .error _ => (s, unhandled)
        | .ok publicKey =>
          (s, ⟨200, .connected settings.serverPeer publicKey settings.publicEndpoint keyId
            record.clientIp settings.allowedIps env.answeredAt settings.refreshS⟩)

/-- `refresh_connection` after the EKM answered. -/
def refreshConnection (settings : VpnSettings) (env : Env) (s : Server) (pubkey : String)
    (answer : Except EkmError (String × Bytes)) : Server × Response :=
  match answer with
  | .error e => (s, noKey e)
  | .ok (keyId, key) =>
    (s.reschedule settings.activationDelayS (.activate pubkey keyId key),
      ⟨200, .refreshing keyId (env.answeredAt + settings.activationDelayS)⟩)

/-- A handler after the EKM answered. -/
def resume (settings : VpnSettings) (env : Env) (s : Server) (call : Call)
    (answer : Except EkmError (String × Bytes)) : Server × Response :=
  match call with
  | .start pubkey qkdId => s.startConnection settings env pubkey qkdId answer
  | .refresh pubkey _ => s.refreshConnection settings env pubkey answer

/-- `status`. -/
def status (s : Server) : List PeerStatus :=
  s.peers.items.map fun (pubkey, r) =>
    ⟨pubkey, r.clientIp, r.presharedKeyId, r.nextRefreshAt, r.refreshDue⟩

/-- A task whose sleep is over. `activate` logs what it raises. -/
def run (settings : VpnSettings) (env : Env) (s : Server) : Work → Server
  | .due pubkey =>
    match s.peers.lookup pubkey with
    | none => s
    | some record =>
      { s with peers := s.peers.assign pubkey { record with refreshDue := true } }.save
  | .activate pubkey keyId key =>
    match s.peers.lookup pubkey with
    | none => s
    | some record => (s.applyKey settings env pubkey record keyId key false).2

end Server

/-! ## The process -/

/-- What happens next: an authenticated request arrives, the EKM answers
a suspended handler, a sleep ends, or the process is started again. -/
inductive Act
  | start (pubkey qkdId : String)
  | refresh (pubkey : String)
  | answer (call : Nat) (answer : Except EkmError (String × Bytes)) (env : Env)
  | fire (task : Nat) (env : Env)
  | status
  | restart

/-- What a section sends. -/
inductive Output
  | nothing
  | asks (call : Nat) (qkdId : String)
  | answers (response : Response)
  deriving DecidableEq

/-- The section of a new handler. -/
def arrive (s : Server) (call : Call) (qkdId : String) : Server × Output :=
  let (id, s) := s.suspend call
  (s, .asks id qkdId)

def step (settings : VpnSettings) (s : Server) : Act → Server × Output
  | .start pubkey qkdId => arrive s (.start pubkey qkdId) qkdId
  | .refresh pubkey =>
    match s.peers.lookup pubkey with
    | none => (s, .answers (httpError 404 "unknown peer"))
    | some record => arrive s (.refresh pubkey record.qkdId) record.qkdId
  | .answer id answer env =>
    match s.calls.lookup id with
    | none => (s, .nothing)
    | some call =>
      let (s, response) := { s with calls := s.calls.erase id }.resume settings env call answer
      (s, .answers response)
  | .fire id env =>
    match s.tasks.lookup id with
    | none => (s, .nothing)
    | some task => ((s.cancel id).run settings env task.work, .nothing)
  | .status => (s, .answers ⟨200, .status s.status⟩)
  | .restart => (boot s.file s.wg, .nothing)

/-! ## A sample -/

def demo : VpnSettings where
  publicEndpoint := "198.51.100.1:51820"

/-- A public key that the API accepts. -/
def clientPub : String := "AAAAAAAAAAAAAAAAAAAAAAAAAAAAAAAAAAAAAAAAAAA="

def sample (byte : UInt8) : Bytes := List.replicate 32 byte

def calm : Env where
  publicKey := .ok "server"
  installedAt := 0
  answeredAt := 0

end QkdEkm.Vpn
