import QkdEkm.Vpn.App

/-!
# Cli — the client's commands

A command runs alone and blocks on the control API, on QKD2, on its
sleep and on `wg`. `Stage` is where the running command blocks and
`Cli.step` is what it does until it blocks again. An answer that is
not the expected one ends the command and leaves the rest as it is.
-/

namespace QkdEkm.Client

open QkdEkm.Common QkdEkm.Vpn

/-- `session.json`. -/
structure Session where
  publicKey : String
  serverPublicKey : String
  endpoint : String
  clientIp : Address
  presharedKeyId : String
  deriving DecidableEq

/-- The `wg-quick` configuration. -/
structure Conf where
  priv : String
  address : Address
  serverPub : String
  psk : Bytes
  endpoint : String
  allowedIps : String
  deriving DecidableEq

/-- The interface, with the pre-shared key of each of its peers. -/
structure Interface where
  priv : String
  psk : String → Option Bytes

/-- `wg-quick up`. -/
def Conf.up (conf : Conf) : Interface where
  priv := conf.priv
  psk := Function.update (fun _ => none) conf.serverPub (some conf.psk)

/-- `wg set … preshared-key`. -/
def Interface.setPsk (iface : Interface) (serverPub : String) (psk : Bytes) : Interface :=
  { iface with psk := Function.update iface.psk serverPub (some psk) }

/-- What `/api/start_connection` answers. -/
structure Connection where
  serverPublicKey : String
  endpoint : String
  presharedKeyId : String
  clientIp : Address
  allowedIps : String
  deriving DecidableEq

/-- Where the running command blocks. -/
inductive Stage
  | idle
  | connecting (priv pub : String)
  | connectFetching (priv pub : String) (body : Connection)
  | connectUp (pub : String) (body : Connection)
  | connectSaving (pub : String) (body : Connection)
  | refreshing (session : Session)
  | refreshFetching (session : Session) (keyId : String) (effectiveTime : Time)
  | refreshSleeping (session : Session) (keyId : String) (psk : Bytes) (delay : Time)
  | refreshSaving (session : Session) (keyId : String)
  deriving DecidableEq

/-- The client's files, its interface and its running command. -/
structure Cli where
  session : Option Session := none
  conf : Option Conf := none
  iface : Option Interface := none
  stage : Stage := .idle

/-- What a client asks the control API for. -/
inductive Request
  | startConnection (qkdId publicKey : String)
  | refreshConnection (publicKey : String)
  deriving DecidableEq

/-- What ends a wait. `proceed` is the end of a sleep, of a `wg` call or
of a file write. -/
inductive Input
  | connect (priv pub : String)
  | refresh
  | disconnect
  | response (r : Response)
  | key (psk : Bytes) (clock : Time)
  | proceed

/-- What a command sends. -/
inductive Output
  | nothing
  | post (r : Request)
  | decKeys (keyId : String)
  deriving DecidableEq

namespace Cli

/-- A new command, if none is running. -/
def command (myQkd : String) (c : Cli) : Input → Cli × Output
  | .connect priv pub =>
    ({ c with stage := .connecting priv pub }, .post (.startConnection myQkd pub))
  | .refresh =>
    match c.session with
    | none => (c, .nothing)
    | some session =>
      ({ c with stage := .refreshing session }, .post (.refreshConnection session.publicKey))
  | .disconnect => ({ c with session := none, conf := none, iface := none }, .nothing)
  | _ => (c, .nothing)

/-- The command ends with an error. -/
def fail (c : Cli) : Cli × Output := ({ c with stage := .idle }, .nothing)

def step (myQkd : String) (c : Cli) (i : Input) : Cli × Output :=
  match c.stage, i with
  | .idle, i => c.command myQkd i
  | .connecting priv pub, .response r =>
    match r with
    | ⟨200, .connected _ serverPublicKey endpoint presharedKeyId clientIp allowedIps _ _⟩ =>
      ({ c with
          stage := .connectFetching priv pub
            { serverPublicKey, endpoint, presharedKeyId, clientIp, allowedIps } },
        .decKeys presharedKeyId)
    | _ => c.fail
  | .connectFetching priv pub body, .key psk _ =>
    ({ c with
        conf := some
          { priv
            address := body.clientIp
            serverPub := body.serverPublicKey
            psk
            endpoint := body.endpoint
            allowedIps := body.allowedIps }
        stage := .connectUp pub body }, .nothing)
  | .connectUp pub body, .proceed =>
    match c.conf with
    | none => c.fail
    | some conf => ({ c with iface := some conf.up, stage := .connectSaving pub body }, .nothing)
  | .connectSaving pub body, .proceed =>
    ({ c with
        session := some
          { publicKey := pub
            serverPublicKey := body.serverPublicKey
            endpoint := body.endpoint
            clientIp := body.clientIp
            presharedKeyId := body.presharedKeyId }
        stage := .idle }, .nothing)
  | .refreshing session, .response r =>
    match r with
    | ⟨200, .refreshing presharedKeyId effectiveTime⟩ =>
      ({ c with stage := .refreshFetching session presharedKeyId effectiveTime },
        .decKeys presharedKeyId)
    | _ => c.fail
  | .refreshFetching session keyId effectiveTime, .key psk clock =>
    -- a delay that is not positive is not slept
    ({ c with stage := .refreshSleeping session keyId psk (effectiveTime - clock) }, .nothing)
  | .refreshSleeping session keyId psk _, .proceed =>
    match c.iface with
    | none => c.fail
    | some iface =>
      ({ c with
          iface := some (iface.setPsk session.serverPublicKey psk)
          stage := .refreshSaving session keyId }, .nothing)
  | .refreshSaving session keyId, .proceed =>
    ({ c with session := some { session with presharedKeyId := keyId }, stage := .idle }, .nothing)
  | _, _ => (c, .nothing)

/-- The key id that the running command has asked QKD2 for. -/
def fetching (c : Cli) : Option String :=
  match c.stage with
  | .connectFetching _ _ body => some body.presharedKeyId
  | .refreshFetching _ keyId _ => some keyId
  | _ => none

end Cli

end QkdEkm.Client
