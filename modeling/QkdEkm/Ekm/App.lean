import Mathlib.Algebra.GroupWithZero.Nat
import QkdEkm.Common.Json
import QkdEkm.Ekm.Lifecycle
import QkdEkm.Ekm.Pool
import QkdEkm.Lib.Text

/-!
# App — the handlers of the EKM service

A handler runs to its end without interruption, but each of its durable
writes may raise, or the process may die just before or just after it.
`World` is the process together with what the environment has decided
about the writes to come; `commit` is the one place where a handler
meets that decision.
-/

namespace QkdEkm.Ekm

open QkdEkm.Common QkdEkm.Lib

structure Config where
  pool : PoolConfig
  bindPeer : String := "QKD2"
  localKey : Bytes

/-- The `state` dictionary of the app. -/
structure Control where
  continuityAuthority : Bool := true
  recoveryPending : Bool := false
  sourceSeen : Bool
  deriving DecidableEq, Repr

/-- One EKM process over its database. -/
structure Process where
  store : Store
  pool : KeyPool
  control : Control
  pull : Pull

/-- A fresh process over a database. -/
def boot (store : Store) : Process :=
  let pool : KeyPool := {}
  { store, pool, control := { sourceSeen := pool.sourceAvailable }, pull := .idle }

/-- A QKD source that came back needs an explicit ack before READY. -/
def Process.checkRecovery (p : Process) : Process :=
  let available := p.pool.sourceAvailable
  { p with
    control :=
      { p.control with
        recoveryPending := p.control.recoveryPending || (available && !p.control.sourceSeen)
        sourceSeen := available } }

/-- What becomes of a durable write. -/
inductive Fate
  | commits
  | raises
  | crashBefore
  | crashAfter
  deriving DecidableEq, Repr

structure World where
  process : Process
  fates : List Fate
  nonces : List Nonce

/-- Why a handler stops short of an answer. -/
inductive Stop
  | raised (e : Exn)
  | crashed
  deriving DecidableEq, Repr

abbrev Handler := EStateM Stop World

def World.withStore (w : World) (store : Store) : World :=
  { w with process := { w.process with store } }

def World.withPool (w : World) (pool : KeyPool) : World :=
  { w with process := { w.process with pool } }

def World.withControl (w : World) (control : Control) : World :=
  { w with process := { w.process with control } }

section Handlers

variable {α : Type}

def raise (e : Exn) : Handler α := throw (.raised e)

def lift : Except Exn α → Handler α
  | .ok a => pure a
  | .error e => raise e

/-- `try x except e: handler`. -/
def catching (x : Handler α) (e : Exn) (handler : Handler α) : Handler α :=
  tryCatch x fun stop => if stop = .raised e then handler else throw stop

/-- A durable write. Writes past the decided ones commit. -/
def commit (write : Store → Except Exn Store) : Handler PUnit := fun w =>
  let w' := { w with fates := w.fates.tail }
  match w.fates.headD .commits, write w.process.store with
  | .raises, _ => .error (.raised .sqliteError) w'
  | .crashBefore, _ => .error .crashed w'
  | .commits, .ok store => .ok ⟨⟩ (w'.withStore store)
  | .commits, .error e => .error (.raised e) w'
  | .crashAfter, .ok store => .error .crashed (w'.withStore store)
  | .crashAfter, .error _ => .error .crashed w'

/-- `os.urandom` of a nonce. -/
def urandom : Handler Nonce := fun w =>
  .ok (w.nonces.headD .zero) { w with nonces := w.nonces.tail }

/-- `pool.allocate`. -/
def poolAllocate (cfg : Config) (peer : String) : Handler Key := fun w =>
  let (result, pool) := w.process.pool.allocate cfg.pool w.process.store peer
  match result with
  | .ok key => .ok key (w.withPool pool)
  | .error e => .error (.raised e) (w.withPool pool)

/-- The answer of a handler. -/
inductive Reply
  | healthy
  | wrapped (wrappedBlob : String)
  | unwrapped (plaintext : String)
  | described (name keyManagementMode : String)
  | newKey (keyId key qkdName : String)
  | state (modes : Derived) (pool : List (String × Nat)) (bindingsCount : Nat)
      (sourceAvailable continuityAuthority recoveryPending : Bool)
  | authority (continuityAuthority : Bool)
  | recovery (recoveryPending : Bool)
  | error (detail : ErrorBody)
  deriving DecidableEq

variable (aead : Aead) (cfg : Config)

def checkRecovery : Handler PUnit :=
  modify fun w => { w with process := w.process.checkRecovery }

/-- `_b64d`: an absent or falsy value is the empty string. -/
def b64dField (value : Json) : Except Exn Bytes :=
  if value.truthy then
    match value with
    | .str s =>
      match b64d s with
      | some data => .ok data
      | none => .error (httpError 400 "malformed base64")
    | _ => .error .typeError
  else .ok []

def allocate (peer : String) : Handler Key :=
  catching
    (catching (poolAllocate cfg peer) .keyError
      (raise (httpError 404 ("unknown peer " ++ peer))))
    .poolEmpty (raise (httpError 503 "no QKD key available"))

def storeBind (qkdKeyId : String) (purpose : Purpose) (objectId peer : String) : Handler PUnit :=
  commit fun store => store.bind qkdKeyId purpose objectId peer

def bind (qkdKeyId : String) (purpose : Purpose) (objectId peer : String) : Handler PUnit :=
  catching (storeBind qkdKeyId purpose objectId peer) .alreadyBound
    (raise (httpError 400 "key already bound" (some "FAILED_PRECONDITION")))

def putKek (objectId qkdKeyId : String) (material : Bytes) : Handler PUnit := do
  let nonce ← urandom
  let row ← lift (Store.encKek aead cfg.localKey nonce objectId qkdKeyId material)
  commit fun store => .ok (store.putKek row)

def getKek (objectId : String) : Handler (Option Bytes) := do
  let w ← get
  lift (w.process.store.getKek aead cfg.localKey objectId)

def jsonBody : Body → Except Exn Fields
  | .malformed => .error (httpError 400 "malformed JSON body")
  | .tooDeep => .error .recursionError
  | .json (.obj fields) => .ok fields
  | .json _ => .error (httpError 400 "body must be an object")

/-- The first wrap of a key id: material first, binding second. -/
def firstUse (keyId : String) : Handler Bytes := do
  let key ← allocate cfg cfg.bindPeer
  putKek aead cfg keyId key.keyId key.key
  catching (storeBind key.keyId .ekm keyId cfg.bindPeer) .alreadyBound (pure ⟨⟩)
  pure key.key

/-- `aes_gcm_wrap` under a fresh nonce. -/
def sealBlob (kek plaintext aad : Bytes) : Handler Bytes := do
  let nonce ← urandom
  match aesGcmWrap aead nonce kek plaintext aad with
  | some blob => pure blob
  | none => raise .valueError

/-- `_wrap`. -/
def wrap (keyId : String) (body : Fields) (aad : Bytes) : Handler Reply := do
  checkRecovery
  let plaintext ← lift (b64dField (body.get "plaintext"))
  let found ← getKek aead cfg keyId
  let kek ← (match found with
    | some kek => pure kek
    | none => firstUse aead cfg keyId)
  let blob ← sealBlob aead kek plaintext aad
  pure (.wrapped (b64e blob))

/-- `_unwrap`. -/
def unwrap (keyId : String) (body : Fields) (aad : Bytes) : Handler Reply := do
  match ← getKek aead cfg keyId with
  | none => raise (httpError 404 ("unknown key " ++ keyId))
  | some kek =>
    let blob ← lift (b64dField (body.get "wrappedBlob"))
    match aesGcmUnwrap aead kek blob aad with
    | some plaintext => pure (.unwrapped (b64e plaintext))
    | none => raise (httpError 400 "unwrap failed")

/-- What a `POST /api/keys/{key_id_op}` asks for. -/
inductive KeyOp
  | wrap (keyId : String) (body : Fields) (aad : Bytes)
  | unwrap (keyId : String) (body : Fields) (aad : Bytes)

def parseKeyOp (keyIdOp : String) (body : Body) : Except Exn KeyOp := do
  let (keyId, operation) := rpartition keyIdOp ':'
  if (operation ≠ "wrap" ∧ operation ≠ "unwrap") ∨ keyId = "" then
    .error (httpError 404 ("unknown operation " ++ keyIdOp))
  else
    let fields ← jsonBody body
    let aad ← b64dField (fields.get "additionalAuthenticatedData")
    if operation = "wrap" then .ok (.wrap keyId fields aad) else .ok (.unwrap keyId fields aad)

/-- `POST /api/keys/{key_id_op}`. -/
def wrapOrUnwrap (keyIdOp : String) (body : Body) : Handler Reply := do
  match ← lift (parseKeyOp keyIdOp body) with
  | .wrap keyId fields aad => wrap aead cfg keyId fields aad
  | .unwrap keyId fields aad => unwrap aead cfg keyId fields aad

/-- `GET /api/keys/{key_id_op}`. -/
def describeKey (keyIdOp : String) : Handler Reply :=
  if ':' ∈ keyIdOp.toList then raise (httpError 404 ("unknown operation " ++ keyIdOp))
  else pure (.described keyIdOp "MANUAL")

/-- `GET /api/state`. -/
def readState : Handler Reply := do
  checkRecovery
  let w ← get
  let sizes := cfg.pool.peers.eraseDups.map fun peer => (peer, w.process.pool.size peer)
  let bindingsCount := w.process.store.count
  let control := w.process.control
  let modes := derive w.process.pool.sourceAvailable true (sizes.map (·.2)).sum
    (decide (0 < bindingsCount)) control.continuityAuthority control.recoveryPending
  pure (.state modes sizes bindingsCount w.process.pool.sourceAvailable control.continuityAuthority
    control.recoveryPending)

/-- `POST /api/authority`; a body that is not an `Authority` is refused. -/
def setAuthority : Option Bool → Handler Reply
  | none => raise (httpError 400 "invalid request body")
  | some value => do
    modify fun w => w.withControl { w.process.control with continuityAuthority := value }
    pure (.authority value)

/-- `POST /api/recovery/ack`. -/
def ackRecovery : Handler Reply := do
  modify fun w => w.withControl { w.process.control with recoveryPending := false }
  pure (.recovery false)

/-- The purposes `new_key` takes. -/
def newPurpose : String → Option Purpose
  | "vpn" => some .vpn
  | "file" => some .file
  | _ => none

/-- `GET /api/{peer}/new`. -/
def newKey (peer purpose : String) : Handler Reply := do
  match newPurpose purpose with
  | none => raise (httpError 400 ("unknown purpose " ++ purpose))
  | some u =>
    let key ← allocate cfg peer
    bind key.keyId u (peer ++ ":" ++ key.keyId) peer
    pure (.newKey key.keyId (b64e key.key) peer)

/-- A request with an accepted token. -/
inductive Request
  | healthz
  | keyOp (keyIdOp : String) (body : Body)
  | describe (keyIdOp : String)
  | state
  | authority (value : Option Bool)
  | ack
  | new (peer : String) (purpose : String := "vpn")

def handle : Request → Handler Reply
  | .healthz => pure .healthy
  | .keyOp keyIdOp body => wrapOrUnwrap aead cfg keyIdOp body
  | .describe keyIdOp => describeKey keyIdOp
  | .state => readState cfg
  | .authority value => setAuthority value
  | .ack => ackRecovery
  | .new peer purpose => newKey cfg peer purpose

end Handlers

/-! ## The process -/

structure Response where
  status : Nat
  reply : Reply
  deriving DecidableEq

/-- What happens to the process next: a request, with the fate of its
writes and the randomness it draws; a section of the pulling thread; the
expiry of one peer's deque; or a restart. -/
inductive Act
  | request (r : Request) (fates : List Fate) (nonces : List Nonce)
  | pull (answer : EncKeys) (now : Time)
  | expire (peer : String) (now : Time)
  | restart

/-- The answer to a request. A process that dies answers nothing and is
started again over what it had committed. -/
def respond (p : Process) : Except Stop Reply → Process × Option Response
  | .ok reply => (p, some ⟨200, reply⟩)
  | .error (.raised e) => (p, some ⟨e.answer.1, .error e.answer.2⟩)
  | .error .crashed => (boot p.store, none)

/-- Whether the process is started again after this step: because it was
asked to, or because it died in a request and answered nothing. -/
def died : Act → Option Response → Bool
  | .restart, _ => true
  | .request _ _ _, none => true
  | _, _ => false

def step (aead : Aead) (cfg : Config) (p : Process) : Act → Process × Option Response
  | .request r fates nonces =>
    match handle aead cfg r { process := p, fates, nonces } with
    | .ok reply w => respond w.process (.ok reply)
    | .error stop w => respond w.process (.error stop)
  | .pull answer now =>
    let (pool, pull) := p.pool.pull cfg.pool answer now p.pull
    ({ p with pool, pull }, none)
  | .expire peer now => ({ p with pool := (p.pool.expirePeer cfg.pool now peer).1 }, none)
  | .restart => (boot p.store, none)

end QkdEkm.Ekm
