import QkdEkm.Common.Json
import QkdEkm.Qkdsim.Store

/-!
# App — the handlers of the simulator

Each handler runs to its end without interruption. It answers, or raises
an `HTTPException` with a message, or raises something that the
framework answers with a 500; the store keeps what the handler did to it
before it raised.
-/

namespace QkdEkm.Qkdsim

open QkdEkm.Common

/-- `SIM_SAES` and `SIM_TOKEN`, and what the simulator draws. -/
structure SimConfig where
  saes : List String := ["QKD1", "QKD2"]
  simToken : Option String := none
  draws : Draws

/-- `_MAX_KEY_PER_REQUEST`. -/
def maxKeyPerRequest : Int := 100

/-- What a handler raises. An `HTTPException` has the code of an error. -/
inductive SimError
  | http (statusCode : Nat) (detail : String) (isError : 400 ≤ statusCode := by decide)
  | valueError
  | attributeError
  | typeError
  | recursionError
  | keyError
  deriving DecidableEq, Repr

inductive Reply
  | keys (keys : List (String × String))
  | sourceAvailable (value : Bool)
  | message (detail : String)
  | internalServerError
  deriving DecidableEq, Repr

structure Response where
  status : Nat
  reply : Reply
  deriving DecidableEq, Repr

def SimError.answer : SimError → Response
  | .http statusCode detail _ => ⟨statusCode, .message detail⟩
  | _ => ⟨500, .internalServerError⟩

theorem SimError.answer_status (e : SimError) : 400 ≤ e.answer.status := by
  cases e with
  | http statusCode detail isError => exact isError
  | _ => exact (by decide : 400 ≤ 500)

/-- `{"keys": [...]}`. -/
def keysReply (keys : List Key) : Response :=
  ⟨200, .keys (keys.map fun k => (k.keyId, b64e k.key.bytes))⟩

section Handlers

variable (cfg : SimConfig)

def masterFor (slaveSae : String) : String :=
  ((cfg.saes.filter fun s => s ≠ slaveSae).head?).getD slaveSae

def requireSimToken (authorization : Option String) : Except SimError Unit :=
  match cfg.simToken with
  | none => .ok ()
  | some token =>
    if authorization = some ("Bearer " ++ token) then .ok () else .error (.http 401 "unauthorized")

def requireSae (sae : String) : Except SimError Unit :=
  if sae ∈ cfg.saes then .ok () else .error (.http 404 "unknown SAE")

/-! ## Minting -/

/-- The query parameter `number` as `int` reads it. -/
inductive Number
  | absent
  | invalid
  | int (value : Int)
  deriving DecidableEq, Repr

/-- The number of keys asked for. -/
def keyNumber : Number → Except SimError Nat
  | .absent => .ok 1
  | .invalid => .error (.http 400 "invalid number")
  | .int value =>
    if value < 1 ∨ maxKeyPerRequest < value then .error (.http 400 "invalid number")
    else .ok value.toNat

structure EncRequest where
  authorization : Option String := none
  slaveSae : String
  number : Number := .absent

/-- `GET /api/v1/keys/{slave_sae}/enc_keys`. -/
def encKeys (store : KeyStore) (req : EncRequest) : KeyStore × Response :=
  let checked : Except SimError Nat := do
    requireSimToken cfg req.authorization
    requireSae cfg req.slaveSae
    keyNumber req.number
  match checked with
  | .error e => (store, e.answer)
  | .ok number =>
    let masterSae := masterFor cfg req.slaveSae
    if store.sourceAvailable then
      let store := { store with keyRequests := store.keyRequests + 1 }
      let (keys, store) := store.newKeys cfg.draws (masterSae, req.slaveSae) number
      (store, keysReply keys)
    else
      ({ store with failedKeyRequests := store.failedKeyRequests + 1 },
        (SimError.http 503 "source unavailable").answer)

/-! ## Retrieval -/

inductive DecMethod
  | get (keyId : Option String)
  | post (body : Body)

structure DecRequest where
  authorization : Option String := none
  masterSae : String
  method : DecMethod

/-- What a `for` loop runs over. -/
def iterate : Json → Except SimError (List Json)
  | .arr items => .ok items
  | .str s => .ok (s.toList.map fun c => .str (String.singleton c))
  | .obj fields => .ok ((fields.map (·.1)).eraseDups.map .str)
  | .null | .bool _ | .num _ => .error .typeError

/-- `item["key_ID"]`. -/
def keyIdOf : Json → Except SimError Json
  | .obj fields =>
    match Fields.get? fields "key_ID" with
    | some value => .ok value
    | none => .error .keyError
  | _ => .error .typeError

/-- `_dec_key_ids`. -/
def decKeyIds : DecMethod → Except SimError (List Json)
  | .get none => .error (.http 400 "missing key_ID")
  | .get (some keyId) => .ok [.str keyId]
  | .post .malformed => .error .valueError
  | .post .tooDeep => .error .recursionError
  | .post (.json (.obj fields)) =>
    match Fields.get? fields "key_IDs" with
    | none => .ok []
    | some value => do
      let items ← iterate value
      items.mapM keyIdOf
  | .post (.json _) => .error .attributeError

/-- The body of the loop of `dec_keys`. A list or a dictionary cannot be
looked up, and no other value but a string is an identifier. -/
def retrieve (store : KeyStore) : Json → Except SimError (Option Key × KeyStore)
  | .str keyId =>
    match store.getById keyId with
    | none => .error (.http 404 "unknown key_ID")
    | some _ =>
      if store.isConsumed keyId then .error (.http 400 "key already consumed")
      else .ok (store.consume keyId)
  | .arr _ | .obj _ => .error .typeError
  | .null | .bool _ | .num _ => .error (.http 404 "unknown key_ID")

/-- The loop of `dec_keys`. -/
def retrieveAll (store : KeyStore) : List Json → Except SimError (List (Option Key)) × KeyStore
  | [] => (.ok [], store)
  | keyId :: keyIds =>
    match retrieve store keyId with
    | .error e => (.error e, store)
    | .ok (key, store) =>
      let (result, store) := retrieveAll store keyIds
      (result.map (key :: ·), store)

/-- The identifiers that `dec_keys` reaches its loop with. -/
def requestedIds (req : DecRequest) : Except SimError (List Json) := do
  requireSimToken cfg req.authorization
  requireSae cfg req.masterSae
  decKeyIds req.method

/-- `GET` and `POST /api/v1/keys/{master_sae}/dec_keys`. -/
def decKeys (store : KeyStore) (req : DecRequest) : KeyStore × Response :=
  match requestedIds cfg req with
  | .error e => (store, e.answer)
  | .ok keyIds =>
    match retrieveAll store keyIds with
    | (.error e, store) => (store, e.answer)
    | (.ok found, store) =>
      -- `consume` returned a key each time, so `k.key_id` is there
      match found.mapM id with
      | some keys => (store, keysReply keys)
      | none => (store, SimError.attributeError.answer)

/-! ## Control -/

/-- `POST /sim/source`. -/
def simSource (store : KeyStore) (authorization : Option String) (body : Body) :
    KeyStore × Response :=
  match requireSimToken cfg authorization with
  | .error e => (store, e.answer)
  | .ok _ =>
    match body with
    | .malformed => (store, SimError.valueError.answer)
    | .tooDeep => (store, SimError.recursionError.answer)
    | .json (.obj fields) =>
      let available := ((Fields.get? fields "available").getD (.bool true)).truthy
      ({ store with sourceAvailable := available }, ⟨200, .sourceAvailable available⟩)
    | .json _ => (store, SimError.attributeError.answer)

end Handlers

end QkdEkm.Qkdsim
