import QkdEkm.Ekm.App
import QkdEkm.Qkdsim.App

/-!
# Clients — what is read off an answer

The key management entity is called through `Etsi014Client`, the EKM
through `EkmClient`. Each decodes the material of the keys it receives
with the base64 that the other side encoded them with; an answer that
does not arrive is `none`.
-/

namespace QkdEkm.Qkd

open QkdEkm.Common

/-! ## The ETSI client -/

/-- What `Etsi014Client` raises: `QkdUnavailable`, `QkdError`, or what
reading the body of an answer raises. -/
inductive Failure
  | unavailable
  | rejected
  | unreadable
  deriving DecidableEq, Repr

/-- The headers of an `Etsi014Client`. -/
structure Etsi014Client where
  token : Option String := none

namespace Etsi014Client

variable (client : Etsi014Client)

def authorization : Option String := client.token.map ("Bearer " ++ ·)

/-- `_request`, and `data["keys"]` of what it returns. -/
def request : Option Qkdsim.Response → Except Failure (List (String × String))
  | none => .error .unavailable
  | some resp =>
    if resp.status = 503 ∨ 500 ≤ resp.status then .error .unavailable
    else if 400 ≤ resp.status then .error .rejected
    else
      match resp.reply with
      | .keys keys => .ok keys
      | _ => .error .unreadable

/-- `[Key(k["key_ID"], b64d(k["key"])) for k in keys]`. -/
def readKeys : List (String × String) → Option (List Ekm.Key)
  | [] => some []
  | (keyId, key) :: keys => do
    let bytes ← b64d key
    let rest ← readKeys keys
    pure (⟨keyId, bytes⟩ :: rest)

/-- The call that `enc_keys` makes. -/
def encRequest (slaveSae : String) (number : Int) : Qkdsim.EncRequest where
  authorization := client.authorization
  slaveSae
  number := .int number

/-- The call that `dec_keys` makes: a single id in the query, more of
them in a body. -/
def decRequest (masterSae : String) (keyIds : List String) : Qkdsim.DecRequest where
  authorization := client.authorization
  masterSae
  method :=
    match keyIds with
    | [keyId] => .get (some keyId)
    | keyIds => .post (.json (.obj
        [("key_IDs", .arr (keyIds.map fun keyId => .obj [("key_ID", .str keyId)]))]))

/-- What `enc_keys` and `dec_keys` make of the answer. -/
def keysOf (resp : Option Qkdsim.Response) : Except Failure (List Ekm.Key) :=
  match request resp with
  | .error e => .error e
  | .ok keys =>
    match readKeys keys with
    | some keys => .ok keys
    | none => .error .unreadable

/-- `enc_keys`, as the thread that pulls sees it. -/
def encKeys (resp : Option Qkdsim.Response) : Ekm.EncKeys :=
  match keysOf resp with
  | .ok keys => .keys keys
  | .error .unavailable => .unavailable
  | .error _ => .failed

end Etsi014Client

/-! ## The client of the EKM -/

/-- `EkmClient.new`: the identifier and the material, or it raises. -/
def ekmClientNew : Option Ekm.Response → Option Ekm.Key
  | some ⟨200, .newKey keyId key _⟩ => (b64d key).map (⟨keyId, ·⟩)
  | _ => none

/-! ## Decoding what was encoded -/

/-- The unit of a key of the simulator. -/
def unitOf (key : Qkdsim.Key) : Ekm.Key := ⟨key.keyId, key.key.bytes⟩

theorem readKeys_encoded (keys : List Qkdsim.Key) :
    Etsi014Client.readKeys (keys.map fun k => (k.keyId, b64e k.key.bytes)) =
      some (keys.map unitOf) := by
  induction keys with
  | nil => rfl
  | cons key keys ih =>
    simp only [List.map_cons, Etsi014Client.readKeys, b64d_b64e, ih]
    rfl

/-- **The client reads every key of an answer.** -/
theorem keysOf_keysReply (keys : List Qkdsim.Key) :
    Etsi014Client.keysOf (some (Qkdsim.keysReply keys)) = .ok (keys.map unitOf) := by
  show (match Etsi014Client.readKeys (keys.map fun k => (k.keyId, b64e k.key.bytes)) with
    | some keys => Except.ok keys
    | none => Except.error Failure.unreadable) = _
  rw [readKeys_encoded]

theorem request_answer (e : Qkdsim.SimError) :
    ∃ failure, Etsi014Client.request (some e.answer) = .error failure := by
  unfold Etsi014Client.request
  dsimp only
  by_cases h500 : e.answer.status = 503 ∨ 500 ≤ e.answer.status
  · exact ⟨.unavailable, if_pos h500⟩
  · rw [if_neg h500]
    exact ⟨.rejected, if_pos e.answer_status⟩

/-- An error is no list of keys. -/
theorem keysOf_answer (e : Qkdsim.SimError) :
    ∃ failure, Etsi014Client.keysOf (some e.answer) = .error failure := by
  obtain ⟨failure, h⟩ := request_answer e
  exact ⟨failure, by rw [Etsi014Client.keysOf, h]⟩

theorem ekmClientNew_newKey (key : Ekm.Key) (qkdName : String) :
    ekmClientNew (some ⟨200, .newKey key.keyId (b64e key.key) qkdName⟩) = some key := by
  simp only [ekmClientNew, b64d_b64e, Option.map_some]

theorem ekmClientNew_error (status : Nat) (detail : ErrorBody) :
    ekmClientNew (some ⟨status, .error detail⟩) = none := by
  unfold ekmClientNew
  split
  · rename_i heq
    cases heq
  · rfl

end QkdEkm.Qkd
