import Mathlib.Data.Finset.Basic
import QkdEkm.Common.Crypto
import QkdEkm.Lib.Table

/-!
# Store — the key store of the simulator

A key is minted with an identifier and material of its own and stays in
the store for good; a second set says which keys the peer has retrieved.
What `uuid4` and `randbytes` return is a sequence `Draws`, read at the
number of keys minted before.
-/

namespace QkdEkm.Qkdsim

open QkdEkm.Common QkdEkm.Lib

/-- `_KEY_BITS`. -/
def keyBits : Nat := 256

/-- `_KEY_BYTES`. -/
def keyBytes : Nat := keyBits / 8

/-- `_KEY_BYTES` of `randbytes`. -/
structure Material where
  bytes : Bytes
  length_eq : bytes.length = keyBytes
  deriving DecidableEq

structure Key where
  keyId : String
  key : Material
  pair : String × String
  deriving DecidableEq

/-- Keys are stored under their identifiers. -/
def Key.Clash (a b : Key) : Prop := a.keyId = b.keyId

instance : DecidableRel Key.Clash := fun a b => inferInstanceAs (Decidable (a.keyId = b.keyId))

/-- The identifier and the material of each key in the order of minting. -/
abbrev Draws := Nat → String × Material

structure KeyStore where
  sourceAvailable : Bool := true
  keys : Table Key Key.Clash := .empty
  consumedIds : Finset String := ∅
  issuedCount : Nat := 0
  consumedKeys : Nat := 0
  consumedBits : Nat := 0
  keyRequests : Nat := 0
  failedKeyRequests : Nat := 0
  deletedBits : Nat := 0

namespace KeyStore

variable (store : KeyStore)

def newKey (draws : Draws) (pair : String × String) : Key × KeyStore :=
  let (keyId, material) := draws store.issuedCount
  let key : Key := ⟨keyId, material, pair⟩
  (key,
    { store with
      keys := store.keys.replace key
      issuedCount := store.issuedCount + 1
      consumedKeys := store.consumedKeys + 1
      consumedBits := store.consumedBits + keyBits })

/-- `[store.new_key(pair) for _ in range(number)]`. -/
def newKeys (draws : Draws) (pair : String × String) : Nat → List Key × KeyStore
  | 0 => ([], store)
  | number + 1 =>
    let (keys, store) := newKeys draws pair number
    let (key, store) := store.newKey draws pair
    (keys ++ [key], store)

def getById (keyId : String) : Option Key := store.keys.rows.find? fun key => key.keyId == keyId

def isConsumed (keyId : String) : Bool := decide (keyId ∈ store.consumedIds)

/-- Marks a pending key as retrieved. -/
def consume (keyId : String) : Option Key × KeyStore :=
  match store.getById keyId with
  | none => (none, store)
  | some key =>
    if store.isConsumed keyId then (none, store)
    else
      (some key,
        { store with
          consumedIds := insert keyId store.consumedIds
          deletedBits := store.deletedBits + keyBits })

end KeyStore

/-! ## What the operations do -/

section

variable {store : KeyStore} {id id' : String} {key : Key}

theorem getById_eq_some :
    store.getById id = some key ↔ key ∈ store.keys.rows ∧ key.keyId = id := by
  unfold KeyStore.getById
  rw [Table.find?_eq_some]
  · simp
  · intro a b ha hb
    simp only [beq_iff_eq] at ha hb
    exact ha.trans hb.symm

theorem isConsumed_iff : store.isConsumed id = true ↔ id ∈ store.consumedIds := by
  simp [KeyStore.isConsumed]

/-- The store after a key was marked as retrieved. -/
def KeyStore.spend (store : KeyStore) (id : String) : KeyStore :=
  { store with
    consumedIds := insert id store.consumedIds
    deletedBits := store.deletedBits + keyBits }

theorem consume_pending (hget : store.getById id = some key) (hc : store.isConsumed id = false) :
    store.consume id = (some key, store.spend id) := by
  simp [KeyStore.consume, hget, hc, KeyStore.spend]

@[simp] theorem getById_spend : (store.spend id).getById id' = store.getById id' := rfl

@[simp] theorem isConsumed_spend :
    (store.spend id).isConsumed id' = (decide (id' = id) || store.isConsumed id') := by
  simp [KeyStore.isConsumed, KeyStore.spend]

end

end QkdEkm.Qkdsim
