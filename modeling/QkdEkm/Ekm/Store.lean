import QkdEkm.Common.Crypto
import QkdEkm.Common.Errors
import QkdEkm.Lib.Table

/-!
# Store — the binding store

Two tables. `bindings` refuses a second row with the same QKD key id or
the same purpose and object; `kek` holds one row for each object and
replaces it.
-/

namespace QkdEkm.Ekm

open QkdEkm.Common QkdEkm.Lib

inductive Purpose
  | ekm
  | vpn
  | file
  deriving DecidableEq, Repr

structure BindingRow where
  qkdKeyId : String
  purpose : Purpose
  objectId : String
  peer : String
  deriving DecidableEq, Repr

/-- `PRIMARY KEY` and `UNIQUE(purpose, object_id)`. -/
def BindingRow.Clash (a b : BindingRow) : Prop :=
  a.qkdKeyId = b.qkdKeyId ∨ (a.purpose = b.purpose ∧ a.objectId = b.objectId)

instance : DecidableRel BindingRow.Clash := fun a b => by
  unfold BindingRow.Clash
  infer_instance

structure KekRow where
  objectId : String
  qkdKeyId : String
  encMaterial : Bytes
  deriving DecidableEq, Repr

/-- `PRIMARY KEY`. -/
def KekRow.Clash (a b : KekRow) : Prop := a.objectId = b.objectId

instance : DecidableRel KekRow.Clash := fun a b => by
  unfold KekRow.Clash
  infer_instance

/-- The material under a row, if the row authenticates. -/
def KekRow.material (aead : Aead) (localKey : Bytes) (row : KekRow) : Option Bytes :=
  aesGcmUnwrap aead localKey row.encMaterial row.objectId.toUTF8.toList

/-- The durable state. -/
structure Store where
  bindings : Table BindingRow BindingRow.Clash
  kek : Table KekRow KekRow.Clash

namespace Store

def empty : Store := ⟨.empty, .empty⟩

def bind (s : Store) (qkdKeyId : String) (purpose : Purpose) (objectId peer : String) :
    Except Exn Store :=
  match s.bindings.insert? { qkdKeyId, purpose, objectId, peer } with
  | some bindings => .ok { s with bindings }
  | none => .error .alreadyBound

def lookupObject (s : Store) (purpose : Purpose) (objectId : String) : Option String :=
  (s.bindings.rows.find? fun r => r.purpose == purpose && r.objectId == objectId).map
    (·.qkdKeyId)

def isConsumed (s : Store) (qkdKeyId : String) : Bool :=
  s.bindings.rows.any fun r => r.qkdKeyId == qkdKeyId

def kekRow (s : Store) (objectId : String) : Option KekRow :=
  s.kek.rows.find? fun r => r.objectId == objectId

def count (s : Store) : Nat := s.bindings.rows.length

variable (aead : Aead) (localKey : Bytes)

/-- The row of `put_kek`, if the cipher takes the local key. -/
def encKek (nonce : Nonce) (objectId qkdKeyId : String) (material : Bytes) :
    Except Exn KekRow :=
  match aesGcmWrap aead nonce localKey material objectId.toUTF8.toList with
  | some encMaterial => .ok { objectId, qkdKeyId, encMaterial }
  | none => .error .valueError

def putKek (s : Store) (row : KekRow) : Store := { s with kek := s.kek.replace row }

def getKek (s : Store) (objectId : String) : Except Exn (Option Bytes) :=
  match s.kekRow objectId with
  | none => .ok none
  | some row =>
    match aesGcmUnwrap aead localKey row.encMaterial objectId.toUTF8.toList with
    | some material => .ok (some material)
    | none => .error .valueError

end Store

/-! ## What the operations do -/

section

variable {s s' : Store} {q o p : String} {u : Purpose}

theorem bind_ok (h : s.bind q u o p = .ok s') :
    s'.kek = s.kek ∧ s.bindings.clashes ⟨q, u, o, p⟩ = false ∧
      s'.bindings.rows = s.bindings.rows ++ [⟨q, u, o, p⟩] := by
  unfold Store.bind at h
  split at h
  · rename_i t ht
    cases h
    obtain ⟨hc, hr⟩ := Table.insert?_eq_some ht
    exact ⟨rfl, hc, hr⟩
  · cases h

theorem bind_error {e : Exn} (h : s.bind q u o p = .error e) :
    e = .alreadyBound ∧ ∃ r ∈ s.bindings.rows, BindingRow.Clash r ⟨q, u, o, p⟩ := by
  unfold Store.bind at h
  split at h
  · cases h
  · rename_i hn
    cases h
    exact ⟨rfl, Table.insert?_eq_none hn⟩

theorem isConsumed_iff : s.isConsumed q = true ↔ ∃ r ∈ s.bindings.rows, r.qkdKeyId = q := by
  simp [Store.isConsumed]

theorem kekRow_eq_some {row : KekRow} :
    s.kekRow o = some row ↔ row ∈ s.kek.rows ∧ row.objectId = o := by
  unfold Store.kekRow
  rw [Table.find?_eq_some]
  · simp
  · intro a b ha hb
    simp only [beq_iff_eq] at ha hb
    exact ha.trans hb.symm

theorem mem_putKek {row a : KekRow} :
    a ∈ (s.putKek row).kek.rows ↔ a = row ∨ (a ∈ s.kek.rows ∧ a.objectId ≠ row.objectId) :=
  Table.mem_replace

theorem kekRow_putKek_self {row : KekRow} : (s.putKek row).kekRow row.objectId = some row := by
  refine Table.find?_replace_self (fun a b ha hb => ?_) (by simp)
  simp only [beq_iff_eq] at ha hb
  exact ha.trans hb.symm

theorem kekRow_putKek_of_ne {row : KekRow} (h : row.objectId ≠ o) :
    (s.putKek row).kekRow o = s.kekRow o := by
  refine Table.find?_replace_of_ne (by simpa using h) (fun a ha hc => ?_)
  simp only [beq_iff_eq] at ha
  exact h (hc.symm.trans ha)

variable {aead : Aead} {localKey : Bytes}

theorem getKek_of_none (h : s.kekRow o = none) : s.getKek aead localKey o = .ok none := by
  simp [Store.getKek, h]

/-- The row of an object is read with the object it was written under. -/
theorem getKek_of_some {row : KekRow} (h : s.kekRow o = some row) :
    s.getKek aead localKey o =
      match row.material aead localKey with
      | some material => .ok (some material)
      | none => .error .valueError := by
  obtain ⟨_, rfl⟩ := kekRow_eq_some.mp h
  simp only [Store.getKek, h, KekRow.material]

/-- A row that was written is read back. -/
theorem encKek_ok {nonce : Nonce} {material : Bytes} {row : KekRow}
    (h : Store.encKek aead localKey nonce o q material = .ok row) :
    row.objectId = o ∧ row.qkdKeyId = q ∧ row.material aead localKey = some material := by
  unfold Store.encKek at h
  split at h
  · rename_i enc henc
    cases h
    exact ⟨rfl, rfl, aesGcmUnwrap_wrap aead henc⟩
  · cases h

end

end QkdEkm.Ekm
