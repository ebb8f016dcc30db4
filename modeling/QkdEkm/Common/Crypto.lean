import QkdEkm.Lib.Base64

/-!
# Crypto — the AES-GCM envelope and base64

AES-GCM itself is a parameter: `Aead` is what the code relies on.
-/

namespace QkdEkm.Common

open QkdEkm.Lib

abbrev Bytes := List UInt8

/-- An authenticated cipher. A result of `none` is an exception: a key
of a length the cipher does not take, or a ciphertext that does not
authenticate. -/
structure Aead where
  encrypt : (key nonce plaintext aad : Bytes) → Option Bytes
  decrypt : (key nonce ciphertext aad : Bytes) → Option Bytes
  decrypt_encrypt : ∀ key nonce plaintext aad ciphertext,
    encrypt key nonce plaintext aad = some ciphertext →
      decrypt key nonce ciphertext aad = some plaintext

/-- Sixteen zero bytes. -/
def zeroTag : Bytes := List.replicate 16 0

/-- The cipher that appends an empty tag: the shape of AES-GCM without
its secrecy, for evaluating a run. -/
def Aead.tagging : Aead where
  encrypt := fun key _ plaintext _ =>
    if key.length ∈ [16, 24, 32] then some (plaintext ++ zeroTag) else none
  decrypt := fun key _ ciphertext _ =>
    if key.length ∈ [16, 24, 32] ∧ ciphertext.drop (ciphertext.length - 16) = zeroTag then
      some (ciphertext.take (ciphertext.length - 16))
    else none
  decrypt_encrypt := by
    intro key nonce plaintext aad ciphertext h
    split at h
    · rename_i hk
      cases h
      simp [hk, zeroTag]
    · cases h

/-- `_NONCE_LEN` bytes of `os.urandom`. -/
structure Nonce where
  bytes : Bytes
  length_eq : bytes.length = 12

def Nonce.zero : Nonce := ⟨List.replicate 12 0, by decide⟩

variable (aead : Aead)

def aesGcmWrap (nonce : Nonce) (kek plaintext aad : Bytes) : Option Bytes :=
  (aead.encrypt kek nonce.bytes plaintext aad).map (nonce.bytes ++ ·)

def aesGcmUnwrap (kek blob aad : Bytes) : Option Bytes :=
  aead.decrypt kek (blob.take 12) (blob.drop 12) aad

/-- **Unwrapping inverts wrapping.** -/
theorem aesGcmUnwrap_wrap {nonce : Nonce} {kek plaintext aad blob : Bytes}
    (h : aesGcmWrap aead nonce kek plaintext aad = some blob) :
    aesGcmUnwrap aead kek blob aad = some plaintext := by
  obtain ⟨ct, hct, rfl⟩ := Option.map_eq_some_iff.mp h
  rw [aesGcmUnwrap, List.take_left' nonce.length_eq, List.drop_left' nonce.length_eq]
  exact aead.decrypt_encrypt _ _ _ _ _ hct

def b64e (data : Bytes) : String := Base64.encode data

def b64d (data : String) : Option Bytes := Base64.decode data

theorem b64d_b64e (data : Bytes) : b64d (b64e data) = some data :=
  Base64.decode_encode data

end QkdEkm.Common
