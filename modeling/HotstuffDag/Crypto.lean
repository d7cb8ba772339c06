import HotstuffDag.Library.Bytes

/-! # Keys, digests and signatures

The byte arrays of the `crypto` crate, and the algorithms it takes from other crates. -/

namespace HotstuffDag
open Library.Bytes

/-- A `[u8; 32]`, read as a big-endian number so that the order of arrays is the order of numbers. -/
abbrev Array32 := BitVec 256

def Array32.bytes (a : Array32) : List UInt8 := (leBytes 32 a.toNat).reverse

structure Digest where
  array : Array32
  deriving Repr, DecidableEq

structure PublicKey where
  array : Array32
  deriving Repr, DecidableEq

structure Signature where
  part1 : Array32
  part2 : Array32
  deriving Repr, DecidableEq

/-- `Digest::default()` -/
def Digest.zero : Digest := ⟨0⟩

/-- `PublicKey::default()` -/
def PublicKey.zero : PublicKey := ⟨0⟩

/-- `Signature::default()` -/
def Signature.zero : Signature := ⟨0, 0⟩

def Digest.bytes (d : Digest) : List UInt8 := d.array.bytes

def PublicKey.bytes (k : PublicKey) : List UInt8 := k.array.bytes

instance : LE PublicKey := ⟨fun a b => a.array ≤ b.array⟩

instance : DecidableRel (α := PublicKey) (· ≤ ·) := fun a b =>
  inferInstanceAs (Decidable (a.array ≤ b.array))

/-- A share of a threshold signature. -/
abbrev SignatureShare := Nat

/-- What the code calls in `sha2`, `ed25519_dalek` and `threshold_crypto`. -/
class Crypto where
  /-- The first 32 bytes of SHA-512. -/
  sha512 : List UInt8 → Digest
  /-- `Signature::new` with the secret key that belongs to the public key. -/
  sign : PublicKey → Digest → Signature
  /-- `Signature::verify` returns `Ok`. -/
  verify : Signature → Digest → PublicKey → Bool
  verify_sign : ∀ key digest, verify (sign key digest) digest key = true
  /-- `SecretKeyShare::sign` with the share of the given node. -/
  signShare : PublicKey → Digest → SignatureShare
  /-- `pk_set.public_key_share(id).verify(share, digest)` -/
  verifyShare : Nat → SignatureShare → Digest → Bool
  /-- The first eight bytes of `pk_set.combine_signatures(shares)`, as a big-endian number. -/
  combineSignatures : List (Nat × SignatureShare) → Option Nat

/-- `Signature::verify_batch`, taken to accept exactly when each signature verifies; the real one lets a batch with a wrong
signature pass with negligible probability. -/
def verifyBatch [Crypto] (digest : Digest) (votes : List (PublicKey × Signature)) : Bool :=
  votes.all fun (key, signature) => Crypto.verify signature digest key

theorem Array32.bytes_injective {a b : Array32} (h : a.bytes = b.bytes) : a = b := by
  have same := List.reverse_injective h
  exact BitVec.eq_of_toNat_eq (leBytes_injective (by simpa using a.isLt) (by simpa using b.isLt) same)

@[simp] theorem Array32.bytes_length (a : Array32) : a.bytes.length = 32 := by
  simp [Array32.bytes]

@[simp] theorem Digest.bytes_length (d : Digest) : d.bytes.length = 32 := Array32.bytes_length _

@[simp] theorem PublicKey.bytes_length (k : PublicKey) : k.bytes.length = 32 := Array32.bytes_length _

@[simp] theorem Digest.bytes_inj {a b : Digest} : a.bytes = b.bytes ↔ a = b := by
  refine ⟨fun h => ?_, fun h => h ▸ rfl⟩
  cases a; cases b
  exact congrArg _ (Array32.bytes_injective h)

@[simp] theorem PublicKey.bytes_inj {a b : PublicKey} : a.bytes = b.bytes ↔ a = b := by
  refine ⟨fun h => ?_, fun h => h ▸ rfl⟩
  cases a; cases b
  exact congrArg _ (Array32.bytes_injective h)

end HotstuffDag
