import HotstuffDag.Crypto

/-! # Keys as text

A public key is written as base64 in messages and in configuration files. -/

namespace HotstuffDag
open Library.Bytes

/-- `base64::DecodeError` -/
inductive DecodeError
  | invalidByte (offset : Nat) (byte : UInt8)
  | invalidLength
  | invalidLastSymbol (offset : Nat) (symbol : UInt8)
  deriving Repr, DecidableEq

/-- What the code calls in `base64`, taken to read exactly the texts that it writes. -/
class Base64 where
  encode : List UInt8 → String
  decode : String → Except DecodeError (List UInt8)
  decode_eq_ok : ∀ {text bytes}, decode text = .ok bytes ↔ text = encode bytes
  /-- `to_string` of an error. -/
  describe : DecodeError → String

/-- The array of 32 bytes. -/
def Array32.ofBytes (bytes : List UInt8) : Array32 := BitVec.ofNat 256 (leNat bytes.reverse)

/-- `try_into` of a slice; it fails unless the length is right. -/
def Array32.tryFrom (slice : List UInt8) : Option Array32 := if slice.length = 32 then some (.ofBytes slice) else none

namespace PublicKey
variable [Base64]

def toBase64 (key : PublicKey) : String := Base64.encode key.bytes

/-- `none` when the slice `bytes[..32]` panics. -/
def fromBase64 (s : String) : Option (Except DecodeError PublicKey) :=
  match Base64.decode s with
  | .error e => some (.error e)
  | .ok bytes =>
      if bytes.length < 32 then none
      else
        match Array32.tryFrom (bytes.take 32) with
        | none => some (.error .invalidLength)
        | some array => some (.ok ⟨array⟩)

def serialize (key : PublicKey) : String := key.toBase64

/-- What `String::deserialize` returns is read as a key; the error is a custom one with the text. -/
def deserialize (text : Except String String) : Option (Except String PublicKey) :=
  match text with
  | .error e => some (.error e)
  | .ok s => (fromBase64 s).map fun value => value.mapError Base64.describe

end PublicKey
end HotstuffDag
