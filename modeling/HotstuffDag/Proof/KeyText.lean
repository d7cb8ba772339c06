import HotstuffDag.KeyText
import HotstuffDag.Library.Base64

/-! # Reading a key from a text

A text of fewer than 32 bytes ends the reader with a panic, and what a longer text has after its first
32 bytes is dropped. -/

namespace HotstuffDag
open Library.Bytes

@[simp] theorem Array32.bytes_ofBytes {l : List UInt8} (h : l.length = 32) : (Array32.ofBytes l).bytes = l := by
  have bound : leNat l.reverse < 2 ^ 256 := by
    have lt := leNat_lt l.reverse
    rwa [List.length_reverse, h] at lt
  have le := leBytes_leNat l.reverse
  rw [List.length_reverse, h] at le
  unfold Array32.bytes Array32.ofBytes
  rw [BitVec.toNat_ofNat, Nat.mod_eq_of_lt bound, le, List.reverse_reverse]

theorem Array32.ofBytes_bytes (a : Array32) : Array32.ofBytes a.bytes = a :=
  Array32.bytes_injective (Array32.bytes_ofBytes a.bytes_length)

namespace PublicKey
variable [Base64]

theorem encode_injective : Function.Injective Base64.encode := by
  intro a b same
  have left : Base64.decode (Base64.encode a) = .ok a := Base64.decode_eq_ok.mpr rfl
  rw [same, Base64.decode_eq_ok.mpr rfl] at left
  exact (Except.ok.inj left).symm

/-! ## What is read -/

theorem fromBase64_error {s : String} {e : DecodeError} (h : Base64.decode s = .error e) :
    fromBase64 s = some (.error e) := by
  unfold fromBase64
  rw [h]

theorem fromBase64_short {bytes : List UInt8} (h : bytes.length < 32) : fromBase64 (Base64.encode bytes) = none := by
  unfold fromBase64
  rw [Base64.decode_eq_ok.mpr rfl]
  exact if_pos h

theorem fromBase64_encode {bytes : List UInt8} (h : 32 ≤ bytes.length) :
    fromBase64 (Base64.encode bytes) = some (.ok ⟨.ofBytes (bytes.take 32)⟩) := by
  have slice : (bytes.take 32).length = 32 := List.length_take_of_le h
  unfold fromBase64
  rw [Base64.decode_eq_ok.mpr rfl]
  dsimp only
  rw [if_neg (Nat.not_lt.mpr h), Array32.tryFrom, if_pos slice]

/-- A key that is written is read back. -/
theorem fromBase64_toBase64 (key : PublicKey) : fromBase64 key.toBase64 = some (.ok key) := by
  unfold toBase64
  rw [fromBase64_encode (Nat.le_of_eq key.bytes_length.symm), List.take_of_length_le (Nat.le_of_eq key.bytes_length)]
  show some (Except.ok (PublicKey.mk (.ofBytes key.array.bytes))) = _
  rw [Array32.ofBytes_bytes]

theorem deserialize_eq_ok {s : String} {key : PublicKey} :
    deserialize (.ok s) = some (.ok key) ↔ fromBase64 s = some (.ok key) := by
  unfold deserialize
  dsimp only
  cases fromBase64 s with
  | none => simp
  | some value => cases value <;> simp [Except.mapError]

/-! ## When a text has one reading -/

/-- The reader does not panic, and reads a key only in the text of that key. -/
structure Canonical (s : String) : Prop where
  returns : fromBase64 s ≠ none
  reads : ∀ key, fromBase64 s = some (.ok key) ↔ s = key.toBase64
  deserializes : ∀ key, deserialize (.ok s) = some (.ok key) ↔ s = key.serialize

theorem not_canonical_short {bytes : List UInt8} (h : bytes.length < 32) : ¬ Canonical (Base64.encode bytes) :=
  fun canonical => canonical.returns (fromBase64_short h)

theorem not_canonical_long {bytes : List UInt8} (h : 32 < bytes.length) : ¬ Canonical (Base64.encode bytes) := by
  intro canonical
  have same := (canonical.reads _).mp (fromBase64_encode (Nat.le_of_lt h))
  have lengths := congrArg List.length (encode_injective same)
  rw [bytes_length] at lengths
  omega

theorem canonical_key (key : PublicKey) : Canonical key.toBase64 := by
  have reads (key' : PublicKey) : fromBase64 key.toBase64 = some (.ok key') ↔ key.toBase64 = key'.toBase64 := by
    rw [fromBase64_toBase64]
    constructor
    · intro same
      rw [Except.ok.inj (Option.some.inj same)]
    · intro same
      rw [bytes_inj.mp (encode_injective same)]
  refine ⟨?_, reads, fun key' => ?_⟩
  · rw [fromBase64_toBase64]
    exact Option.some_ne_none _
  · rw [deserialize_eq_ok]
    exact reads key'

theorem canonical_error {s : String} {e : DecodeError} (h : Base64.decode s = .error e) : Canonical s := by
  have reads (key : PublicKey) : fromBase64 s = some (.ok key) ↔ s = key.toBase64 := by
    rw [fromBase64_error h]
    constructor
    · intro same
      cases same
    · intro same
      rw [Base64.decode_eq_ok.mpr same] at h
      cases h
  refine ⟨?_, reads, fun key => ?_⟩
  · rw [fromBase64_error h]
    exact Option.some_ne_none _
  · rw [deserialize_eq_ok]
    exact reads key

/-- A text has one reading when it is not base64, or is the base64 of 32 bytes. -/
theorem text_canonical_iff (s : String) :
    Canonical s ↔ ∀ bytes, Base64.decode s = .ok bytes → bytes.length = 32 := by
  constructor
  · intro canonical bytes decoded
    rw [Base64.decode_eq_ok] at decoded
    subst decoded
    rcases Nat.lt_trichotomy bytes.length 32 with short | exact | long
    · exact absurd canonical (not_canonical_short short)
    · exact exact
    · exact absurd canonical (not_canonical_long long)
  · intro exact
    cases decoded : Base64.decode s with
    | error e => exact canonical_error decoded
    | ok bytes =>
        have length := exact bytes decoded
        have key : s = toBase64 ⟨.ofBytes bytes⟩ := by
          show s = Base64.encode (Array32.ofBytes bytes).bytes
          rw [Array32.bytes_ofBytes length]
          exact Base64.decode_eq_ok.mp decoded
        rw [key]
        exact canonical_key _

end PublicKey
end HotstuffDag

namespace HotstuffDag.Sample

/-- Every text that is not read is answered with the same error. -/
instance base64 : Base64 where
  encode := Library.Base64.encode
  decode s := ((Library.Base64.decode s).map Except.ok).getD (.error .invalidLength)
  decode_eq_ok := by
    intro s bytes
    rw [← Library.Base64.decode_eq_some]
    cases Library.Base64.decode s <;> simp
  describe _ := "Encoded text cannot have a 6-bit remainder."

/-- Three bytes end the reader, and of 33 bytes the last one is not looked at. -/
theorem keys_misread :
    ¬ PublicKey.Canonical "AAAA" ∧ PublicKey.fromBase64 "AAAA" = none ∧
      ¬ PublicKey.Canonical "AAAAAAAAAAAAAAAAAAAAAAAAAAAAAAAAAAAAAAAAAAAB" ∧
      PublicKey.fromBase64 "AAAAAAAAAAAAAAAAAAAAAAAAAAAAAAAAAAAAAAAAAAAB" = some (.ok PublicKey.zero) := by
  have short : "AAAA" = Base64.encode [0, 0, 0] := by decide
  have long : "AAAAAAAAAAAAAAAAAAAAAAAAAAAAAAAAAAAAAAAAAAAB" = Base64.encode (List.replicate 32 0 ++ [1]) := by decide
  rw [short, long]
  refine ⟨PublicKey.not_canonical_short (by decide), PublicKey.fromBase64_short (by decide), ?_, ?_⟩
  · exact PublicKey.not_canonical_long (by decide)
  · rw [PublicKey.fromBase64_encode (by decide)]
    decide

end HotstuffDag.Sample
