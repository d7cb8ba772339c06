import HotstuffDag.Proof.Domains

/-! # What the digest of a block binds

The preimage of a block lists its payload and its references without their lengths, so a reference
may stand for two digests of the payload. -/

namespace HotstuffDag
open Library.Bytes

/-- A reference, read as two digests. -/
def asDigests (reference : PublicKey × Digest) : List Digest := [⟨reference.1.array⟩, reference.2]

namespace Block

def SameContent (a b : Block) : Prop :=
  a.author = b.author ∧ a.height = b.height ∧ a.epoch = b.epoch ∧ a.payload = b.payload ∧
    a.references = b.references ∧ a.parent = b.parent

/-- The payload of `a` ends in what are the first references of `b`; the rest is the same. -/
def Shifted (a b : Block) : Prop :=
  a.author = b.author ∧ a.height = b.height ∧ a.epoch = b.epoch ∧ a.parent = b.parent ∧
    ∃ moved ≠ [], a.payload = b.payload ++ moved.flatMap asDigests ∧ b.references = moved ++ a.references

end Block

theorem digestBytes_injective : Function.Injective Digest.bytes := fun _ _ same => Digest.bytes_inj.mp same

theorem asDigests_injective : Function.Injective asDigests := by
  rintro ⟨⟨key⟩, digest⟩ ⟨⟨key'⟩, digest'⟩ same
  simp only [asDigests, List.cons.injEq, Digest.mk.injEq, and_true] at same
  obtain ⟨rfl, rfl⟩ := same
  rfl

theorem asDigests_length (reference : PublicKey × Digest) : (asDigests reference).length = 2 := rfl

/-- References are written as the digests they can be read as. -/
theorem asDigests_bytes (references : List (PublicKey × Digest)) :
    (references.flatMap asDigests).flatMap Digest.bytes = references.flatMap fun x => x.1.bytes ++ x.2.bytes := by
  induction references with
  | nil => rfl
  | cons reference rest ih =>
      rw [List.flatMap_cons, List.flatMap_append, ih, List.flatMap_cons]
      simp [asDigests, Digest.bytes, PublicKey.bytes]

namespace Block
variable {a b : Block}

/-- Payload and references, read as one list of digests. -/
def digests (b : Block) : List Digest := b.payload ++ b.references.flatMap asDigests

theorem preimage_eq_iff : a.preimage = b.preimage ↔
    a.author = b.author ∧ a.height = b.height ∧ a.epoch = b.epoch ∧ a.digests = b.digests ∧ a.parent = b.parent := by
  have spelled (b : Block) : b.preimage =
      b.author.bytes ++ (b.height.leBytes ++ (b.epoch.leBytes ++ ((b.digests.flatMap Digest.bytes) ++ b.parent.bytes))) := by
    rw [digests, List.flatMap_append, asDigests_bytes]
    simp [preimage, parent, List.append_assoc]
  rw [spelled a, spelled b, append_eq_iff (by simp), append_eq_iff (by simp), append_eq_iff (by simp)]
  simp only [PublicKey.bytes_inj, SeqNumber.leBytes_inj]
  refine and_congr_right fun _ => and_congr_right fun _ => and_congr_right fun _ => ?_
  constructor
  · intro same
    obtain ⟨digests, parents⟩ := List.append_inj' same (by simp)
    exact ⟨flatMap_injective Digest.bytes_length (by decide) digestBytes_injective digests, Digest.bytes_inj.mp parents⟩
  · rintro ⟨digests, parents⟩
    rw [digests, parents]

theorem moved_of_digests {front : List Digest} (payload : a.payload = b.payload ++ front)
    (same : b.references.flatMap asDigests = front ++ a.references.flatMap asDigests) :
    ∃ moved, a.payload = b.payload ++ moved.flatMap asDigests ∧ b.references = moved ++ a.references := by
  obtain ⟨moved, rfl, references⟩ := flatMap_eq_append asDigests_length (by decide) asDigests_injective same
  exact ⟨moved, payload, references⟩

/-- The same digests may be split into payload and references in several ways. -/
theorem digests_eq (same : a.digests = b.digests) :
    (∃ moved, a.payload = b.payload ++ moved.flatMap asDigests ∧ b.references = moved ++ a.references) ∨
      ∃ moved, b.payload = a.payload ++ moved.flatMap asDigests ∧ a.references = moved ++ b.references := by
  rcases List.append_eq_append_iff.mp same with ⟨front, payload, references⟩ | ⟨front, payload, references⟩
  · exact .inr (moved_of_digests payload references)
  · exact .inl (moved_of_digests payload references)

theorem Shifted.digests (h : Shifted a b) : a.digests = b.digests := by
  obtain ⟨-, -, -, -, moved, -, payload, references⟩ := h
  rw [Block.digests, Block.digests, payload, references, List.flatMap_append, List.append_assoc]

theorem Shifted.not_sameContent (h : Shifted a b) : ¬ SameContent a b := by
  obtain ⟨-, -, -, -, moved, nonempty, payload, references⟩ := h
  rintro ⟨-, -, -, -, same, -⟩
  rw [references] at same
  exact nonempty (List.self_eq_append_left.mp same)

theorem Shifted.preimage (h : Shifted a b) : a.preimage = b.preimage :=
  preimage_eq_iff.mpr ⟨h.1, h.2.1, h.2.2.1, h.digests, h.2.2.2.1⟩

/-- The preimages of two blocks are the same for the same content, and for shifted content. -/
theorem content_of_preimage (same : a.preimage = b.preimage) (unshifted : ¬ (Shifted a b ∨ Shifted b a)) :
    SameContent a b := by
  obtain ⟨author, height, epoch, digests, parent⟩ := preimage_eq_iff.mp same
  rcases digests_eq digests with ⟨moved, payload, references⟩ | ⟨moved, payload, references⟩
  · have none : moved = [] := by
      by_contra nonempty
      exact unshifted (.inl ⟨author, height, epoch, parent, moved, nonempty, payload, references⟩)
    subst none
    exact ⟨author, height, epoch, by simpa using payload, by simpa using references.symm, parent⟩
  · have none : moved = [] := by
      by_contra nonempty
      exact unshifted (.inr ⟨author.symm, height.symm, epoch.symm, parent.symm, moved, nonempty, payload, references⟩)
    subst none
    exact ⟨author, height, epoch, by simpa using payload.symm, by simpa using references, parent⟩

theorem SameContent.symm (h : SameContent a b) : SameContent b a :=
  ⟨h.1.symm, h.2.1.symm, h.2.2.1.symm, h.2.2.2.1.symm, h.2.2.2.2.1.symm, h.2.2.2.2.2.symm⟩

section
variable [Crypto]

/-- A digest, and a signature on it, bind the content of a block unless digests are shifted between
payload and references. -/
theorem digest_binds_iff (a b : Block) (collisionFree : a.digest = b.digest → a.preimage = b.preimage)
    (binding : Crypto.verify (Crypto.sign a.author a.digest) b.digest b.author = true → a.digest = b.digest) :
    ((a.digest = b.digest → SameContent a b) ∧
      (Crypto.verify (Crypto.sign a.author a.digest) b.digest b.author = true → SameContent a b)) ↔
    ¬ (Shifted a b ∨ Shifted b a) := by
  constructor
  · rintro ⟨binds, -⟩ (shifted | shifted)
    · exact shifted.not_sameContent (binds (congrArg Crypto.sha512 shifted.preimage))
    · exact shifted.not_sameContent (binds (congrArg Crypto.sha512 shifted.preimage.symm)).symm
  · intro unshifted
    have binds : a.digest = b.digest → SameContent a b := fun same =>
      content_of_preimage (collisionFree same) unshifted
    exact ⟨binds, fun accepted => binds (binding accepted)⟩

end
end Block

namespace Sample

/-- The first block of an authority, with one reference. -/
def withReference : Block := Block.new QC.genesis (key 2) 1 0 [] [(key 3, (firstBlock 3).digest)]

/-- The same bytes as a block with a payload, under the same signature. -/
def withPayload : Block :=
  { withReference with payload := [⟨(key 3).array⟩, (firstBlock 3).digest], references := [] }

theorem one_signature_two_blocks :
    withPayload.digest = withReference.digest ∧ withPayload.signature = withReference.signature ∧
      withPayload.verify four = .ok () ∧ withReference.verify four = .ok () ∧ withPayload.payload ≠ withReference.payload ∧
      ¬ Block.SameContent withPayload withReference := by
  refine ⟨by decide +kernel, rfl, by decide +kernel, by decide +kernel, by decide, fun same => ?_⟩
  exact absurd same.2.2.2.1 (by decide)

theorem first_blocks_differ : ¬ (firstBlock 1).digest = (firstBlock 2).digest := by
  intro same
  refine absurd ((Block.digest_binds_iff (firstBlock 1) (firstBlock 2) (by decide +kernel) (by decide +kernel)).mpr ?_).1 ?_
  · rintro (⟨author, -⟩ | ⟨author, -⟩) <;> exact absurd author (by decide)
  · exact fun binds => absurd (binds same).1 (by decide)

end Sample
end HotstuffDag
