import HotstuffDag.Proof.Collected

/-! # Thresholds that are stepped over

The makers of the agreement compare their weight with the threshold of the coin for equality, so the stake that
crosses it has to come to it exactly. -/

namespace HotstuffDag

/-- The stake of the distinct authors crosses the threshold of the coin with the last one, and is no quorum. -/
structure Crosses (c : Committee) (before : List PublicKey) (author : PublicKey) : Prop where
  nodup : (before ++ [author]).Nodup
  below : (before.map c.stake).sum < c.randomCoinThreshold
  reached : c.randomCoinThreshold ≤ ((before ++ [author]).map c.stake).sum
  light : ((before ++ [author]).map c.stake).sum < c.quorumThreshold

instance (c : Committee) (before : List PublicKey) (author : PublicKey) : Decidable (Crosses c before author) :=
  decidable_of_iff ((before ++ [author]).Nodup ∧ (before.map c.stake).sum < c.randomCoinThreshold ∧
      c.randomCoinThreshold ≤ ((before ++ [author]).map c.stake).sum ∧ ((before ++ [author]).map c.stake).sum < c.quorumThreshold)
    ⟨fun h => ⟨h.1, h.2.1, h.2.2.1, h.2.2.2⟩, fun h => ⟨h.nodup, h.below, h.reached, h.light⟩⟩

theorem Committee.randomCoinThreshold_le (c : Committee) : c.randomCoinThreshold ≤ c.quorumThreshold := by
  unfold randomCoinThreshold quorumThreshold
  omega

/-! ## The exact weight -/

/-- A maker that has counted distinct authors, with all of their stakes. -/
structure Weighs (c : Committee) {Entry : Type} (maker : Maker Entry) (authors : List PublicKey) : Prop where
  used : maker.used = authors.reverse
  weight : maker.weight = (authors.map c.stake).sum

namespace Weighs
variable {Entry : Type} {c : Committee} {maker : Maker Entry} {authors : List PublicKey} {author : PublicKey}

theorem new : Weighs c (Maker.new : Maker Entry) [] := ⟨rfl, rfl⟩

theorem push (h : Weighs c maker authors) (entry : Entry) : Weighs c (maker.push author entry (c.stake author)) (authors ++ [author]) := by
  constructor
  · show author :: maker.used = _
    rw [h.used, List.reverse_append]
    rfl
  · show maker.weight + c.stake author = _
    rw [h.weight, List.map_append, List.sum_append]
    simp

theorem fresh (h : Weighs c maker authors) (nodup : (authors ++ [author]).Nodup) : author ∉ maker.used := by
  rw [h.used, List.mem_reverse]
  intro mem
  exact (List.nodup_append.mp nodup).2.2 _ mem _ List.mem_cons_self rfl

end Weighs

theorem sum_le_snoc (stake : PublicKey → Nat) (before : List PublicKey) (author : PublicKey) :
    (before.map stake).sum ≤ ((before ++ [author]).map stake).sum := by
  rw [List.map_append, List.sum_append]
  apply Nat.le_add_right

section
variable {c : Committee}

namespace ABAProofMaker

def appends (c : Committee) (vals : List ABAVal) : ABAProofMaker := vals.foldl (fun maker v => (append maker v c).2) Maker.new

/-- The maker after one more author, short of a quorum. -/
theorem append_light {maker : ABAProofMaker} {authors : List PublicKey} {v : ABAVal} (h : Weighs c maker authors)
    (nodup : (authors ++ [v.author]).Nodup) (light : ((authors ++ [v.author]).map c.stake).sum < c.quorumThreshold) :
    append maker v c =
      (if ((authors ++ [v.author]).map c.stake).sum = c.randomCoinThreshold ∧ v.phase = VAL_PHASE then
        .ok (some ⟨v.epoch, v.round, v.val, v.phase, maker.votes ++ [(v.author, v.signature)], true⟩) else .ok none,
      maker.push v.author (v.author, v.signature) (c.stake v.author)) := by
  have pushed : Weighs c (maker.push v.author (v.author, v.signature) (c.stake v.author)) (authors ++ [v.author]) := h.push _
  have weight := pushed.weight
  unfold append
  rw [if_neg (h.fresh nodup)]
  dsimp only
  rw [weight, if_neg (Nat.not_le.mpr light)]
  split <;> rfl

theorem appends_weighs (vals : List ABAVal) (nodup : (vals.map ABAVal.author).Nodup)
    (light : ((vals.map ABAVal.author).map c.stake).sum < c.quorumThreshold) :
    Weighs c (appends c vals) (vals.map ABAVal.author) := by
  induction vals using List.reverseRecOn with
  | nil => exact Weighs.new
  | append_singleton vals v ih =>
      rw [List.map_append] at nodup light ⊢
      have before := ih (List.nodup_append.mp nodup).1 (Nat.lt_of_le_of_lt (sum_le_snoc _ _ _) light)
      unfold appends at before ⊢
      rw [List.foldl_append, List.foldl_cons, List.foldl_nil, append_light before nodup light]
      apply before.push

end ABAProofMaker
end

section
variable [Crypto] {c : Committee}

namespace ABARandomCoinMaker

def appends (c : Committee) (shares : List RandomnessShare) : ABARandomCoinMaker :=
  shares.foldl (fun maker share => (append maker share c).2) Maker.new

/-- The algorithms, with another `combine_signatures`. -/
@[reducible] def combining (combine : List (Nat × SignatureShare) → Option Nat) : Crypto :=
  { (inferInstance : Crypto) with combineSignatures := combine }

/-- The shares of the maker and the new one are combined: the answer is that of `combine_signatures`, whatever it computes. -/
def Combines (maker : ABARandomCoinMaker) (share : RandomnessShare) (c : Committee) : Prop :=
  ∀ combine, (@append (combining combine) maker share c).1 = .ok ((combine (sigs c (maker.votes ++ [share]))).map (· % 2))

theorem append_fresh {maker : ABARandomCoinMaker} {authors : List PublicKey} {share : RandomnessShare}
    (h : Weighs c maker authors) (nodup : (authors ++ [share.author]).Nodup) :
    append maker share c =
      (if ((authors ++ [share.author]).map c.stake).sum = c.randomCoinThreshold then
        .ok ((Crypto.combineSignatures (sigs c (maker.votes ++ [share]))).map (· % 2)) else .ok none,
      maker.push share.author share (c.stake share.author)) := by
  have pushed : Weighs c (maker.push share.author share (c.stake share.author)) (authors ++ [share.author]) := h.push _
  have weight := pushed.weight
  unfold append
  rw [if_neg (h.fresh nodup)]
  dsimp only
  rw [weight]
  split
  · have votes : (maker.push share.author share (c.stake share.author)).votes = maker.votes ++ [share] := rfl
    rw [votes]
    cases Crypto.combineSignatures (sigs c (maker.votes ++ [share])) <;> rfl
  · rfl

theorem appends_weighs (shares : List RandomnessShare) (nodup : (shares.map RandomnessShare.author).Nodup) :
    Weighs c (appends c shares) (shares.map RandomnessShare.author) := by
  induction shares using List.reverseRecOn with
  | nil => exact Weighs.new
  | append_singleton shares share ih =>
      rw [List.map_append] at nodup ⊢
      have before := ih (List.nodup_append.mp nodup).1
      unfold appends at before ⊢
      rw [List.foldl_append, List.foldl_cons, List.foldl_nil, append_fresh before nodup]
      apply before.push

theorem combines_iff {maker : ABARandomCoinMaker} {authors : List PublicKey} {share : RandomnessShare} (h : Weighs c maker authors)
    (nodup : (authors ++ [share.author]).Nodup) :
    Combines maker share c ↔ ((authors ++ [share.author]).map c.stake).sum = c.randomCoinThreshold := by
  have each (combine : List (Nat × SignatureShare) → Option Nat) := @append_fresh (combining combine) c maker authors share h nodup
  constructor
  · intro combines
    by_contra other
    have answer := combines fun _ => some 0
    rw [each, if_neg other] at answer
    simp at answer
  · intro exact combine
    rw [each, if_pos exact]
    rfl

end ABARandomCoinMaker

/-- At the threshold of the coin a proof is cut, and the shares are combined, exactly if the running stake comes to the
threshold itself. -/
theorem coin_threshold_iff (c : Committee) :
    (∀ (vals : List ABAVal) (v : ABAVal), Crosses c (vals.map ABAVal.author) v.author → v.phase = VAL_PHASE →
      ((∃ proof, (ABAProofMaker.append (ABAProofMaker.appends c vals) v c).1 = .ok (some proof) ∧ proof.tag = true) ↔
        ((vals.map ABAVal.author ++ [v.author]).map c.stake).sum = c.randomCoinThreshold)) ∧
    ∀ (shares : List RandomnessShare) (share : RandomnessShare), Crosses c (shares.map RandomnessShare.author) share.author →
      (ABARandomCoinMaker.Combines (ABARandomCoinMaker.appends c shares) share c ↔
        ((shares.map RandomnessShare.author ++ [share.author]).map c.stake).sum = c.randomCoinThreshold) := by
  constructor
  · intro vals v crosses phase
    have light : ((vals.map ABAVal.author).map c.stake).sum < c.quorumThreshold :=
      Nat.lt_of_lt_of_le crosses.below c.randomCoinThreshold_le
    have before := ABAProofMaker.appends_weighs vals (List.nodup_append.mp crosses.nodup).1 light
    rw [ABAProofMaker.append_light before crosses.nodup crosses.light]
    constructor
    · rintro ⟨proof, answer, -⟩
      by_contra other
      dsimp only at answer
      rw [if_neg fun both => other both.1] at answer
      simp at answer
    · intro exact
      dsimp only
      rw [if_pos ⟨exact, phase⟩]
      exact ⟨_, rfl, rfl⟩
  · intro shares share crosses
    have before := ABARandomCoinMaker.appends_weighs (c := c) shares (List.nodup_append.mp crosses.nodup).1
    exact ABARandomCoinMaker.combines_iff before crosses.nodup

end

namespace Sample

def valVotes : List ABAVal := [.new (key 1) 0 1 1 VAL_PHASE]

def secondVal : ABAVal := .new (key 2) 0 1 1 VAL_PHASE

def coinShare (n : Nat) : RandomnessShare := .new 0 1 (key n)

theorem unit_stakes_meet :
    (∃ proof, (ABAProofMaker.append (ABAProofMaker.appends four valVotes) secondVal four).1 = .ok (some proof) ∧ proof.tag = true) ∧
      ABARandomCoinMaker.Combines (ABARandomCoinMaker.appends four [coinShare 1]) (coinShare 2) four := by
  obtain ⟨proofs, shares⟩ := coin_threshold_iff four
  exact ⟨(proofs valVotes secondVal (by decide +kernel) (by decide +kernel)).mpr (by decide +kernel),
    (shares [coinShare 1] (coinShare 2) (by decide +kernel)).mpr (by decide +kernel)⟩

/-- Stakes 2, 2, 2 and 1: the threshold of the coin is 3, and that of a quorum 5. -/
def uneven : Committee :=
  ⟨[⟨key 1, 1, 2, "", ""⟩, ⟨key 2, 2, 2, "", ""⟩, ⟨key 3, 3, 2, "", ""⟩, ⟨key 4, 4, 1, "", ""⟩], by decide, by decide⟩

/-- The second author takes the stake from 2 to 4. -/
theorem threshold_stepped_over :
    Crosses uneven (valVotes.map ABAVal.author) secondVal.author ∧ secondVal.phase = VAL_PHASE ∧
      (ABAProofMaker.append (ABAProofMaker.appends uneven valVotes) secondVal uneven).1 = .ok none ∧
      ¬ ABARandomCoinMaker.Combines (ABARandomCoinMaker.appends uneven [coinShare 1]) (coinShare 2) uneven := by
  refine ⟨by decide +kernel, by decide, by decide +kernel, fun combines => ?_⟩
  have answer := combines crypto.combineSignatures
  revert answer
  decide +kernel

end Sample
end HotstuffDag
