import HotstuffDag.Proof.Domains
import HotstuffDag.Proof.Verification

/-! # Certificates from votes

A maker is chosen by the height of a vote alone, and cuts its certificate for the block of the last
vote it has counted. -/

namespace HotstuffDag
open Library

/-! ## What a verified certificate is made of -/

theorem Vote.verify_ok [Crypto] {v : Vote} {c : Committee} (h : v.verify c = .ok ()) :
    0 < c.stake v.author ∧ Crypto.verify v.signature v.digest v.author = true := by
  unfold Vote.verify at h
  by_cases positive : 0 < c.stake v.author
  · simp only [gt_iff_lt, positive, decide_true, ensure, if_true, bind, Except.bind] at h
    exact ⟨positive, ensure_ok.mp h⟩
  · simp [ensure, positive, bind, Except.bind] at h

theorem Vote.preimage_eq_iff {v w : Vote} : w.preimage = v.preimage ↔
    w.hash = v.hash ∧ w.epoch = v.epoch ∧ w.height = v.height ∧ w.proposer = v.proposer := by
  simp [Vote.preimage, Library.Bytes.append_eq_iff]

/-! ## The votes a maker counts -/

/-- Only the first vote of an author is counted. -/
def count (counted : List Vote) (vote : Vote) : List Vote :=
  if vote.author ∈ counted.map Vote.author then counted else counted ++ [vote]

/-- The votes that are counted at a height. -/
def countedAt (height : SeqNumber) (votes : List Vote) : List Vote :=
  (votes.filter fun v => v.height = height).foldl count []

/-- The aggregator after a sequence of votes. -/
def Aggregator.addVotes (committee : Committee) (votes : List Vote) : Aggregator :=
  votes.foldl (fun a v => (a.addVote v committee).2) Aggregator.new

theorem countedAt_snoc (height : SeqNumber) (votes : List Vote) (v : Vote) :
    countedAt height (votes ++ [v]) =
      if v.height = height then count (countedAt height votes) v else countedAt height votes := by
  unfold countedAt
  by_cases same : v.height = height <;> simp [same]

theorem mem_count {counted : List Vote} {v w : Vote} (h : w ∈ count counted v) : w ∈ counted ∨ w = v := by
  unfold count at h
  split at h
  · exact .inl h
  · exact (List.mem_append.mp h).imp_right List.mem_singleton.mp

theorem mem_countedAt {height : SeqNumber} {votes : List Vote} {w : Vote} (h : w ∈ countedAt height votes) :
    w ∈ votes ∧ w.height = height := by
  induction votes using List.reverseRecOn with
  | nil => simp [countedAt] at h
  | append_singleton votes v ih =>
      have keep (old : w ∈ countedAt height votes) : w ∈ votes ++ [v] ∧ w.height = height :=
        ⟨List.mem_append_left _ (ih old).1, (ih old).2⟩
      rw [countedAt_snoc] at h
      split at h
      · rename_i same
        rcases mem_count h with old | rfl
        · exact keep old
        · exact ⟨by simp, same⟩
      · exact keep h

/-- A maker holds the votes it has counted. -/
structure Holds (c : Committee) (maker : QCMaker) (counted : List Vote) : Prop where
  votes : maker.votes = counted.map fun w => (w.author, w.signature)
  used : maker.used = (counted.map Vote.author).reverse
  nodup : (counted.map Vote.author).Nodup
  weight : maker.weight ≤ ((counted.map Vote.author).map c.stake).sum

namespace Holds
variable {c : Committee} {maker : QCMaker} {counted : List Vote}

theorem new : Holds c Maker.new [] := ⟨rfl, rfl, List.nodup_nil, Nat.le_refl 0⟩

theorem reset (h : Holds c maker counted) : Holds c maker.reset counted :=
  ⟨h.votes, h.used, h.nodup, Nat.zero_le _⟩

theorem push (h : Holds c maker counted) {v : Vote} (fresh : v.author ∉ counted.map Vote.author) :
    Holds c (maker.push v.author (v.author, v.signature) (c.stake v.author)) (counted ++ [v]) where
  votes := by simp [Maker.push, h.votes]
  used := by simp [Maker.push, h.used]
  nodup := by
    rw [List.map_append, List.map_singleton]
    exact List.nodup_append.mpr ⟨h.nodup, List.nodup_singleton _, fun a mem b new same => by
      rw [List.mem_singleton.mp new] at same
      exact fresh (same ▸ mem)⟩
  weight := by
    have weight := h.weight
    simp only [Maker.push, List.map_append, List.sum_append, List.map_singleton, List.sum_singleton]
    omega

/-- A certificate is for the last vote and holds all that are counted. -/
theorem append (h : Holds c maker counted) (v : Vote) :
    Holds c (QCMaker.append maker v c).2 (count counted v) ∧
      ∀ qc, (QCMaker.append maker v c).1 = .ok (some qc) →
        qc = ⟨v.hash, v.epoch, v.height, v.proposer, (count counted v).map fun w => (w.author, w.signature)⟩ ∧
          c.quorumThreshold ≤ (((count counted v).map Vote.author).map c.stake).sum := by
  have heard : v.author ∈ maker.used ↔ v.author ∈ counted.map Vote.author := by
    rw [h.used, List.mem_reverse]
  unfold QCMaker.append count
  by_cases again : v.author ∈ counted.map Vote.author
  · rw [if_pos (heard.mpr again), if_pos again]
    exact ⟨h, fun qc same => by contradiction⟩
  · rw [if_neg (mt heard.mp again), if_neg again]
    have pushed := h.push again
    dsimp only
    split
    · rename_i heavy
      refine ⟨pushed.reset, fun qc same => ?_⟩
      obtain rfl := Option.some.inj (Except.ok.inj same)
      exact ⟨by rw [pushed.votes], heavy.trans pushed.weight⟩
    · exact ⟨pushed, fun qc same => by simp at same⟩

theorem addVotes (c : Committee) (votes : List Vote) (height : SeqNumber) :
    Holds c ((Aggregator.addVotes c votes).votesAggregators.getD height Maker.new) (countedAt height votes) := by
  induction votes using List.reverseRecOn with
  | nil => exact new
  | append_singleton votes v ih =>
      have stepped : Aggregator.addVotes c (votes ++ [v]) = ((Aggregator.addVotes c votes).addVote v c).2 := by
        simp [Aggregator.addVotes]
      rw [stepped, countedAt_snoc, Aggregator.addVote, Map.getD]
      dsimp only
      rw [Map.get?_insert]
      by_cases same : v.height = height
      · subst same
        rw [if_pos rfl, if_pos rfl]
        exact (ih.append v).1
      · rw [if_neg same, if_neg same]
        exact ih

end Holds

/-- A certificate that the aggregator returns passes verification exactly if all the votes counted at
its height are for the same block. -/
theorem assembled_verify_iff [Crypto] (c : Committee) (votes : List Vote) (v : Vote) (qc : QC)
    (verified : ∀ w ∈ votes ++ [v], w.verify c = .ok ())
    (returned : ((Aggregator.addVotes c votes).addVote v c).1 = .ok (some qc))
    (binding : ∀ w ∈ votes ++ [v], Crypto.verify w.signature v.digest w.author = true → w.digest = v.digest)
    (collisionFree : ∀ w ∈ votes ++ [v], w.digest = v.digest → w.preimage = v.preimage) :
    qc.verify c = .ok () ↔
      ∀ w ∈ countedAt v.height (votes ++ [v]), w.hash = v.hash ∧ w.epoch = v.epoch ∧ w.proposer = v.proposer := by
  have holds := Holds.addVotes c votes v.height
  have counted : countedAt v.height (votes ++ [v]) = count (countedAt v.height votes) v := by
    rw [countedAt_snoc, if_pos rfl]
  obtain ⟨rfl, heavy⟩ := (holds.append v).2 qc returned
  have nodup : ((countedAt v.height (votes ++ [v])).map Vote.author).Nodup := counted ▸ (holds.append v).1.nodup
  rw [← counted] at heavy ⊢
  have authors (l : List Vote) : (l.map fun w => (w.author, w.signature)).map Prod.fst = l.map Vote.author := by
    simp [Function.comp_def]
  have positive : ∀ name ∈ (countedAt v.height (votes ++ [v])).map Vote.author, 0 < c.stake name := by
    intro name mem
    obtain ⟨w, counts, rfl⟩ := List.mem_map.mp mem
    exact (Vote.verify_ok (verified w (mem_countedAt counts).1)).1
  rw [QC.verify_eq_ok_iff, and_iff_right ⟨by rwa [authors], by rwa [authors], by rwa [authors]⟩]
  have digest : (⟨v.hash, v.epoch, v.height, v.proposer,
      (countedAt v.height (votes ++ [v])).map fun w => (w.author, w.signature)⟩ : QC).digest = v.digest := rfl
  unfold verifyBatch
  rw [digest, List.all_map, List.all_eq_true]
  refine forall_congr' fun w => forall_congr' fun mem => ?_
  obtain ⟨member, height⟩ := mem_countedAt mem
  constructor
  · intro accepted
    obtain ⟨hash, epoch, -, proposer⟩ := Vote.preimage_eq_iff.mp (collisionFree w member (binding w member accepted))
    exact ⟨hash, epoch, proposer⟩
  · rintro ⟨hash, epoch, proposer⟩
    have same : w.digest = v.digest := congrArg Crypto.sha512 (Vote.preimage_eq_iff.mpr ⟨hash, epoch, height, proposer⟩)
    have own := (Vote.verify_ok (verified w member)).2
    rw [same] at own
    exact own

namespace Sample

/-- The block of the first author gets votes of the second and the fourth authority, and the third
votes for another block of its height. -/
def mixedVotes : List Vote := [Vote.new (firstBlock 1) (key 2), Vote.new (firstBlock 4) (key 3)]

def lastVote : Vote := Vote.new (firstBlock 1) (key 4)

theorem mixed_certificate :
    (∀ w ∈ mixedVotes ++ [lastVote], w.verify four = .ok ()) ∧
      ∃ qc, ((Aggregator.addVotes four mixedVotes).addVote lastVote four).1 = .ok (some qc) ∧
        qc.verify four ≠ .ok () := by
  refine ⟨by decide +kernel, ⟨(firstBlock 1).digest, 0, 1, key 1, ?_⟩, ?_, ?_⟩
  · exact (mixedVotes ++ [lastVote]).map fun w => (w.author, w.signature)
  · decide +kernel
  · decide +kernel

def sameVotes : List Vote := [Vote.new (firstBlock 1) (key 2), Vote.new (firstBlock 1) (key 3)]

theorem same_certificate : (certify (firstBlock 1) [2, 3, 4]).verify four = .ok () :=
  (assembled_verify_iff four sameVotes lastVote _ (by decide +kernel) (by decide +kernel) (by decide +kernel)
    (by decide +kernel)).mpr (by decide +kernel)

end Sample
end HotstuffDag
