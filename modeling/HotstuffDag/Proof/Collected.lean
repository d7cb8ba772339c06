import HotstuffDag.Proof.MadeOnce
import HotstuffDag.Proof.System
import HotstuffDag.Proof.Verification

/-! # Certificates of timeouts and of the agreement

A maker holds the first message of each author. A timeout is counted for an authority with voting rights only, a value
of the agreement for any author. -/

namespace HotstuffDag
open Library

/-! ## What a maker has counted -/

section
variable {K Entry Input Answer Certificate : Type} [DecidableEq K] {c : Committee} {author : Input → PublicKey} {entry : Input → Entry}
  {maker : Maker Entry} {held : List Input}

/-- Only the first input of an author is counted. -/
def tally (author : Input → PublicKey) (held : List Input) (input : Input) : List Input :=
  if author input ∈ held.map author then held else held ++ [input]

def counted (author : Input → PublicKey) (inputs : List Input) : List Input := inputs.foldl (tally author) []

theorem counted_snoc (inputs : List Input) (input : Input) :
    counted author (inputs ++ [input]) = tally author (counted author inputs) input := by
  simp [counted]

/-- Inputs are counted by their key. -/
theorem counted_key (key : Input → K) (inputs : List Input) (last : Input) (k : K) :
    counted author ((inputs ++ [last]).filter fun input => key input = k) =
      if key last = k then tally author (counted author (inputs.filter fun input => key input = k)) last
      else counted author (inputs.filter fun input => key input = k) := by
  by_cases same : key last = k <;> simp [same, counted_snoc]

theorem mem_tally {input other : Input} (mem : other ∈ tally author held input) : other ∈ held ∨ other = input := by
  unfold tally at mem
  split at mem
  · exact .inl mem
  · exact (List.mem_append.mp mem).imp_right List.mem_singleton.mp

theorem mem_of_counted {inputs : List Input} {input : Input} (mem : input ∈ counted author inputs) : input ∈ inputs := by
  induction inputs using List.reverseRecOn with
  | nil => exact mem
  | append_singleton inputs last ih =>
      rw [counted_snoc] at mem
      rcases mem_tally mem with old | rfl
      · exact List.mem_append_left _ (ih old)
      · exact List.mem_append_right _ List.mem_cons_self

/-- Every author is counted. -/
theorem author_counted {inputs : List Input} {input : Input} (mem : input ∈ inputs) :
    author input ∈ (counted author inputs).map author := by
  induction inputs using List.reverseRecOn with
  | nil => contradiction
  | append_singleton inputs last ih =>
      rw [counted_snoc, tally]
      rcases List.mem_append.mp mem with old | new
      · split
        · exact ih old
        · rw [List.map_append]
          exact List.mem_append_left _ (ih old)
      · obtain rfl := List.mem_singleton.mp new
        split
        · assumption
        · rw [List.map_append]
          exact List.mem_append_right _ List.mem_cons_self

theorem counted_of_nodup {inputs : List Input} (distinct : (inputs.map author).Nodup) : counted author inputs = inputs := by
  induction inputs using List.reverseRecOn with
  | nil => rfl
  | append_singleton inputs last ih =>
      rw [List.map_append, List.nodup_append] at distinct
      obtain ⟨before, -, apart⟩ := distinct
      rw [counted_snoc, ih before, tally, if_neg]
      intro old
      exact apart _ old _ List.mem_cons_self rfl

/-- A maker that has counted the inputs. -/
structure Counts (c : Committee) (author : Input → PublicKey) (entry : Input → Entry) (maker : Maker Entry) (held : List Input) : Prop where
  votes : maker.votes = held.map entry
  used : maker.used = (held.map author).reverse
  nodup : (held.map author).Nodup
  weight : maker.weight ≤ ((held.map author).map c.stake).sum

namespace Counts

theorem new : Counts c author entry Maker.new [] := ⟨rfl, rfl, List.nodup_nil, Nat.le_refl 0⟩

theorem reset (h : Counts c author entry maker held) : Counts c author entry maker.reset held :=
  ⟨h.votes, h.used, h.nodup, Nat.zero_le _⟩

theorem mem_used (h : Counts c author entry maker held) (name : PublicKey) : name ∈ maker.used ↔ name ∈ held.map author := by
  rw [h.used, List.mem_reverse]

theorem push (h : Counts c author entry maker held) {input : Input} (fresh : author input ∉ held.map author) :
    Counts c author entry (maker.push (author input) (entry input) (c.stake (author input))) (held ++ [input]) := by
  constructor
  · show maker.votes ++ [entry input] = _
    rw [h.votes, List.map_append]
    rfl
  · show author input :: maker.used = _
    rw [h.used, List.map_append, List.reverse_append]
    rfl
  · rw [List.map_append]
    apply List.nodup_append.mpr ⟨h.nodup, List.nodup_singleton _, ?_⟩
    intro a mem b new same
    rw [List.mem_singleton.mp new] at same
    exact fresh (same ▸ mem)
  · show maker.weight + c.stake (author input) ≤ _
    rw [List.map_append, List.map_append, List.sum_append]
    apply Nat.add_le_add h.weight
    simp

/-- A certificate of a maker of votes or of timeouts holds all that is counted. -/
theorem collect (h : Counts c author entry maker held) (input : Input) (reuse : ConsensusError) (certificate : List Entry → Certificate) :
    Counts c author entry (maker.collect c (author input) (entry input) reuse certificate).2 (tally author held input) ∧
      ∀ x, (maker.collect c (author input) (entry input) reuse certificate).1 = .ok (some x) →
        x = certificate ((tally author held input).map entry) ∧
          c.quorumThreshold ≤ (((tally author held input).map author).map c.stake).sum := by
  unfold Maker.collect tally
  by_cases again : author input ∈ held.map author
  · rw [if_pos ((h.mem_used _).mpr again), if_pos again]
    exact ⟨h, fun _ same => by contradiction⟩
  · rw [if_neg (mt (h.mem_used _).mp again), if_neg again]
    have pushed := h.push again
    dsimp only
    split
    · rename_i heavy
      refine ⟨pushed.reset, fun x same => ?_⟩
      rw [← Option.some.inj (Except.ok.inj same), pushed.votes]
      exact ⟨rfl, heavy.trans pushed.weight⟩
    · exact ⟨pushed, fun _ same => by simp at same⟩

end Counts

/-- Makers under keys, fed with an input. -/
def feed (append : Maker Entry → Input → Answer × Maker Entry) (key : Input → K) (makers : Map K (Maker Entry)) (input : Input) :
    Map K (Maker Entry) :=
  makers.insert (key input) (append (makers.getD (key input) Maker.new) input).2

/-- Each maker counts the inputs of its key. -/
theorem Counts.keyed {append : Maker Entry → Input → Answer × Maker Entry}
    (step : ∀ maker held input, Counts c author entry maker held → Counts c author entry (append maker input).2 (tally author held input))
    (key : Input → K) (inputs : List Input) (k : K) :
    Counts c author entry ((inputs.foldl (feed append key) Map.empty).getD k Maker.new)
      (counted author (inputs.filter fun input => key input = k)) := by
  induction inputs using List.reverseRecOn with
  | nil => exact Counts.new
  | append_singleton inputs last ih =>
      rw [List.foldl_append, counted_key]
      show Counts c author entry ((feed append key (inputs.foldl (feed append key) Map.empty) last).getD k Maker.new) _
      rw [feed, Map.getD_insert]
      by_cases same : key last = k
      · subst same
        rw [if_pos rfl, if_pos rfl]
        exact step _ _ _ ih
      · rw [if_neg same, if_neg same]
        exact ih

end

section
variable {c : Committee}

/-! ## Timeouts -/

/-- The aggregator after a sequence of timeouts. -/
def Aggregator.addTimeouts (c : Committee) (timeouts : List Timeout) : Aggregator :=
  timeouts.foldl (fun a t => (a.addTimeout t c).2) Aggregator.new

/-- The timeouts of an epoch that are accepted: the first of each author. -/
def acceptedIn (epoch : SeqNumber) (timeouts : List Timeout) : List Timeout :=
  counted Timeout.author (timeouts.filter fun t => t.epoch = epoch)

def Timeout.entry (t : Timeout) : PublicKey × Signature × SeqNumber := (t.author, t.signature, t.highQc.height)

theorem Timeout.verify_ok [Crypto] {t : Timeout} (h : t.verify c = .ok ()) :
    0 < c.stake t.author ∧ Crypto.verify t.signature t.digest t.author = true := by
  unfold Timeout.verify at h
  by_cases positive : 0 < c.stake t.author
  · by_cases signed : Crypto.verify t.signature t.digest t.author = true
    · exact ⟨positive, signed⟩
    · simp [ensure, positive, signed, bind, Except.bind] at h
  · simp [ensure, positive, bind, Except.bind] at h

/-- A certificate over timeouts of one epoch passes its check. -/
theorem TC.verify_of_timeouts [Crypto] {epoch : SeqNumber} {held : List Timeout} (nodup : (held.map Timeout.author).Nodup)
    (heavy : c.quorumThreshold ≤ ((held.map Timeout.author).map c.stake).sum)
    (each : ∀ u ∈ held, u.epoch = epoch ∧ u.verify c = .ok ()) : (⟨epoch, held.map Timeout.entry⟩ : TC).verify c = .ok () := by
  have authors : (held.map Timeout.entry).map Prod.fst = held.map Timeout.author := by
    rw [List.map_map]
    rfl
  rw [TC.verify_eq_ok_iff, authors]
  refine ⟨⟨nodup, ?_, heavy⟩, ?_⟩
  · intro name mem
    obtain ⟨u, counted, rfl⟩ := List.mem_map.mp mem
    exact (Timeout.verify_ok (each u counted).2).1
  · rw [List.all_map, List.all_eq_true]
    intro u counted
    obtain ⟨same, verified⟩ := each u counted
    have signed := (Timeout.verify_ok verified).2
    rw [Timeout.digest, Timeout.preimage, same] at signed
    exact signed

theorem Aggregator.addTimeouts_makers (c : Committee) (timeouts : List Timeout) :
    (addTimeouts c timeouts).timeoutsAggregators =
      timeouts.foldl (feed (fun maker t => TCMaker.append maker t c) Timeout.epoch) Map.empty :=
  (List.foldl_hom Aggregator.timeoutsAggregators fun _ _ => rfl).symm

/-- A timeout certificate that the aggregator returns is accepted, and states the heights of the accepted timeouts. -/
theorem assembled_tc_verifies [Crypto] (c : Committee) (timeouts : List Timeout) (t : Timeout) (tc : TC)
    (verified : ∀ u ∈ timeouts ++ [t], u.verify c = .ok ())
    (returned : ((Aggregator.addTimeouts c timeouts).addTimeout t c).1 = .ok (some tc)) :
    tc.verify c = .ok () ∧ tc.highQcRounds = (acceptedIn t.epoch (timeouts ++ [t])).map fun u => u.highQc.height := by
  have accepted : acceptedIn t.epoch (timeouts ++ [t]) = tally Timeout.author (acceptedIn t.epoch timeouts) t := by
    unfold acceptedIn
    rw [counted_key, if_pos rfl]
  have step (maker : TCMaker) (held : List Timeout) (u : Timeout) (h : Counts c Timeout.author Timeout.entry maker held) :
      Counts c Timeout.author Timeout.entry (TCMaker.append maker u c).2 (tally Timeout.author held u) := (h.collect u _ _).1
  have before := Counts.keyed step Timeout.epoch timeouts t.epoch
  rw [← Aggregator.addTimeouts_makers] at before
  obtain ⟨after, made⟩ := before.collect t (.authorityReuseinTC t.author) fun votes => (⟨t.epoch, votes⟩ : TC)
  obtain ⟨rfl, heavy⟩ := made tc returned
  have nodup := after.nodup
  unfold acceptedIn at accepted ⊢
  rw [← accepted] at nodup heavy ⊢
  constructor
  · apply TC.verify_of_timeouts nodup heavy
    intro u mem
    obtain ⟨given, epoch⟩ := List.mem_filter.mp (mem_of_counted mem)
    exact ⟨of_decide_eq_true epoch, verified u given⟩
  · show (List.map Timeout.entry _).map _ = _
    rw [List.map_map]
    rfl

/-! ## Values of the agreement -/

namespace ABAVal

/-- The key of the maker of a value. -/
def key (v : ABAVal) : SeqNumber × SeqNumber × UInt8 × UInt64 := (v.epoch, v.round, v.phase, v.val)

def entry (v : ABAVal) : PublicKey × Signature := (v.author, v.signature)

theorem digest_of_key [Crypto] {v w : ABAVal} (same : w.key = v.key) : w.digest = v.digest := by
  obtain ⟨epoch, round, phase, val⟩ : w.epoch = v.epoch ∧ w.round = v.round ∧ w.phase = v.phase ∧ w.val = v.val := by
    simpa [key] using same
  rw [digest, digest, preimage, preimage, epoch, round, phase, val]

end ABAVal

/-- The aggregator after a sequence of values. -/
def Aggregator.addAbaVals (c : Committee) (vals : List ABAVal) : Aggregator :=
  vals.foldl (fun a v => (a.addAbaVal v c).2) Aggregator.new

theorem Aggregator.addAbaVals_makers (c : Committee) (vals : List ABAVal) :
    (addAbaVals c vals).abaValsAggregators =
      vals.foldl (feed (fun maker v => ABAProofMaker.append maker v c) ABAVal.key) Map.empty :=
  (List.foldl_hom Aggregator.abaValsAggregators fun _ _ => rfl).symm

/-- A proof holds all that is counted. -/
theorem Counts.appendVal {maker : ABAProofMaker} {held : List ABAVal} (h : Counts c ABAVal.author ABAVal.entry maker held) (v : ABAVal) :
    Counts c ABAVal.author ABAVal.entry (ABAProofMaker.append maker v c).2 (tally ABAVal.author held v) ∧
      ∀ proof, (ABAProofMaker.append maker v c).1 = .ok (some proof) → proof.tag = false →
        proof = ⟨v.epoch, v.round, v.val, v.phase, (tally ABAVal.author held v).map ABAVal.entry, false⟩ ∧
          c.quorumThreshold ≤ (((tally ABAVal.author held v).map ABAVal.author).map c.stake).sum := by
  unfold ABAProofMaker.append tally
  by_cases again : v.author ∈ held.map ABAVal.author
  · rw [if_pos ((h.mem_used _).mpr again), if_pos again]
    exact ⟨h, fun _ same => by contradiction⟩
  · rw [if_neg (mt (h.mem_used _).mp again), if_neg again]
    have pushed := h.push again
    dsimp only
    split
    · rename_i heavy
      refine ⟨pushed.reset, fun proof same strong => ?_⟩
      rw [← Option.some.inj (Except.ok.inj same), ← pushed.votes]
      exact ⟨rfl, heavy.trans pushed.weight⟩
    · split
      · refine ⟨pushed, fun proof same strong => ?_⟩
        rw [← Option.some.inj (Except.ok.inj same)] at strong
        contradiction
      · exact ⟨pushed, fun _ same => by simp at same⟩

/-- A proof of a quorum is accepted by a peer exactly if all the values that its maker has been given are of authorities
with voting rights. -/
theorem assembled_proof_verify_iff [Crypto] (c peer : Committee) (same : peer.authorities.Perm c.authorities)
    (vals : List ABAVal) (v : ABAVal)
    (proof : ABAProof) (verified : ∀ w ∈ vals ++ [v], w.verify = .ok ())
    (returned : ((Aggregator.addAbaVals c vals).addAbaVal v c).1 = .ok (some proof)) (strong : proof.tag = false) :
    proof.verify peer = .ok () ↔ ∀ w ∈ vals ++ [v], w.key = v.key → 0 < c.stake w.author := by
  have step (maker : ABAProofMaker) (held : List ABAVal) (w : ABAVal) (h : Counts c ABAVal.author ABAVal.entry maker held) :
      Counts c ABAVal.author ABAVal.entry (ABAProofMaker.append maker w c).2 (tally ABAVal.author held w) := (h.appendVal w).1
  have before := Counts.keyed step ABAVal.key vals v.key
  rw [← Aggregator.addAbaVals_makers] at before
  obtain ⟨after, made⟩ := before.appendVal v
  obtain ⟨rfl, heavy⟩ := made proof returned strong
  have nodup := after.nodup
  have counts : counted ABAVal.author ((vals ++ [v]).filter fun w => w.key = v.key) =
      tally ABAVal.author (counted ABAVal.author (vals.filter fun w => w.key = v.key)) v := by
    rw [counted_key, if_pos rfl]
  rw [← counts] at nodup heavy ⊢
  have authors (l : List ABAVal) : (l.map ABAVal.entry).map Prod.fst = l.map ABAVal.author := by
    rw [List.map_map]
    rfl
  have stakes : peer.stake = c.stake := Committee.stake_perm same
  rw [ABAProof.verify_eq_ok_iff, authors]
  constructor
  · rintro ⟨⟨-, positive, -⟩, -⟩ w given key
    rw [← stakes]
    apply positive
    apply author_counted
    exact List.mem_filter.mpr ⟨given, decide_eq_true key⟩
  · intro positive
    refine ⟨⟨nodup, ?_, ?_⟩, ?_⟩
    · intro name mem
      obtain ⟨w, held, rfl⟩ := List.mem_map.mp mem
      obtain ⟨given, key⟩ := List.mem_filter.mp (mem_of_counted held)
      rw [stakes]
      exact positive w given (of_decide_eq_true key)
    · rw [stakes, Committee.quorumThreshold_perm same]
      exact heavy
    · rw [verifyBatch, List.all_map, List.all_eq_true]
      intro w held
      obtain ⟨given, key⟩ := List.mem_filter.mp (mem_of_counted held)
      have signed := ensure_ok.mp (verified w given)
      rw [ABAVal.digest_of_key (of_decide_eq_true key)] at signed
      exact signed

end

namespace Sample

/-- Three authorities time out with certificates of different heights. -/
def twoTimeouts : List Timeout :=
  [Timeout.new QC.genesis 0 (key 1), Timeout.new (certify (above (firstBlock 1)) [1, 2, 3]) 0 (key 2)]

def thirdTimeout : Timeout := Timeout.new (certify (firstBlock 1) [1, 2, 3]) 0 (key 3)

theorem timeouts_assembled : ∃ tc, ((Aggregator.addTimeouts four twoTimeouts).addTimeout thirdTimeout four).1 = .ok (some tc) ∧
    (tc.verify four = .ok () ∧ tc.highQcRounds = (acceptedIn 0 (twoTimeouts ++ [thirdTimeout])).map fun u => u.highQc.height) ∧
    tc.highQcRounds = [0, 2, 1] := by
  have returned : ((Aggregator.addTimeouts four twoTimeouts).addTimeout thirdTimeout four).1 =
      .ok (some ⟨0, (twoTimeouts ++ [thirdTimeout]).map Timeout.entry⟩) := by
    decide +kernel
  exact ⟨_, returned, assembled_tc_verifies four twoTimeouts thirdTimeout _ (by decide +kernel) returned, by decide +kernel⟩

/-- AUX messages of the first round for the value 2. -/
def auxVals (senders : List Nat) : List ABAVal := senders.map fun n => .new (key n) 0 1 2 AUX_PHASE

def lastAux : ABAVal := .new (key 3) 0 1 2 AUX_PHASE

theorem three_authorities_verify : ∃ proof, ((Aggregator.addAbaVals four (auxVals [1, 2])).addAbaVal lastAux four).1 = .ok (some proof) ∧
    proof.verify four = .ok () := by
  have returned : ((Aggregator.addAbaVals four (auxVals [1, 2])).addAbaVal lastAux four).1 =
      .ok (some ⟨0, 1, 2, AUX_PHASE, (auxVals [1, 2] ++ [lastAux]).map ABAVal.entry, false⟩) := by
    decide +kernel
  refine ⟨_, returned, ?_⟩
  exact (assembled_proof_verify_iff four four (.refl _) (auxVals [1, 2]) lastAux _ (by decide +kernel) returned rfl).mpr (by decide +kernel)

/-- The ninth key is none of the committee, and its message is counted first. -/
theorem stranger_in_proof : (∀ w ∈ auxVals [9, 1, 2] ++ [lastAux], w.verify = .ok ()) ∧
    ∃ proof, ((Aggregator.addAbaVals four (auxVals [9, 1, 2])).addAbaVal lastAux four).1 = .ok (some proof) ∧ proof.tag = false ∧
      proof.verify four = .error (.unknownAuthority (key 9)) := by
  refine ⟨by decide +kernel, ⟨0, 1, 2, AUX_PHASE, (auxVals [9, 1, 2] ++ [lastAux]).map ABAVal.entry, false⟩, ?_⟩
  decide +kernel

end Sample
end HotstuffDag
