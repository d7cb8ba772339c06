import HotstuffDag.Library.Quorum
import HotstuffDag.Sample

/-! # Certificates and quorums

The heights that a node adds to are certified by quorums. Where the checks of the sums are switched off the sums wrap, so what
depends on heights is proved of runs in which none gets to the end of the numbers. -/

namespace HotstuffDag
open Library Library.Quorum

namespace Committee
variable {c : Committee}

/-- The authorities as a set. -/
def members (c : Committee) : Finset PublicKey := c.keys.toFinset

/-- The number of faults the thresholds are made for. -/
def faults (c : Committee) : Nat := (c.totalVotes - 1) / 3

theorem mem_keys_of_stake_pos {name : PublicKey} (h : 0 < c.stake name) : name ∈ c.keys := by
  unfold stake get? at h
  cases found : c.authorities.find? fun x => x.name = name with
  | none => simp [found] at h
  | some x =>
      have named : x.name = name := by simpa using List.find?_some found
      exact List.mem_map.mpr ⟨x, List.mem_of_find?_eq_some found, named⟩

theorem find?_name {l : List Authority} (nodup : (l.map Authority.name).Nodup) {x : Authority}
    (h : x ∈ l) : l.find? (fun y => y.name = x.name) = some x := by
  induction l with
  | nil => simp at h
  | cons y rest ih =>
      simp only [List.map_cons, List.nodup_cons] at nodup
      rcases List.mem_cons.mp h with rfl | later
      · simp
      · have other : y.name ≠ x.name := fun same =>
          nodup.1 (same ▸ List.mem_map.mpr ⟨x, later, rfl⟩)
        simpa [List.find?_cons, other] using ih nodup.2 later

theorem stake_name {x : Authority} (h : x ∈ c.authorities) : c.stake x.name = x.stake := by
  simp [stake, get?, find?_name c.nodup h]

theorem weight_members (c : Committee) : weight c.stake c.members = c.totalVotes := by
  have each : c.authorities.map (c.stake ∘ Authority.name) = c.authorities.map Authority.stake :=
    List.map_congr_left fun x hx => stake_name hx
  calc weight c.stake c.members
      = (c.keys.map c.stake).sum := List.sum_toFinset c.stake c.nodup
    _ = c.totalVotes := by rw [keys, List.map_map, each, totalVotes]

/-- Strangers weigh nothing. -/
theorem weight_inter_members (c : Committee) (s : Finset PublicKey) :
    weight c.stake (s ∩ c.members) = weight c.stake s := by
  refine Finset.sum_subset Finset.inter_subset_left fun a mem stranger => ?_
  by_contra positive
  refine stranger (Finset.mem_inter.mpr ⟨mem, List.mem_toFinset.mpr ?_⟩)
  exact mem_keys_of_stake_pos (Nat.pos_of_ne_zero positive)

theorem sum_stake_le {names : List PublicKey} (nodup : names.Nodup) : (names.map c.stake).sum ≤ c.totalVotes := by
  have inside : names.toFinset ∩ c.members ⊆ c.members := Finset.inter_subset_right
  have light := weight_mono (w := c.stake) inside
  rw [weight_inter_members, weight_members] at light
  rw [← List.sum_toFinset c.stake nodup]
  exact light

end Committee

/-- What `checkVoters` accepts: distinct authorities with stake, whose stakes it adds up. -/
theorem checkVoters_ok {c : Committee} {reuse : PublicKey → ConsensusError} {names used : List PublicKey}
    {weight total : Nat} (h : checkVoters c reuse names used weight = .ok total) :
    names.Nodup ∧ (∀ name ∈ names, name ∉ used ∧ 0 < c.stake name) ∧
      total = weight + (names.map c.stake).sum := by
  induction names generalizing used weight with
  | nil => simp_all [checkVoters]
  | cons name rest ih =>
      simp only [checkVoters] at h
      split at h
      · contradiction
      · rename_i fresh
        split at h
        · rename_i positive
          obtain ⟨nodup, each, sum⟩ := ih h
          refine ⟨?_, ?_, ?_⟩
          · exact List.nodup_cons.mpr ⟨fun again => (each name again).1 (by simp), nodup⟩
          · intro other hOther
            rcases List.mem_cons.mp hOther with rfl | later
            · exact ⟨fresh, positive⟩
            · exact ⟨fun old => (each other later).1 (List.mem_cons_of_mem _ old), (each other later).2⟩
          · simp only [sum, List.map_cons, List.sum_cons]
            omega
        · contradiction

theorem ensure_ok {condition : Bool} {e : ConsensusError} :
    ensure condition e = .ok () ↔ condition = true := by
  cases condition <;> simp [ensure]

/-- The three checks run `checkVoters`, compare with the threshold and verify the signatures. -/
theorem quorum_of_checkVoters {c : Committee} {reuse : PublicKey → ConsensusError} {names : List PublicKey}
    {weak bad : ConsensusError} {valid : Bool}
    (h : (do
      let weight ← checkVoters c reuse names [] 0
      ensure (weight ≥ c.quorumThreshold) weak
      ensure valid bad) = .ok ()) :
    names.Nodup ∧ names.toFinset ⊆ c.members ∧
      c.quorumThreshold ≤ Library.Quorum.weight c.stake names.toFinset ∧ valid = true := by
  cases checked : checkVoters c reuse names [] 0 with
  | error e => simp [checked, bind, Except.bind] at h
  | ok total =>
      obtain ⟨nodup, each, sum⟩ := checkVoters_ok checked
      simp only [checked, bind, Except.bind] at h
      have heavy : total ≥ c.quorumThreshold := by
        by_contra light
        simp [ensure, light] at h
      simp only [ensure, heavy, decide_true, if_true] at h
      refine ⟨nodup, ?_, ?_, ?_⟩
      · intro name hName
        exact List.mem_toFinset.mpr
          (Committee.mem_keys_of_stake_pos (each name (List.mem_toFinset.mp hName)).2)
      · have added : Library.Quorum.weight c.stake names.toFinset = (names.map c.stake).sum :=
          List.sum_toFinset c.stake nodup
        omega
      · by_contra invalid
        simp [invalid] at h

section
variable [Crypto]

/-- The sets of authorities that one of the certificate checks accepts. -/
inductive Accepted (c : Committee) : Finset PublicKey → Prop
  | qc (qc : QC) (h : qc.verify c = .ok ()) : Accepted c (qc.votes.map Prod.fst).toFinset
  | tc (tc : TC) (h : tc.verify c = .ok ()) : Accepted c (tc.votes.map Prod.fst).toFinset
  | abaProof (proof : ABAProof) (h : proof.verify c = .ok ()) :
      Accepted c (proof.votes.map Prod.fst).toFinset

theorem QC.verify_ok {qc : QC} {c : Committee} (h : qc.verify c = .ok ()) :
    (qc.votes.map Prod.fst).Nodup ∧ (qc.votes.map Prod.fst).toFinset ⊆ c.members ∧
      c.quorumThreshold ≤ weight c.stake (qc.votes.map Prod.fst).toFinset ∧
      verifyBatch qc.digest qc.votes = true :=
  quorum_of_checkVoters h

theorem TC.verify_ok {tc : TC} {c : Committee} (h : tc.verify c = .ok ()) :
    (tc.votes.map Prod.fst).Nodup ∧ (tc.votes.map Prod.fst).toFinset ⊆ c.members ∧
      c.quorumThreshold ≤ weight c.stake (tc.votes.map Prod.fst).toFinset ∧
      (tc.votes.all fun (author, signature, height) =>
        Crypto.verify signature (tc.entryDigest height) author) = true :=
  quorum_of_checkVoters h

theorem ABAProof.verify_ok {proof : ABAProof} {c : Committee} (h : proof.verify c = .ok ()) :
    (proof.votes.map Prod.fst).Nodup ∧ (proof.votes.map Prod.fst).toFinset ⊆ c.members ∧
      c.quorumThreshold ≤ weight c.stake (proof.votes.map Prod.fst).toFinset ∧
      verifyBatch proof.digest proof.votes = true :=
  quorum_of_checkVoters h

theorem Accepted.quorum {c : Committee} {s : Finset PublicKey} (h : Accepted c s) :
    s ⊆ c.members ∧ c.quorumThreshold ≤ weight c.stake s := by
  cases h with
  | qc qc h => exact ⟨(QC.verify_ok h).2.1, (QC.verify_ok h).2.2.1⟩
  | tc tc h => exact ⟨(TC.verify_ok h).2.1, (TC.verify_ok h).2.2.1⟩
  | abaProof proof h => exact ⟨(ABAProof.verify_ok h).2.1, (ABAProof.verify_ok h).2.2.1⟩

/-- Two accepted sets share at least the excess of two thresholds over the total. -/
theorem Accepted.inter_weight {c : Committee} {s t : Finset PublicKey} (hs : Accepted c s)
    (ht : Accepted c t) : 2 * c.quorumThreshold ≤ c.totalVotes + weight c.stake (s ∩ t) := by
  have shared := weight_add_le_inter (w := c.stake) hs.quorum.1 ht.quorum.1
  rw [Committee.weight_members] at shared
  have := hs.quorum.2
  have := ht.quorum.2
  omega

/-- The threshold is `N - f`, and accepted sets meet in more than `f`, when `N = 3f + 1` only. -/
theorem quorumThreshold_sound_iff (c : Committee) (positive : 1 ≤ c.totalVotes) :
    (c.quorumThreshold = c.totalVotes - c.faults ∧
      ∀ s t, Accepted c s → Accepted c t → c.faults < weight c.stake (s ∩ t)) ↔
    c.totalVotes % 3 = 1 := by
  constructor
  · rintro ⟨threshold, -⟩
    simp only [Committee.quorumThreshold, Committee.faults] at threshold
    omega
  · intro residue
    refine ⟨?_, fun s t hs ht => ?_⟩
    · simp only [Committee.quorumThreshold, Committee.faults]
      omega
    · have shared := hs.inter_weight ht
      simp only [Committee.quorumThreshold, Committee.faults] at shared ⊢
      omega

end

/-! ## Heights that leave room -/

/-- The height leaves room for an epoch that starts above it, and for the heights that are looked ahead there. -/
def SeqNumber.HasRoom (height : SeqNumber) : Prop := height.toNat + 20 < 2 ^ 64

instance (height : SeqNumber) : Decidable height.HasRoom := inferInstanceAs (Decidable (_ < _))

structure Block.HasRoom (b : Block) : Prop where
  height : b.height.toNat + 1 < 2 ^ 64
  qc : SeqNumber.HasRoom b.qc.height

section
variable [Crypto]

/-- What the message brings leaves room, if it passes its check. Votes are counted below. -/
def ConsensusMessage.HasRoom (committee : Committee) : ConsensusMessage → Prop
  | .propose b | .syncReply b => b.verify committee = .ok () → b.HasRoom
  | .loopBack b => b.HasRoom
  | .timeout t => t.verify committee = .ok () → SeqNumber.HasRoom t.highQc.height
  | _ => True

def Input.HasRoom [Bincode] (committee : Committee) : Input → Prop
  | .deliver _ message _ => message.HasRoom committee
  | .makePayload _ => True
  | .storePayload payload => ∀ b, Bincode.blockOfPayload payload = some b → b.height.toNat + 1 < 2 ^ 64

/-- The author of a vote for the height that comes in and passes its check. -/
def Input.voter (committee : Committee) (height : SeqNumber) : Input → Option PublicKey
  | .deliver _ (.vote v) _ =>
      match v.verify committee with
      | .ok _ => if v.height = height then some v.author else none
      | .error _ => none
  | _ => none

/-- Those who may vote for the height on the node: the authors of the votes that come in, and the node itself. -/
def voters (committee : Committee) (name : PublicKey) (inputs : List Input) (height : SeqNumber) : Finset PublicKey :=
  insert name (inputs.filterMap fun input => input.voter committee height).toFinset

/-- Nothing that the node gets certifies a height at the end of the numbers. -/
structure RoomyRun [Bincode] (name : PublicKey) (committee : Committee) (store : Store) (inputs : List Input) : Prop where
  stored : ∀ d value b, store.get? d = some value → Synchronizer.decodeBlock value = .ok b → b.height.toNat + 1 < 2 ^ 64
  received : ∀ input ∈ inputs, input.HasRoom committee
  votes : ∀ height : SeqNumber, ¬ height.HasRoom →
    Quorum.weight committee.stake (voters committee name inputs height) < committee.quorumThreshold

theorem Input.voter_far {input : Input} {height : SeqNumber} (far : ¬ height.HasRoom)
    (near : ∀ channel v env, input = .deliver channel (.vote v) env → SeqNumber.HasRoom v.height) :
    input.voter committee height = none := by
  unfold Input.voter
  split
  · rename_i v _
    split
    · refine if_neg fun same => far ?_
      rw [← same]
      exact near _ v _ rfl
    · rfl
  · rfl

end

namespace Sample

def five : Committee :=
  ⟨[authority 1, authority 2, authority 3, authority 4, authority 5], by decide, by decide⟩

/-- A certificate for nothing in particular, signed by the given authorities. -/
def certificate (signers : List Nat) : QC :=
  let qc : QC := ⟨Digest.zero, 0, 1, key 1, []⟩
  { qc with votes := signers.map fun n => (key n, Crypto.sign (key n) qc.digest) }

/-- With five authorities two certificates may have one signer in common, and that one is faulty. -/
theorem five_quorums_meet_in_one :
    1 ≤ five.totalVotes ∧ five.quorumThreshold ≠ five.totalVotes - five.faults ∧
      ∃ s t, Accepted five s ∧ Accepted five t ∧ ¬ five.faults < weight five.stake (s ∩ t) := by
  refine ⟨by decide, by decide, _, _, .qc (certificate [1, 2, 3]) (by decide +kernel),
    .qc (certificate [3, 4, 5]) (by decide +kernel), by decide⟩

theorem four_quorum :
    four.quorumThreshold = four.totalVotes - four.faults ∧
      ∀ s t, Accepted four s → Accepted four t → four.faults < weight four.stake (s ∩ t) :=
  (quorumThreshold_sound_iff four (by decide)).mpr (by decide)

/-- The input brings no height at the end of the numbers, and stores nothing. -/
def modest : Input → Bool
  | .deliver _ (.propose b) _ | .deliver _ (.syncReply b) _ | .deliver _ (.loopBack b) _ =>
      b.height.toNat + 1 < 2 ^ 64 ∧ SeqNumber.HasRoom b.qc.height
  | .deliver _ (.timeout t) _ => SeqNumber.HasRoom t.highQc.height
  | .deliver _ (.vote v) _ => SeqNumber.HasRoom v.height
  | .storePayload _ => false
  | _ => true

theorem modest_hasRoom {input : Input} (h : modest input = true) : input.HasRoom four := by
  cases input with
  | deliver channel message env =>
      cases message with
      | propose b | syncReply b | loopBack b =>
          have room : b.height.toNat + 1 < 2 ^ 64 ∧ SeqNumber.HasRoom b.qc.height := of_decide_eq_true h
          first
            | exact fun _ => ⟨room.1, room.2⟩
            | exact ⟨room.1, room.2⟩
      | timeout t => exact fun _ => of_decide_eq_true h
      | vote | tc | abaVal | abaProof | abaCoinShare | syncRequest => trivial
  | makePayload transactions => trivial
  | storePayload payload => cases h

theorem roomyRun_of {name : PublicKey} {inputs : List Input} (each : ∀ input ∈ inputs, modest input = true)
    (light : Quorum.weight four.stake {name} < four.quorumThreshold) : RoomyRun name four Map.empty inputs := by
  refine ⟨fun d value b stored => ?_, fun input mem => modest_hasRoom (each input mem), fun height distant => ?_⟩
  · simp at stored
  · have none : inputs.filterMap (fun input => input.voter four height) = [] := by
      rw [List.filterMap_eq_nil_iff]
      intro input mem
      refine Input.voter_far distant fun channel v env same => ?_
      have near := each input mem
      rw [same] at near
      exact of_decide_eq_true near
    unfold voters
    rw [none]
    exact light

end Sample
end HotstuffDag
