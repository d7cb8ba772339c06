import HotstuffDag.Proof.Domains
import HotstuffDag.Proof.Invariant
import HotstuffDag.Proof.Quorum
import HotstuffDag.System

/-! # Invariants of the system -/

namespace HotstuffDag
open Library Library.Exec

/-! ## Committees in different orders -/

instance : Std.Total (fun a b : PublicKey => a ≤ b) := ⟨fun a b => BitVec.le_total a.array b.array⟩

instance : IsTrans PublicKey (fun a b => a ≤ b) := ⟨fun _ _ _ h h' => BitVec.le_trans h h'⟩

instance : Std.Antisymm (fun a b : PublicKey => a ≤ b) := ⟨fun a b h h' => by
  cases a; cases b
  exact congrArg _ (BitVec.le_antisymm h h')⟩

namespace Committee

theorem mem_keys_iff {c : Committee} {name : PublicKey} :
    name ∈ c.keys ↔ ∃ x ∈ c.authorities, x.name = name :=
  List.mem_map

theorem stake_eq_zero {c : Committee} {name : PublicKey} (h : name ∉ c.keys) : c.stake name = 0 := by
  by_contra positive
  exact h (mem_keys_of_stake_pos (Nat.pos_of_ne_zero positive))

theorem stake_perm {c c' : Committee} (perm : c'.authorities.Perm c.authorities) : c'.stake = c.stake := by
  funext name
  by_cases member : name ∈ c.keys
  · obtain ⟨x, mem, rfl⟩ := mem_keys_iff.mp member
    rw [stake_name mem, stake_name (perm.mem_iff.mpr mem)]
  · have missing : name ∉ c'.keys := fun h => member ((perm.map Authority.name).mem_iff.mp h)
    rw [stake_eq_zero member, stake_eq_zero missing]

theorem keys_perm {c c' : Committee} (perm : c'.authorities.Perm c.authorities) : c'.keys.Perm c.keys :=
  perm.map Authority.name

theorem totalVotes_perm {c c' : Committee} (perm : c'.authorities.Perm c.authorities) :
    c'.totalVotes = c.totalVotes :=
  (perm.map Authority.stake).sum_eq

theorem quorumThreshold_perm {c c' : Committee} (perm : c'.authorities.Perm c.authorities) :
    c'.quorumThreshold = c.quorumThreshold := by
  unfold quorumThreshold
  rw [totalVotes_perm perm]

theorem randomCoinThreshold_perm {c c' : Committee} (perm : c'.authorities.Perm c.authorities) :
    c'.randomCoinThreshold = c.randomCoinThreshold := by
  unfold randomCoinThreshold
  rw [totalVotes_perm perm]

/-- The leader is elected from the sorted keys. -/
theorem getLeader_perm {c c' : Committee} (perm : c'.authorities.Perm c.authorities) :
    c'.getLeader = c.getLeader := by
  funext epoch
  have ordered (l : List PublicKey) : (l.insertionSort (· ≤ ·)).Pairwise (· ≤ ·) := List.pairwise_insertionSort _ l
  have sortedPerm : (c'.keys.insertionSort (· ≤ ·)).Perm (c.keys.insertionSort (· ≤ ·)) :=
    (List.perm_insertionSort _ _).trans ((keys_perm perm).trans (List.perm_insertionSort _ _).symm)
  have sorted : c'.keys.insertionSort (· ≤ ·) = c.keys.insertionSort (· ≤ ·) :=
    sortedPerm.eq_of_pairwise' (ordered _) (ordered _)
  have size : c'.size = c.size := perm.length_eq
  unfold getLeader
  rw [sorted, size]

theorem getLeader_mem {c : Committee} {name : PublicKey} (member : name ∈ c.keys) (epoch : SeqNumber) :
    c.getLeader epoch ∈ c.keys := by
  have size : (c.keys.insertionSort (· ≤ ·)).length = c.size := by
    rw [List.length_insertionSort, keys, List.length_map, Committee.size]
  have positive : 0 < c.size := by
    rw [← size, List.length_insertionSort]
    exact List.length_pos_of_mem member
  have bound : epoch.toNat % c.size < (c.keys.insertionSort (· ≤ ·)).length := by
    rw [size]
    exact Nat.mod_lt _ positive
  unfold getLeader
  dsimp only
  rw [List.getD_eq_getElem?_getD, List.getElem?_eq_getElem bound, Option.getD_some]
  exact (List.mem_insertionSort _).mp (List.getElem_mem bound)

end Committee

/-! ## Signatures let out -/

theorem mem_released {l : List Event} {m : List UInt8} (h : m ∈ released l) :
    (∃ x, Event.signed x ∈ l ∧ x.kind ≠ .abaVal ∧ x.preimage = m) ∨
      ∃ v, Sent (.abaVal v) l ∧ v.preimage = m := by
  obtain ⟨e, mem, found⟩ := List.mem_filterMap.mp h
  split at found
  · contradiction
  · rename_i x notVal
    refine .inl ⟨x, mem, fun kind => ?_, Option.some.inj found⟩
    cases x <;> simp_all [Signed.kind]
  · rename_i v _
    exact .inr ⟨v, ⟨_, _, mem⟩, Option.some.inj found⟩
  · contradiction

namespace System
variable {sys : System}

/-- `N = 3f + 1`, and the faulty authorities weigh at most `f`. -/
def Resilient (sys : System) : Prop :=
  sys.committee.totalVotes % 3 = 1 ∧ Quorum.weight sys.committee.stake sys.faulty ≤ sys.committee.faults

/-- The faulty authorities weigh at most `f`, whatever the total. -/
def Tolerant (sys : System) : Prop := Quorum.weight sys.committee.stake sys.faulty ≤ sys.committee.faults

instance : Decidable sys.Tolerant := inferInstanceAs (Decidable (_ ≤ _))

theorem Resilient.tolerant (h : sys.Resilient) : sys.Tolerant := h.2

/-- Two heavy sets of authorities have an honest one in common. -/
theorem Resilient.common_of_weight (h : sys.Resilient) {s t : Finset PublicKey}
    (heavy : sys.committee.quorumThreshold ≤ Quorum.weight sys.committee.stake s)
    (heavy' : sys.committee.quorumThreshold ≤ Quorum.weight sys.committee.stake t) :
    ∃ name, name ∈ s ∧ name ∈ t ∧ sys.Honest name := by
  obtain ⟨residue, light⟩ := h
  rw [← Committee.weight_inter_members] at heavy heavy'
  have excess : Quorum.weight sys.committee.stake sys.committee.members +
      Quorum.weight sys.committee.stake sys.faulty <
      Quorum.weight sys.committee.stake (s ∩ sys.committee.members) +
        Quorum.weight sys.committee.stake (t ∩ sys.committee.members) := by
    rw [Committee.weight_members]
    simp only [Committee.quorumThreshold, Committee.faults] at heavy heavy' light
    omega
  obtain ⟨name, mem, mem', good⟩ :=
    Quorum.exists_common_notMem Finset.inter_subset_right Finset.inter_subset_right excess
  obtain ⟨mem, member⟩ := Finset.mem_inter.mp mem
  exact ⟨name, mem, (Finset.mem_inter.mp mem').1, List.mem_toFinset.mp member, good⟩

theorem Tolerant.honest_of_weight (h : sys.Tolerant) {s : Finset PublicKey}
    (heavy : sys.committee.randomCoinThreshold ≤ Quorum.weight sys.committee.stake s) :
    ∃ name ∈ s, sys.Honest name := by
  rw [← Committee.weight_inter_members] at heavy
  unfold Committee.randomCoinThreshold at heavy
  unfold Tolerant Committee.faults at h
  obtain ⟨name, mem, good⟩ := Quorum.exists_notMem_of_weight_lt (h.trans_lt heavy)
  obtain ⟨mem, member⟩ := Finset.mem_inter.mp mem
  exact ⟨name, mem, List.mem_toFinset.mp member, good⟩

theorem coin_le_quorum (c : Committee) : c.randomCoinThreshold ≤ c.quorumThreshold := by
  unfold Committee.randomCoinThreshold Committee.quorumThreshold
  omega

variable [Crypto]

/-- Every accepted set of voters has an honest one. -/
theorem Tolerant.honest_voter (h : sys.Tolerant) {key : PublicKey} {s : Finset PublicKey}
    (hs : Accepted (sys.ordered key) s) : ∃ name ∈ s, sys.Honest name := by
  have heavy := (coin_le_quorum _).trans hs.quorum.2
  rw [Committee.randomCoinThreshold_perm (sys.perm _), Committee.stake_perm (sys.perm _)] at heavy
  exact h.honest_of_weight heavy

/-- Two accepted sets of voters have an honest voter in common. -/
theorem Resilient.common (h : sys.Resilient) {key key' : PublicKey} {s t : Finset PublicKey}
    (hs : Accepted (sys.ordered key) s) (ht : Accepted (sys.ordered key') t) :
    ∃ name, name ∈ s ∧ name ∈ t ∧ sys.Honest name := by
  have heavy := hs.quorum.2
  have heavy' := ht.quorum.2
  rw [Committee.quorumThreshold_perm (sys.perm _), Committee.stake_perm (sys.perm _)] at heavy heavy'
  exact h.common_of_weight heavy heavy'

/-! ## Logs grow -/

variable [Bincode]

theorem prefixInvariant {ok : Input → Prop} (l : List Event) : Invariant ok fun _ _ l' => l <+: l' where
  act := fun _ act h => h.trans act.frame.log
  blind := fun _ _ h => h
  makePayload := fun _ h => h.trans (List.prefix_append _ _)
  storePayload := fun _ _ h => h

theorem closed_nodeAt (trace : Trace) (key : PublicKey) : (sys.nodeAt trace key).Sound fun _ _ _ => True := by
  have inv : Invariant (fun _ => True) fun _ _ _ => True :=
    ⟨fun _ _ _ => trivial, fun _ _ _ => trivial, fun _ _ => trivial, fun _ _ _ => trivial⟩
  induction trace with
  | nil => exact inv.init trivial
  | cons step before ih =>
      simp only [nodeAt]
      split
      · exact inv.step trivial ih
      · exact ih

theorem log_mono (trace : Trace) (step : PublicKey × Input) (key : PublicKey) :
    (sys.nodeAt trace key).log <+: (sys.nodeAt (step :: trace) key).log := by
  simp only [nodeAt]
  split
  · have closed : (sys.nodeAt trace key).Sound _ := closed_nodeAt trace key
    have sound : (sys.nodeAt trace key).Sound fun _ _ l' => (sys.nodeAt trace key).log <+: l' :=
      ⟨fun alive => ⟨(closed.1 alive).names, (closed.1 alive).own, List.prefix_refl _⟩,
        fun _ => none, List.prefix_refl _⟩
    have inv : Invariant (fun _ => True) _ := prefixInvariant (sys.nodeAt trace key).log
    obtain ⟨_, grown⟩ := (inv.step trivial sound).2
    exact grown
  · exact List.prefix_refl _

/-! ## Invariants of all nodes -/

/-- What the nodes had logged before a step. -/
abbrev Past := PublicKey → List Event

def logs (sys : System) (trace : Trace) : Past := fun a => (sys.nodeAt trace a).log

/-- A signature of an honest key that verifies has been let out before. -/
def AuthenticIn (sys : System) (past : Past) (claims : List SignatureClaim) : Prop :=
  ∀ claim ∈ claims, sys.Honest claim.key →
    Crypto.verify claim.signature (Crypto.sha512 claim.preimage) claim.key = true →
    claim.preimage ∈ released (past claim.key)

def AllowedIn (sys : System) (past : Past) (input : Input) : Prop :=
  ∀ channel message env, input = .deliver channel message env → sys.AuthenticIn past message.claims

theorem allowedIn_of_allowed {trace : Trace} {input : Input} (allowed : sys.Allowed trace input) :
    sys.AllowedIn (sys.logs trace) input := by
  rintro channel message env rfl
  exact allowed

/-- An invariant of the honest nodes may speak of what all of them have logged before the step. -/
theorem sound {I : Past → PublicKey → View → Core → List Event → Prop}
    (mono : ∀ {past past' : Past} {key v k l}, (∀ a, past a <+: past' a) → I past key v k l → I past' key v k l)
    (inv : ∀ {past key input}, sys.Honest key → sys.AllowedIn past input →
      (∀ a, sys.Honest a → ∃ v k, I past a v k (past a)) → Invariant (· = input) (I past key))
    (init : ∀ key, sys.Honest key → I (fun _ => []) key (sys.first key).pubkeyToChain.get? (sys.first key) [])
    {trace : Trace} (valid : sys.Valid trace) :
    ∀ key, sys.Honest key → (sys.nodeAt trace key).Sound (I (sys.logs trace) key) := by
  have wider {past past' : Past} {key : PublicKey} {n : Node} (le : ∀ a, past a <+: past' a)
      (h : n.Sound (I past key)) : n.Sound (I past' key) :=
    ⟨fun alive => ⟨(h.1 alive).names, (h.1 alive).own, mono le (h.1 alive).holds⟩,
      h.2.imp fun _ holds => mono le holds⟩
  induction trace with
  | nil =>
      intro key honest
      have vacuous : sys.AllowedIn (fun _ => []) (.makePayload []) := fun _ _ _ h => by contradiction
      have invariant := inv honest vacuous fun a honest => ⟨_, _, init a honest⟩
      exact wider (fun a => List.nil_prefix) (invariant.init (init key honest))
  | cons step before ih =>
      obtain ⟨name, input⟩ := step
      intro key honest
      have earlier := ih valid.1
      have grown (a : PublicKey) : sys.logs before a <+: sys.logs ((name, input) :: before) a := log_mono before (name, input) a
      simp only [nodeAt]
      split
      · rename_i same
        subst same
        have others (a : PublicKey) (honest : sys.Honest a) :
            ∃ v k, I (sys.logs before) a v k (sys.logs before a) :=
          let ⟨v, holds⟩ := (earlier a honest).2
          ⟨v, _, holds⟩
        have invariant := inv honest (allowedIn_of_allowed valid.2) others
        exact wider grown (invariant.step rfl (earlier name honest))
      · exact wider grown (earlier key honest)

/-! ## Invariants over given inputs -/

omit [Crypto] [Bincode] in
theorem released_mono {l l' : List Event} (le : l <+: l') {m : List UInt8} (h : m ∈ released l) : m ∈ released l' := by
  obtain ⟨e, mem, found⟩ := List.mem_filterMap.mp h
  exact List.mem_filterMap.mpr ⟨e, le.subset mem, found⟩

omit [Bincode] in
theorem AuthenticIn.mono {past past' : Past} (le : ∀ a, past a <+: past' a) {claims : List SignatureClaim}
    (h : sys.AuthenticIn past claims) : sys.AuthenticIn past' claims :=
  fun claim mem honest verified => released_mono (le claim.key) (h claim mem honest verified)

/-- What was allowed when it came is allowed in the end. -/
theorem allowed_final {trace : Trace} (valid : sys.Valid trace) {name : PublicKey} {input : Input}
    (mem : (name, input) ∈ trace) : sys.AllowedIn (sys.logs trace) input := by
  induction trace with
  | nil => exact absurd mem List.not_mem_nil
  | cons step before ih =>
      have grown (a : PublicKey) : sys.logs before a <+: sys.logs (step :: before) a := log_mono before step a
      rintro channel message env rfl
      rcases List.mem_cons.mp mem with rfl | earlier
      · exact AuthenticIn.mono grown (allowedIn_of_allowed valid.2 channel message env rfl)
      · exact AuthenticIn.mono grown (ih valid.1 earlier channel message env rfl)

/-- The messages a node receives in a trace. -/
def Got (trace : Trace) (key : PublicKey) (m : ConsensusMessage) : Prop := Received (fun input => (key, input) ∈ trace) m

theorem Got.authentic {trace : Trace} {key : PublicKey} {m : ConsensusMessage} (h : Got trace key m)
    (valid : sys.Valid trace) : sys.Authentic trace m.claims := by
  obtain ⟨channel, env, mem⟩ := h
  exact allowed_final valid mem channel m env rfl

/-- An invariant of a node for the inputs it gets holds of the node. -/
theorem sound_of_inputs {I : View → Core → List Event → Prop} {key : PublicKey} {trace : Trace}
    (inv : Invariant (fun input => (key, input) ∈ trace) I)
    (init : I (sys.first key).pubkeyToChain.get? (sys.first key) []) : (sys.nodeAt trace key).Sound I := by
  have along (part : Trace) (among : ∀ step ∈ part, step ∈ trace) : (sys.nodeAt part key).Sound I := by
    induction part with
    | nil => exact inv.init init
    | cons step before ih =>
        have earlier := ih fun step mem => among step (List.mem_cons_of_mem _ mem)
        simp only [nodeAt]
        split
        · rename_i same
          subst same
          exact inv.step (among _ List.mem_cons_self) earlier
        · exact earlier
  exact along trace fun _ mem => mem

end System
end HotstuffDag
