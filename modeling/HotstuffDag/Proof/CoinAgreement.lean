import HotstuffDag.Proof.Primed
import HotstuffDag.Sample

/-! # One coin

Nodes that receive shares of the same key set combine the same coin, each with the share that completes it. -/

namespace HotstuffDag
open Library

section
variable {c c' : Committee}

/-- One share, one vote. -/
def Committee.UnitStakes (c : Committee) : Prop := ∀ x ∈ c.authorities, x.stake = 1

theorem Committee.stake_unit (unit : c.UnitStakes) {name : PublicKey} (positive : 0 < c.stake name) : c.stake name = 1 := by
  obtain ⟨x, mem, rfl⟩ := mem_keys_iff.mp (mem_keys_of_stake_pos positive)
  rw [stake_name mem]
  exact unit x mem

theorem Committee.id_inj (ids : (c.authorities.map Authority.id).Nodup) {a b : PublicKey} {i : Nat} (ha : c.id a = some i)
    (hb : c.id b = some i) : a = b := by
  obtain ⟨x, found, idx⟩ := Option.map_eq_some_iff.mp ha
  obtain ⟨y, found', idy⟩ := Option.map_eq_some_iff.mp hb
  have same : x = y :=
    List.inj_on_of_nodup_map ids (List.mem_of_find?_eq_some found) (List.mem_of_find?_eq_some found') (idx.trans idy.symm)
  have nameA : x.name = a := by simpa using List.find?_some found
  have nameB : y.name = b := by simpa using List.find?_some found'
  rw [← nameA, same, nameB]

variable [Crypto]

/-- Shares in the order of their ids that reach the threshold and verify for the message give the signature. -/
def CombineTo (threshold : Nat) (digest : Digest) (signature : Nat) : Prop :=
  ∀ sigs : List (Nat × SignatureShare), sigs.length = threshold → sigs.Pairwise (fun a b => a.1 < b.1) →
    (∀ x ∈ sigs, Crypto.verifyShare x.1 x.2 digest = true) → Crypto.combineSignatures sigs = some signature

/-- Any such shares of a message give the same signature. -/
def CombineAlike (threshold : Nat) : Prop := ∀ digest, ∃ signature, CombineTo threshold digest signature

/-! ## The shares of a coin -/

namespace RandomnessShare

def IsFor (epoch round : SeqNumber) (share : RandomnessShare) : Prop := share.epoch = epoch ∧ share.round = round

instance (epoch round : SeqNumber) : DecidablePred (IsFor epoch round) := fun _ => inferInstanceAs (Decidable (_ ∧ _))

theorem verify_id {share : RandomnessShare} (h : share.verify c = .ok ()) :
    ∃ id, c.id share.author = some id ∧ Crypto.verifyShare id share.signatureShare share.digest = true := by
  have positive := verify_ok h
  unfold verify ensure at h
  rw [if_pos (decide_eq_true positive)] at h
  cases known : c.id share.author with
  | none => simp [known, bind, Except.bind] at h
  | some id =>
      refine ⟨id, rfl, ?_⟩
      by_contra wrong
      simp [known, wrong, bind, Except.bind] at h

end RandomnessShare

/-- The shares that a maker combines. -/
theorem ABARandomCoinMaker.sigs_spec (ids : (c.authorities.map Authority.id).Nodup) {shares : List RandomnessShare}
    (distinct : (shares.map RandomnessShare.author).Nodup) {digest : Digest}
    (verified : ∀ share ∈ shares, share.verify c = .ok () ∧ share.digest = digest) :
    (sigs c shares).length = shares.length ∧ (sigs c shares).Pairwise (fun a b => a.1 < b.1) ∧
      ∀ x ∈ sigs c shares, Crypto.verifyShare x.1 x.2 digest = true := by
  let id (share : RandomnessShare) : Nat := (c.id share.author).getD 0
  have known (share : RandomnessShare) (mem : share ∈ shares) : c.id share.author = some (id share) := by
    obtain ⟨i, found, -⟩ := RandomnessShare.verify_id (verified share mem).1
    simp [id, found]
  have byId : (shares.map id).Nodup := by
    refine (List.nodup_map_iff_inj_on distinct.of_map).mpr fun a ha b hb same => ?_
    have author : a.author = b.author := Committee.id_inj ids (known a ha) (same ▸ known b hb)
    exact List.inj_on_of_nodup_map distinct ha hb author
  have perm : (sigs c shares).Perm (shares.map fun share => (id share, share.signatureShare)) := by
    have folded := Map.entries_foldl_insert id RandomnessShare.signatureShare byId (m := Map.empty)
      fun e mem => absurd mem List.not_mem_nil
    have empty : (Map.empty : Map Nat SignatureShare).entries = [] := rfl
    rw [empty, List.append_nil] at folded
    have reversed := List.reverse_perm (shares.map fun share => (id share, share.signatureShare))
    rw [← folded] at reversed
    apply (List.perm_insertionSort _ _).trans (List.Perm.trans (List.Perm.of_eq ?_) reversed)
    apply congrArg Map.entries (List.foldl_ext _ _ _ ?_)
    intro m share mem
    rw [known share mem]
  have sorted : (sigs c shares).Pairwise fun a b => a.1 ≤ b.1 := by
    unfold sigs
    exact List.pairwise_insertionSort _ _
  refine ⟨by rw [perm.length_eq, List.length_map], ?_, fun x mem => ?_⟩
  · have keys : ((sigs c shares).map Prod.fst).Nodup := by
      refine (perm.map Prod.fst).nodup_iff.mpr ?_
      rw [List.map_map]
      exact byId
    exact (sorted.and (List.pairwise_map.mp keys)).imp fun ⟨le, ne⟩ => lt_of_le_of_ne le ne
  · obtain ⟨share, held, rfl⟩ := List.mem_map.mp (perm.mem_iff.mp mem)
    obtain ⟨i, found, valid⟩ := RandomnessShare.verify_id (verified share held).1
    have same : i = id share := Option.some.inj (found.symm.trans (known share held))
    rw [(verified share held).2, same] at valid
    exact valid

/-! ## The maker of a coin -/

variable {epoch round : SeqNumber} {heard : Finset PublicKey} {share : RandomnessShare}

/-- A maker that has counted verified shares of the round by the given authors. -/
structure CoinMaker (c : Committee) (epoch round : SeqNumber) (heard : Finset PublicKey) (maker : ABARandomCoinMaker) : Prop where
  nodup : maker.used.Nodup
  authors : maker.used.toFinset = heard
  weight : maker.weight = maker.used.length
  votes : maker.votes.map RandomnessShare.author = maker.used.reverse
  verified : ∀ share ∈ maker.votes, share.verify c = .ok () ∧ share.digest = Crypto.sha512 (timeoutPreimage epoch round)

namespace CoinMaker
variable {maker : ABARandomCoinMaker}

theorem new : CoinMaker c epoch round ∅ Maker.new :=
  ⟨List.nodup_nil, rfl, rfl, rfl, fun _ mem => absurd mem List.not_mem_nil⟩

theorem mem_heard (h : CoinMaker c epoch round heard maker) (a : PublicKey) : a ∈ maker.used ↔ a ∈ heard := by
  rw [← h.authors, List.mem_toFinset]

theorem weight_eq (h : CoinMaker c epoch round heard maker) : maker.weight = heard.card := by
  rw [h.weight, ← h.authors, List.toFinset_card_of_nodup h.nodup]

theorem push (h : CoinMaker c epoch round heard maker) (unit : c.UnitStakes) (verified : share.verify c = .ok ())
    (here : share.IsFor epoch round) (fresh : share.author ∉ heard) :
    CoinMaker c epoch round (insert share.author heard) (maker.push share.author share (c.stake share.author)) := by
  have unused : share.author ∉ maker.used := fun used => fresh ((h.mem_heard _).mp used)
  refine ⟨List.nodup_cons.mpr ⟨unused, h.nodup⟩, ?_, ?_, ?_, fun other mem => ?_⟩
  · rw [← h.authors]
    exact List.toFinset_cons
  · change maker.weight + c.stake share.author = maker.used.length + 1
    rw [h.weight, Committee.stake_unit unit (RandomnessShare.verify_ok verified)]
  · change (maker.votes ++ [share]).map RandomnessShare.author = (share.author :: maker.used).reverse
    rw [List.map_append, h.votes, List.reverse_cons]
    rfl
  · rcases List.mem_append.mp mem with old | new
    · exact h.verified other old
    · obtain rfl := List.mem_singleton.mp new
      refine ⟨verified, ?_⟩
      unfold RandomnessShare.digest
      rw [here.1, here.2]

/-- The share that completes the coin is the one of the author at the threshold. -/
theorem append (h : CoinMaker c epoch round heard maker) (unit : c.UnitStakes) (ids : (c.authorities.map Authority.id).Nodup)
    {signature : Nat} (combined : CombineTo c.randomCoinThreshold (Crypto.sha512 (timeoutPreimage epoch round)) signature)
    (verified : share.verify c = .ok ()) (here : share.IsFor epoch round) :
    CoinMaker c epoch round (insert share.author heard) (maker.append share c).2 ∧
      ∀ coin, (maker.append share c).1 = .ok (some coin) ↔
        share.author ∉ heard ∧ heard.card + 1 = c.randomCoinThreshold ∧ coin = signature % 2 := by
  unfold ABARandomCoinMaker.append
  by_cases used : share.author ∈ maker.used
  · have old := (h.mem_heard _).mp used
    rw [if_pos used, Finset.insert_eq_of_mem old]
    exact ⟨h, fun coin => ⟨nofun, fun fresh => absurd old fresh.1⟩⟩
  · have fresh : share.author ∉ heard := fun old => used ((h.mem_heard _).mpr old)
    have pushed := h.push unit verified here fresh
    have weight : (maker.push share.author share (c.stake share.author)).weight = heard.card + 1 := by
      rw [pushed.weight_eq, Finset.card_insert_of_notMem fresh]
    rw [if_neg used]
    dsimp only
    rw [weight]
    by_cases complete : heard.card + 1 = c.randomCoinThreshold
    · have distinct : ((maker.push share.author share (c.stake share.author)).votes.map RandomnessShare.author).Nodup := by
        rw [pushed.votes]
        exact List.nodup_reverse.mpr pushed.nodup
      obtain ⟨length, sorted, valid⟩ := ABARandomCoinMaker.sigs_spec ids distinct pushed.verified
      have count : (maker.push share.author share (c.stake share.author)).votes.length = c.randomCoinThreshold := by
        rw [← List.length_map RandomnessShare.author, pushed.votes, List.length_reverse, ← pushed.weight, weight, complete]
      rw [if_pos complete, combined _ (length.trans count) sorted valid]
      refine ⟨pushed, fun coin => ⟨fun same => ⟨fresh, complete, ?_⟩, fun ⟨_, _, same⟩ => by rw [same]⟩⟩
      exact (Option.some.inj (Except.ok.inj same)).symm
    · rw [if_neg complete]
      exact ⟨pushed, fun coin => ⟨nofun, fun ⟨_, other, _⟩ => absurd other complete⟩⟩

end CoinMaker

/-! ## Sequences of shares -/

/-- The aggregator of a node that has been fed the shares. -/
def Aggregator.fed (c : Committee) (shares : List RandomnessShare) : Aggregator :=
  shares.foldl (fun a share => (a.addAbaRandom share c).2) Aggregator.new

/-- What `add_aba_random` returns for a share after the given ones. -/
def coinAfter (c : Committee) (before : List RandomnessShare) (share : RandomnessShare) : ConsensusResult (Option Nat) :=
  ((Aggregator.fed c before).addAbaRandom share c).1

/-- The authors of the shares of a round. -/
def coinAuthors (epoch round : SeqNumber) (shares : List RandomnessShare) : Finset PublicKey :=
  ((shares.filter fun share => share.IsFor epoch round).map RandomnessShare.author).toFinset

/-- The coin of a round comes with the share of the author after the first `f`. -/
structure CoinOnce (c : Committee) (epoch round : SeqNumber) (shares : List RandomnessShare) : Prop where
  exactly : ∀ before share, before ++ [share] <+: shares → share.IsFor epoch round →
    ((∃ coin, coinAfter c before share = .ok (some coin)) ↔
      share.author ∉ coinAuthors epoch round before ∧ (coinAuthors epoch round before).card = c.faults)
  once : ∀ before share coin before' share' coin', before ++ [share] <+: shares → before' ++ [share'] <+: shares →
    share.IsFor epoch round → share'.IsFor epoch round → coinAfter c before share = .ok (some coin) →
    coinAfter c before' share' = .ok (some coin') → before = before'

section
omit [Crypto]

theorem coinAuthors_snoc (before : List RandomnessShare) (share : RandomnessShare) :
    coinAuthors epoch round (before ++ [share]) =
      if share.IsFor epoch round then insert share.author (coinAuthors epoch round before) else coinAuthors epoch round before := by
  unfold coinAuthors
  ext a
  split <;> simp_all [List.filter_append]

theorem coinAuthors_mono {before before' : List RandomnessShare} (le : before <+: before') :
    coinAuthors epoch round before ⊆ coinAuthors epoch round before' := by
  obtain ⟨rest, rfl⟩ := le
  intro a mem
  unfold coinAuthors at mem ⊢
  simp only [List.filter_append, List.map_append, List.mem_toFinset] at mem ⊢
  exact List.mem_append_left _ mem

end

section
variable {signature : Nat}

/-- Every verified share of the round passes through its maker. -/
theorem fed_maker (unit : c.UnitStakes) (ids : (c.authorities.map Authority.id).Nodup)
    (combined : CombineTo c.randomCoinThreshold (Crypto.sha512 (timeoutPreimage epoch round)) signature)
    {shares : List RandomnessShare} (verified : ∀ share ∈ shares, share.verify c = .ok ()) :
    CoinMaker c epoch round (coinAuthors epoch round shares)
      ((Aggregator.fed c shares).abaRandomcoinAggregators.getD (epoch, round) Maker.new) := by
  induction shares using List.reverseRecOn with
  | nil => exact CoinMaker.new
  | append_singleton before share ih =>
      have earlier := ih fun other mem => verified other (List.mem_append_left _ mem)
      have valid := verified share (List.mem_append_right _ List.mem_cons_self)
      unfold Aggregator.fed at earlier ⊢
      rw [List.foldl_append, List.foldl_cons, List.foldl_nil, Aggregator.addAbaRandom, Map.getD_insert, coinAuthors_snoc]
      by_cases here : share.IsFor epoch round
      · rw [if_pos here, if_pos (by rw [here.1, here.2]), here.1, here.2]
        exact (earlier.append unit ids combined valid here).1
      · rw [if_neg here, if_neg fun same => here (Prod.mk.inj same)]
        exact earlier

theorem coinAfter_iff (unit : c.UnitStakes) (ids : (c.authorities.map Authority.id).Nodup)
    (combined : CombineTo c.randomCoinThreshold (Crypto.sha512 (timeoutPreimage epoch round)) signature)
    {before : List RandomnessShare} (verified : ∀ other ∈ before ++ [share], other.verify c = .ok ())
    (here : share.IsFor epoch round) (coin : Nat) : coinAfter c before share = .ok (some coin) ↔
      share.author ∉ coinAuthors epoch round before ∧ (coinAuthors epoch round before).card = c.faults ∧ coin = signature % 2 := by
  have maker := fed_maker unit ids combined fun other mem => verified other (List.mem_append_left _ mem)
  have valid := verified share (List.mem_append_right _ List.mem_cons_self)
  have appended := (maker.append unit ids combined valid here).2 coin
  have threshold : c.randomCoinThreshold = c.faults + 1 := rfl
  rw [threshold, Nat.add_right_cancel_iff] at appended
  unfold coinAfter Aggregator.addAbaRandom
  rw [here.1, here.2]
  exact appended

theorem coinOnce (unit : c.UnitStakes) (ids : (c.authorities.map Authority.id).Nodup)
    (combined : CombineTo c.randomCoinThreshold (Crypto.sha512 (timeoutPreimage epoch round)) signature)
    {shares : List RandomnessShare} (verified : ∀ share ∈ shares, share.verify c = .ok ()) :
    CoinOnce c epoch round shares := by
  have spec {before : List RandomnessShare} {share : RandomnessShare} (le : before ++ [share] <+: shares)
      (here : share.IsFor epoch round) (coin : Nat) :=
    coinAfter_iff unit ids combined (fun other mem => verified other (le.subset mem)) here coin
  -- A later share finds the author of the earlier one counted.
  have earlier {before before' : List RandomnessShare} {share share' : RandomnessShare} {coin coin' : Nat}
      (le : before ++ [share] <+: shares) (le' : before' ++ [share'] <+: shares) (here : share.IsFor epoch round)
      (here' : share'.IsFor epoch round) (cast : coinAfter c before share = .ok (some coin))
      (cast' : coinAfter c before' share' = .ok (some coin')) : ¬ before.length < before'.length := by
    intro shorter
    obtain ⟨fresh, count, -⟩ := (spec le here coin).mp cast
    obtain ⟨-, count', -⟩ := (spec le' here' coin').mp cast'
    have inside : before ++ [share] <+: before' := by
      refine List.prefix_of_prefix_length_le le ((List.prefix_append _ _).trans le') ?_
      rw [List.length_append]
      exact shorter
    have wider : coinAuthors epoch round (before ++ [share]) ⊆ coinAuthors epoch round before' := coinAuthors_mono inside
    have card := Finset.card_le_card wider
    rw [coinAuthors_snoc, if_pos here, Finset.card_insert_of_notMem fresh, count, count'] at card
    exact absurd card (Nat.not_succ_le_self _)
  refine ⟨fun before share le here => ?_, fun before share coin before' share' coin' le le' here here' cast cast' => ?_⟩
  · constructor
    · rintro ⟨coin, cast⟩
      obtain ⟨fresh, count, -⟩ := (spec le here coin).mp cast
      exact ⟨fresh, count⟩
    · exact fun ⟨fresh, count⟩ => ⟨_, (spec le here _).mpr ⟨fresh, count, rfl⟩⟩
  · have length : before.length = before'.length :=
      Nat.le_antisymm (Nat.le_of_not_lt (earlier le' le here' here cast' cast)) (Nat.le_of_not_lt (earlier le le' here here' cast cast'))
    have short := List.prefix_of_prefix_length_le ((List.prefix_append _ _).trans le) ((List.prefix_append _ _).trans le') length.le
    exact short.eq_of_length length

end

/-- Two nodes with unit stakes and distinct ids cast the coin of a round once each, and it is the same coin. -/
theorem coins_agree (c c' : Committee) (perm : c'.authorities.Perm c.authorities) (unit : c.UnitStakes)
    (ids : (c.authorities.map Authority.id).Nodup) (combines : CombineAlike c.randomCoinThreshold) (epoch round : SeqNumber)
    (shares shares' : List RandomnessShare) (verified : ∀ share ∈ shares, share.verify c = .ok ())
    (verified' : ∀ share ∈ shares', share.verify c' = .ok ()) :
    CoinOnce c epoch round shares ∧ CoinOnce c' epoch round shares' ∧
      ∀ before share coin before' share' coin', before ++ [share] <+: shares → before' ++ [share'] <+: shares' →
        share.IsFor epoch round → share'.IsFor epoch round → coinAfter c before share = .ok (some coin) →
        coinAfter c' before' share' = .ok (some coin') → coin = coin' := by
  obtain ⟨signature, combined⟩ := combines (Crypto.sha512 (timeoutPreimage epoch round))
  have unit' : c'.UnitStakes := fun x mem => unit x (perm.mem_iff.mp mem)
  have ids' : (c'.authorities.map Authority.id).Nodup := (perm.map Authority.id).nodup_iff.mpr ids
  have combined' := combined
  rw [← Committee.randomCoinThreshold_perm perm] at combined'
  refine ⟨coinOnce unit ids combined verified, coinOnce unit' ids' combined' verified', ?_⟩
  intro before share coin before' share' coin' le le' here here' cast cast'
  have same := (coinAfter_iff unit ids combined (fun other mem => verified other (le.subset mem)) here coin).mp cast
  have same' := (coinAfter_iff unit' ids' combined' (fun other mem => verified' other (le'.subset mem)) here' coin').mp cast'
  rw [same.2.2, same'.2.2]

end

namespace Sample

/-- Shares of one message combine to it. -/
theorem combines : CombineAlike four.randomCoinThreshold := by
  refine fun digest => ⟨digest.array.toNat / 2, fun sigs length _ valid => ?_⟩
  cases sigs with
  | nil => exact absurd length (by decide)
  | cons first rest =>
      have same : first.2 = digest.array.toNat := of_decide_eq_true (valid first List.mem_cons_self)
      change some (first.2 / 2) = _
      rw [same]

def shareOf (n : Nat) : RandomnessShare := .new 0 1 (key n)

/-- Two orders of arrival, with a duplicate and shares that come late. -/
theorem shares_agree : ∃ coin, coinAfter four [shareOf 1, shareOf 1] (shareOf 3) = .ok (some coin) ∧
    coinAfter four [shareOf 4] (shareOf 2) = .ok (some coin) := by
  obtain ⟨once, once', same⟩ := coins_agree four four (.refl _) (by unfold Committee.UnitStakes; decide) (by decide) combines 0 1
    [shareOf 1, shareOf 1, shareOf 3, shareOf 4] [shareOf 4, shareOf 2, shareOf 1] (by decide +kernel) (by decide +kernel)
  have le : [shareOf 1, shareOf 1] ++ [shareOf 3] <+: [shareOf 1, shareOf 1, shareOf 3, shareOf 4] := ⟨[shareOf 4], rfl⟩
  have le' : [shareOf 4] ++ [shareOf 2] <+: [shareOf 4, shareOf 2, shareOf 1] := ⟨[shareOf 1], rfl⟩
  obtain ⟨coin, cast⟩ := (once.exactly _ _ le ⟨rfl, rfl⟩).mpr ⟨by decide +kernel, by decide +kernel⟩
  obtain ⟨coin', cast'⟩ := (once'.exactly _ _ le' ⟨rfl, rfl⟩).mpr ⟨by decide +kernel, by decide +kernel⟩
  have agree := same _ _ coin _ _ coin' le le' ⟨rfl, rfl⟩ ⟨rfl, rfl⟩ cast cast'
  rw [← agree] at cast'
  exact ⟨coin, cast, cast'⟩

end Sample
end HotstuffDag
