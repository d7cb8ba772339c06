import HotstuffDag.Proof.System
import Mathlib.Order.Interval.Finset.Nat

/-! # The rotation of the leader

The keys lead in their order, whatever the order of the map that they are taken from. -/

namespace HotstuffDag
namespace Committee
variable {c c' : Committee} {name : PublicKey}

/-- The keys as `get_leader` has sorted them. -/
def rotation (c : Committee) : List PublicKey := c.keys.insertionSort (· ≤ ·)

theorem length_rotation (c : Committee) : c.rotation.length = c.size := by
  rw [rotation, List.length_insertionSort, keys, List.length_map, size]

theorem nodup_rotation (c : Committee) : c.rotation.Nodup :=
  (List.perm_insertionSort _ _).nodup_iff.mpr c.nodup

theorem mem_rotation : name ∈ c.rotation ↔ name ∈ c.keys := List.mem_insertionSort _

theorem getLeader_rotation (nonempty : 0 < c.size) (epoch : SeqNumber) :
    c.rotation[epoch.toNat % c.size]? = some (c.getLeader epoch) := by
  have bound : epoch.toNat % c.size < c.rotation.length := by
    rw [length_rotation]
    exact Nat.mod_lt _ nonempty
  show _ = some (c.rotation.getD (epoch.toNat % c.size) PublicKey.zero)
  rw [List.getD_eq_getElem?_getD, List.getElem?_eq_getElem bound]
  rfl

/-- A place of the rotation comes up once in a window of its length. -/
theorem existsUnique_turn {place : Nat} (bound : place < c.size) (first : SeqNumber) (within : first.toNat + c.size ≤ 2 ^ 64) :
    ∃! epoch : SeqNumber, (first.toNat ≤ epoch.toNat ∧ epoch.toNat < first.toNat + c.size) ∧ epoch.toNat % c.size = place := by
  have reached : place ∈ (Finset.Ico first.toNat (first.toNat + c.size)).image (· % c.size) := by
    rw [Nat.image_Ico_mod]
    exact Finset.mem_range.mpr bound
  obtain ⟨n, mem, turn⟩ := Finset.mem_image.mp reached
  obtain ⟨low, high⟩ := Finset.mem_Ico.mp mem
  have small : (UInt64.ofNat n).toNat = n := UInt64.toNat_ofNat_of_lt' (Nat.lt_of_lt_of_le high within)
  refine ⟨UInt64.ofNat n, ⟨by rw [small]; exact ⟨low, high⟩, by rw [small]; exact turn⟩, ?_⟩
  rintro epoch ⟨range, turn'⟩
  apply UInt64.toNat_inj.mp
  rw [small]
  apply Nat.mod_injOn_Ico first.toNat c.size
  · exact Finset.mem_coe.mpr (Finset.mem_Ico.mpr range)
  · exact Finset.mem_coe.mpr mem
  · exact turn'.trans turn.symm

end Committee

/-- All nodes elect the same leaders, and in as many epochs as there are authorities each of them leads once. -/
theorem leader_rotation (c c' : Committee) (same : c'.authorities.Perm c.authorities) :
    (∀ epoch, c'.getLeader epoch = c.getLeader epoch) ∧
      ∀ first : SeqNumber, first.toNat + c.size ≤ 2 ^ 64 → ∀ name ∈ c.keys,
        ∃! epoch : SeqNumber, (first.toNat ≤ epoch.toNat ∧ epoch.toNat < first.toNat + c.size) ∧ c.getLeader epoch = name := by
  constructor
  · intro epoch
    rw [Committee.getLeader_perm same]
  · intro first within name member
    obtain ⟨place, bound, here⟩ := List.mem_iff_getElem.mp (Committee.mem_rotation.mpr member)
    have bound' : place < c.size := c.length_rotation ▸ bound
    have nonempty : 0 < c.size := Nat.lt_of_le_of_lt (Nat.zero_le _) bound'
    have leads (epoch : SeqNumber) : c.getLeader epoch = name ↔ epoch.toNat % c.size = place := by
      have elected := Committee.getLeader_rotation nonempty epoch
      constructor
      · rintro rfl
        have turn : epoch.toNat % c.size < c.rotation.length := by
          rw [c.length_rotation]
          exact Nat.mod_lt _ nonempty
        apply (List.getElem?_inj turn c.nodup_rotation).mp
        rw [elected, List.getElem?_eq_getElem bound, here]
      · intro turn
        rw [turn, List.getElem?_eq_getElem bound, here] at elected
        exact (Option.some.inj elected).symm
    simp only [leads]
    exact Committee.existsUnique_turn bound' first within

namespace Sample

/-- The four authorities, in the order of another node's map. -/
def fourReversed : Committee := ⟨four.authorities.reverse, by decide, by decide⟩

theorem four_take_turns : (∀ epoch, fourReversed.getLeader epoch = four.getLeader epoch) ∧
    ∃! epoch : SeqNumber, ((2 : SeqNumber).toNat ≤ epoch.toNat ∧ epoch.toNat < (2 : SeqNumber).toNat + four.size) ∧
      four.getLeader epoch = key 1 := by
  obtain ⟨same, turns⟩ := leader_rotation four fourReversed (List.reverse_perm _)
  exact ⟨same, turns 2 (by decide) (key 1) (by decide)⟩

end Sample
end HotstuffDag
