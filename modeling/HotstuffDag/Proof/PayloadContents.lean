import HotstuffDag.Proof.PayloadOrigin
import Mathlib.Data.List.Flatten

/-! # What the digest of a payload binds

The preimage of a payload strings its transactions together without their lengths, so it does not
say where one ends and the next begins. -/

namespace HotstuffDag
open Library Library.Bytes Library.Exec

namespace Payload
variable {p q : Payload}

def SameContent (p q : Payload) : Prop := p.author = q.author ∧ p.transactions = q.transactions

/-- The same bytes of the same author, cut at other places. -/
def Recut (p q : Payload) : Prop :=
  p.author = q.author ∧ p.transactions.flatten = q.transactions.flatten ∧
    p.transactions.map List.length ≠ q.transactions.map List.length

theorem preimage_eq_iff : p.preimage = q.preimage ↔
    p.author = q.author ∧ p.transactions.flatten = q.transactions.flatten := by
  unfold preimage
  rw [append_eq_iff (by simp), PublicKey.bytes_inj]

theorem Recut.symm (h : Recut p q) : Recut q p := ⟨h.1.symm, h.2.1.symm, h.2.2.symm⟩

theorem Recut.transactions_ne (h : Recut p q) : p.transactions ≠ q.transactions :=
  fun same => h.2.2 (congrArg _ same)

theorem sameContent_of_preimage (same : p.preimage = q.preimage) (uncut : ¬ Recut p q) : SameContent p q := by
  obtain ⟨author, bytes⟩ := preimage_eq_iff.mp same
  refine ⟨author, List.eq_iff_flatten_eq.mpr ⟨bytes, ?_⟩⟩
  by_contra lengths
  exact uncut ⟨author, bytes, lengths⟩

end Payload

section
variable [Crypto]

/-- Only the entry of the payload is written. -/
def Mempool.Writes (q : Payload) (s s' : Mempool.State) : Prop :=
  ∀ d v, s'.store.get? d = some v → s.store.get? d = some v ∨ q.digest = d ∧ v = .payload q

instance (q : Payload) : Std.Refl (Mempool.Writes q) := ⟨fun _ _ _ found => .inl found⟩

instance (q : Payload) : IsTrans Mempool.State (Mempool.Writes q) where
  trans _ _ _ h h' d v found := (h' d v found).elim (h d v) .inr

theorem Mempool.writes_handleOthersPayload (q : Payload) (s : Mempool.State) :
    Leads (Mempool.Writes q) (Mempool.Core.handleOthersPayload q) s fun _ _ => True := by
  unfold Mempool.Core.handleOthersPayload
  refine Leads.get (Mempool.leads_ensure fun _ => Mempool.leads_ensure fun _ => Mempool.leads_ensure fun _ => ?_)
  refine Leads.modify (fun d v found => ?_) ⟨fun _ _ found => .inl found, trivial⟩
  rw [Map.get?_insert] at found
  split at found
  · next same => exact .inr ⟨same, (Option.some.inj found).symm⟩
  · exact .inl found

/-- The digest binds the transactions, and what is stored under it stays, unless the bytes of the
author can be cut at other places. -/
theorem Payload.digest_binds_transactions (p q : Payload) (collisionFree : p.digest = q.digest → p.preimage = q.preimage) :
    ((p.digest = q.digest → Payload.SameContent p q) ∧
      ∀ s : Mempool.State, s.store.get? p.digest = some (.payload p) →
        ∀ r, (final (Mempool.Core.handleOthersPayload q) s).store.get? p.digest = some (.payload r) →
          Payload.SameContent p r) ↔
    ¬ Payload.Recut p q := by
  constructor
  · rintro ⟨binds, -⟩ recut
    have same : p.digest = q.digest := congrArg Crypto.sha512 (Payload.preimage_eq_iff.mpr ⟨recut.1, recut.2.1⟩)
    exact recut.transactions_ne (binds same).2
  · intro uncut
    have binds : p.digest = q.digest → Payload.SameContent p q := fun same =>
      Payload.sameContent_of_preimage (collisionFree same) uncut
    refine ⟨binds, fun s stored r found => ?_⟩
    rcases (Mempool.writes_handleOthersPayload q s).final _ _ found with old | ⟨same, new⟩
    · rw [stored] at old
      obtain rfl : p = r := by simpa using old
      exact ⟨rfl, rfl⟩
    · obtain rfl : r = q := by simpa using new
      exact binds same.symm

end
end HotstuffDag

namespace HotstuffDag.Sample
open Library

def whole : Payload := Payload.new [[1, 2]] (key 2)

/-- The same bytes as two transactions, under the same signature. -/
def halves : Payload := { whole with transactions := [[1], [2]] }

theorem halves_replace_whole :
    halves.digest = whole.digest ∧ halves.transactions ≠ whole.transactions ∧
      ((host 1).run [others whole]).store.get? whole.digest = some (.payload whole) ∧
      ((host 1).run [others whole, others halves]).store.get? whole.digest = some (.payload halves) ∧
      ¬ (whole.digest = halves.digest → Payload.SameContent whole halves) := by
  refine ⟨by decide +kernel, by decide, by decide +kernel, by decide +kernel, fun binds => ?_⟩
  exact absurd (binds (by decide +kernel)).2 (by decide)

theorem payloads_differ : ¬ whole.digest = (Payload.new [[3]] (key 2)).digest := by
  intro same
  have binds := (Payload.digest_binds_transactions whole (Payload.new [[3]] (key 2)) (by decide +kernel)).mpr ?_
  · exact absurd (binds.1 same).2 (by decide)
  · exact fun recut => absurd recut.2.1 (by decide)

end HotstuffDag.Sample
