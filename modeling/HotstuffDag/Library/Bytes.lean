import Mathlib.Algebra.Ring.Nat
import Mathlib.Data.List.Basic
import Mathlib.Data.Nat.Basic

/-! # Byte strings

Fixed-width little-endian encodings, and how a concatenation of fields is taken apart again. -/

namespace Library.Bytes

/-- The `width` lowest bytes of `n`, lowest first. -/
def leBytes : Nat → Nat → List UInt8
  | 0, _ => []
  | width + 1, n => UInt8.ofNat n :: leBytes width (n / 256)

@[simp] theorem leBytes_length (width n : Nat) : (leBytes width n).length = width := by
  induction width generalizing n with
  | zero => rfl
  | succ width ih => simp [leBytes, ih]

theorem leBytes_injective {width a b : Nat} (ha : a < 256 ^ width) (hb : b < 256 ^ width)
    (h : leBytes width a = leBytes width b) : a = b := by
  induction width generalizing a b with
  | zero => simp only [Nat.pow_zero, Nat.lt_one_iff] at ha hb; omega
  | succ width ih =>
      simp only [leBytes, List.cons.injEq] at h
      have low : a % 256 = b % 256 := by
        simpa using congrArg UInt8.toNat h.1
      have bound (n : Nat) (hn : n < 256 ^ (width + 1)) : n / 256 < 256 ^ width := by
        rw [Nat.pow_succ] at hn
        exact Nat.div_lt_of_lt_mul (by rwa [Nat.mul_comm])
      have high := ih (bound a ha) (bound b hb) h.2
      omega

/-- The number of some bytes, lowest first. -/
def leNat : List UInt8 → Nat
  | [] => 0
  | b :: rest => b.toNat + 256 * leNat rest

theorem leNat_lt (l : List UInt8) : leNat l < 256 ^ l.length := by
  induction l with
  | nil => exact Nat.one_pos
  | cons b rest ih =>
      have low := b.toNat_lt
      rw [leNat, List.length_cons, Nat.pow_succ]
      omega

theorem leBytes_leNat (l : List UInt8) : leBytes l.length (leNat l) = l := by
  induction l with
  | nil => rfl
  | cons b rest ih =>
      have low := b.toNat_lt
      have high : leNat (b :: rest) / 256 = leNat rest := by
        rw [leNat]
        omega
      have first : UInt8.ofNat (leNat (b :: rest)) = b := by
        apply UInt8.toNat_inj.mp
        rw [leNat, UInt8.toNat_ofNat']
        omega
      rw [List.length_cons, leBytes, first, high, ih]

/-- Concatenations agree when their fields do, if the first fields are of one length. -/
theorem append_eq_iff {α : Type} {a b c d : List α} (h : a.length = b.length) :
    a ++ c = b ++ d ↔ a = b ∧ c = d := by
  constructor
  · exact fun same => List.append_inj same h
  · rintro ⟨rfl, rfl⟩
    rfl

/-! ## Sequences of fixed-width items -/

section
variable {α β : Type} {f : α → List β} {width : Nat}

theorem flatMap_length (fixed : ∀ a, (f a).length = width) (l : List α) :
    (l.flatMap f).length = width * l.length := by
  induction l with
  | nil => rfl
  | cons a rest ih => rw [List.flatMap_cons, List.length_append, fixed, ih, List.length_cons, Nat.mul_succ, Nat.add_comm]

theorem flatMap_injective (fixed : ∀ a, (f a).length = width) (positive : 0 < width)
    (injective : Function.Injective f) : Function.Injective (List.flatMap f) := by
  intro l l' same
  induction l generalizing l' with
  | nil =>
      have lengths := congrArg List.length same
      rw [flatMap_length fixed, flatMap_length fixed, List.length_nil, Nat.mul_zero] at lengths
      have empty := (Nat.mul_eq_zero.mp lengths.symm).resolve_left (Nat.ne_of_gt positive)
      exact (List.length_eq_zero_iff.mp empty).symm
  | cons a rest ih =>
      cases l' with
      | nil =>
          have lengths := congrArg List.length same
          rw [flatMap_length fixed, flatMap_length fixed, List.length_nil, Nat.mul_zero] at lengths
          have occupied : 0 < width * (rest.length + 1) := Nat.mul_pos positive (Nat.succ_pos _)
          exact absurd lengths (Nat.ne_of_gt occupied)
      | cons a' rest' =>
          rw [List.flatMap_cons, List.flatMap_cons] at same
          obtain ⟨first, others⟩ := List.append_inj same (by rw [fixed, fixed])
          rw [injective first, ih others]

/-- What stands before the end of a sequence is itself a sequence, if it is as long as one. -/
theorem flatMap_eq_append (fixed : ∀ a, (f a).length = width) (positive : 0 < width)
    (injective : Function.Injective f) {l l' : List α} {front : List β} (same : l.flatMap f = front ++ l'.flatMap f) :
    ∃ more, front = more.flatMap f ∧ l = more ++ l' := by
  have lengths := congrArg List.length same
  rw [List.length_append, flatMap_length fixed, flatMap_length fixed] at lengths
  have longer : l'.length ≤ l.length := Nat.le_of_mul_le_mul_left (by omega) positive
  have split := List.take_append_drop (l.length - l'.length) l
  have frontLength : front.length = ((l.take (l.length - l'.length)).flatMap f).length := by
    rw [flatMap_length fixed, List.length_take, Nat.min_eq_left (Nat.sub_le _ _), Nat.mul_sub]
    omega
  rw [← split, List.flatMap_append] at same
  obtain ⟨first, others⟩ := List.append_inj same.symm frontLength
  have rest := flatMap_injective fixed positive injective others
  refine ⟨_, first, ?_⟩
  calc l = l.take (l.length - l'.length) ++ l.drop (l.length - l'.length) := split.symm
    _ = l.take (l.length - l'.length) ++ l' := congrArg _ rest.symm

end

end Library.Bytes
