import Mathlib.Data.List.GetD

/-! # Standard padded base64

Three bytes are written as four symbols. The last group is padded, and the bits that its padding
leaves over are zero, so a byte string has one text. -/

namespace Library.Base64

def alphabet : List Char := "ABCDEFGHIJKLMNOPQRSTUVWXYZabcdefghijklmnopqrstuvwxyz0123456789+/".toList

def symbol (n : Nat) : Char := alphabet.getD n 'A'

def value? (c : Char) : Option Nat := if c ∈ alphabet then some (alphabet.idxOf c) else none

theorem alphabet_length : alphabet.length = 64 := by decide

theorem alphabet_nodup : alphabet.Nodup := by decide

theorem symbol_mem {n : Nat} (h : n < 64) : symbol n ∈ alphabet := by
  unfold symbol
  rw [List.getD_eq_getElem _ _ (by rwa [alphabet_length])]
  exact List.getElem_mem _

@[simp] theorem value?_symbol {n : Nat} (h : n < 64) : value? (symbol n) = some n := by
  have bound : n < alphabet.length := by rwa [alphabet_length]
  unfold value?
  rw [if_pos (symbol_mem h)]
  unfold symbol
  rw [List.getD_eq_getElem _ _ bound, alphabet_nodup.idxOf_getElem n bound]

theorem of_value? {c : Char} {n : Nat} (h : value? c = some n) : n < 64 ∧ symbol n = c := by
  unfold value? at h
  split at h
  · next mem =>
      have bound := List.idxOf_lt_length_of_mem mem
      rw [← Option.some.inj h]
      constructor
      · rwa [alphabet_length] at bound
      · unfold symbol
        rw [List.getD_eq_getElem _ _ bound, List.getElem_idxOf]
  · contradiction

/-- The padding is not a symbol. -/
theorem symbol_ne_pad {n : Nat} (h : n < 64) : symbol n ≠ '=' := by
  intro same
  have absent : '=' ∉ alphabet := by decide
  exact absent (same ▸ symbol_mem h)

/-! ## Groups -/

def encodeGroup (a b c : UInt8) : List Char :=
  [symbol (a.toNat / 4), symbol (a.toNat % 4 * 16 + b.toNat / 16), symbol (b.toNat % 16 * 4 + c.toNat / 64),
    symbol (c.toNat % 64)]

def decodeGroup (c0 c1 c2 c3 : Char) : Option (List UInt8) := do
  let n0 ← value? c0
  let n1 ← value? c1
  let n2 ← value? c2
  let n3 ← value? c3
  return [.ofNat (n0 * 4 + n1 / 16), .ofNat (n1 % 16 * 16 + n2 / 4), .ofNat (n2 % 4 * 64 + n3)]

/-- The last group may be padded. -/
def decodeLast (c0 c1 c2 c3 : Char) : Option (List UInt8) :=
  if c3 ≠ '=' then decodeGroup c0 c1 c2 c3
  else if c2 ≠ '=' then do
    let n0 ← value? c0
    let n1 ← value? c1
    let n2 ← value? c2
    if n2 % 4 = 0 then some [.ofNat (n0 * 4 + n1 / 16), .ofNat (n1 % 16 * 16 + n2 / 4)] else none
  else do
    let n0 ← value? c0
    let n1 ← value? c1
    if n1 % 16 = 0 then some [.ofNat (n0 * 4 + n1 / 16)] else none

def encodeChars : List UInt8 → List Char
  | [] => []
  | [a] => [symbol (a.toNat / 4), symbol (a.toNat % 4 * 16), '=', '=']
  | [a, b] => [symbol (a.toNat / 4), symbol (a.toNat % 4 * 16 + b.toNat / 16), symbol (b.toNat % 16 * 4), '=']
  | a :: b :: c :: rest => encodeGroup a b c ++ encodeChars rest

def decodeChars : List Char → Option (List UInt8)
  | [] => some []
  | [c0, c1, c2, c3] => decodeLast c0 c1 c2 c3
  | c0 :: c1 :: c2 :: c3 :: rest => do
      let group ← decodeGroup c0 c1 c2 c3
      let others ← decodeChars rest
      return group ++ others
  | _ => none

def encode (bytes : List UInt8) : String := .ofList (encodeChars bytes)

def decode (s : String) : Option (List UInt8) := decodeChars s.toList

/-! ## A text of some bytes is read back -/

theorem byte_eq {n : Nat} {a : UInt8} (h : n = a.toNat) : UInt8.ofNat n = a := by
  rw [h, UInt8.ofNat_toNat]

theorem decodeGroup_encodeGroup (a b c : UInt8) :
    decodeGroup (symbol (a.toNat / 4)) (symbol (a.toNat % 4 * 16 + b.toNat / 16)) (symbol (b.toNat % 16 * 4 + c.toNat / 64))
      (symbol (c.toNat % 64)) = some [a, b, c] := by
  have la := a.toNat_lt
  have lb := b.toNat_lt
  have lc := c.toNat_lt
  unfold decodeGroup
  rw [value?_symbol (by omega), value?_symbol (by omega), value?_symbol (by omega), value?_symbol (by omega)]
  show some _ = some _
  rw [byte_eq (a := a) (by omega), byte_eq (a := b) (by omega), byte_eq (a := c) (by omega)]

theorem decodeChars_cons (c0 c1 c2 c3 : Char) {rest : List Char} (more : rest ≠ []) :
    decodeChars (c0 :: c1 :: c2 :: c3 :: rest) =
      (decodeGroup c0 c1 c2 c3).bind fun group => (decodeChars rest).map fun others => group ++ others := by
  rw [decodeChars]
  · cases decodeGroup c0 c1 c2 c3 with
    | none => rfl
    | some group => cases decodeChars rest <;> rfl
  · exact fun empty => more empty

theorem encodeChars_ne_nil {bytes : List UInt8} (h : bytes ≠ []) : encodeChars bytes ≠ [] := by
  fun_cases encodeChars bytes with
  | case1 => exact absurd rfl h
  | case2 a => exact List.cons_ne_nil _ _
  | case3 a b => exact List.cons_ne_nil _ _
  | case4 a b c rest => exact List.cons_ne_nil _ _

theorem decodeChars_encodeChars (bytes : List UInt8) : decodeChars (encodeChars bytes) = some bytes := by
  induction bytes using encodeChars.induct with
  | case1 => rfl
  | case2 a =>
      have la := a.toNat_lt
      simp only [encodeChars, decodeChars, decodeLast, ne_eq, not_true_eq_false, if_false]
      rw [value?_symbol (by omega), value?_symbol (by omega)]
      show (if _ then some _ else none) = some _
      rw [if_pos (by omega), byte_eq (a := a) (by omega)]
  | case3 a b =>
      have la := a.toNat_lt
      have lb := b.toNat_lt
      simp only [encodeChars, decodeChars, decodeLast, ne_eq, not_true_eq_false, if_false]
      rw [if_pos (symbol_ne_pad (by omega)), value?_symbol (by omega), value?_symbol (by omega), value?_symbol (by omega)]
      show (if _ then some _ else none) = some _
      rw [if_pos (by omega), byte_eq (a := a) (by omega), byte_eq (a := b) (by omega)]
  | case4 a b c rest ih =>
      have group := decodeGroup_encodeGroup a b c
      cases rest with
      | nil =>
          have lc := c.toNat_lt
          simp only [encodeChars, encodeGroup, List.append_nil, decodeChars, decodeLast]
          rw [if_pos (symbol_ne_pad (by omega)), group]
      | cons d others =>
          rw [encodeChars]
          show decodeChars (_ :: _ :: _ :: _ :: encodeChars (d :: others)) = _
          rw [decodeChars_cons _ _ _ _ (encodeChars_ne_nil (List.cons_ne_nil _ _)), group, ih]
          rfl

/-! ## What is read is a text of some bytes -/

theorem ofNat_toNat {n : Nat} (h : n < 256) : (UInt8.ofNat n).toNat = n := by
  rw [UInt8.toNat_ofNat', Nat.mod_eq_of_lt h]

theorem of_decodeGroup {c0 c1 c2 c3 : Char} {bytes : List UInt8} (h : decodeGroup c0 c1 c2 c3 = some bytes) :
    ∃ a b c, bytes = [a, b, c] ∧ encodeGroup a b c = [c0, c1, c2, c3] := by
  unfold decodeGroup at h
  simp only [Option.bind_eq_bind, Option.bind_eq_some_iff, Option.pure_def, Option.some.injEq] at h
  obtain ⟨n0, h0, n1, h1, n2, h2, n3, h3, rfl⟩ := h
  obtain ⟨l0, rfl⟩ := of_value? h0
  obtain ⟨l1, rfl⟩ := of_value? h1
  obtain ⟨l2, rfl⟩ := of_value? h2
  obtain ⟨l3, rfl⟩ := of_value? h3
  refine ⟨_, _, _, rfl, ?_⟩
  unfold encodeGroup
  rw [ofNat_toNat (by omega), ofNat_toNat (by omega), ofNat_toNat (by omega)]
  congr <;> omega

theorem of_decodeLast {c0 c1 c2 c3 : Char} {bytes : List UInt8} (h : decodeLast c0 c1 c2 c3 = some bytes) :
    encodeChars bytes = [c0, c1, c2, c3] := by
  unfold decodeLast at h
  split at h
  · obtain ⟨a, b, c, rfl, group⟩ := of_decodeGroup h
    rw [encodeChars, group]
    rfl
  · next pad =>
      rw [not_ne_iff] at pad
      split at h
      · simp only [Option.bind_eq_bind, Option.bind_eq_some_iff, Option.ite_none_right_eq_some, Option.some.injEq] at h
        obtain ⟨n0, h0, n1, h1, n2, h2, low, rfl⟩ := h
        obtain ⟨l0, rfl⟩ := of_value? h0
        obtain ⟨l1, rfl⟩ := of_value? h1
        obtain ⟨l2, rfl⟩ := of_value? h2
        rw [encodeChars, ofNat_toNat (by omega), ofNat_toNat (by omega), pad]
        congr <;> omega
      · next pad' =>
          rw [not_ne_iff] at pad'
          simp only [Option.bind_eq_bind, Option.bind_eq_some_iff, Option.ite_none_right_eq_some, Option.some.injEq] at h
          obtain ⟨n0, h0, n1, h1, low, rfl⟩ := h
          obtain ⟨l0, rfl⟩ := of_value? h0
          obtain ⟨l1, rfl⟩ := of_value? h1
          rw [encodeChars, ofNat_toNat (by omega), pad, pad']
          congr <;> omega

theorem of_decodeChars {l : List Char} {bytes : List UInt8} (h : decodeChars l = some bytes) : encodeChars bytes = l := by
  induction l using decodeChars.induct generalizing bytes with
  | case1 =>
      rw [← Option.some.inj h]
      rfl
  | case2 c0 c1 c2 c3 => exact of_decodeLast h
  | case3 c0 c1 c2 c3 rest more ih =>
      rw [decodeChars_cons c0 c1 c2 c3 more, Option.bind_eq_some_iff] at h
      obtain ⟨group, first, h⟩ := h
      obtain ⟨others, later, rfl⟩ := Option.map_eq_some_iff.mp h
      obtain ⟨a, b, c, rfl, symbols⟩ := of_decodeGroup first
      show encodeGroup a b c ++ encodeChars others = _
      rw [symbols, ih later]
      rfl
  | case4 l short long other =>
      rw [decodeChars] at h <;> simp_all

/-- The texts that are read are those that are written. -/
theorem decode_eq_some {s : String} {bytes : List UInt8} : decode s = some bytes ↔ s = encode bytes := by
  constructor
  · intro h
    unfold encode
    rw [of_decodeChars h, String.ofList_toList]
  · rintro rfl
    unfold decode encode
    rw [String.toList_ofList]
    exact decodeChars_encodeChars bytes

end Library.Base64
