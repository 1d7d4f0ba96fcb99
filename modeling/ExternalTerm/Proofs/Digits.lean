import ExternalTerm.Digits
import Mathlib.Algebra.Group.Nat.Defs

/-!
# Numbers and their digits

`bigEndian w` and `ofBigEndian` are inverse on the numbers below `256 ^ w` and the runs of `w`
bytes; `byteLength n` is the least width that holds `n` (`byteLength_le_iff`).
-/

namespace ExternalTerm.Digits

theorem ofLittleEndian_littleEndian (w n : Nat) :
    ofLittleEndian (littleEndian w n) = n % 256 ^ w := by
  induction w generalizing n with
  | zero => simp [littleEndian, ofLittleEndian, Nat.mod_one]
  | succ w ih =>
    rw [littleEndian, ofLittleEndian, ih, Nat.pow_succ', Nat.mod_mul]
    rfl

theorem ofBigEndian_bigEndian (w n : Nat) : ofBigEndian (bigEndian w n) = n % 256 ^ w := by
  rw [ofBigEndian, bigEndian, List.reverse_reverse, ofLittleEndian_littleEndian]

theorem ofLittleEndian_lt (ds : List UInt8) : ofLittleEndian ds < 256 ^ ds.length := by
  induction ds with
  | nil => simp [ofLittleEndian]
  | cons d ds ih =>
    have hd : d.toNat < 256 := d.toNat_lt
    rw [ofLittleEndian, List.length_cons, Nat.pow_succ]
    omega

theorem littleEndian_ofLittleEndian (ds : List UInt8) :
    littleEndian ds.length (ofLittleEndian ds) = ds := by
  induction ds with
  | nil => rfl
  | cons d ds ih =>
    have hd : d.toNat < 256 := d.toNat_lt
    rw [List.length_cons, littleEndian, ofLittleEndian, Nat.add_mul_div_left _ _ (by decide),
      Nat.div_eq_of_lt hd, Nat.zero_add, ih]
    congr 1
    apply UInt8.toNat.inj
    simp

theorem ofBigEndian_bigEndian_of_lt {w n : Nat} (h : n < 256 ^ w) :
    ofBigEndian (bigEndian w n) = n := by
  rw [ofBigEndian_bigEndian, Nat.mod_eq_of_lt h]

theorem bigEndian_ofBigEndian (ds : List UInt8) : bigEndian ds.length (ofBigEndian ds) = ds := by
  have h := littleEndian_ofLittleEndian ds.reverse
  rw [List.length_reverse] at h
  rw [bigEndian, ofBigEndian, h, List.reverse_reverse]

theorem bigEndian_one (b : UInt8) : bigEndian 1 b.toNat = [b] := by
  simp [bigEndian, littleEndian]

theorem ofBigEndian_lt (ds : List UInt8) : ofBigEndian ds < 256 ^ ds.length := by
  have h := ofLittleEndian_lt ds.reverse
  rwa [List.length_reverse] at h

/-- The runs of `w` bytes are the digits of the numbers below `256 ^ w`. -/
theorem length_eq_and_ofBigEndian_eq_iff {ds : List UInt8} {w n : Nat} :
    ds.length = w ∧ ofBigEndian ds = n ↔ n < 256 ^ w ∧ ds = bigEndian w n := by
  refine ⟨fun h => ?_, fun h => ?_⟩
  · obtain ⟨rfl, rfl⟩ := h
    exact ⟨ofBigEndian_lt ds, (bigEndian_ofBigEndian ds).symm⟩
  · obtain ⟨h, rfl⟩ := h
    exact ⟨length_bigEndian w n, ofBigEndian_bigEndian_of_lt h⟩

theorem byteLength_le_iff {n w : Nat} : byteLength n ≤ w ↔ n < 256 ^ w := by
  rw [byteLength, show 256 = 2 ^ 8 from rfl, ← Nat.pow_mul]
  split
  next h =>
    rw [h]
    exact iff_of_true (Nat.zero_le w) (Nat.two_pow_pos _)
  next h =>
    rw [← Nat.log2_lt h]
    omega

theorem lt_byteLength_iff {n w : Nat} : w < byteLength n ↔ 256 ^ w ≤ n := by
  rw [← Nat.not_le, byteLength_le_iff, Nat.not_lt]

theorem ofLittleEndian_littleEndian_byteLength (n : Nat) :
    ofLittleEndian (littleEndian (byteLength n) n) = n := by
  rw [ofLittleEndian_littleEndian, Nat.mod_eq_of_lt (byteLength_le_iff.1 (Nat.le_refl _))]

theorem ofLittleEndian_concat (ds : List UInt8) (d : UInt8) :
    ofLittleEndian (ds ++ [d]) = ofLittleEndian ds + 256 ^ ds.length * d.toNat := by
  induction ds with
  | nil => simp [ofLittleEndian]
  | cons e ds ih =>
    rw [List.cons_append, ofLittleEndian, ofLittleEndian, ih, Nat.mul_add, List.length_cons,
      Nat.pow_succ', Nat.mul_assoc, Nat.add_assoc]

/-- Digits are as few as can be when the last one is not zero. -/
theorem byteLength_ofLittleEndian_eq_iff {ds : List UInt8} :
    byteLength (ofLittleEndian ds) = ds.length ↔ ds.getLast? ≠ some 0 := by
  have hle : byteLength (ofLittleEndian ds) ≤ ds.length :=
    byteLength_le_iff.2 (ofLittleEndian_lt ds)
  rcases List.eq_nil_or_concat ds with rfl | ⟨ds, d, rfl⟩
  · exact iff_of_true rfl nofun
  have hfew := @byteLength_le_iff (ofLittleEndian (ds ++ [d])) ds.length
  rw [List.concat_eq_append, List.length_append, List.length_singleton] at hle ⊢
  rw [ofLittleEndian_concat] at hfew hle ⊢
  rw [List.getLast?_concat, ne_eq, Option.some.injEq]
  by_cases hd : d = 0
  · subst hd
    have hshort := hfew.2 (by simpa using ofLittleEndian_lt ds)
    exact iff_of_false (by omega) (not_not_intro rfl)
  · have hpos : 0 < d.toNat := Nat.pos_of_ne_zero fun h => hd (UInt8.toNat.inj h)
    have hmany : ¬ ofLittleEndian ds + 256 ^ ds.length * d.toNat < 256 ^ ds.length := by
      have := Nat.le_mul_of_pos_right (256 ^ ds.length) hpos
      omega
    have hlong := mt hfew.1 hmany
    exact iff_of_true (by omega) hd

end ExternalTerm.Digits
