import ExternalTerm.Proofs.Agreement
import ExternalTerm.Proofs.Numeral
import ExternalTerm.Proofs.RoundTrip
import Mathlib.Algebra.BigOperators.Fin
import Mathlib.Tactic.Ring

/-!
# Magnitudes of integers

An integer outside the 32-bit range is written with the base-256 digits of its magnitude, and read
from any digits whatever.

* `Digits.remainders` : the digits that repeated division gives; `remainders_natCast`: these are the
  digits that are written, and no remainder is lost (`byte?_emod`);
* `Magnitude n ds` : `ds` are the digits of the magnitude of `n`, and no fewer are enough;
* `reads_signed`, `stops_signed` : any digits, with either sign;
* `magnitude_written_and_read` : so an integer is written with as few digits as it needs, if one
  byte can count them, and read back.
-/

namespace ExternalTerm

open Reader

namespace Digits

/-! ## Division -/

def byte? (n : Int) : Option UInt8 :=
  if 0 ≤ n ∧ n < 256 then some (UInt8.ofNat n.toNat) else none

/-- The remainders of dividing by 256 until nothing is left. One that were no byte would count as
zero. -/
def remainders (v : Int) : List UInt8 :=
  if 0 < v then (byte? (v % 256)).getD 0 :: remainders (v / 256) else []
termination_by v.toNat

theorem byte?_emod (v : Int) : byte? (v % 256) = some (UInt8.ofNat (v % 256).toNat) := by
  unfold byte?
  rw [if_pos (by omega)]

theorem byteLength_eq_succ {n : Nat} (h : 0 < n) : byteLength n = byteLength (n / 256) + 1 := by
  have hpos : ¬ byteLength n ≤ 0 := by
    rw [byteLength_le_iff, Nat.pow_zero]
    omega
  have hle (w : Nat) : byteLength n ≤ w + 1 ↔ byteLength (n / 256) ≤ w := by
    rw [byteLength_le_iff, byteLength_le_iff, Nat.div_lt_iff_lt_mul (by decide), Nat.pow_succ]
  apply Nat.le_antisymm
  · rw [hle]
  · have := (hle (byteLength n - 1)).1 (by omega)
    omega

/-- Repeated division of a natural number gives its digits, as many as it needs. -/
theorem remainders_natCast (n : Nat) : remainders n = littleEndian (byteLength n) n := by
  induction n using Nat.strong_induction_on with
  | _ n ih =>
  rcases Nat.eq_zero_or_pos n with rfl | hn
  · unfold remainders
    rfl
  · have hdigit : (n : Int) % 256 = (n % 256 : Nat) := by simp
    have hrest : (n : Int) / 256 = (n / 256 : Nat) := by simp
    rw [remainders, if_pos (by omega), byte?_emod, hdigit, hrest, ih (n / 256) (by omega),
      byteLength_eq_succ hn, littleEndian, Int.toNat_natCast]
    congr 1
    apply UInt8.toNat.inj
    simp

/-! ## Sums -/

theorem sum_digits (ds : List UInt8) :
    ∑ i : Fin ds.length, ds[i].toNat * 256 ^ i.val = ofLittleEndian ds := by
  induction ds with
  | nil => rfl
  | cons d ds ih =>
    rw [ofLittleEndian, ← ih, Finset.mul_sum]
    show ∑ i : Fin (ds.length + 1), _ = _
    rw [Fin.sum_univ_succ]
    simp [pow_succ]
    apply Finset.sum_congr rfl
    intro i _
    ring

end Digits

/-- `ds` are the base-256 digits of the magnitude of `n`, least significant first, and no fewer
digits are enough for it. -/
structure Magnitude (n : Int) (ds : List UInt8) : Prop where
  value : ∑ i : Fin ds.length, ds[i].toNat * 256 ^ i.val = n.natAbs
  least : IsLeast {k | n.natAbs < 256 ^ k} ds.length

section
variable {n : Int} {ds : List UInt8}

theorem magnitude_littleEndian (n : Int) :
    Magnitude n (Digits.littleEndian (Digits.byteLength n.natAbs) n.natAbs) := by
  constructor
  · rw [Digits.sum_digits, Digits.ofLittleEndian_littleEndian_byteLength]
  · rw [Digits.length_littleEndian]
    constructor
    · exact Digits.byteLength_le_iff.1 (Nat.le_refl _)
    · intro k hk
      exact Digits.byteLength_le_iff.2 hk

theorem remainders_abs (n : Int) :
    Digits.remainders |n| = Digits.littleEndian (Digits.byteLength n.natAbs) n.natAbs := by
  rw [Int.abs_eq_natAbs, Digits.remainders_natCast]

/-- The integers below 256 to the power of `k` have at most `k` digits, and no others do. -/
theorem Magnitude.length_le_iff (h : Magnitude n ds) {k : Nat} :
    ds.length ≤ k ↔ n.natAbs < 256 ^ k := by
  constructor
  · intro hk
    exact Nat.lt_of_lt_of_le h.least.1 (Nat.pow_le_pow_right (by decide) hk)
  · intro hk
    exact h.least.2 hk

end

/-! ## Writing -/

section
variable {n : Int}

theorem integerBytes_of_not_fits (h : ¬ Width.w32.Fits n) :
    Term.integerBytes n =
      Tag.smallBig.byte :: UInt8.ofNat (Digits.byteLength n.natAbs) :: signByte (n < 0) ::
        Digits.littleEndian (Digits.byteLength n.natAbs) n.natAbs := by
  rw [Term.integerBytes, if_neg (mt fits_w32_of_small h), if_neg h]
  simp [Digits.bigEndian, Digits.littleEndian, signByte]

theorem integer_of_fits (h : Width.w32.Fits n) :
    Writer.integer n = Writer.int32 (Int32.ofInt n) := if_pos h

theorem integer_of_short (h : Digits.byteLength n.natAbs ≤ 255) {s : Sink} (hs : s.Unlimited) :
    Writer.integer n s = .ok () (s.append (Term.integerBytes n)) := by
  have hw := writes_integer n s hs
  rwa [Term.fault?_bigInt, if_neg fun hf => Nat.not_lt.2 h hf.2] at hw

/-- An integer of too many digits is refused before anything is written. -/
theorem integer_of_long (hn : ¬ Width.w32.Fits n) (h : 255 < Digits.byteLength n.natAbs)
    (s : Sink) :
    Writer.integer n s = .error (.bigIntegerTooLarge (Digits.byteLength n.natAbs)) s := by
  unfold Writer.integer
  rw [if_neg hn]
  dsimp only
  rw [if_pos (show smallLengthMax < _ from h)]
  rfl

end

/-! ## Reading -/

section
variable {L : Limits} {d : Nat} {N sign : UInt8} {ds : List UInt8} {more : List UInt8 → Prop}

theorem signByte_of_le (h : sign ≤ 1) : ∃ negative, sign = signByte negative := by
  have hsign : sign.toNat ≤ 1 := UInt8.le_iff_toNat_le.1 h
  rcases Nat.le_one_iff_eq_zero_or_eq_one.1 hsign with h | h
  · exact ⟨false, UInt8.toNat.inj h⟩
  · exact ⟨true, UInt8.toNat.inj h⟩

theorem signedValue_eq (negative : Bool) (ds : List UInt8) :
    signedValue negative ds = (-1) ^ (signByte negative).toNat *
      ∑ i : Fin ds.length, (ds[i].toNat : Int) * 256 ^ i.val := by
  have hsum : ∑ i : Fin ds.length, (ds[i].toNat : Int) * 256 ^ i.val =
      (Digits.ofLittleEndian ds : Int) := by
    rw [← Digits.sum_digits]
    push_cast
    rfl
  rw [hsum]
  cases negative <;> simp [signedValue, signByte]

/-- Any digits are read, of either sign, if the limit admits them. -/
theorem reads_signed (hN : ds.length = N.toNat) (hsign : sign ≤ 1) (hl : N.toNat ≤ L.maxPayload) :
    Reads bigIntegerBody L d (N :: sign :: ds)
      ((-1) ^ sign.toNat * ∑ i : Fin ds.length, (ds[i].toNat : Int) * 256 ^ i.val) := by
  obtain ⟨negative, rfl⟩ := signByte_of_le hsign
  rw [← signedValue_eq]
  have hlt : ds.length < 256 := hN ▸ N.toNat_lt
  have hform := IntegerForm.big negative ds hlt
  rw [hN, Digits.bigEndian_one] at hform
  apply reads_bigIntegerBody_iff.2
  refine ⟨hform, ?_⟩
  simp [hN, hl]

/-- Digits that the limit does not admit are refused before they are read. -/
theorem stops_signed (hsign : sign ≤ 1) (hl : L.maxPayload < N.toNat) :
    Stops more bigIntegerBody L d [N, sign] (.limitExceeded .byteRun N.toNat L.maxPayload) := by
  have hdigits : Stops more (signedDigits N.toNat sign) L d []
      (.limitExceeded .byteRun N.toNat L.maxPayload) := by
    unfold signedDigits
    rw [if_neg (UInt8.not_lt.2 hsign)]
    exact ((stops_run hl).rename _).bind
  have hlength : Reads (unsigned 1) L d [N] N.toNat := by
    rw [← Digits.bigEndian_one]
    exact reads_unsigned N.toNat_lt
  rw [bigIntegerBody_eq]
  exact hlength.bind_stops ((reads_byte sign).bind_stops hdigits)

end

/-! ## Both -/

section
variable {n : Int}

/-- The number of digits and the digits, as they are written for an integer outside the range. -/
theorem exists_magnitude (hn : ¬ Width.w32.Fits n) :
    ∃ ds, ds = Digits.remainders |n| ∧ Magnitude n ds ∧
      (n.natAbs < 256 ^ 255 → ∃ N : UInt8, N.toNat = ds.length ∧
        ∀ s : Sink, s.Unlimited → Writer.integer n s =
          .ok () (s.append (Tag.smallBig.byte :: N :: signByte (n < 0) :: ds))) ∧
      (256 ^ 255 ≤ n.natAbs → ∀ s,
        Writer.integer n s = .error (.bigIntegerTooLarge ds.length) s) := by
  have hm := magnitude_littleEndian n
  refine ⟨_, (remainders_abs n).symm, hm, fun h => ?_, fun h s => ?_⟩
  · have hshort : Digits.byteLength n.natAbs ≤ 255 := Digits.byteLength_le_iff.2 h
    refine ⟨UInt8.ofNat (Digits.byteLength n.natAbs), ?_, fun s hs => ?_⟩
    · rw [Digits.length_littleEndian, Utf8.toNat_ofNat_lt (Nat.lt_succ_of_le hshort)]
    · rw [integer_of_short hshort hs, integerBytes_of_not_fits hn]
  · have hlong : 255 < Digits.byteLength n.natAbs := Digits.lt_byteLength_iff.2 h
    rw [integer_of_long hn hlong, Digits.length_littleEndian]

/-- What was written for an integer is read back as this integer. -/
theorem reads_written_integer {s : Sink} (hs : s.Unlimited) {data : List UInt8}
    (h : Writer.integer n s = .ok () (s.append data)) {L : Limits}
    (hl : (Term.bigInt n).payload ≤ L.maxPayload) (d : Nat) : Reads bigInteger L d data n := by
  obtain ⟨hfault, rfl⟩ := orFault_eq_ok_iff.1 (((writes_integer n).ok_iff hs).1 h)
  obtain ⟨tag, body, hbytes, hform, hlen⟩ := Term.exists_integerForm hfault
  rw [hbytes]
  apply reads_bigInteger_iff.2
  exact ⟨tag, body, rfl, hform, (hlen _).2 hl⟩

/-- An integer of the 32-bit range is written as such. Any other is written as the number of its
digits, its sign and the digits, which are those that repeated division gives, as few as can be, if
one byte can count them; if not, it is refused, and nothing is written. Any digits with a sign are
read as the number that they stand for, unless they are more than the limit admits. So an integer
that was written is read back. -/
theorem magnitude_written_and_read :
    (∀ n, Width.w32.Fits n → Writer.integer n = Writer.int32 (Int32.ofInt n)) ∧
    (∀ n, ¬ Width.w32.Fits n → ∃ ds, ds = Digits.remainders |n| ∧ Magnitude n ds ∧
      (n.natAbs < 256 ^ 255 → ∃ N : UInt8, N.toNat = ds.length ∧
        ∀ s : Sink, s.Unlimited → Writer.integer n s =
          .ok () (s.append (Tag.smallBig.byte :: N :: signByte (n < 0) :: ds))) ∧
      (256 ^ 255 ≤ n.natAbs → ∀ s,
        Writer.integer n s = .error (.bigIntegerTooLarge ds.length) s)) ∧
    (∀ (N sign : UInt8) (ds : List UInt8), ds.length = N.toNat → sign ≤ 1 →
      ∀ (L : Limits) (d : Nat),
        (N.toNat ≤ L.maxPayload → Reads bigIntegerBody L d (N :: sign :: ds)
          ((-1) ^ sign.toNat * ∑ i : Fin ds.length, (ds[i].toNat : Int) * 256 ^ i.val)) ∧
        (L.maxPayload < N.toNat → Stops (fun _ => True) bigIntegerBody L d [N, sign]
          (.limitExceeded .byteRun N.toNat L.maxPayload))) ∧
    ∀ n (s : Sink) data, s.Unlimited → Writer.integer n s = .ok () (s.append data) →
      ∀ (L : Limits) (d : Nat), (Term.bigInt n).payload ≤ L.maxPayload →
        Reads bigInteger L d data n := by
  refine ⟨fun n => integer_of_fits, fun n => exists_magnitude, fun N sign ds hN hsign L d => ?_,
    fun n s data hs h L d hl => reads_written_integer hs h hl d⟩
  exact ⟨reads_signed hN hsign, stops_signed hsign⟩

/-- The greatest integer below the 32-bit range, the first that has too many digits, and a negative
zero of two digits. -/
theorem magnitude_written_and_read_limits :
    Writer.integer (-2147483649) {} =
      .ok () (({} : Sink).append [110, 4, 1, 1, 0, 0, 128]) ∧
    Writer.integer (256 ^ 255) {} = .error (.bigIntegerTooLarge 256) {} ∧
    Reads bigIntegerBody {} 0 [2, 1, 0, 0] 0 ∧
    Reads bigInteger {} 0 [110, 4, 1, 1, 0, 0, 128] (-2147483649) := by
  obtain ⟨-, hwrite, hread, hback⟩ := magnitude_written_and_read
  have hsmall : Writer.integer (-2147483649) {} =
      .ok () (({} : Sink).append [110, 4, 1, 1, 0, 0, 128]) := by
    obtain ⟨ds, hds, -, hok, -⟩ := hwrite (-2147483649) (by decide)
    obtain ⟨N, hN, hs⟩ := hok (by decide)
    rw [remainders_abs] at hds
    obtain rfl : ds = [1, 0, 0, 128] := hds.trans (by rfl)
    obtain rfl : N = 4 := UInt8.toNat.inj hN
    exact hs {} unlimited_empty
  have hlarge : Writer.integer (256 ^ 255) {} = .error (.bigIntegerTooLarge 256) {} := by
    have habs : (256 ^ 255 : Int).natAbs = 256 ^ 255 := Int.natAbs_pow 256 255
    obtain ⟨ds, -, hm, -, herror⟩ := hwrite (256 ^ 255) (by decide)
    have hmany : ¬ ds.length ≤ 255 := by
      rw [hm.length_le_iff, habs]
      exact Nat.lt_irrefl _
    have hfew : ds.length ≤ 256 := by
      rw [hm.length_le_iff, habs]
      exact Nat.pow_lt_pow_right (by decide) (by decide)
    have hlen : ds.length = 256 := by omega
    have hle : 256 ^ 255 ≤ (256 ^ 255 : Int).natAbs := by rw [habs]
    rw [herror hle, hlen]
  have hzero : Reads bigIntegerBody {} 0 [2, 1, 0, 0] 0 := by
    simpa using (hread 2 1 [0, 0] rfl (by decide) {} 0).1 (by decide)
  exact ⟨hsmall, hlarge, hzero, hback _ {} _ unlimited_empty hsmall {} 0 (by decide)⟩

end

end ExternalTerm
