/-!
# Integer widths

The widths a machine integer can have, and the signed range of each.
-/

namespace ExternalTerm

inductive Width where
  | w8
  | w16
  | w32
  | w64
  deriving DecidableEq, Repr, Inhabited

namespace Width

def bits : Width → Nat
  | w8 => 8
  | w16 => 16
  | w32 => 32
  | w64 => 64

/-- That `n` lies in the signed range of the width. -/
def Fits (w : Width) (n : Int) : Prop :=
  -(1 <<< (w.bits - 1)) ≤ n ∧ n < 1 <<< (w.bits - 1)

instance (w : Width) (n : Int) : Decidable (w.Fits n) :=
  inferInstanceAs (Decidable (_ ∧ _))

def name (w : Width) : String := s!"{w.bits}-bit"

theorem fits_w32_iff {n : Int} : w32.Fits n ↔ -0x80000000 ≤ n ∧ n < 0x80000000 := Iff.rfl

theorem fits_w64_iff {n : Int} :
    w64.Fits n ↔ -0x8000000000000000 ≤ n ∧ n < 0x8000000000000000 := Iff.rfl

theorem fits_toInt32 (n : Int32) : w32.Fits n.toInt := ⟨n.le_toInt, n.toInt_lt⟩

theorem fits_toInt64 (n : Int64) : w64.Fits n.toInt := ⟨n.le_toInt, n.toInt_lt⟩

theorem toInt_ofInt32 {n : Int} (h : w32.Fits n) : (Int32.ofInt n).toInt = n :=
  Int32.toInt_ofInt_of_le h.1 h.2

theorem toInt_ofInt64 {n : Int} (h : w64.Fits n) : (Int64.ofInt n).toInt = n :=
  Int64.toInt_ofInt_of_le h.1 h.2

end Width

end ExternalTerm
