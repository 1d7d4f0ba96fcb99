/-!
# Base-256 digits

Natural numbers as bytes: `littleEndian w n` and `bigEndian w n` are the `w` low digits of `n`,
`ofLittleEndian` and `ofBigEndian` read any digits back, and `byteLength n` is the number of digits
that `n` needs. It is computed through `Nat.log2`, so no division loop is involved.
-/

namespace ExternalTerm.Digits

/-- The `w` low base-256 digits of `n`, least significant first. -/
def littleEndian : (w n : Nat) → List UInt8
  | 0, _ => []
  | w + 1, n => UInt8.ofNat n :: littleEndian w (n / 256)

def ofLittleEndian : List UInt8 → Nat
  | [] => 0
  | d :: ds => d.toNat + 256 * ofLittleEndian ds

def bigEndian (w n : Nat) : List UInt8 := (littleEndian w n).reverse

def ofBigEndian (ds : List UInt8) : Nat := ofLittleEndian ds.reverse

/-- The number of base-256 digits of `n` without leading zeros; zero has none. -/
def byteLength (n : Nat) : Nat := if n = 0 then 0 else n.log2 / 8 + 1

@[simp] theorem length_littleEndian (w n : Nat) : (littleEndian w n).length = w := by
  induction w generalizing n with
  | zero => rfl
  | succ w ih => simp [littleEndian, ih]

@[simp] theorem length_bigEndian (w n : Nat) : (bigEndian w n).length = w := by
  simp [bigEndian]

end ExternalTerm.Digits
