import ExternalTerm.Utf8
import Mathlib.Tactic.IntervalCases

/-!
# UTF-8 is read back

* `decode_eq_ok_iff` : the bytes that `decode` reads as a text are those that `encode` writes for it;
* `encode_eq_toUTF8` : these are the bytes that a string is made of.

Both directions go through the bits that the bytes of a character carry: `tail k` is a later byte
with the bits `k`, and `lead_two`, `lead_three` and `lead_four` say what a first byte with the bits
`k` announces.
-/

namespace ExternalTerm.Utf8

def tail (k : Nat) : UInt8 := UInt8.ofNat (0x80 + k)

theorem toNat_ofNat_lt {n : Nat} (h : n < 256) : (UInt8.ofNat n).toNat = n := by
  rw [UInt8.toNat_ofNat', Nat.mod_eq_of_lt h]

theorem toNat_tail {k : Nat} (h : k < 64) : (tail k).toNat = 0x80 + k :=
  toNat_ofNat_lt (by omega)

theorem eq_ofNat_toNat {b : UInt8} {n : Nat} (h : b.toNat = n) : b = UInt8.ofNat n := by
  rw [← h, UInt8.ofNat_toNat]

/-- The characters are the numbers that are no surrogates. -/
theorem toNat_ofNat_valid {n : Nat} (h : n.isValidChar) : (Char.ofNat n).toNat = n := by
  rw [Char.ofNat, dif_pos h]
  rfl

theorem toNat_char_lt (c : Char) : c.toNat < 0x110000 := by
  rcases c.valid with h | h
  · exact Nat.lt_trans h (by decide)
  · exact h.2

/-! ## First bytes -/

theorem lead_two {k : Nat} (h₁ : 2 ≤ k) (h₂ : k < 32) :
    lead (UInt8.ofNat (0xC0 + k)) = some ⟨1, k, 0, 0x80, 0xBF⟩ := by
  interval_cases k <;> rfl

theorem lead_three {k : Nat} (h : k < 16) :
    lead (UInt8.ofNat (0xE0 + k)) = some ⟨1, k, 1, if k = 0 then 0xA0 else 0x80,
      if k = 13 then 0x9F else 0xBF⟩ := by
  interval_cases k <;> rfl

theorem lead_four {k : Nat} (h : k < 5) :
    lead (UInt8.ofNat (0xF0 + k)) = some ⟨1, k, 2, if k = 0 then 0x90 else 0x80,
      if k = 4 then 0x8F else 0xBF⟩ := by
  interval_cases k <;> rfl

/-- A byte that announces more bytes is one of these. -/
theorem lead_cases {b : UInt8} {p : Partial} (h : lead b = some p) :
    (∃ k, 2 ≤ k ∧ k < 32 ∧ b = UInt8.ofNat (0xC0 + k)) ∨
      (∃ k < 16, b = UInt8.ofNat (0xE0 + k)) ∨ ∃ k < 5, b = UInt8.ofNat (0xF0 + k) := by
  have hb := b.toNat_lt
  have hlow : ¬ b < 0xC2 := fun hlt => by rw [lead, if_pos hlt] at h; cases h
  have hhigh : ¬ 0xF4 < b.toNat := fun hgt => by
    have hlt : ∀ c : UInt8, c.toNat ≤ 0xF4 → ¬ b < c := fun c hc hbc => by
      have := UInt8.lt_iff_toNat_lt.1 hbc
      omega
    have hne : ∀ c : UInt8, c.toNat ≤ 0xF4 → b ≠ c := fun c hc hbc => by
      rw [hbc] at hgt
      omega
    unfold lead at h
    rw [if_neg (hlt _ (by decide)), if_neg (hlt _ (by decide)), if_neg (hne _ (by decide)),
      if_neg (hne _ (by decide)), if_neg (hlt _ (by decide)), if_neg (hne _ (by decide)),
      if_neg (hlt _ (by decide)), if_neg (hne _ (by decide))] at h
    cases h
  rw [UInt8.lt_iff_toNat_lt, show (0xC2 : UInt8).toNat = 0xC2 from rfl] at hlow
  by_cases h₁ : b.toNat < 0xE0
  · exact .inl ⟨b.toNat - 0xC0, by omega, by omega, eq_ofNat_toNat (by omega)⟩
  · by_cases h₂ : b.toNat < 0xF0
    · exact .inr (.inl ⟨b.toNat - 0xE0, by omega, eq_ofNat_toNat (by omega)⟩)
    · exact .inr (.inr ⟨b.toNat - 0xF0, by omega, eq_ofNat_toNat (by omega)⟩)

/-! ## Later bytes -/

section Later

variable {seen bits more start k : Nat} {low high : UInt8} {chars cs : List Char}
  {bytes : List UInt8}

theorem scan_last (hk : k < 64) (hlow : low.toNat ≤ 0x80 + k) (hhigh : 0x80 + k ≤ high.toNat) :
    scan (some ⟨seen, bits, 0, low, high⟩) start chars (tail k :: bytes) =
      scan none (start + (seen + 1)) (Char.ofNat (bits * 64 + k) :: chars) bytes := by
  rw [← toNat_tail hk, ← UInt8.le_iff_toNat_le] at hlow hhigh
  rw [scan, if_pos ⟨hlow, hhigh⟩, toNat_tail hk, Nat.add_sub_cancel_left]

theorem scan_more (hk : k < 64) (hlow : low.toNat ≤ 0x80 + k) (hhigh : 0x80 + k ≤ high.toNat) :
    scan (some ⟨seen, bits, more + 1, low, high⟩) start chars (tail k :: bytes) =
      scan (some ⟨seen + 1, bits * 64 + k, more, 0x80, 0xBF⟩) start chars bytes := by
  rw [← toNat_tail hk, ← UInt8.le_iff_toNat_le] at hlow hhigh
  rw [scan, if_pos ⟨hlow, hhigh⟩, toNat_tail hk, Nat.add_sub_cancel_left]

/-- Where a character goes on, the next byte is a later byte within its bounds. -/
theorem exists_tail_of_scan (hlow : 0x80 ≤ low.toNat) (hhigh : high.toNat < 0xC0)
    (h : scan (some ⟨seen, bits, more, low, high⟩) start chars bytes = .ok cs) :
    ∃ k rest, bytes = tail k :: rest ∧ k < 64 ∧ low.toNat ≤ 0x80 + k ∧ 0x80 + k ≤ high.toNat := by
  cases bytes with
  | nil => cases h
  | cons b rest =>
    rw [scan] at h
    split at h
    next hb =>
      have h₁ : low.toNat ≤ b.toNat := UInt8.le_iff_toNat_le.1 hb.1
      have h₂ : b.toNat ≤ high.toNat := UInt8.le_iff_toNat_le.1 hb.2
      refine ⟨b.toNat - 0x80, rest, ?_, by omega, by omega, by omega⟩
      rw [tail, ← eq_ofNat_toNat (by omega : b.toNat = 0x80 + (b.toNat - 0x80))]
    next => cases h

end Later

/-! ## Characters -/

/-- The bytes of a character, given by the bits that each of them carries. -/
inductive Spells : List UInt8 → Char → Prop
  | one {k : Nat} : k < 0x80 → Spells [UInt8.ofNat k] (Char.ofNat k)
  | two {k k₁ : Nat} : 2 ≤ k → k < 32 → k₁ < 64 →
    Spells [UInt8.ofNat (0xC0 + k), tail k₁] (Char.ofNat (k * 64 + k₁))
  | three {k k₁ k₂ : Nat} : k < 16 → k₁ < 64 → k₂ < 64 → (k = 0 → 32 ≤ k₁) → (k = 13 → k₁ < 32) →
    Spells [UInt8.ofNat (0xE0 + k), tail k₁, tail k₂] (Char.ofNat ((k * 64 + k₁) * 64 + k₂))
  | four {k k₁ k₂ k₃ : Nat} : k < 5 → k₁ < 64 → k₂ < 64 → k₃ < 64 → (k = 0 → 16 ≤ k₁) →
    (k = 4 → k₁ < 16) →
    Spells [UInt8.ofNat (0xF0 + k), tail k₁, tail k₂, tail k₃]
      (Char.ofNat (((k * 64 + k₁) * 64 + k₂) * 64 + k₃))

theorem Spells.eq_encodeChar {bs : List UInt8} {c : Char} (h : Spells bs c) :
    bs = encodeChar c := by
  cases h with
  | one h =>
    rw [encodeChar, toNat_ofNat_valid (.inl (by omega))]
    exact (if_pos h).symm
  | @two k k₁ h₁ h₂ hk₁ =>
    rw [encodeChar, toNat_ofNat_valid (.inl (by omega)), if_neg (by omega), if_pos (by omega),
      show (k * 64 + k₁) / 64 = k by omega, show (k * 64 + k₁) % 64 = k₁ by omega]
    rfl
  | @three k k₁ k₂ h hk₁ hk₂ hlow hhigh =>
    rw [encodeChar, toNat_ofNat_valid (by unfold Nat.isValidChar; omega), if_neg (by omega),
      if_neg (by omega), if_pos (by omega), show ((k * 64 + k₁) * 64 + k₂) / 4096 = k by omega,
      show ((k * 64 + k₁) * 64 + k₂) / 64 % 64 = k₁ by omega,
      show ((k * 64 + k₁) * 64 + k₂) % 64 = k₂ by omega]
    rfl
  | @four k k₁ k₂ k₃ h hk₁ hk₂ hk₃ hlow hhigh =>
    rw [encodeChar, toNat_ofNat_valid (by unfold Nat.isValidChar; omega), if_neg (by omega),
      if_neg (by omega), if_neg (by omega),
      show (((k * 64 + k₁) * 64 + k₂) * 64 + k₃) / 262144 = k by omega,
      show (((k * 64 + k₁) * 64 + k₂) * 64 + k₃) / 4096 % 64 = k₁ by omega,
      show (((k * 64 + k₁) * 64 + k₂) * 64 + k₃) / 64 % 64 = k₂ by omega,
      show (((k * 64 + k₁) * 64 + k₂) * 64 + k₃) % 64 = k₃ by omega]
    rfl

theorem exists_spells (c : Char) : ∃ bs, Spells bs c := by
  have hc : c.toNat.isValidChar := c.valid
  unfold Nat.isValidChar at hc
  rw [← Char.ofNat_toNat c]
  generalize c.toNat = n at hc
  by_cases h₁ : n < 0x80
  · exact ⟨_, .one h₁⟩
  by_cases h₂ : n < 0x800
  · rw [show n = n / 64 * 64 + n % 64 by omega]
    exact ⟨_, .two (by omega) (by omega) (by omega)⟩
  by_cases h₃ : n < 0x10000
  · rw [show n = (n / 4096 * 64 + n / 64 % 64) * 64 + n % 64 by omega]
    exact ⟨_, .three (by omega) (by omega) (by omega) (by omega) (by omega)⟩
  · rw [show n = ((n / 262144 * 64 + n / 4096 % 64) * 64 + n / 64 % 64) * 64 + n % 64 by omega]
    exact ⟨_, .four (by omega) (by omega) (by omega) (by omega) (by omega) (by omega)⟩

theorem spells_encodeChar (c : Char) : Spells (encodeChar c) c := by
  obtain ⟨bs, h⟩ := exists_spells c
  rwa [← h.eq_encodeChar]

section Scan

variable {start : Nat} {chars cs : List Char} {bytes : List UInt8}

theorem scan_lead {n : Nat} {p : Partial} (hn : 0x80 ≤ n) (hn' : n < 256)
    (h : lead (UInt8.ofNat n) = some p) :
    scan none start chars (UInt8.ofNat n :: bytes) = scan (some p) start chars bytes := by
  rw [scan, if_neg, h]
  rw [UInt8.lt_iff_toNat_lt, toNat_ofNat_lt hn']
  exact Nat.not_lt.2 hn

/-- A whole character is read at once. -/
theorem scan_spells {bs : List UInt8} {c : Char} (h : Spells bs c) :
    scan none start chars (bs ++ bytes) = scan none (start + bs.length) (c :: chars) bytes := by
  cases h with
  | @one k h =>
    have hk : (UInt8.ofNat k).toNat = k := toNat_ofNat_lt (by omega)
    have hlt : UInt8.ofNat k < 0x80 := by
      rw [UInt8.lt_iff_toNat_lt, hk]
      exact h
    rw [List.cons_append, List.nil_append, scan, if_pos hlt, hk]
    rfl
  | two h₁ h₂ hk₁ =>
    rw [List.cons_append, scan_lead (by omega) (by omega) (lead_two h₁ h₂)]
    exact scan_last hk₁ (by simp) (by simp; omega)
  | @three k k₁ k₂ h hk₁ hk₂ hlow hhigh =>
    rw [List.cons_append, scan_lead (by omega) (by omega) (lead_three h), List.cons_append,
      scan_more hk₁ (by split <;> simp; omega) (by split <;> simp <;> omega)]
    exact scan_last hk₂ (by simp) (by simp; omega)
  | @four k k₁ k₂ k₃ h hk₁ hk₂ hk₃ hlow hhigh =>
    rw [List.cons_append, scan_lead (by omega) (by omega) (lead_four h), List.cons_append,
      scan_more hk₁ (by split <;> simp; omega) (by split <;> simp <;> omega), List.cons_append,
      scan_more hk₂ (by simp) (by simp; omega)]
    exact scan_last hk₃ (by simp) (by simp; omega)

/-- Where reading succeeds there is a whole character, or none is left. -/
theorem eq_nil_or_spells_of_scan (h : scan none start chars bytes = .ok cs) :
    bytes = [] ∨ ∃ bs c rest, bytes = bs ++ rest ∧ Spells bs c := by
  cases bytes with
  | nil => exact .inl rfl
  | cons b bytes =>
    refine .inr ?_
    by_cases hb : b < 0x80
    · refine ⟨[b], Char.ofNat b.toNat, bytes, rfl, ?_⟩
      have := Spells.one (UInt8.lt_iff_toNat_lt.1 hb)
      rwa [UInt8.ofNat_toNat] at this
    rw [scan, if_neg hb] at h
    cases hp : lead b with
    | none => rw [hp] at h; cases h
    | some p =>
      rw [hp] at h
      dsimp only at h
      obtain ⟨k, h₁, h₂, rfl⟩ | ⟨k, hk, rfl⟩ | ⟨k, hk, rfl⟩ := lead_cases hp
      · obtain rfl := Option.some.inj ((lead_two h₁ h₂).symm.trans hp)
        obtain ⟨k₁, rest, rfl, hk₁, -, -⟩ := exists_tail_of_scan (by decide) (by decide) h
        exact ⟨_, _, rest, rfl, .two h₁ h₂ hk₁⟩
      · obtain rfl := Option.some.inj ((lead_three hk).symm.trans hp)
        obtain ⟨k₁, rest, rfl, hk₁, hlow, hhigh⟩ := exists_tail_of_scan (by split <;> decide)
          (by split <;> decide) h
        rw [scan_more hk₁ hlow hhigh] at h
        obtain ⟨k₂, rest, rfl, hk₂, -, -⟩ := exists_tail_of_scan (by decide) (by decide) h
        refine ⟨_, _, rest, rfl, .three hk hk₁ hk₂ ?_ ?_⟩
        · rintro rfl
          simp at hlow
          omega
        · rintro rfl
          simp at hhigh
          omega
      · obtain rfl := Option.some.inj ((lead_four hk).symm.trans hp)
        obtain ⟨k₁, rest, rfl, hk₁, hlow, hhigh⟩ := exists_tail_of_scan (by split <;> decide)
          (by split <;> decide) h
        rw [scan_more hk₁ hlow hhigh] at h
        obtain ⟨k₂, rest, rfl, hk₂, h₁, h₂⟩ := exists_tail_of_scan (by decide) (by decide) h
        rw [scan_more hk₂ h₁ h₂] at h
        obtain ⟨k₃, rest, rfl, hk₃, -, -⟩ := exists_tail_of_scan (by decide) (by decide) h
        refine ⟨_, _, rest, rfl, .four hk hk₁ hk₂ hk₃ ?_ ?_⟩
        · rintro rfl
          simp at hlow
          omega
        · rintro rfl
          simp at hhigh
          omega

end Scan

/-! ## Texts -/

theorem scan_flatMap (start : Nat) (chars cs : List Char) :
    scan none start chars (cs.flatMap encodeChar) = .ok (chars.reverse ++ cs) := by
  induction cs generalizing start chars with
  | nil => simp [scan]
  | cons c cs ih =>
    rw [List.flatMap_cons, scan_spells (spells_encodeChar c), ih, List.reverse_cons,
      List.append_assoc, List.singleton_append]

theorem eq_flatMap_of_scan {bytes : List UInt8} {start : Nat} {chars cs : List Char}
    (h : scan none start chars bytes = .ok cs) :
    ∃ cs', bytes = cs'.flatMap encodeChar ∧ cs = chars.reverse ++ cs' := by
  induction hn : bytes.length using Nat.strongRecOn generalizing bytes start chars with
  | _ n ih =>
    obtain rfl | ⟨bs, c, rest, rfl, hc⟩ := eq_nil_or_spells_of_scan h
    · cases h
      exact ⟨[], rfl, (List.append_nil _).symm⟩
    · have hpos : 0 < bs.length := by cases hc <;> exact Nat.succ_pos _
      rw [scan_spells hc] at h
      rw [List.length_append] at hn
      obtain ⟨cs', rfl, rfl⟩ := ih rest.length (by omega) h rfl
      refine ⟨c :: cs', ?_, ?_⟩
      · rw [List.flatMap_cons, hc.eq_encodeChar]
      · rw [List.reverse_cons, List.append_assoc, List.singleton_append]

/-- The bytes that spell a text are those that are written for it. -/
theorem decode_eq_ok_iff {bytes : List UInt8} {s : String} :
    decode bytes = .ok s ↔ bytes = encode s := by
  refine ⟨fun h => ?_, fun h => ?_⟩
  · unfold decode at h
    cases hcs : scan none 0 [] bytes with
    | error e => rw [hcs] at h; cases h
    | ok cs =>
      rw [hcs] at h
      obtain rfl : String.ofList cs = s := Except.ok.inj h
      obtain ⟨cs', rfl, rfl⟩ := eq_flatMap_of_scan hcs
      rw [encode, String.toList_ofList]
  · subst h
    rw [decode, encode, scan_flatMap]
    exact congrArg Except.ok s.ofList_toList

@[simp] theorem length_encode (s : String) : (encode s).length = size s := rfl

theorem decode_encode (s : String) : decode (encode s) = .ok s := decode_eq_ok_iff.2 rfl

/-! ## The bytes of strings -/

theorem encodeChar_eq (c : Char) : encodeChar c = String.utf8EncodeChar c := by
  have hc : c.toNat.isValidChar := c.valid
  have hval : c.val.toNat = c.toNat := rfl
  unfold Nat.isValidChar at hc
  unfold encodeChar String.utf8EncodeChar
  simp only [hval]
  generalize c.toNat = n at hc
  by_cases h₁ : n < 0x80
  · rw [if_pos h₁, if_pos (by omega)]
  by_cases h₂ : n < 0x800
  · have hlead : n / 64 < 32 := by omega
    rw [if_neg h₁, if_pos h₂, if_neg (by omega), if_pos (by omega), Nat.mod_eq_of_lt hlead,
      Nat.add_comm 0xC0, Nat.add_comm 0x80]
  by_cases h₃ : n < 0x10000
  · have hlead : n / 4096 < 16 := by omega
    rw [if_neg h₁, if_neg h₂, if_pos h₃, if_neg (by omega), if_neg (by omega), if_pos (by omega),
      Nat.mod_eq_of_lt hlead, Nat.add_comm 0xE0, Nat.add_comm 0x80, Nat.add_comm 0x80]
  · have hlead : n / 262144 < 8 := by omega
    rw [if_neg h₁, if_neg h₂, if_neg h₃, if_neg (by omega), if_neg (by omega), if_neg (by omega),
      Nat.mod_eq_of_lt hlead, Nat.add_comm 0xF0, Nat.add_comm 0x80, Nat.add_comm 0x80,
      Nat.add_comm 0x80]

theorem encode_eq_toUTF8 (s : String) : encode s = s.toUTF8.data.toList := by
  have h : s.toUTF8 = (s.toList.flatMap String.utf8EncodeChar).toByteArray :=
    String.utf8Encode_toList.symm
  rw [h, encode, funext encodeChar_eq, List.data_toByteArray]

theorem size_eq_utf8ByteSize (s : String) : size s = s.utf8ByteSize := by
  rw [size, encode_eq_toUTF8]
  rfl

end ExternalTerm.Utf8
