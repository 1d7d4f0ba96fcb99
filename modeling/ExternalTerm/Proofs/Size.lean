import ExternalTerm.Proofs.Grammar

/-!
# The size of what is read

`Term.size` and `Decoded.size` count one for every part of a value, and the bytes of its texts. The
sizes are announced on the wire, but every part costs at least a byte there:

* `Wire.size_le` : a term is no larger than its bytes;
* `TextForm.size_le` : nor is a text, though a list of characters spells each of them as an integer;
* `size_le_of_reads` : nor is what is read against a shape;
* `size_lt_of_decode` : a message is larger than what is decoded from it.

So nothing larger than the bytes can come of them, whatever the limits are.
-/

namespace ExternalTerm

open Reader

/-! ## Sizes -/

mutual

/-- One for the term and one for each term inside, and the bytes of names and texts. -/
def Term.size : Term → Nat
  | .atom s | .text s => 1 + Utf8.size s
  | .int _ | .bigInt _ => 1
  | .tuple ts | .list ts => 1 + Term.sizes ts

def Term.sizes : List Term → Nat
  | [] => 0
  | t :: ts => t.size + Term.sizes ts

end

mutual

/-- One for the value and one for each value inside, and the bytes of texts; a term has its own
size. -/
def Decoded.size : Decoded → Nat
  | .integer _ | .bigInteger _ => 1
  | .text s => 1 + Utf8.size s
  | .tagged t => 1 + Utf8.size t.value
  | .record fields => 1 + Decoded.fieldSizes fields
  | .list vs => 1 + Decoded.sizes vs
  | .term t => t.size

def Decoded.fieldSizes : List (Field Decoded) → Nat
  | [] => 0
  | ⟨_, v⟩ :: fields => v.size + Decoded.fieldSizes fields

def Decoded.sizes : List Decoded → Nat
  | [] => 0
  | v :: vs => v.size + Decoded.sizes vs

end

theorem Term.sizes_eq_sum (ts : List Term) : Term.sizes ts = (ts.map Term.size).sum := by
  induction ts with
  | nil => rfl
  | cons t ts ih => simp [Term.sizes, ih]

theorem Decoded.sizes_eq_sum (vs : List Decoded) :
    Decoded.sizes vs = (vs.map Decoded.size).sum := by
  induction vs with
  | nil => rfl
  | cons v vs ih => simp [Decoded.sizes, ih]

/-- Where every value counts one, the size is their number. -/
theorem sum_map_const_one {α : Type} {f : α → Nat} {as : List α} (h : ∀ a ∈ as, f a = 1) :
    (as.map f).sum = as.length := by
  rw [List.map_congr_left h]
  simp

/-- Parts that are no larger than their bytes are together no larger than all the bytes. -/
theorem sum_le_of_parts {α : Type} {R : List UInt8 → α → Prop} {f : α → Nat}
    {parts : List (List UInt8)} {as : List α} (h : List.Forall₂ R parts as)
    (hle : ∀ x a, R x a → f a ≤ x.length) : (as.map f).sum ≤ parts.flatten.length := by
  induction h with
  | nil => simp
  | @cons x a parts as hx _ ih =>
    have := hle x a hx
    simp
    simp at ih
    omega

/-! ## Terms -/

theorem size_byteList (bytes : List UInt8) : (byteList bytes).size = 1 + bytes.length := by
  unfold byteList Term.size
  rw [Term.sizes_eq_sum, sum_map_const_one, List.length_map]
  intro t ht
  obtain ⟨b, -, rfl⟩ := List.mem_map.1 ht
  simp [Term.size]

theorem Wire.size_le {data : List UInt8} {t : Term} (h : Wire data t) : t.size ≤ data.length := by
  induction h using Wire.induct with
  | integer h =>
    unfold Term.ofInteger
    split <;> simp [Term.size]
  | @atom tag w s ht hw hs =>
    simp [Term.size]
    omega
  | text hs =>
    simp [Term.size]
    omega
  | string h =>
    rw [size_byteList]
    simp
    omega
  | nil => simp [Term.size, Term.sizes]
  | @tuple tag w parts ts hw hn h ih =>
    have hsum := sum_le_of_parts (f := Term.size) ih fun x u hle => hle.snd
    simp [Term.size, Term.sizes_eq_sum] at hsum ⊢
    omega
  | @list parts ts hn h ih =>
    have hsum := sum_le_of_parts (f := Term.size) ih fun x u hle => hle.snd
    simp [Term.size, Term.sizes_eq_sum] at hsum ⊢
    omega

/-! ## Texts -/

namespace Utf8

theorem length_encodeChar_le (c : Char) : (encodeChar c).length ≤ 4 := by
  unfold encodeChar
  dsimp only
  split_ifs <;> simp

theorem length_encodeChar_le_two {c : Char} (h : c.toNat < 256) : (encodeChar c).length ≤ 2 := by
  unfold encodeChar
  dsimp only
  split_ifs <;> first | simp; done | omega

theorem length_encodeChar_of_zero {c : Char} (h : c.toNat = 0) : (encodeChar c).length = 1 := by
  simp [encodeChar, h]

theorem size_ofList (cs : List Char) :
    size (String.ofList cs) = (cs.map fun c => (encodeChar c).length).sum := by
  simp [size, encode, List.length_flatMap]

end Utf8

namespace Reader

section
variable {L : Limits} {d : Nat} {data body : List UInt8} {tag : Tag} {s : String}

/-- The integer that stands for a character has at least as many bytes as UTF-8 has for it. -/
theorem length_encodeChar_le_of_form {c : Char} (h : IntegerForm tag body c.toNat) :
    (Utf8.encodeChar c).length ≤ body.length + 1 := by
  have hfour := Utf8.length_encodeChar_le c
  generalize hn : (c.toNat : Int) = n at h
  cases h with
  | small b =>
    have hb := b.toNat_lt
    have htwo : c.toNat < 256 := by omega
    exact Utf8.length_encodeChar_le_two htwo
  | word k =>
    simp
    omega
  | big negative digits _ =>
    rcases digits with _ | ⟨b, digits⟩
    · have hzero : signedValue negative [] = 0 := by cases negative <;> rfl
      rw [Utf8.length_encodeChar_of_zero (by omega)]
      omega
    · simp
      omega

theorem length_encodeChar_le_of_reads {c : Char} (h : Reads character L d data c) :
    (Utf8.encodeChar c).length ≤ data.length := by
  rw [reads_character_iff, reads_bigInteger_iff] at h
  obtain ⟨tag, body, rfl, form, -⟩ := h
  exact length_encodeChar_le_of_form form

theorem TextForm.size_le (h : TextForm L d tag body s) : Utf8.size s ≤ body.length := by
  cases h with
  | sized hw hs hl => simp
  | @characters chars body hn hl hchars =>
    obtain ⟨-, parts, rfl, hparts⟩ := (reads_repeated_iff composed.character).1 hchars
    have hsum := sum_le_of_parts hparts fun x c hx => length_encodeChar_le_of_reads hx
    rw [Utf8.size_ofList]
    simp only [List.length_append]
    omega
  | nil => simp [Utf8.size, Utf8.encode]

/-! ## Shapes -/

theorem length_pos_of_bigInteger {n : Int} (h : Reads bigInteger L d data n) :
    0 < data.length := by
  obtain ⟨tag, body, rfl, -⟩ := reads_bigInteger_iff.1 h
  simp

theorem fieldSizes_le_of_reads {fields : List (Field Shape)} {values : List (Field Decoded)}
    (h : ∀ f ∈ fields, ∀ (d : Nat) (data : List UInt8) (v : Decoded),
      Reads (shaped f.value) L d data v → v.size ≤ data.length)
    (hr : Reads (shapedFields fields) L d data values) :
    Decoded.fieldSizes values ≤ data.length := by
  induction fields generalizing data values with
  | nil =>
    obtain ⟨rfl, rfl⟩ := reads_pure_iff.1 hr
    simp [Decoded.fieldSizes]
  | cons f fields ih =>
    obtain ⟨hf, hfs⟩ := List.forall_mem_cons.1 h
    obtain ⟨x, v, y, vs, rfl, rfl, hx, hy⟩ := reads_shapedFields_cons_iff.1 hr
    have hv := hf d x v hx
    have hvs := ih hfs hy
    rw [Decoded.fieldSizes, List.length_append]
    omega

theorem size_byteElement {element : Shape} {ofByte : UInt8 → Decoded}
    (h : byteElement? element = some ofByte) (b : UInt8) : (ofByte b).size = 1 := by
  cases element with
  | integer | bigInteger | any =>
    cases h
    simp [Decoded.size, Term.size]
  | _ => cases h

/-- The elements of a list are together no larger than what follows its tag. -/
theorem ListForm.sizes_le {element : Shape} {vs : List Decoded}
    (h : ListForm L d element tag body vs)
    (he : ∀ (d : Nat) (data : List UInt8) (v : Decoded),
      Reads (shaped element) L d data v → v.size ≤ data.length) :
    Decoded.sizes vs ≤ body.length := by
  rw [Decoded.sizes_eq_sum]
  cases h with
  | nil => simp
  | @string ofByte bytes hbyte hlt hl =>
    have hone : ∀ v ∈ bytes.map ofByte, v.size = 1 := by
      intro v hv
      obtain ⟨b, -, rfl⟩ := List.mem_map.1 hv
      exact size_byteElement hbyte b
    rw [sum_map_const_one hone]
    simp
  | @list body vs hlt hl hd hvs =>
    obtain ⟨-, parts, rfl, hparts⟩ := (reads_repeated_iff (composed_shaped element)).1 hvs
    have hsum := sum_le_of_parts hparts (he (d + 1))
    simp only [List.length_append]
    omega

/-- What is read against a shape is no larger than what it is read from. -/
theorem size_le_of_reads (s : Shape) (v : Decoded) (h : Reads (shaped s) L d data v) :
    v.size ≤ data.length := by
  induction s using Shape.induct generalizing d data v with
  | integer w =>
    obtain rfl | hw := eq_or_ne w .w8
    · exact absurd h not_reads_throw
    · rw [shaped_integer hw, reads_map_iff (composed.integer w)] at h
      obtain ⟨k, rfl, hk⟩ := h
      obtain ⟨n, -, -, hn⟩ := reads_integer_iff.1 hk
      exact length_pos_of_bigInteger hn
  | unsigned w => exact absurd h not_reads_throw
  | bigInteger =>
    obtain ⟨n, rfl, hn⟩ := (reads_map_iff composed.bigInteger _).1 h
    exact length_pos_of_bigInteger hn
  | text =>
    obtain ⟨s, rfl, hs⟩ := (reads_map_iff (composed.byte.bind composed.textTagged) _).1 h
    obtain ⟨tag, body, rfl, form⟩ := reads_text_iff.1 hs
    have := form.size_le
    simp [Decoded.size]
    omega
  | taggedText =>
    obtain ⟨tag, body, t, rfl, rfl, -, form⟩ := reads_shaped_taggedText_iff.1 h
    have := form.size_le
    simp [Decoded.size]
    omega
  | record fields ih =>
    obtain ⟨tag, w, body, values, -, -, -, -, rfl, hvalues, rfl⟩ := reads_shaped_record_iff.1 h
    have := fieldSizes_le_of_reads (fun f hf d data v => ih f hf v) hvalues
    simp [Decoded.size]
    omega
  | list element ih =>
    obtain ⟨tag, body, vs, rfl, rfl, form⟩ := reads_shaped_list_iff.1 h
    have := form.sizes_le fun d data v => ih v
    simp [Decoded.size]
    omega
  | any =>
    obtain ⟨t, rfl, ht⟩ := (reads_map_iff composed_term _).1 h
    exact (wire_of_reads ht).size_le

/-! ## No amplification -/

/-- Whatever is read against a shape from bytes in memory, at any place and under any limits, is no
larger than the bytes it is read from. -/
theorem size_le_of_shaped {p : Nat} {b : List UInt8} {v : Decoded} {r : Reader} {shape : Shape}
    (h : shaped shape (memory L d p b) = .ok v r) :
    ∃ data rest, b = data ++ rest ∧ r = memory L d (p + data.length) rest ∧
      v.size ≤ data.length := by
  obtain ⟨data, rest, hb, hr, hread⟩ := (composed_shaped shape).exists_reads h
  exact ⟨data, rest, hb, hr, size_le_of_reads shape v hread⟩

set_option maxRecDepth 10000 in
/-- A list that is a string, and a text of one character of three bytes, whose number is written
with its digits. -/
theorem size_le_of_shaped_character :
    let v : Decoded :=
      .record [⟨none, .list [.bigInteger 1, .bigInteger 255]⟩, ⟨some "sign", .text "€"⟩]
    v.size = 8 ∧ ∃ data rest,
      [104, 2, 107, 0, 2, 1, 255, 108, 0, 0, 0, 1, 110, 2, 0, 172, 32, 106, 9] = data ++ rest ∧
        memory .unbounded 0 18 [9] = memory .unbounded 0 (0 + data.length) rest ∧
          v.size ≤ data.length := by
  have hr : shaped (.record [⟨none, .list .bigInteger⟩, ⟨some "sign", .text⟩])
      (memory .unbounded 0 0
        [104, 2, 107, 0, 2, 1, 255, 108, 0, 0, 0, 1, 110, 2, 0, 172, 32, 106, 9]) =
        .ok (.record [⟨none, .list [.bigInteger 1, .bigInteger 255]⟩, ⟨some "sign", .text "€"⟩])
          (memory .unbounded 0 18 [9]) := by decide +kernel
  exact ⟨by decide +kernel, size_le_of_shaped hr⟩

end

end Reader

/-- Nothing that is decoded from any source is as large as what the source delivers for it. -/
theorem size_lt_of_decode {source source' : Source} {s : Shape} {L : Limits} {v : Decoded}
    (h : decode source s L = (.ok v, source')) :
    source.delivered + v.size < source'.delivered := by
  obtain ⟨data, hread, hd⟩ := exists_reads_of_decode h
  have := size_le_of_reads s v hread
  omega

end ExternalTerm
