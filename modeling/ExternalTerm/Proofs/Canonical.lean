import ExternalTerm.Proofs.Grammar
import Mathlib.Logic.Relation

/-!
# Canonical bytes

What is read need not be what is written: there are old tags, tags for numbers and lengths that fit
a shorter one, and digits that an integer does not need. `Canonical data` says that the terms in
`data`, at every depth, have none of these.

* `Wire.encodable`, `Wire.encoded` : what is read can be written, and stands for the same term then;
* `Wire.canonical_iff` : the canonical bytes of a term are those that are written for it.

So reading and writing again keeps canonical bytes, and replaces the others.
-/

namespace ExternalTerm

open Reader

/-! ## Derived terms can be written -/

section
variable {tag : Tag} {w : Nat} {n : Int} {s : String} {body data x y xs ys : List UInt8}
  {parts : List (List UInt8)} {t u : Term} {ts : List Term}

theorem Term.ofInteger_of_fits (h : Width.w32.Fits n) : Term.ofInteger n = .int (Int32.ofInt n) :=
  if_pos h

theorem Term.ofInteger_of_not_fits (h : ¬ Width.w32.Fits n) : Term.ofInteger n = .bigInt n :=
  if_neg h

theorem natAbs_signedValue (negative : Bool) (digits : List UInt8) :
    (signedValue negative digits).natAbs = Digits.ofLittleEndian digits := by
  cases negative <;> simp [signedValue]

theorem IntegerForm.encodable (h : IntegerForm tag body n) : (Term.ofInteger n).Encodable := by
  by_cases hn : Width.w32.Fits n
  · rw [Term.ofInteger_of_fits hn, Term.Encodable, Term.firstFault?_of_nodes rfl, Term.fault?]
  rw [Term.ofInteger_of_not_fits hn, Term.Encodable, Term.firstFault?_of_nodes rfl,
    Term.fault?_bigInt, if_neg]
  rintro ⟨-, hlen⟩
  cases h with
  | small b =>
    have := b.toNat_lt
    rw [Width.fits_w32_iff] at hn
    omega
  | word v => exact hn (Width.fits_toInt32 v)
  | big negative digits hd =>
    rw [natAbs_signedValue] at hlen
    have hle : Digits.byteLength (Digits.ofLittleEndian digits) ≤ digits.length :=
      Digits.byteLength_le_iff.2 (Digits.ofLittleEndian_lt digits)
    unfold smallLengthMax at hlen
    omega

theorem Tag.pow_textWidth_le (ht : tag.textFamily? = some .atom) (hw : tag.textWidth? = some w) :
    256 ^ w ≤ mediumLengthMax + 1 := by
  cases tag <;> cases ht <;> cases hw <;> decide

theorem Tag.pow_tupleWidth_le (hw : tag.tupleWidth? = some w) : 256 ^ w ≤ largeLengthMax + 1 := by
  cases tag <;> cases hw <;> decide

theorem encodable_byteList (bytes : List UInt8) (h : bytes.length < 256 ^ 2) :
    (byteList bytes).Encodable := by
  refine Term.encodable_list_iff.2 ⟨?_, fun u hu => ?_⟩
  · rw [List.length_map]
    unfold largeLengthMax
    omega
  · obtain ⟨b, -, rfl⟩ := List.mem_map.1 hu
    rfl

/-- What is read can be written again. -/
theorem Wire.encodable (h : Wire data t) : t.Encodable := by
  induction h using Wire.induct with
  | integer h => exact h.encodable
  | @atom tag w s ht hw hs =>
    have := Tag.pow_textWidth_le ht hw
    rw [Term.Encodable, Term.firstFault?_of_nodes rfl, Term.fault?, if_neg (by omega)]
  | text hs =>
    rw [Term.Encodable, Term.firstFault?_of_nodes rfl, Term.fault?_text_eq_none_iff]
    exact Nat.le_of_lt_succ hs
  | string h => exact encodable_byteList _ h
  | nil => rfl
  | tuple hw hn _ ih =>
    have := Tag.pow_tupleWidth_le hw
    exact Term.encodable_tuple_iff.2 ⟨by omega, forall_of_parts ih fun _ _ hu => hu.snd⟩
  | list hn _ ih =>
    exact Term.encodable_list_iff.2
      ⟨Nat.le_of_lt_succ hn, forall_of_parts ih fun _ _ hu => hu.snd⟩

theorem Term.normalizeAll_of_forall (h : ∀ t ∈ ts, t.normalize = t) :
    Term.normalizeAll ts = ts := by
  rw [Term.normalizeAll_eq_map, List.map_congr_left h, List.map_id']

theorem Term.normalize_ofInteger (n : Int) : (Term.ofInteger n).normalize = .ofInteger n := by
  by_cases hn : Width.w32.Fits n
  · rw [Term.ofInteger_of_fits hn]
    rfl
  · rw [Term.ofInteger_of_not_fits hn, Term.normalize, Term.ofInteger_of_not_fits hn]

/-- Every integer that is read has the form of its value. -/
theorem Wire.normalize (h : Wire data t) : t.normalize = t := by
  induction h using Wire.induct with
  | integer h => exact Term.normalize_ofInteger _
  | atom | text => rfl
  | string h =>
    rw [byteList, Term.normalize, Term.normalizeAll_of_forall]
    intro u hu
    obtain ⟨b, -, rfl⟩ := List.mem_map.1 hu
    rfl
  | nil => rfl
  | tuple _ _ _ ih =>
    have hall := forall_of_parts ih fun _ _ hu => hu.snd
    rw [Term.normalize, Term.normalizeAll_of_forall hall]
  | list _ _ ih =>
    have hall := forall_of_parts ih fun _ _ hu => hu.snd
    rw [Term.normalize, Term.normalizeAll_of_forall hall]

theorem nestings_le_of_parts
    (h : List.Forall₂ (fun x u => ∃ _ : Wire x u, u.nesting ≤ x.length) parts ts) :
    Term.nestings ts ≤ parts.flatten.length := by
  induction h with
  | nil => exact Nat.zero_le _
  | cons hx _ ih =>
    obtain ⟨-, hx⟩ := hx
    rw [Term.nestings, List.flatten_cons, List.length_append]
    omega

theorem Wire.nesting_le (h : Wire data t) : t.nesting ≤ data.length := by
  induction h using Wire.induct with
  | integer h =>
    rw [Term.ofInteger]
    split <;> exact Nat.zero_le _
  | atom | text => exact Nat.zero_le _
  | string h =>
    rw [byteList, Term.nesting, List.length_cons]
    refine Nat.succ_le_succ (Nat.le_trans (Term.nestings_le_iff.2 fun u hu => ?_) (Nat.zero_le _))
    obtain ⟨b, -, rfl⟩ := List.mem_map.1 hu
    exact Nat.le_refl 0
  | nil => exact Nat.le_refl 1
  | tuple _ _ _ ih =>
    have := nestings_le_of_parts ih
    rw [Term.nesting, List.length_cons, List.length_append]
    omega
  | list _ _ ih =>
    have := nestings_le_of_parts ih
    rw [Term.nesting, List.length_cons, List.length_append, List.length_append]
    omega

/-- The encoding of a term is derived. -/
theorem wire_encoded (h : t.Encodable) : Wire t.encoded t.normalize := by
  let L : Limits := ⟨largeLengthMax, largeLengthMax, t.nesting⟩
  have hu (u : Term) (hu : u ∈ t.nodes) :=
    Term.extent_le_of_fault?_eq_none (Term.encodable_iff.1 h u hu)
  have hw : t.Within (L.inside 0) :=
    ⟨fun u h => (hu u h).1, fun u h => (hu u h).2, Nat.le_refl _⟩
  have hr := gives_term (L := L) t h 0
  rw [if_pos hw] at hr
  exact wire_of_reads hr

theorem Wire.encoded (h : Wire data t) : Wire t.encoded t := by
  have he := wire_encoded h.encodable
  rwa [h.normalize] at he

theorem Wire.within_unbounded (h : Wire data t) (hlen : data.length ≤ Limits.lengthBound) :
    t.Within .unbounded :=
  Term.within_unbounded_of_nesting h.encodable (h.nesting_le.trans hlen)

/-- What is written for a term that was read is read to the term again, within its limits. -/
theorem Wire.term_encoded {L : Limits} (h : Wire data t) (hw : t.Within L) :
    term (fresh L t.encoded) = .ok t (memory L 0 t.encoded.length []) := by
  have hread := gives_term (L := L) t h.encodable 0
  rw [Limits.inside_zero, if_pos hw, h.normalize] at hread
  have hwritten := hread 0 []
  rwa [List.append_nil, Nat.zero_add] at hwritten

/-! ## Canonical bytes -/

/-- `x` are the bytes of an element of the tuple or list that these bytes stand for. -/
inductive Element (x : List UInt8) : List UInt8 → Prop
  | tuple {tag : Tag} {w : Nat} {parts : List (List UInt8)} {ts : List Term}
      (hw : tag.tupleWidth? = some w) (hn : ts.length < 256 ^ w)
      (h : List.Forall₂ Wire parts ts) (hx : x ∈ parts) :
      Element x (tag.byte :: (Digits.bigEndian w ts.length ++ parts.flatten))
  | list {parts : List (List UInt8)} {ts : List Term} (hn : ts.length < 256 ^ 4)
      (h : List.Forall₂ Wire parts ts) (hx : x ∈ parts) :
      Element x
        (Tag.list.byte :: (Digits.bigEndian 4 ts.length ++ (parts.flatten ++ [Tag.nil.byte])))

/-- What may follow the tag of a term so that nothing shorter stands for it: some tags are not
written any more, others are for what does not fit a shorter one, and the digits of an integer, the
last bytes of its form, do not end with a zero. -/
def Shortest : Tag → List UInt8 → Term → Prop
  | .atom, _, _ | .smallAtom, _, _ | .string, _, _ | .nil, _, _ => False
  | .integer, _, t => ∀ n, t.integer? = some n → ¬ (0 ≤ n ∧ n ≤ 255)
  | .smallBig, body, t =>
    body.getLast? ≠ some 0 ∧ ∀ n, t.integer? = some n → ¬ Width.w32.Fits n
  | .atomUtf8, _, t => ∀ s, t.text? = some s → 255 < Utf8.size s
  | .largeTuple, _, t => ∀ ts, t.elements? = some ts → 255 < ts.length
  | .smallInteger, _, _ | .smallAtomUtf8, _, _ | .smallTuple, _, _ | .list, _, _ | .binary, _, _ =>
    True

/-- The terms in these bytes, at every depth, all have their shortest form. -/
def Canonical (data : List UInt8) : Prop :=
  ∀ tag body t, Relation.ReflTransGen Element (Tag.byte tag :: body) data →
    Wire (tag.byte :: body) t → Shortest tag body t

/-! ### The shortest forms -/

theorem Term.encoded_ofInteger (n : Int) : (Term.ofInteger n).encoded = Term.integerBytes n := by
  by_cases hn : Width.w32.Fits n
  · rw [Term.ofInteger_of_fits hn, Term.encoded, Width.toInt_ofInt32 hn]
  · rw [Term.ofInteger_of_not_fits hn, Term.encoded]

theorem signByte_eq {negative : Bool} {digits : List UInt8}
    (h : Digits.ofLittleEndian digits ≠ 0) :
    signByte negative = if signedValue negative digits < 0 then 1 else 0 := by
  cases negative
  · rw [if_neg (by simp [signedValue])]
    rfl
  · rw [if_pos (by simp only [signedValue, if_true]; omega)]
    rfl

/-- A big integer out of the 32-bit range is written in these digits exactly when the last one is
not zero. -/
theorem shortest_big_iff {negative : Bool} {digits : List UInt8}
    (hn : ¬ Width.w32.Fits (signedValue negative digits)) :
    Shortest .smallBig (Digits.bigEndian 1 digits.length ++ signByte negative :: digits)
        (.ofInteger (signedValue negative digits)) ↔
      Digits.byteLength (Digits.ofLittleEndian digits) = digits.length := by
  have hdigits : digits ≠ [] := by
    rintro rfl
    cases negative <;> exact hn (by decide)
  have hlast : (Digits.bigEndian 1 digits.length ++ signByte negative :: digits).getLast? =
      digits.getLast? := by
    rw [List.append_cons, List.getLast?_append_of_ne_nil _ hdigits]
  rw [Digits.byteLength_ofLittleEndian_eq_iff, ← hlast, Shortest, integer?_ofInteger]
  refine ⟨fun h => h.1, fun h => ⟨h, fun n hint => ?_⟩⟩
  cases hint
  exact hn

theorem IntegerForm.shortest_iff (h : IntegerForm tag body n) :
    Shortest tag body (.ofInteger n) ↔ tag.byte :: body = (Term.ofInteger n).encoded := by
  have hint := integer?_ofInteger n
  rw [Term.encoded_ofInteger, Term.integerBytes]
  cases h with
  | small b =>
    have hb := b.toNat_lt
    refine iff_of_true trivial ?_
    rw [if_pos (by unfold smallIntegerMax; omega), Int.toNat_natCast, Digits.bigEndian_one]
  | word v =>
    by_cases hsmall : 0 ≤ v.toInt ∧ v.toInt ≤ smallIntegerMax
    · rw [if_pos hsmall]
      exact iff_of_false (fun h => h _ hint hsmall) (by rintro ⟨⟩)
    · rw [if_neg hsmall, if_pos (Width.fits_toInt32 v)]
      refine iff_of_true (fun n hn => ?_) rfl
      rw [hint] at hn
      cases hn
      exact hsmall
  | big negative digits hd =>
    by_cases hn : Width.w32.Fits (signedValue negative digits)
    · rw [if_pos hn]
      refine iff_of_false (fun h => h.2 _ hint hn) ?_
      split <;> rintro ⟨⟩
    rw [if_neg (mt fits_w32_of_small hn), if_neg hn, shortest_big_iff hn, natAbs_signedValue]
    have hpos : Digits.ofLittleEndian digits ≠ 0 := by
      intro h0
      have := natAbs_signedValue negative digits
      rw [Width.fits_w32_iff] at hn
      omega
    rw [← signByte_eq hpos]
    refine ⟨fun h => ?_, fun h => ?_⟩
    · rw [h, Digits.littleEndian_ofLittleEndian]
      rfl
    · simpa using (congrArg List.length h).symm

theorem shortest_atom_iff (ht : tag.textFamily? = some .atom) (hw : tag.textWidth? = some w)
    (hs : Utf8.size s < 256 ^ w) (body : List UInt8) :
    Shortest tag body (.atom s) ↔
      tag.byte :: (Digits.bigEndian w (Utf8.size s) ++ Utf8.encode s) = (Term.atom s).encoded := by
  rw [Term.encoded, Term.nameBytes]
  cases tag with
  | smallAtomUtf8 =>
    cases hw
    have hle : Utf8.size s ≤ smallLengthMax := Nat.le_of_lt_succ hs
    rw [if_pos hle]
    exact iff_of_true trivial rfl
  | atomUtf8 =>
    cases hw
    by_cases hle : Utf8.size s ≤ smallLengthMax
    · rw [if_pos hle]
      exact iff_of_false (fun h => Nat.not_lt.2 hle (h s rfl)) (by rintro ⟨⟩)
    · rw [if_neg hle]
      refine iff_of_true (fun s' hs' => ?_) rfl
      cases hs'
      exact Nat.lt_of_not_le hle
  | atom | smallAtom =>
    refine iff_of_false id ?_
    split <;> rintro ⟨⟩
  | _ => cases ht

theorem shortest_tuple_iff (hw : tag.tupleWidth? = some w) (hn : ts.length < 256 ^ w)
    (body : List UInt8) :
    Shortest tag body (.tuple ts) ↔
      tag.byte :: Digits.bigEndian w ts.length = Term.tupleHeader ts.length := by
  rw [Term.tupleHeader]
  cases tag with
  | smallTuple =>
    cases hw
    have hle : ts.length ≤ smallLengthMax := Nat.le_of_lt_succ hn
    rw [if_pos hle]
    exact iff_of_true trivial rfl
  | largeTuple =>
    cases hw
    by_cases hle : ts.length ≤ smallLengthMax
    · rw [if_pos hle]
      exact iff_of_false (fun h => Nat.not_lt.2 hle (h ts rfl)) (by rintro ⟨⟩)
    · rw [if_neg hle]
      refine iff_of_true (fun ts' hts' => ?_) rfl
      cases hts'
      exact Nat.lt_of_not_le hle
  | _ => cases hw

/-! ### From the shortest forms to the encoding -/

theorem Canonical.shortest (h : Canonical (tag.byte :: body)) (hw : Wire (tag.byte :: body) t) :
    Shortest tag body t := h tag body t .refl hw

theorem Canonical.element (h : Canonical data) (hx : Element x data) : Canonical x :=
  fun tag body t hy hw => h tag body t (hy.tail hx) hw

theorem flatten_eq_allEncoded (h : List.Forall₂ (fun x u => x = Term.encoded u) parts ts) :
    parts.flatten = Term.allEncoded ts := by
  induction h with
  | nil => rfl
  | cons hx _ ih => rw [List.flatten_cons, hx, ih, Term.allEncoded]

/-- Canonical bytes are those that are written for their term. -/
theorem Wire.eq_encoded (h : Wire data t) (hc : Canonical data) : data = t.encoded := by
  have hparts {parts : List (List UInt8)} {ts : List Term}
      (ih : List.Forall₂ (fun x u => ∃ _ : Wire x u, Canonical x → x = u.encoded) parts ts)
      (hc : ∀ x ∈ parts, Canonical x) : parts.flatten = Term.allEncoded ts := by
    refine flatten_eq_allEncoded ?_
    induction ih with
    | nil => exact .nil
    | cons hx _ ih =>
      obtain ⟨hx₀, hxs⟩ := List.forall_mem_cons.1 hc
      obtain ⟨-, hx⟩ := hx
      exact .cons (hx hx₀) (ih hxs)
  induction h using Wire.induct with
  | integer h => exact h.shortest_iff.1 (hc.shortest (.integer h))
  | atom ht hw hs => exact (shortest_atom_iff ht hw hs _).1 (hc.shortest (.atom ht hw hs))
  | text hs => rfl
  | string h => exact (hc.shortest (.string h)).elim
  | nil => exact (hc.shortest .nil).elim
  | tuple hw hn h ih =>
    have hhead := (shortest_tuple_iff hw hn _).1 (hc.shortest (.tuple hw hn h))
    rw [Term.encoded, ← hhead, hparts ih fun x hx => hc.element (.tuple hw hn h hx)]
    rfl
  | list hn h ih =>
    rw [Term.encoded, Term.listHeader, hparts ih fun x hx => hc.element (.list hn h hx)]
    rfl

/-! ### From the encoding to the shortest forms -/

theorem Wire.unique_term (h : Wire x t) (h' : Wire x u) : t = u :=
  (h.unique h' (Eq.refl (x ++ []))).2

/-- Only the encodings of the elements, one after the other, are the encoding of all. -/
theorem eq_encoded_of_flatten (h : List.Forall₂ Wire parts ts)
    (he : parts.flatten ++ xs = Term.allEncoded ts ++ ys) :
    List.Forall₂ (fun x u => Wire x u ∧ x = Term.encoded u) parts ts := by
  induction h with
  | nil => exact .nil
  | cons hx _ ih =>
    rw [List.flatten_cons, Term.allEncoded, List.append_assoc, List.append_assoc] at he
    obtain ⟨hxe, -⟩ := hx.unique hx.encoded he
    refine .cons ⟨hx, hxe⟩ (ih ?_)
    rwa [← hxe, List.append_cancel_left_eq] at he

theorem exists_of_mem_parts {R : List UInt8 → Term → Prop} (h : List.Forall₂ R parts ts)
    (hx : x ∈ parts) : ∃ u, R x u := by
  induction h with
  | nil => cases hx
  | @cons y u _ _ hu _ ih =>
    rcases List.mem_cons.1 hx with rfl | hx
    · exact ⟨u, hu⟩
    · exact ih hx

theorem Tag.byte_injective : Function.Injective Tag.byte := by
  intro a b h
  have hb := Tag.ofByte?_byte b
  rw [← h, Tag.ofByte?_byte a] at hb
  exact Option.some.inj hb

theorem eq_tupleHeader (hw : tag.tupleWidth? = some w) (hn : ts.length < 256 ^ w)
    (he : tag.byte :: (Digits.bigEndian w ts.length ++ xs) = Term.tupleHeader ts.length ++ ys) :
    tag.byte :: Digits.bigEndian w ts.length = Term.tupleHeader ts.length ∧ xs = ys := by
  have hlen : ts.length ≤ largeLengthMax := by
    have := Tag.pow_tupleWidth_le hw
    omega
  obtain ⟨tag', w', hw', -, hheader⟩ := Term.exists_tupleForm hlen
  rw [hheader, List.cons_append] at he
  injection he with htag hxs
  obtain rfl := Tag.byte_injective htag
  obtain rfl := Option.some.inj (hw.symm.trans hw')
  exact ⟨hheader.symm, List.append_cancel_left hxs⟩

/-- The elements of what is written for a term are written for its elements. -/
theorem exists_encoded_of_element (h : Element x data) (hw : Wire data t) (he : data = t.encoded) :
    ∃ u, Wire x u ∧ x = u.encoded := by
  cases h with
  | @tuple tag w parts ts hwidth hn hparts hx =>
    obtain rfl := hw.unique_term (.tuple hwidth hn hparts)
    have hflat := (eq_tupleHeader hwidth hn he).2
    exact exists_of_mem_parts (eq_encoded_of_flatten hparts (congrArg (· ++ []) hflat)) hx
  | @list parts ts hn hparts hx =>
    obtain rfl := hw.unique_term (.list hn hparts)
    have hflat : parts.flatten ++ [Tag.nil.byte] = Term.allEncoded ts ++ [Tag.nil.byte] := by
      simpa [Term.encoded, Term.listHeader] using he
    exact exists_of_mem_parts (eq_encoded_of_flatten hparts hflat) hx

theorem exists_encoded_of_inside (h : Relation.ReflTransGen Element x data) (hw : Wire data t)
    (he : data = t.encoded) : ∃ u, Wire x u ∧ x = u.encoded := by
  induction h using Relation.ReflTransGen.head_induction_on with
  | refl => exact ⟨t, hw, he⟩
  | head hx _ ih =>
    obtain ⟨u, hu, hue⟩ := ih
    exact exists_encoded_of_element hx hu hue

theorem Wire.shortest (h : Wire data t) (hd : data = tag.byte :: body) (he : data = t.encoded) :
    Shortest tag body t := by
  have hparts {tag' : Tag} {body' : List UInt8} (hd : tag'.byte :: body' = tag.byte :: body) :
      tag' = tag ∧ body' = body := by
    injection hd with htag hbody
    exact ⟨Tag.byte_injective htag, hbody⟩
  cases h with
  | integer h =>
    obtain ⟨rfl, rfl⟩ := hparts hd
    exact h.shortest_iff.2 he
  | atom ht hw hs =>
    obtain ⟨rfl, rfl⟩ := hparts hd
    exact (shortest_atom_iff ht hw hs _).2 he
  | text hs =>
    obtain ⟨rfl, rfl⟩ := hparts hd
    exact trivial
  | string h => cases he
  | nil => cases he
  | tuple hw hn h =>
    obtain ⟨rfl, rfl⟩ := hparts hd
    exact (shortest_tuple_iff hw hn _).2 (eq_tupleHeader hw hn he).1
  | list hn h =>
    obtain ⟨rfl, rfl⟩ := hparts hd
    exact trivial

/-- Bytes that stand for a term are canonical exactly when they are those that are written for
it. -/
theorem Wire.canonical_iff (h : Wire data t) : Canonical data ↔ data = t.encoded := by
  refine ⟨h.eq_encoded, fun he tag body u hin hu => ?_⟩
  obtain ⟨v, hv, hve⟩ := exists_encoded_of_inside hin h he
  obtain rfl := hu.unique_term hv
  exact hu.shortest rfl hve

/-! ## Reading and writing again -/

/-- The term that is read from bytes can be written, is read again from what is written for it, and
what is written are the bytes it was read from exactly when these are canonical. The bound holds of
all bytes in a machine. -/
theorem written_eq_take_iff_canonical {b : List UInt8} {r : Reader}
    (hb : b.length ≤ Limits.lengthBound) (h : term (fresh .unbounded b) = .ok t r) :
    ∃ b', t.written = .ok b' ∧
      term (fresh .unbounded b') = .ok t (memory .unbounded 0 b'.length []) ∧
      (b' = b.take r.consumed ↔ Canonical (b.take r.consumed)) := by
  obtain ⟨data, rest, rfl, hr, rfl⟩ := composed_term.ok_iff.1 h
  have hw : Wire data t := wire_of_reads hr
  rw [List.length_append] at hb
  have hwithin : t.Within .unbounded := hw.within_unbounded (by omega)
  refine ⟨t.encoded, written_eq_ok_iff.2 ⟨hw.encodable, rfl⟩, hw.term_encoded hwithin, ?_⟩
  · rw [take_consumed, hw.canonical_iff, eq_comm]

/-- The string of one byte is read as a list, and written as one. -/
theorem written_eq_take_iff_canonical_string :
    term (fresh .unbounded [107, 0, 1, 5, 9]) =
      .ok (.list [.int 5]) (memory .unbounded 0 4 [9]) ∧
    ∃ b', (Term.list [.int 5]).written = .ok b' ∧
      term (fresh .unbounded b') =
        .ok (.list [.int 5]) (memory .unbounded 0 b'.length []) ∧
      (b' = [107, 0, 1, 5] ↔ Canonical [107, 0, 1, 5]) := by
  have hw : Wire [107, 0, 1, 5] (.list [.int 5]) := @Wire.string [5] (by decide)
  have h : term (fresh .unbounded [107, 0, 1, 5, 9]) =
      .ok (.list [.int 5]) (memory .unbounded 0 4 [9]) :=
    composed_term.ok_iff.2
      ⟨[107, 0, 1, 5], [9], rfl, (reads_term_unbounded_iff (by decide)).2 hw, rfl⟩
  exact ⟨h, written_eq_take_iff_canonical (by decide) h⟩

end

end ExternalTerm
