import ExternalTerm.Proofs.Conversion
import ExternalTerm.Proofs.Numeral

/-!
# Integers out of range inside messages

* `Reaches` : reading against a shape comes to a part of the shape, after some of the bytes;
* `Reaches.stops` : reading against the shape stops where reading against the part does;
* `decode_of_overflow` : an integer outside the range of its width, wherever it is in a message,
  ends decoding with an overflow of its value, and reading stops right after it;
* `not_decode_of_overflow` : the overflow is not always one of the width that the shape declares.
-/

namespace ExternalTerm

open Reader

/-- Reading against the shape `s` inside `d` tuples and lists comes, after the bytes `x`, to reading
against the shape `part` inside `d'` of them. What is before the part in a tuple or a list has been
read. -/
inductive Reaches (L : Limits) : Nat → Shape → List UInt8 → Nat → Shape → Prop
  | self {d : Nat} {s : Shape} : Reaches L d s [] d s
  | field {d d' w : Nat} {fields before after : List (Field Shape)} {f : Field Shape}
      {part : Shape} {tag : Tag} {x y : List UInt8} {values : List (Field Decoded)}
      (hf : fields = before ++ f :: after) (hw : tag.tupleWidth? = some w)
      (hlt : fields.length < 256 ^ w) (hl : fields.length ≤ L.maxElements) (hd : d < L.maxDepth)
      (hx : Reads (shapedFields before) L (d + 1) x values)
      (hy : Reaches L (d + 1) f.value y d' part) :
      Reaches L d (.record fields)
        (tag.byte :: (Digits.bigEndian w fields.length ++ (x ++ y))) d' part
  | element {d d' n : Nat} {s part : Shape} {x y : List UInt8} {vs : List Decoded}
      (hlt : n < 256 ^ 4) (hl : n ≤ L.maxElements) (hd : d < L.maxDepth) (hn : vs.length < n)
      (hx : Reads (repeated vs.length (shaped s)) L (d + 1) x vs)
      (hy : Reaches L (d + 1) s y d' part) :
      Reaches L d (.list s) (Tag.list.byte :: (Digits.bigEndian 4 n ++ (x ++ y))) d' part

namespace Reader

section
variable {L : Limits} {d : Nat} {x y : List UInt8} {e : DecodeError} {more : List UInt8 → Prop}

theorem stops_shapedFields {before after : List (Field Shape)} {f : Field Shape}
    {values : List (Field Decoded)} (hx : Reads (shapedFields before) L d x values)
    (hy : Stops more (shaped f.value) L d y e) :
    Stops more (shapedFields (before ++ f :: after)) L d (x ++ y) e := by
  induction before generalizing x values with
  | nil =>
    obtain ⟨rfl, rfl⟩ := reads_pure_iff.1 hx
    exact hy.bind
  | cons g before ih =>
    obtain ⟨x, v, x', values, rfl, rfl, hv, hx'⟩ := reads_shapedFields_cons_iff.1 hx
    rw [List.append_assoc]
    exact hv.bind_stops (ih hx').bind

end

end Reader

namespace Reaches

section
variable {L : Limits} {d d' : Nat} {s part : Shape} {x y : List UInt8} {e : DecodeError}
  {more : List UInt8 → Prop}

/-- The parts of an accepted shape are accepted. -/
theorem check (h : Reaches L d s x d' part) (hs : s.check = .ok ()) : part.check = .ok () := by
  induction h with
  | self => exact hs
  | field hf _ _ _ _ _ _ ih =>
    exact ih (Shape.check_of_mem hs (hf ▸ List.mem_append_right _ List.mem_cons_self))
  | element _ _ _ _ _ _ ih => exact ih hs

/-- Reading against the shape stops where reading against the part does. -/
theorem stops (h : Reaches L d s x d' part) (hy : Stops more (shaped part) L d' y e) :
    Stops more (shaped s) L d (x ++ y) e := by
  induction h with
  | self => exact hy
  | @field d d' w fields before after f part tag x y' values hf hw hlt hl hd hx _ ih =>
    have hfields : Stops more (shapedFields fields) L (d + 1) (x ++ (y' ++ y)) e := by
      rw [hf]
      exact stops_shapedFields hx (ih hy)
    have hbody : Stops more (recordBody fields fields.length) L d (x ++ (y' ++ y)) e := by
      rw [recordBody, if_neg (not_not_intro rfl)]
      exact (hfields.nested hd).bind
    have harity :
        Reads (tupleArity tag.byte) L d (Digits.bigEndian w fields.length) fields.length :=
      reads_tupleArity_iff.2 ⟨w, hw, hlt, hl, rfl⟩
    rw [shaped_record, List.cons_append, List.append_assoc, List.append_assoc]
    exact (reads_byte tag.byte).bind_stops (harity.bind_stops hbody)
  | @element d d' n s part x y' vs hlt hl hd hn hx _ ih =>
    have helements : Stops more (repeated n (shaped s)) L (d + 1) (x ++ (y' ++ y)) e :=
      stops_repeated (composed_shaped s) hx hn (ih hy)
    have hcount : Reads listCount L d (Digits.bigEndian 4 n) n :=
      reads_listCount_iff.2 ⟨hlt, hl, rfl⟩
    rw [shaped_list, List.cons_append, List.append_assoc, List.append_assoc]
    exact (reads_byte Tag.list.byte).bind_stops (hcount.bind_stops (helements.nested hd).bind)

end

end Reaches

section
variable {L : Limits} {d : Nat} {s : Shape} {w : Width} {n : Numeral} {x : List UInt8}

/-- An integer outside the range of the width that an accepted shape asks for, in any form and
wherever it is in a message, ends decoding right after it, also into a type, with an overflow of its
value: of the width, or of 64 bits if it exceeds these too. -/
theorem decode_of_overflow (hs : s.check = .ok ()) (hx : Reaches L 0 s x d (.integer w))
    (hn : n.Admitted L) (hw : ¬ w.Fits n.value) (rest : List UInt8) :
    let source : Source := .ofBytes (versionMagic :: (x ++ n.bytes ++ rest))
    let error : DecodeError :=
      .overflow n.value (if Width.w64.Fits n.value then w else .w64)
    let last : Source := { pending := rest, delivered := x.length + n.bytes.length + 1 }
    decode source s L = (.error error, last) ∧
      ∀ T : Target, T.shape = s → decodeAs source T L = (.error error, last) := by
  have h8 : w ≠ .w8 := by
    rintro rfl
    cases hx.check hs
  have hpart : Stops (fun _ => True) (shaped (.integer w)) L d n.bytes
      (.overflow n.value (w.reported n.value)) := by
    rw [shaped_integer h8]
    exact (Numeral.stops_integer_of_not_fits hn hw).bind
  have hdecode := decode_of_stops hs (hx.stops hpart) rest trivial
  rw [List.length_append] at hdecode
  refine ⟨hdecode, ?_⟩
  rintro T rfl
  exact decodeAs_of_error hdecode

/-- The second of two elements of a list of 16-bit integers, inside a record. -/
theorem decode_of_overflow_element :
    let s : Shape := .record [⟨some "name", .text⟩, ⟨some "codes", .list (.integer .w16)⟩]
    let T : Target := .record [⟨some "name", .string⟩, ⟨some "codes", .list (.machine .w16)⟩]
    let bytes : List UInt8 := [104, 2, 107, 0, 1, 97, 108, 0, 0, 0, 2, 97, 5, 98, 0, 1, 0, 0, 106]
    decode (.ofBytes (131 :: bytes)) s {} =
        (.error (.overflow 65536 .w16), { pending := [106], delivered := 19 }) ∧
      decodeAs (.ofBytes (131 :: bytes)) T {} =
        (.error (.overflow 65536 .w16), { pending := [106], delivered := 19 }) := by
  intro s T bytes
  have hname : Reads (shapedFields [⟨some "name", .text⟩]) {} 1 [107, 0, 1, 97]
      [⟨some "name", .text "a"⟩] :=
    (composed.shapedFields fun f _ => composed_shaped f.value).reads_iff.2 (by decide +kernel)
  have hfirst : Reads (repeated [Decoded.integer 5].length (shaped (.integer .w16))) {} 2 [97, 5]
      [.integer 5] := ((composed_shaped _).repeated 1).reads_iff.2 (by decide +kernel)
  have hcodes : Reaches {} 1 (.list (.integer .w16)) [108, 0, 0, 0, 2, 97, 5] 2
      (.integer .w16) := by
    refine .element (n := 2) ?_ ?_ ?_ ?_ hfirst .self <;> decide
  have hreach : Reaches {} 0 s [104, 2, 107, 0, 1, 97, 108, 0, 0, 0, 2, 97, 5] 2
      (.integer .w16) := by
    have hfields : [⟨some "name", .text⟩, ⟨some "codes", .list (.integer .w16)⟩] =
        [⟨some "name", .text⟩] ++ (⟨some "codes", .list (.integer .w16)⟩ : Field Shape) :: [] := rfl
    have htag : Tag.smallTuple.tupleWidth? = some 1 := rfl
    refine .field hfields htag ?_ ?_ ?_ hname hcodes <;> decide
  have h := decode_of_overflow (n := ⟨.integer, _, _, .word 65536⟩) rfl hreach
    (Numeral.admitted_of_le (by decide)) (by decide) [106]
  exact ⟨h.1, h.2 T rfl⟩

/-- The width of the overflow is not always that of the shape: 2^64 against a 16-bit integer. -/
theorem not_decode_of_overflow :
    ¬ ∀ (s : Shape) (L : Limits) (x : List UInt8) (d : Nat) (w : Width) (n : Numeral),
      s.check = .ok () → Reaches L 0 s x d (.integer w) → n.Admitted L → ¬ w.Fits n.value →
        ∃ source, decode (.ofBytes (versionMagic :: (x ++ n.bytes))) s L =
          (.error (.overflow n.value w), source) := by
  intro hall
  let n : Numeral := ⟨.smallBig, _, _, .big false [0, 0, 0, 0, 0, 0, 0, 0, 1] (by decide)⟩
  have hn : n.Admitted {} := Numeral.admitted_of_le (by decide)
  have hw : ¬ Width.w16.Fits n.value := by decide
  have hstops : Stops (fun _ => True) (shaped (.integer .w16)) {} 0 n.bytes
      (.overflow n.value (Width.w16.reported n.value)) :=
    (Numeral.stops_integer_of_not_fits hn hw).bind
  have hrun := decode_of_stops rfl hstops [] trivial
  rw [Width.reported_of_not_fits (by decide), List.append_nil] at hrun
  obtain ⟨source, h⟩ := hall (.integer .w16) {} [] 0 .w16 n rfl .self hn hw
  cases hrun.symm.trans h

end

end ExternalTerm
