import ExternalTerm.Proofs.Forms

/-!
# Integers on the wire

The same integer has many forms: short ones, and digits with any number of zeros after the last that
counts, of either sign if all of them are zeros. What becomes of it depends on its value alone.

* `Numeral` : an integer in one of its forms;
* `Numeral.reads_bigInteger`, `exists_numeral` : these are all that is read as an integer;
* `reads_integer_of_fits`, `stops_integer_of_not_fits` : as one of a width it is itself, or it is
  refused;
* `integer_of_bigInteger` : so reading an integer of a width is reading one of any size, and
  comparing its value with the width.
-/

namespace ExternalTerm

open Reader

/-- An integer as it stands on the wire: a tag, what follows the tag, and the value of both. -/
structure Numeral where
  tag : Tag
  body : List UInt8
  value : Int
  form : IntegerForm tag body value

namespace Numeral

def bytes (n : Numeral) : List UInt8 := n.tag.byte :: n.body

/-- The limits admit the digits of the integer. Of other forms than digits they admit all. -/
def Admitted (n : Numeral) (L : Limits) : Prop :=
  n.tag = .smallBig → n.body.length ≤ L.maxPayload + 2

section
variable {n : Numeral} {L : Limits} {d : Nat} {w : Width}

/-- Limits that admit as many digits as one byte can count admit all integers. -/
theorem admitted_of_le (h : 255 ≤ L.maxPayload) : n.Admitted L := by
  obtain ⟨tag, body, value, form⟩ := n
  intro htag
  cases form with
  | small | word => cases htag
  | big negative digits hd =>
    rw [List.length_append, Digits.length_bigEndian, List.length_cons]
    omega

theorem admitted_unbounded : n.Admitted .unbounded := admitted_of_le (by decide)

theorem reads_bigInteger (h : n.Admitted L) : Reads bigInteger L d n.bytes n.value :=
  reads_bigInteger_iff.2 ⟨n.tag, n.body, rfl, n.form, h⟩

theorem reads_integer_of_fits (h : n.Admitted L) (hw : w.Fits n.value) :
    Reads (integer w) L d n.bytes (Int64.ofInt n.value) :=
  reads_integer_iff.2 ⟨n.value, hw, rfl, reads_bigInteger h⟩

/-- An integer that does not fit the width is read to its end and then refused. -/
theorem stops_integer_of_not_fits {more : List UInt8 → Prop} (h : n.Admitted L)
    (hw : ¬ w.Fits n.value) :
    Stops more (integer w) L d n.bytes (.overflow n.value (w.reported n.value)) := by
  have hnarrow : Stops more (narrow w n.value) L d [] (.overflow n.value (w.reported n.value)) := by
    intro p rest _
    rw [narrow, if_neg hw]
    rfl
  have hstops := (reads_bigInteger (d := d) h).bind_stops hnarrow
  rwa [List.append_nil, ← integer_eq] at hstops

end

end Numeral

namespace Reader

section
variable {L : Limits} {d : Nat} {data : List UInt8} {w : Width} {v : Int} {r r' : Reader}

/-- All that is read as an integer is an integer in one of its forms. -/
theorem exists_numeral (h : Reads bigInteger L d data v) :
    ∃ n : Numeral, n.Admitted L ∧ n.bytes = data ∧ n.value = v := by
  obtain ⟨tag, body, rfl, form, hl⟩ := reads_bigInteger_iff.1 h
  exact ⟨⟨tag, body, v, form⟩, hl, rfl, rfl⟩

theorem integer_of_ok (h : bigInteger r = .ok v r') : integer w r = narrow w v r' := by
  rw [integer_eq, bind_ok h]

/-- Reading an integer of a width gives what reading one of any size gives, from the same bytes, if
that fits the width. Otherwise it is an overflow of this value, and where no integer of any size can
be read, it fails in the same way. So all forms of an integer that limits admit have one result. -/
theorem integer_of_bigInteger (w : Width) :
    (∀ r v r', bigInteger r = .ok v r' →
      (w.Fits v → ∃ k, k.toInt = v ∧ integer w r = .ok k r') ∧
      (¬ w.Fits v → ∃ w', integer w r = .error (.overflow v w') r')) ∧
    (∀ r e r', bigInteger r = .error e r' → integer w r = .error e r') ∧
    ∀ (L : Limits) (d : Nat) (m n : Numeral), m.Admitted L → n.Admitted L → m.value = n.value →
      (∃ k, Reads (integer w) L d m.bytes k ∧ Reads (integer w) L d n.bytes k) ∨
        ∃ e, Stops (fun _ => True) (integer w) L d m.bytes e ∧
          Stops (fun _ => True) (integer w) L d n.bytes e := by
  refine ⟨fun r v r' h => ⟨fun hw => ?_, fun hw => ?_⟩, fun r e r' h => ?_, ?_⟩
  · refine ⟨Int64.ofInt v, Width.toInt_ofInt64 (Width.fits_w64_of_fits hw), ?_⟩
    rw [integer_of_ok h, narrow, if_pos hw]
    rfl
  · refine ⟨w.reported v, ?_⟩
    rw [integer_of_ok h, narrow, if_neg hw]
    rfl
  · rw [integer_eq, bind_error h]
  · intro L d m n hm hn hv
    by_cases hw : w.Fits n.value
    · have hreads := Numeral.reads_integer_of_fits (d := d) hm (hv ▸ hw)
      rw [hv] at hreads
      exact .inl ⟨_, hreads, Numeral.reads_integer_of_fits hn hw⟩
    · have hstops : Stops (fun _ => True) (integer w) L d m.bytes _ :=
        Numeral.stops_integer_of_not_fits hm (hv ▸ hw)
      rw [hv] at hstops
      exact .inr ⟨_, hstops, Numeral.stops_integer_of_not_fits hn hw⟩

/-- `integer_of_bigInteger` on 65536, once in four bytes and once in digits with a needless zero,
and on digits of no sign. -/
theorem integer_of_bigInteger_zeros :
    (∃ k : Int64, k.toInt = 65536 ∧
      integer .w32 (fresh {} [110, 4, 0, 0, 0, 1, 0]) = .ok k (memory {} 0 7 [])) ∧
    (∃ w', integer .w16 (fresh {} [110, 4, 0, 0, 0, 1, 0]) =
      .error (.overflow 65536 w') (memory {} 0 7 [])) ∧
    integer .w16 (fresh {} [110, 1, 2, 5]) = .error (.bigIntegerSign 2) (memory {} 0 3 [5]) ∧
    ∃ k, Reads (integer .w32) {} 0 [98, 0, 1, 0, 0] k ∧
      Reads (integer .w32) {} 0 [110, 4, 0, 0, 0, 1, 0] k := by
  have hbig : bigInteger (fresh {} [110, 4, 0, 0, 0, 1, 0]) = .ok 65536 (memory {} 0 7 []) := by
    decide +kernel
  refine ⟨((integer_of_bigInteger .w32).1 _ _ _ hbig).1 (by decide),
    ((integer_of_bigInteger .w16).1 _ _ _ hbig).2 (by decide),
    (integer_of_bigInteger .w16).2.1 _ _ _ (by decide +kernel), ?_⟩
  refine ((integer_of_bigInteger .w32).2.2 {} 0 ⟨.integer, _, _, .word 65536⟩
    ⟨.smallBig, _, _, .big false [0, 0, 1, 0] (by decide)⟩ (Numeral.admitted_of_le (by decide))
    (Numeral.admitted_of_le (by decide)) (by decide)).resolve_right ?_
  rintro ⟨e, h, -⟩
  have hread := h 0 [] trivial
  cases hread

end

end Reader

end ExternalTerm
