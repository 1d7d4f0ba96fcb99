import ExternalTerm.Proofs.Agreement
import ExternalTerm.Proofs.RoundTrip

/-!
# Headers

What stands before the elements of a tuple or a list says how many there are, for every number that
four bytes can express. Other numbers have no header.

* `Lossless what write read header` : `write` writes `header n` and `read` finds `n` again;
* `Lossless.injective` : so different numbers have different headers;
* `lossless_tuple`, `lossless_list` : the two headers;
* `tupleHeader_of_small`, `tupleHeader_of_large`, `listHeader_of_le` : the bytes of a header.

The last theorem puts them together.
-/

namespace ExternalTerm

open Reader

/-- For each number of elements that four bytes can express, `header n` is written, and after its
first byte, the tag, `read` finds `n` in the rest of it, unless `n` exceeds the limit. Every other
number is refused before anything is written. -/
structure Lossless (what : Kind) (write : Nat → WriteM Unit) (read : UInt8 → ReadM Nat)
    (header : Nat → List UInt8) : Prop where
  write_of_le {n : Nat} (h : n ≤ largeLengthMax) {s : Sink} (hs : s.Unlimited) :
    write n s = .ok () (s.append (header n))
  write_of_lt {n : Nat} (h : largeLengthMax < n) (s : Sink) :
    write n s = .error (.lengthOverflow what n) s
  reads {n : Nat} (h : n ≤ largeLengthMax) {L : Limits} (hl : n ≤ L.maxElements) (d : Nat) :
    Reads (byte >>= read) L d (header n) n
  stops {n : Nat} (h : n ≤ largeLengthMax) {L : Limits} (hl : L.maxElements < n) (d : Nat) :
    Stops (fun _ => True) (byte >>= read) L d (header n) (.limitExceeded what n L.maxElements)

section
variable {what : Kind} {write : Nat → WriteM Unit} {read : UInt8 → ReadM Nat}
  {header : Nat → List UInt8}

/-- Headers that are the same say the same number. -/
theorem Lossless.header_inj (h : Lossless what write read header) {m n : Nat}
    (hm : m ≤ largeLengthMax) (hn : n ≤ largeLengthMax) (heq : header m = header n) : m = n := by
  have hbound : largeLengthMax ≤ Limits.unbounded.maxElements := by decide
  have hreads := h.reads hm (Nat.le_trans hm hbound) 0 0 []
  rw [heq, h.reads hn (Nat.le_trans hn hbound) 0 0 []] at hreads
  injection hreads with hnm
  exact hnm.symm

/-- Different numbers leave a sink different, or are refused with different errors. -/
theorem Lossless.injective (h : Lossless what write read header) {s : Sink} (hs : s.Unlimited) :
    Function.Injective fun n => write n s := by
  intro m n (heq : write m s = write n s)
  rcases Nat.lt_or_ge largeLengthMax m with hm | hm
  · rw [h.write_of_lt hm] at heq
    rcases Nat.lt_or_ge largeLengthMax n with hn | hn
    · rw [h.write_of_lt hn] at heq
      injection heq with heq
      injection heq
    · rw [h.write_of_le hn hs] at heq
      cases heq
  · rw [h.write_of_le hm hs] at heq
    rcases Nat.lt_or_ge largeLengthMax n with hn | hn
    · rw [h.write_of_lt hn] at heq
      cases heq
    · rw [h.write_of_le hn hs] at heq
      injection heq with _ heq
      exact h.header_inj hm hn (Sink.append_inj.1 heq)

end

/-! ## Reading a number of elements -/

section
variable {L : Limits} {d n w : Nat} {what : Kind} {more : List UInt8 → Prop}

/-- A number above the limit is refused when all its bytes are read. -/
theorem stops_count (hn : n < 256 ^ w) (h : L.maxElements < n) :
    Stops more (do
      let count ← unsigned w
      checkElements what count
      return count) L d (Digits.bigEndian w n) (.limitExceeded what n L.maxElements) := by
  rw [← List.append_nil (Digits.bigEndian w n)]
  exact (reads_unsigned hn).bind_stops (stops_checkElements h).bind

end

/-! ## Tuples and lists -/

section
variable {n : Nat}

theorem lossless_tuple :
    Lossless .tuple Writer.tupleHeader tupleArity Term.tupleHeader where
  write_of_le := by
    intro n h s hs
    have hw := writes_tupleHeader n s hs
    rwa [if_neg (Nat.not_lt.2 h)] at hw
  write_of_lt := by
    intro n h s
    have hsmall : ¬ n ≤ smallLengthMax := by
      unfold largeLengthMax at h
      unfold smallLengthMax
      omega
    unfold Writer.tupleHeader
    rw [if_neg hsmall, if_neg (Nat.not_le.2 h)]
    rfl
  reads := by
    intro n h L hl d
    obtain ⟨tag, w, hw, hn, heq⟩ := Term.exists_tupleForm h
    have hcount : Reads (tupleArity tag.byte) L d (Digits.bigEndian w n) n :=
      reads_tupleArity_iff.2 ⟨w, hw, hn, hl, rfl⟩
    rw [heq]
    exact (reads_byte tag.byte).bind hcount
  stops := by
    intro n h L hl d
    obtain ⟨tag, w, hw, hn, heq⟩ := Term.exists_tupleForm h
    rw [heq]
    apply (reads_byte tag.byte).bind_stops
    rw [tupleArity_of_width hw]
    exact stops_count hn hl

theorem lossless_list :
    Lossless .list Writer.listHeader (fun _ => listCount) Term.listHeader where
  write_of_le := by
    intro n h s hs
    have hw := writes_listHeader n s hs
    rwa [if_neg (Nat.not_lt.2 h)] at hw
  write_of_lt := by
    intro n h s
    unfold Writer.listHeader
    rw [if_pos h]
    rfl
  reads := by
    intro n h L hl d
    have hcount : Reads listCount L d (Digits.bigEndian 4 n) n :=
      reads_listCount_iff.2 ⟨Nat.lt_succ_of_le h, hl, rfl⟩
    exact (reads_byte Tag.list.byte).bind hcount
  stops := by
    intro n h L hl d
    apply (reads_byte Tag.list.byte).bind_stops
    exact stops_count (Nat.lt_succ_of_le h) hl

/-! ## The bytes of a header -/

theorem tupleHeader_of_small (h : n ≤ 255) :
    ∃ count : UInt8, count.toNat = n ∧ Term.tupleHeader n = [Tag.smallTuple.byte, count] := by
  refine ⟨UInt8.ofNat n, Utf8.toNat_ofNat_lt (Nat.lt_succ_of_le h), ?_⟩
  unfold Term.tupleHeader
  rw [if_pos (show n ≤ smallLengthMax from h)]
  rfl

theorem tupleHeader_of_large (h : 255 < n) (hn : n ≤ largeLengthMax) :
    ∃ count : List UInt8, count.length = 4 ∧ Digits.ofBigEndian count = n ∧
      Term.tupleHeader n = Tag.largeTuple.byte :: count := by
  refine ⟨Digits.bigEndian 4 n, Digits.length_bigEndian 4 n,
    Digits.ofBigEndian_bigEndian_of_lt (Nat.lt_succ_of_le hn), ?_⟩
  unfold Term.tupleHeader
  rw [if_neg (Nat.not_le.2 (show smallLengthMax < n from h))]

theorem listHeader_of_le (hn : n ≤ largeLengthMax) :
    ∃ count : List UInt8, count.length = 4 ∧ Digits.ofBigEndian count = n ∧
      Term.listHeader n = Tag.list.byte :: count :=
  ⟨Digits.bigEndian 4 n, Digits.length_bigEndian 4 n,
    Digits.ofBigEndian_bigEndian_of_lt (Nat.lt_succ_of_le hn), rfl⟩

/-- The short form of a tuple is that of the numbers that one byte expresses. -/
theorem length_tupleHeader_iff : (Term.tupleHeader n).length = 2 ↔ n ≤ 255 := by
  rw [length_tupleHeader]
  unfold smallLengthMax
  split
  next h => simp [h]
  next h => simp [h]

/-- The number of elements of a tuple or a list is written before them, and is read back, unless it
exceeds the limit, when four bytes can express it; otherwise it is refused before anything is
written. A tuple of at most 255 elements has the short form, and no other. The bytes are the whole
number, and different numbers never leave the same. -/
theorem headers_lossless :
    Lossless .tuple Writer.tupleHeader tupleArity Term.tupleHeader ∧
    Lossless .list Writer.listHeader (fun _ => listCount) Term.listHeader ∧
    (∀ n, (Term.tupleHeader n).length = 2 ↔ n ≤ 255) ∧
    (∀ n, n ≤ 255 →
      ∃ count : UInt8, count.toNat = n ∧ Term.tupleHeader n = [Tag.smallTuple.byte, count]) ∧
    (∀ n, 255 < n → n ≤ largeLengthMax →
      ∃ count : List UInt8, count.length = 4 ∧ Digits.ofBigEndian count = n ∧
        Term.tupleHeader n = Tag.largeTuple.byte :: count) ∧
    (∀ n, n ≤ largeLengthMax →
      ∃ count : List UInt8, count.length = 4 ∧ Digits.ofBigEndian count = n ∧
        Term.listHeader n = Tag.list.byte :: count) ∧
    ∀ s : Sink, s.Unlimited → (Function.Injective fun n => Writer.tupleHeader n s) ∧
      Function.Injective fun n => Writer.listHeader n s := by
  refine ⟨lossless_tuple, lossless_list, fun n => length_tupleHeader_iff, ?_, ?_, ?_, ?_⟩
  · intro n h
    exact tupleHeader_of_small h
  · intro n h hn
    exact tupleHeader_of_large h hn
  · intro n hn
    exact listHeader_of_le hn
  · intro s hs
    exact ⟨lossless_tuple.injective hs, lossless_list.injective hs⟩

/-- The least number of the long form, the greatest of all and the first that has no header. -/
theorem headers_lossless_bounds :
    Writer.tupleHeader 256 {} = .ok () (({} : Sink).append [105, 0, 0, 1, 0]) ∧
    Reads (byte >>= tupleArity) {} 0 [105, 0, 0, 1, 0] 256 ∧
    Stops (fun _ => True) (byte >>= fun _ => listCount) {} 0 [108, 255, 255, 255, 255]
      (.limitExceeded .list 4294967295 16777216) ∧
    Writer.listHeader 4294967296 {} = .error (.lengthOverflow .list 4294967296) {} := by
  obtain ⟨htuple, hlist, -⟩ := headers_lossless
  have hn : 256 ≤ largeLengthMax := by decide
  have hwrite := htuple.write_of_le hn unlimited_empty
  have hread : Reads (byte >>= tupleArity) {} 0 _ 256 := htuple.reads hn (by decide) 0
  have hstop : Stops _ _ {} 0 _ _ := hlist.stops (n := 4294967295) (by decide) (by decide) 0
  exact ⟨hwrite, hread, hstop, hlist.write_of_lt (by decide) {}⟩

end

end ExternalTerm
