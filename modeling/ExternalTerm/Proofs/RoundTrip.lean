import ExternalTerm.Proofs.Reading
import ExternalTerm.Proofs.Within

/-!
# Reading what was written

* `WrittenForm` : the tag that is written for a term, and what follows it;
* `gives_term` : on the encoding of a term, reading a term gives its normal form when the term is
  within limits, and ends with an error about a limit when it is not.

On a new reader the same holds whatever follows the encoding.
-/

namespace ExternalTerm

open Reader

/-! ## The forms that are written -/

theorem integer?_ofInteger (n : Int) : (Term.ofInteger n).integer? = some n := by
  rw [Term.ofInteger]
  split
  next hn => rw [Term.integer?, Width.toInt_ofInt32 hn]
  next hn => rfl

namespace Term

theorem signedValue_littleEndian (n : Int) :
    signedValue (n < 0) (Digits.littleEndian (Digits.byteLength n.natAbs) n.natAbs) = n := by
  rw [signedValue, Digits.ofLittleEndian_littleEndian_byteLength]
  by_cases h : n < 0
  · rw [if_pos (by simpa using h)]
    omega
  · rw [if_neg (by simpa using h)]
    omega

theorem exists_integerForm {n : Int} (h : (bigInt n).fault? = none) :
    ∃ (tag : Tag) (body : List UInt8), integerBytes n = tag.byte :: body ∧
      IntegerForm tag body n ∧
      ∀ k, (tag = .smallBig → body.length ≤ k + 2) ↔ (bigInt n).payload ≤ k := by
  rw [payload, integerBytes]
  by_cases hsmall : 0 ≤ n ∧ n ≤ smallIntegerMax
  · have hfits : Width.w32.Fits n := fits_w32_of_small hsmall
    have hn : ((UInt8.ofNat n.toNat).toNat : Int) = n := by
      unfold smallIntegerMax at hsmall
      rw [Utf8.toNat_ofNat_lt (by omega)]
      omega
    have hform := IntegerForm.small (UInt8.ofNat n.toNat)
    rw [hn] at hform
    rw [if_pos hsmall, if_pos hfits]
    exact ⟨_, _, rfl, hform, by simp⟩
  rw [if_neg hsmall]
  by_cases hfits : Width.w32.Fits n
  · have hform := IntegerForm.word (Int32.ofInt n)
    rw [Width.toInt_ofInt32 hfits] at hform
    rw [if_pos hfits, if_pos hfits]
    exact ⟨_, _, rfl, hform, by simp⟩
  · have hlen : Digits.byteLength n.natAbs < 256 := by
      rw [fault?_bigInt] at h
      split at h
      · cases h
      · next hn => exact Nat.lt_succ_of_le (Nat.le_of_not_lt fun hlt => hn ⟨hfits, hlt⟩)
    have hform := IntegerForm.big (n < 0)
      (Digits.littleEndian (Digits.byteLength n.natAbs) n.natAbs) (by simpa using hlen)
    rw [signedValue_littleEndian, Digits.length_littleEndian] at hform
    rw [if_neg hfits, if_neg hfits]
    refine ⟨_, _, ?_, hform, fun k => ?_⟩
    · simp [signByte]
    · simp
      omega

theorem exists_nameForm {s : String} (h : (atom s).fault? = none) :
    ∃ (tag : Tag) (w : Nat), tag.textFamily? = some .atom ∧ tag.textWidth? = some w ∧
      Utf8.size s < 256 ^ w ∧
      nameBytes s = tag.byte :: (Digits.bigEndian w (Utf8.size s) ++ Utf8.encode s) := by
  rw [fault?] at h
  unfold nameBytes
  split
  next hs => exact ⟨.smallAtomUtf8, 1, rfl, rfl, Nat.lt_succ_of_le hs, rfl⟩
  next hs =>
    have hm : Utf8.size s ≤ mediumLengthMax := by
      split at h
      · cases h
      · omega
    exact ⟨.atomUtf8, 2, rfl, rfl, Nat.lt_succ_of_le hm, rfl⟩

theorem exists_tupleForm {n : Nat} (h : n ≤ largeLengthMax) :
    ∃ (tag : Tag) (w : Nat), tag.tupleWidth? = some w ∧ n < 256 ^ w ∧
      tupleHeader n = tag.byte :: Digits.bigEndian w n := by
  unfold tupleHeader
  split
  next hs => exact ⟨.smallTuple, 1, rfl, Nat.lt_succ_of_le hs, rfl⟩
  next hs => exact ⟨.largeTuple, 4, rfl, Nat.lt_succ_of_le h, rfl⟩

theorem normalize_of_integer {t : Term} {n : Int} (h : t.integer? = some n) :
    t.normalize = .ofInteger n := by
  cases t <;> cases h
  · next k =>
    rw [ofInteger, if_pos (Width.fits_toInt32 k), Int32.ofInt_toInt]
    rfl
  · rfl

theorem within_of_integer {t : Term} {n : Int} {L : Limits} (h : t.integer? = some n) :
    t.Within L ↔ t.payload ≤ L.maxPayload := by
  cases t <;> cases h <;> exact within_iff_payload rfl rfl rfl

theorem fault?_text_eq_none_iff {s : String} :
    (text s).fault? = none ↔ Utf8.size s ≤ largeLengthMax := by
  rw [fault?]
  simp

end Term

/-! ## The forms of a written term -/

/-- The tag that is written for a term, and what is written after it. -/
inductive WrittenForm : Term → Tag → List UInt8 → Prop
  | integer {t : Term} {n : Int} {tag : Tag} {body : List UInt8} (ht : t.integer? = some n)
      (h : IntegerForm tag body n)
      (hl : ∀ k, (tag = .smallBig → body.length ≤ k + 2) ↔ t.payload ≤ k) :
      WrittenForm t tag body
  | atom {s : String} {tag : Tag} {w : Nat} (ht : tag.textFamily? = some .atom)
      (hw : tag.textWidth? = some w) (hs : Utf8.size s < 256 ^ w) :
      WrittenForm (.atom s) tag (Digits.bigEndian w (Utf8.size s) ++ Utf8.encode s)
  | text {s : String} (hs : Utf8.size s < 256 ^ 4) :
      WrittenForm (.text s) .binary (Digits.bigEndian 4 (Utf8.size s) ++ Utf8.encode s)
  | tuple {ts : List Term} {tag : Tag} {w : Nat} (hw : tag.tupleWidth? = some w)
      (hn : ts.length < 256 ^ w) :
      WrittenForm (.tuple ts) tag (Digits.bigEndian w ts.length ++ Term.allEncoded ts)
  | list {ts : List Term} (hn : ts.length < 256 ^ 4) :
      WrittenForm (.list ts) .list
        (Digits.bigEndian 4 ts.length ++ (Term.allEncoded ts ++ [Tag.nil.byte]))

theorem exists_writtenForm {t : Term} (h : t.Encodable) :
    ∃ (tag : Tag) (body : List UInt8), t.encoded = tag.byte :: body ∧ WrittenForm t tag body := by
  cases t with
  | atom s =>
    rw [Term.Encodable, Term.firstFault?_of_nodes rfl] at h
    obtain ⟨tag, w, htag, hw, hs, hb⟩ := Term.exists_nameForm h
    exact ⟨tag, _, hb, .atom htag hw hs⟩
  | text s =>
    rw [Term.Encodable, Term.firstFault?_of_nodes rfl, Term.fault?_text_eq_none_iff] at h
    exact ⟨.binary, _, rfl, .text (Nat.lt_succ_of_le h)⟩
  | int n =>
    have hfits := Width.fits_toInt32 n
    have hn : (Term.bigInt n.toInt).fault? = none := by
      rw [Term.fault?, if_neg fun h => h.1 hfits]
    obtain ⟨tag, body, hb, hform, hl⟩ := Term.exists_integerForm hn
    rw [Term.payload, if_pos hfits] at hl
    exact ⟨tag, body, hb, .integer rfl hform hl⟩
  | bigInt n =>
    rw [Term.Encodable, Term.firstFault?_of_nodes rfl] at h
    obtain ⟨tag, body, hb, hform, hl⟩ := Term.exists_integerForm h
    exact ⟨tag, body, hb, .integer rfl hform hl⟩
  | tuple ts =>
    obtain ⟨tag, w, hw, hn, hb⟩ := Term.exists_tupleForm (Term.encodable_tuple_iff.1 h).1
    exact ⟨tag, _, by rw [Term.encoded, hb]; rfl, .tuple hw hn⟩
  | list ts =>
    exact ⟨.list, _, rfl, .list (Nat.lt_succ_of_le (Term.encodable_list_iff.1 h).1)⟩

/-! ## Terms -/

def DecodeError.IsLimit : DecodeError → Prop
  | .limitExceeded .. | .depthExceeded _ => True
  | _ => False

namespace Reader

section
variable {L : Limits} {d w : Nat} {tag : Tag} {E : DecodeError → Prop}

theorem mapM_ite {α β : Type} (c : α → Prop) [DecidablePred c] (v : α → β) (as : List α) :
    as.mapM (fun a => if c a then some (v a) else none) =
      if ∀ a ∈ as, c a then some (as.map v) else none := by
  induction as with
  | nil => rfl
  | cons a as ih =>
    rw [List.mapM_cons, ih]
    by_cases ha : c a
    · by_cases has : ∀ a ∈ as, c a
      · rw [if_pos ha, if_pos has, if_pos (List.forall_mem_cons.2 ⟨ha, has⟩)]
        rfl
      · rw [if_pos ha, if_neg has, if_neg fun h => has (List.forall_mem_cons.1 h).2]
        rfl
    · rw [if_neg ha, if_neg fun h => ha (List.forall_mem_cons.1 h).1]
      rfl

section
variable {ts : List Term}

/-- The elements of a tuple or a list are read as far as the limits inside it allow. -/
theorem gives_elements (h : ∀ t ∈ ts, Gives DecodeError.IsLimit term L (d + 1) t.encoded
      (if t.Within (L.inside (d + 1)) then some t.normalize else none)) :
    Gives DecodeError.IsLimit (nested (repeated ts.length term)) L d (Term.allEncoded ts)
      (if d < L.maxDepth ∧ ∀ t ∈ ts, t.Within (L.inside (d + 1)) then
        some (Term.normalizeAll ts)
      else
        none) := by
  by_cases hd : d < L.maxDepth
  · have hr := Gives.nested hd (gives_repeated h)
    simp only [mapM_ite, ← Term.allEncoded_eq_flatMap, ← Term.normalizeAll_eq_map] at hr
    simpa only [hd, true_and] using hr
  · rw [if_neg fun h => hd h.1]
    exact fails_nested (Nat.le_of_not_lt hd) trivial

end

/-- The encoding of a term comes back as its normal form, or fails at a limit. -/
theorem gives_term (t : Term) (h : t.Encodable) (d : Nat) :
    Gives DecodeError.IsLimit term L d t.encoded
      (if t.Within (L.inside d) then some t.normalize else none) := by
  have hE (k : Nat) : DecodeError.IsLimit (.limitExceeded .byteRun k L.maxPayload) := trivial
  have hC (what : Kind) (k : Nat) : DecodeError.IsLimit (.limitExceeded what k L.maxElements) :=
    trivial
  induction t using Term.induct generalizing d with
  | step t ih =>
  have hes (ts : List Term) (hts : t.elements? = some ts) :=
    gives_elements fun u hu => ih ts hts u hu ((h.elements hts).2 u hu) (d + 1)
  obtain ⟨tag, body, hb, form⟩ := exists_writtenForm h
  rw [hb, term_eq]
  refine Gives.byte_bind ?_
  cases form with
  | @integer _ n _ _ ht hform hl =>
    have hr := (gives_bigIntegerTagged (d := d) hform hE).map Term.ofInteger
    rw [Option.map_if] at hr
    simp only [hl] at hr
    rw [termBody_of_integerForm hform, Term.normalize_of_integer ht]
    simp only [Term.within_of_integer ht]
    exact hr
  | @atom s _ w htag hw hs =>
    have hr := (gives_sized (d := d) hs hE).map Term.atom
    rw [Option.map_if] at hr
    rw [termBody_of_atom htag, textTagged_of_width hw]
    simp only [Term.within_iff_payload (t := .atom s) rfl rfl rfl]
    exact hr
  | @text s hs =>
    have hr := (gives_sized (d := d) hs hE).map Term.text
    rw [Option.map_if] at hr
    rw [termBody_binary, textTagged_of_width rfl]
    simp only [Term.within_iff_payload (t := .text s) rfl rfl rfl]
    exact hr
  | @tuple ts _ w hw hn =>
    have hr := (hes ts rfl).map Term.tuple
    rw [Option.map_if] at hr
    rw [termBody_of_tupleWidth hw, tupleArity_of_width hw]
    simp only [Term.within_tuple_iff]
    exact (gives_count hn (hC _)).bind_ite fun _ => hr
  | @list ts hn =>
    have hr := gives_closed (hes ts rfl) Term.list
    rw [Option.map_if] at hr
    rw [termBody_list]
    simp only [Term.within_list_iff]
    exact (gives_count hn (hC _)).bind_ite fun _ => hr

/-- Reading what was written for a term, whatever follows it: a term within the limits comes back
in its normal form, and no other result is possible; a term that is not ends with a limit. -/
theorem term_of_written {t : Term} {bytes : List UInt8} (h : t.written = .ok bytes)
    (rest : List UInt8) (L : Limits) :
    (∀ u r, term (fresh L (bytes ++ rest)) = .ok u r ↔
      t.Within L ∧ u = t.normalize ∧ r = memory L 0 bytes.length rest) ∧
    (¬ t.Within L → ∃ e r, term (fresh L (bytes ++ rest)) = .error e r ∧ e.IsLimit) := by
  obtain ⟨henc, rfl⟩ := written_eq_ok_iff.1 h
  have hr : Gives _ term L 0 t.encoded _ := gives_term t henc 0
  rw [Limits.inside_zero] at hr
  refine ⟨fun u r => ?_, fun hw => ?_⟩
  · rw [hr.ok_iff rest]
    by_cases hw : t.Within L
    · simp [hw, eq_comm]
    · simp [hw]
  · rw [if_neg hw] at hr
    exact hr 0 rest

theorem term_of_written_pair :
    (Term.tuple [.bigInt 7, .list []]).written = .ok [104, 2, 97, 7, 108, 0, 0, 0, 0, 106] ∧
    term (fresh { maxDepth := 2 } [104, 2, 97, 7, 108, 0, 0, 0, 0, 106, 131]) =
      .ok (.tuple [.int 7, .list []]) (memory { maxDepth := 2 } 0 10 [131]) := by
  have h : (Term.tuple [.bigInt 7, .list []]).written =
      .ok [104, 2, 97, 7, 108, 0, 0, 0, 0, 106] := written_eq_ok_iff.2 ⟨rfl, rfl⟩
  have hw : (Term.tuple [.bigInt 7, .list []]).Within { maxDepth := 2 } := by decide
  exact ⟨h, ((term_of_written h [131] _).1 _ _).2 ⟨hw, rfl, rfl⟩⟩

end

end Reader

end ExternalTerm
