import ExternalTerm.Proofs.Compositional
import ExternalTerm.Proofs.Digits
import ExternalTerm.Proofs.Utf8
import ExternalTerm.Reader.Shape

/-!
# The bytes every reader reads

For every reader, that it is composed, and which bytes it reads to which result.

* `reads_integer*_iff` : the three forms of an integer;
* `reads_utf8_iff`, `reads_sized_iff` : texts with a length before them;
* `termTagged_eq` : a term is its body, the elements of which are terms.
-/

namespace ExternalTerm

/-! ## Forms -/

/-- The number of bytes of the length before a text of this tag. -/
def Tag.textWidth? : Tag → Option Nat
  | smallAtomUtf8 | smallAtom => some 1
  | atomUtf8 | atom | string => some 2
  | binary => some 4
  | _ => none

def Tag.tupleWidth? : Tag → Option Nat
  | smallTuple => some 1
  | largeTuple => some 4
  | _ => none

def signByte (negative : Bool) : UInt8 := if negative then 1 else 0

def signedValue (negative : Bool) (digits : List UInt8) : Int :=
  if negative then -(Digits.ofLittleEndian digits : Int) else Digits.ofLittleEndian digits

/-- What follows the tag of an integer, and its value: an unsigned byte; four bytes in two's
complement, most significant first; or a length, a sign and that many digits, least significant
first. -/
inductive IntegerForm : Tag → List UInt8 → Int → Prop
  | small (b : UInt8) : IntegerForm .smallInteger [b] b.toNat
  | word (n : Int32) :
    IntegerForm .integer (Digits.bigEndian 4 (n.toInt % 2 ^ 32).toNat) n.toInt
  | big (negative : Bool) (digits : List UInt8) (h : digits.length < 256) :
    IntegerForm .smallBig (Digits.bigEndian 1 digits.length ++ signByte negative :: digits)
      (signedValue negative digits)

namespace Reader

section
variable {α β : Type} {m m' : ReadM α} {f : UInt8 → ReadM β} {L : Limits} {d : Nat}
  {data : List UInt8} {b : β}

theorem reads_map_iff (h : Composed m) (g : α → β) :
    Reads (m >>= fun a => Pure.pure (g a)) L d data b ↔ ∃ a, b = g a ∧ Reads m L d data a := by
  rw [reads_bind_iff h fun _ => .pure _]
  simp only [reads_pure_iff]
  refine ⟨fun h => ?_, fun h => ?_⟩
  · obtain ⟨x, a, _, rfl, hx, rfl, rfl⟩ := h
    exact ⟨a, rfl, by rwa [List.append_nil]⟩
  · obtain ⟨a, rfl, h⟩ := h
    exact ⟨data, a, [], (List.append_nil _).symm, h, rfl, rfl⟩

/-! ## Parts of a fixed size -/

theorem reads_unsigned_iff {w n : Nat} :
    Reads (unsigned w) L d data n ↔ n < 256 ^ w ∧ data = Digits.bigEndian w n := by
  rw [unsigned, reads_map_iff (.exactly w), ← Digits.length_eq_and_ofBigEndian_eq_iff]
  simp only [reads_exactly_iff]
  refine ⟨fun h => ?_, fun h => ?_⟩
  · obtain ⟨_, rfl, rfl, h⟩ := h
    exact ⟨h, rfl⟩
  · obtain ⟨h, rfl⟩ := h
    exact ⟨data, rfl, rfl, h⟩

theorem reads_unsigned {w n : Nat} (h : n < 256 ^ w) :
    Reads (unsigned w) L d (Digits.bigEndian w n) n := reads_unsigned_iff.2 ⟨h, rfl⟩

theorem reads_byte_iff {t : UInt8} : Reads byte L d data t ↔ data = [t] := by
  rw [byte, reads_map_iff (.exactly 1)]
  simp only [reads_exactly_iff]
  refine ⟨fun h => ?_, fun h => ?_⟩
  · obtain ⟨_, rfl, rfl, h⟩ := h
    obtain ⟨t, rfl⟩ := List.length_eq_one_iff.1 h
    rfl
  · subst h
    exact ⟨[t], rfl, rfl, rfl⟩

theorem reads_byte (t : UInt8) : Reads byte L d [t] t := reads_byte_iff.2 rfl

theorem reads_byte_bind_iff (hf : ∀ t, Composed (f t)) :
    Reads (byte >>= f) L d data b ↔ ∃ t y, data = t :: y ∧ Reads (f t) L d y b := by
  rw [reads_bind_iff composed.byte hf]
  simp only [reads_byte_iff]
  refine ⟨fun h => ?_, fun h => ?_⟩
  · obtain ⟨_, t, y, rfl, rfl, h⟩ := h
    exact ⟨t, y, rfl, h⟩
  · obtain ⟨t, y, rfl, h⟩ := h
    exact ⟨[t], t, y, rfl, rfl, h⟩

theorem Fails.byte_bind {E : DecodeError → Prop} {t : UInt8} (h : Fails E (f t) L d data) :
    Fails E (byte >>= f) L d (t :: data) := (reads_byte t).bind_fails h

theorem Gives.byte_bind {E : DecodeError → Prop} {t : UInt8} {o : Option β}
    (h : Gives E (f t) L d data o) : Gives E (byte >>= f) L d (t :: data) o :=
  (reads_byte t).gives_bind h

theorem toNat_toInt_ofInt32 {k : Nat} (h : k < 256 ^ 4) :
    ((Int32.ofInt k).toInt % 2 ^ 32).toNat = k := by
  rw [Int32.toInt_ofInt, show (2 : Int) ^ 32 = (Int32.size : Nat) from rfl, Int.bmod_emod]
  change ((k : Int) % 4294967296).toNat = k
  omega

theorem ofInt32_toNat_toInt (n : Int32) : Int32.ofInt (n.toInt % 2 ^ 32).toNat = n := by
  rw [Int.toNat_of_nonneg (Int.emod_nonneg _ (by decide)), ← Int32.toInt_inj, Int32.toInt_ofInt,
    show (2 : Int) ^ 32 = (Int32.size : Nat) from rfl, Int.emod_bmod, ← Int32.toInt_ofInt,
    Int32.ofInt_toInt]

theorem reads_int32_iff {n : Int32} :
    Reads int32 L d data n ↔ data = Digits.bigEndian 4 (n.toInt % 2 ^ 32).toNat := by
  rw [int32, reads_map_iff (composed.unsigned 4)]
  simp only [reads_unsigned_iff]
  refine ⟨fun h => ?_, fun h => ?_⟩
  · obtain ⟨k, rfl, hk, rfl⟩ := h
    rw [toNat_toInt_ofInt32 hk]
  · subst h
    exact ⟨_, (ofInt32_toNat_toInt n).symm, by omega, rfl⟩

end

/-! ## Counts -/

section
variable {L : Limits} {d n : Nat} {data : List UInt8} {tag : Tag} {E : DecodeError → Prop}

theorem reads_checkElements_iff {what : Kind} {u : Unit} :
    Reads (checkElements what n) L d data u ↔ data = [] ∧ n ≤ L.maxElements := by
  refine ⟨fun h => ?_, fun h => ?_⟩
  · have h' := (composed.checkElements what n).reads_iff.1 h
    rw [checkElements_memory] at h'
    split at h'
    · cases h'
    · next hn =>
      injection h' with _ h'
      exact ⟨(memory_inj.1 h').2, Nat.le_of_not_lt hn⟩
  · obtain ⟨rfl, h⟩ := h
    exact reads_checkElements h

theorem reads_count_iff {w : Nat} {what : Kind} :
    Reads (do
      let count ← unsigned w
      checkElements what count
      return count) L d data n ↔
      n < 256 ^ w ∧ n ≤ L.maxElements ∧ data = Digits.bigEndian w n := by
  rw [reads_bind_iff (composed.unsigned w) fun _ => (composed.checkElements ..).bind fun _ =>
    .pure _]
  simp only [reads_bind_iff (composed.checkElements _ _) fun _ => .pure _, reads_pure_iff,
    reads_unsigned_iff, reads_checkElements_iff]
  refine ⟨fun h => ?_, fun h => ?_⟩
  · obtain ⟨_, n, _, rfl, ⟨h, rfl⟩, _, _, _, rfl, ⟨rfl, hn⟩, rfl, rfl⟩ := h
    exact ⟨h, hn, by simp⟩
  · obtain ⟨h, hn, rfl⟩ := h
    exact ⟨_, n, [], (List.append_nil _).symm, ⟨h, rfl⟩, [], (), [], rfl, ⟨rfl, hn⟩, rfl, rfl⟩

theorem gives_count {w : Nat} {what : Kind} (h : n < 256 ^ w)
    (hE : ∀ k, E (.limitExceeded what k L.maxElements)) :
    Gives E (do
      let count ← unsigned w
      checkElements what count
      return count) L d (Digits.bigEndian w n) (if n ≤ L.maxElements then some n else none) := by
  by_cases hn : n ≤ L.maxElements
  · rw [if_pos hn]
    exact reads_count_iff.2 ⟨h, hn, rfl⟩
  · rw [if_neg hn, ← List.append_nil (Digits.bigEndian w n)]
    exact (reads_unsigned h).bind_fails
      (fails_checkElements (Nat.lt_of_not_le hn) (hE n)).bind

theorem tupleArity_of_width {w : Nat} (h : tag.tupleWidth? = some w) :
    tupleArity tag.byte = (do
      let count ← unsigned w
      checkElements .tuple count
      return count) := by
  rw [tupleArity, Tag.ofByte?_byte]
  cases tag <;> cases h <;> rfl

theorem tupleArity_of_no_width (h : tag.tupleWidth? = none) :
    tupleArity tag.byte = throw (.unexpectedTag tag.byte .tuple) := by
  rw [tupleArity, Tag.ofByte?_byte]
  cases tag <;> first | cases h; done | exact throw_bind _ _

theorem reads_tupleArity_iff :
    Reads (tupleArity tag.byte) L d data n ↔
      ∃ w, tag.tupleWidth? = some w ∧ n < 256 ^ w ∧ n ≤ L.maxElements ∧
        data = Digits.bigEndian w n := by
  cases hw : tag.tupleWidth? with
  | none =>
    rw [tupleArity_of_no_width hw]
    refine ⟨fun h => ?_, fun h => ?_⟩
    · cases not_reads_throw h
    · obtain ⟨_, h, -⟩ := h
      cases h
  | some w =>
    rw [tupleArity_of_width hw, reads_count_iff]
    simp

theorem reads_listCount_iff :
    Reads listCount L d data n ↔
      n < 256 ^ 4 ∧ n ≤ L.maxElements ∧ data = Digits.bigEndian 4 n := reads_count_iff

theorem composed_endByte :
    Composed (EStateM.adaptExcept (fun | .truncated .. => .missingNil none | e => e) byte) :=
  composed.renameTruncated composed.byte (fun _ _ => .missingNil none) fun _ _ => trivial

theorem reads_nil_iff {u : Unit} : Reads nil L d data u ↔ data = [Tag.nil.byte] := by
  have hend (b : UInt8) : Composed
      (if b ≠ Tag.nil.byte then throw (.missingNil (some b)) else pure () : ReadM Unit) :=
    .ite (.throw not_false) (.pure _)
  refine (reads_bind_iff composed_endByte hend).trans ?_
  simp only [reads_rename_iff _ composed.byte, reads_byte_iff]
  refine ⟨fun h => ?_, fun h => ?_⟩
  · obtain ⟨_, b, y, rfl, rfl, h⟩ := h
    split at h
    · cases not_reads_throw h
    · next hb =>
      obtain ⟨rfl, -⟩ := reads_pure_iff.1 h
      rw [Decidable.not_not.1 hb]
      rfl
  · subst h
    refine ⟨_, Tag.nil.byte, [], rfl, rfl, ?_⟩
    rw [if_neg fun h => h rfl]
    exact Reads.pure ()

theorem reads_nil : Reads nil L d [Tag.nil.byte] () := reads_nil_iff.2 rfl

theorem gives_closed {α β : Type} {m : ReadM α} {o : Option α} (h : Gives E m L d data o)
    (g : α → β) :
    Gives E (m >>= fun a => nil >>= fun _ => pure (g a)) L d (data ++ [Tag.nil.byte])
      (o.map g) := by
  rw [Option.map_eq_bind]
  exact h.bind fun a _ => reads_nil.gives_bind (Gives.pure (g a))

end

/-! ## Integers -/

section
variable {L : Limits} {d : Nat} {data : List UInt8} {tag : Tag} {n : Int} {E : DecodeError → Prop}

def signedDigits (length : Nat) (sign : UInt8) : ReadM Int :=
  if 1 < sign then
    throw (.bigIntegerSign sign)
  else do
    let digits ← EStateM.adaptExcept
      (fun | .truncated expected actual => .bigIntegerLength expected actual | e => e) (run length)
    return if sign = 1 then -(Digits.ofLittleEndian digits : Int) else Digits.ofLittleEndian digits

theorem bigIntegerBody_eq :
    bigIntegerBody = unsigned 1 >>= fun length => byte >>= signedDigits length := rfl

theorem composed_digits (n : Nat) : Composed (EStateM.adaptExcept
    (fun | .truncated expected actual => .bigIntegerLength expected actual | e => e) (run n)) :=
  composed.renameTruncated (.run n) .bigIntegerLength fun _ _ => trivial

theorem composed_signedDigits (n : Nat) (sign : UInt8) : Composed (signedDigits n sign) :=
  .ite (.throw not_false) ((composed_digits n).map _)

theorem reads_signedDigits_iff {length : Nat} {sign : UInt8} :
    Reads (signedDigits length sign) L d data n ↔
      data.length = length ∧ length ≤ L.maxPayload ∧ ∃ negative : Bool,
        sign = signByte negative ∧ n = signedValue negative data := by
  unfold signedDigits
  split
  next hs =>
    refine ⟨fun h => ?_, fun h => ?_⟩
    · cases not_reads_throw h
    · obtain ⟨-, -, negative, rfl, -⟩ := h
      cases negative <;> exact absurd hs (by decide)
  next hs =>
    refine (reads_map_iff (composed_digits length) _).trans ?_
    simp only [reads_rename_iff _ (Composed.run length), reads_run_iff]
    refine ⟨fun h => ?_, fun h => ?_⟩
    · obtain ⟨_, rfl, rfl, hlen, hl⟩ := h
      have hsign : sign = 0 ∨ sign = 1 := by
        rw [← UInt8.toNat_inj, ← UInt8.toNat_inj]
        have := UInt8.not_lt.1 hs
        rw [UInt8.le_iff_toNat_le] at this
        change sign.toNat ≤ 1 at this
        change sign.toNat = 0 ∨ sign.toNat = 1
        omega
      rcases hsign with rfl | rfl
      · exact ⟨hlen, hl, false, rfl, rfl⟩
      · exact ⟨hlen, hl, true, rfl, rfl⟩
    · obtain ⟨hlen, hl, negative, rfl, rfl⟩ := h
      refine ⟨data, ?_, rfl, hlen, hl⟩
      cases negative <;> rfl

theorem reads_bigIntegerBody_iff :
    Reads bigIntegerBody L d data n ↔
      IntegerForm .smallBig data n ∧ data.length ≤ L.maxPayload + 2 := by
  rw [bigIntegerBody_eq, reads_bind_iff (composed.unsigned 1) fun n =>
    composed.byte.bind (composed_signedDigits n)]
  simp only [reads_unsigned_iff, reads_byte_bind_iff (composed_signedDigits _),
    reads_signedDigits_iff]
  refine ⟨fun h => ?_, fun h => ?_⟩
  · obtain ⟨_, k, _, rfl, ⟨hk, rfl⟩, _, digits, rfl, rfl, hl, negative, rfl, rfl⟩ := h
    refine ⟨.big negative digits hk, ?_⟩
    simp
    omega
  · obtain ⟨h, hl⟩ := h
    cases h with
    | big negative digits hk =>
      refine ⟨_, digits.length, _, rfl, ⟨hk, rfl⟩, _, digits, rfl, rfl, ?_, negative, rfl, rfl⟩
      simp at hl
      omega

theorem fails_bigIntegerBody {negative : Bool} {digits : List UInt8} (h : digits.length < 256)
    (hl : L.maxPayload < digits.length)
    (hE : E (.limitExceeded .byteRun digits.length L.maxPayload)) :
    Fails E bigIntegerBody L d
      (Digits.bigEndian 1 digits.length ++ signByte negative :: digits) := by
  rw [bigIntegerBody_eq]
  refine (reads_unsigned h).bind_fails (Fails.byte_bind ?_)
  unfold signedDigits
  rw [if_neg (by cases negative <;> decide)]
  refine (Fails.rename (fails_run hl rfl) ?_).bind.imp fun _ he => he ▸ hE
  rintro _ rfl
  rfl

/-- The tags that begin an integer, and what follows them. -/
theorem reads_bigIntegerTagged_iff :
    Reads (bigIntegerTagged tag.byte) L d data n ↔
      IntegerForm tag data n ∧ (tag = .smallBig → data.length ≤ L.maxPayload + 2) := by
  rw [bigIntegerTagged, Tag.ofByte?_byte]
  cases tag with
  | smallInteger =>
    refine (reads_map_iff (composed.unsigned 1) _).trans ?_
    simp only [reads_unsigned_iff]
    refine ⟨fun h => ?_, fun h => ?_⟩
    · obtain ⟨k, rfl, hk, rfl⟩ := h
      have h := IntegerForm.small (UInt8.ofNat k)
      rw [Utf8.toNat_ofNat_lt hk] at h
      exact ⟨h, nofun⟩
    · obtain ⟨h, -⟩ := h
      cases h with
      | small b => exact ⟨b.toNat, rfl, b.toNat_lt, (Digits.bigEndian_one b).symm⟩
  | integer =>
    refine (reads_map_iff composed.int32 _).trans ?_
    simp only [reads_int32_iff]
    refine ⟨fun h => ?_, fun h => ?_⟩
    · obtain ⟨k, rfl, rfl⟩ := h
      exact ⟨.word k, nofun⟩
    · obtain ⟨h, -⟩ := h
      cases h with
      | word k => exact ⟨k, rfl, rfl⟩
  | smallBig =>
    refine reads_bigIntegerBody_iff.trans ?_
    simp
  | _ =>
    refine ⟨fun h => absurd h not_reads_throw, ?_⟩
    rintro ⟨h, -⟩
    cases h

/-- An integer in one of its forms is read, unless its digits exceed the limit. -/
theorem gives_bigIntegerTagged (h : IntegerForm tag data n)
    (hE : ∀ k, E (.limitExceeded .byteRun k L.maxPayload)) :
    Gives E (bigIntegerTagged tag.byte) L d data
      (if tag = .smallBig → data.length ≤ L.maxPayload + 2 then some n else none) := by
  by_cases hl : tag = .smallBig → data.length ≤ L.maxPayload + 2
  · rw [if_pos hl]
    exact reads_bigIntegerTagged_iff.2 ⟨h, hl⟩
  · rw [if_neg hl]
    cases h with
    | small => exact absurd nofun hl
    | word => exact absurd nofun hl
    | big negative digits hk =>
      refine fails_bigIntegerBody hk ?_ (hE _)
      simp at hl
      omega

end

/-! ## Texts -/

section
variable {L : Limits} {d length w : Nat} {data : List UInt8} {tag : Tag} {s : String}
  {E : DecodeError → Prop}

theorem composed_decoded (bytes : List UInt8) :
    Composed (match Utf8.decode bytes with
      | .ok s => pure s
      | .error defect => throw (.invalidUtf8 defect) : ReadM String) := by
  cases Utf8.decode bytes with
  | ok s => exact .pure s
  | error defect => exact .throw not_false

theorem reads_utf8_iff :
    Reads (utf8 length) L d data s ↔
      data = Utf8.encode s ∧ Utf8.size s = length ∧ length ≤ L.maxPayload := by
  refine (reads_bind_iff (.run length) composed_decoded).trans ?_
  simp only [reads_run_iff]
  refine ⟨fun h => ?_, fun h => ?_⟩
  · obtain ⟨x, _, y, rfl, ⟨rfl, hlen, hl⟩, h⟩ := h
    split at h
    · next s' hs =>
      obtain ⟨rfl, rfl⟩ := reads_pure_iff.1 h
      obtain rfl := Utf8.decode_eq_ok_iff.1 hs
      rw [List.append_nil]
      exact ⟨rfl, hlen, hl⟩
    · cases not_reads_throw h
  · obtain ⟨rfl, hlen, hl⟩ := h
    refine ⟨_, Utf8.encode s, [], (List.append_nil _).symm, ⟨rfl, hlen, hl⟩, ?_⟩
    rw [Utf8.decode_encode]
    exact Reads.pure s

theorem fails_utf8 (h : L.maxPayload < length)
    (hE : E (.limitExceeded .byteRun length L.maxPayload)) : Fails E (utf8 length) L d data :=
  (fails_run h hE).bind

theorem composed_sized (w : Nat) : Composed (unsigned w >>= utf8) :=
  (composed.unsigned w).bind composed.utf8

theorem reads_sized_iff :
    Reads (unsigned w >>= utf8) L d data s ↔
      Utf8.size s < 256 ^ w ∧ Utf8.size s ≤ L.maxPayload ∧
        data = Digits.bigEndian w (Utf8.size s) ++ Utf8.encode s := by
  rw [reads_bind_iff (composed.unsigned w) composed.utf8]
  simp only [reads_unsigned_iff, reads_utf8_iff]
  refine ⟨fun h => ?_, fun h => ?_⟩
  · obtain ⟨_, _, _, rfl, ⟨h, rfl⟩, rfl, rfl, hl⟩ := h
    exact ⟨h, hl, rfl⟩
  · obtain ⟨h, hl, rfl⟩ := h
    exact ⟨_, _, _, rfl, ⟨h, rfl⟩, rfl, rfl, hl⟩

theorem gives_sized (h : Utf8.size s < 256 ^ w)
    (hE : ∀ k, E (.limitExceeded .byteRun k L.maxPayload)) :
    Gives E (unsigned w >>= utf8) L d (Digits.bigEndian w (Utf8.size s) ++ Utf8.encode s)
      (if Utf8.size s ≤ L.maxPayload then some s else none) := by
  by_cases hl : Utf8.size s ≤ L.maxPayload
  · rw [if_pos hl]
    exact reads_sized_iff.2 ⟨h, hl, rfl⟩
  · rw [if_neg hl]
    exact (reads_unsigned h).bind_fails (fails_utf8 (Nat.lt_of_not_le hl) (hE _))

theorem textTagged_of_width (h : tag.textWidth? = some w) :
    textTagged tag.byte = unsigned w >>= utf8 := by
  rw [textTagged, Tag.ofByte?_byte]
  cases tag <;> cases h <;> rfl

end

/-! ## Characters -/

def characterOf (code : Int64) : ReadM Char :=
  match char? code.toInt with
  | some c => return c
  | none => throw (.invalidCodePoint code.toInt)

theorem character_eq : character = integer .w64 >>= characterOf := rfl

theorem composed_characterOf (code : Int64) : Composed (characterOf code) := by
  unfold characterOf
  split
  · exact .pure _
  · exact .throw not_false

/-! ## Terms -/

section
variable {L : Limits} {d w : Nat} {data : List UInt8} {tag : Tag} {element element' : ReadM Term}

theorem composed_elements {α : Type} {m : ReadM α} (h : Composed m) (n : Nat) :
    Composed (nested (repeated n m)) := (h.repeated n).nested

theorem composed_termWithin (levels : Nat) (b : UInt8) : Composed (termWithin levels b) := by
  induction levels generalizing b with
  | zero =>
    have h (L : Limits) (_ : Nat) : Composed (throw (.depthExceeded L.maxDepth) : ReadM Term) :=
      .throw not_false
    exact composed.termBody (composed_elements (.ask h)) b
  | succ levels ih => exact composed.termBody (composed_elements (composed.byte.bind ih)) b

theorem composed_termTagged (b : UInt8) : Composed (termTagged b) :=
  Composed.ask fun L d => composed_termWithin (L.maxDepth - d) b

theorem composed_term : Composed term := composed.byte.bind composed_termTagged

/-- Elements that do the same one level further in make the same body. -/
theorem agree_termBody (h : Composed element)
    (he : d < L.maxDepth → Agree element element' L (d + 1)) (b : UInt8) :
    Agree (termBody element b) (termBody element' b) L d := by
  have hs (n : Nat) : Agree (nested (repeated n element)) (nested (repeated n element')) L d :=
    .nested fun hd => (he hd).repeated h n
  unfold termBody
  cases Tag.ofByte? b with
  | none => exact .refl _
  | some tag =>
    cases tag with
    | smallTuple | largeTuple =>
      exact (Agree.refl _).bind (composed.tupleArity b) fun n =>
        (hs n).bind (composed_elements h n) fun _ => .refl _
    | list =>
      exact (Agree.refl _).bind composed.listCount fun n =>
        (hs n).bind (composed_elements h n) fun _ => .refl _
    | _ => exact .refl _

theorem agree_term {levels : Nat} (h : L.maxDepth - d = levels) :
    Agree (do let b ← byte; termWithin levels b) term L d := by
  refine (Agree.refl _).bind composed.byte fun b => ?_
  rintro r rfl rfl
  change _ = termWithin (r.limits.maxDepth - r.depth) b r
  rw [h]

theorem termTagged_eq (b : UInt8) : termTagged b = termBody term b := by
  funext r
  change termWithin (r.limits.maxDepth - r.depth) b r = _
  cases hl : r.limits.maxDepth - r.depth with
  | zero =>
    have h (L : Limits) (_ : Nat) : Composed (throw (.depthExceeded L.maxDepth) : ReadM Term) :=
      .throw not_false
    exact agree_termBody (.ask h) (fun hd => by omega) b r rfl rfl
  | succ levels =>
    exact agree_termBody (composed.byte.bind (composed_termWithin levels))
      (fun _ => agree_term (by omega)) b r rfl rfl

theorem term_eq : term = byte >>= fun b => termBody term b := by
  rw [← funext termTagged_eq]
  rfl

/-! ## The bodies of terms -/

theorem termBody_of_integerForm {body : List UInt8} {n : Int} (h : IntegerForm tag body n) :
    termBody element tag.byte = bigIntegerTagged tag.byte >>= fun n => pure (.ofInteger n) := by
  rw [termBody, Tag.ofByte?_byte]
  cases h <;> rfl

theorem termBody_of_atom (h : tag.textFamily? = some .atom) :
    termBody element tag.byte = textTagged tag.byte >>= fun s => pure (.atom s) := by
  rw [termBody, Tag.ofByte?_byte]
  cases tag <;> cases h <;> rfl

theorem termBody_binary : termBody element Tag.binary.byte =
    textTagged Tag.binary.byte >>= fun s => pure (.text s) := by
  rw [termBody, Tag.ofByte?_byte]

theorem termBody_of_tupleWidth (h : tag.tupleWidth? = some w) :
    termBody element tag.byte = tupleArity tag.byte >>= fun n =>
      nested (repeated n element) >>= fun ts => pure (.tuple ts) := by
  rw [termBody, Tag.ofByte?_byte]
  cases tag <;> cases h <;> rfl

theorem termBody_list : termBody element Tag.list.byte =
    listCount >>= fun n => nested (repeated n element) >>= fun ts => nil >>= fun _ =>
      pure (.list ts) := by
  rw [termBody, Tag.ofByte?_byte]

theorem termBody_string : termBody element Tag.string.byte =
    unsigned 2 >>= fun n => run n >>= fun bytes => pure (byteList bytes) := by
  rw [termBody, Tag.ofByte?_byte]

theorem termBody_nil :
    termBody element Tag.nil.byte = pure (.list []) := by
  rw [termBody, Tag.ofByte?_byte]

theorem reads_term_iff {t : Term} :
    Reads term L d data t ↔ ∃ tag body, data = Tag.byte tag :: body ∧
      Reads (termBody term tag.byte) L d body t := by
  conv_lhs => rw [term_eq, reads_byte_bind_iff (composed.termBody (composed_elements composed_term))]
  refine ⟨fun h => ?_, fun h => ?_⟩
  · obtain ⟨b, body, rfl, h⟩ := h
    cases hb : Tag.ofByte? b with
    | none =>
      rw [termBody, hb] at h
      exact absurd h not_reads_throw
    | some tag =>
      obtain rfl := Tag.ofByte?_eq_some_iff.1 hb
      exact ⟨tag, body, rfl, h⟩
  · obtain ⟨tag, body, rfl, h⟩ := h
    exact ⟨tag.byte, body, rfl, h⟩

theorem reads_elements_iff (h : Composed element) {n : Nat} {ts : List Term} :
    Reads (nested (repeated n element)) L d data ts ↔ d < L.maxDepth ∧ ts.length = n ∧
      ∃ parts, data = List.flatten parts ∧ List.Forall₂ (Reads element L (d + 1)) parts ts := by
  rw [reads_nested_iff (h.repeated n), reads_repeated_iff h]

end

end Reader

end ExternalTerm
