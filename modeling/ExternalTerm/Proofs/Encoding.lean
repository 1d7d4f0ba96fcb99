import ExternalTerm.Proofs.Action
import ExternalTerm.Proofs.Digits
import ExternalTerm.Proofs.Utf8
import ExternalTerm.Writer.Size
import ExternalTerm.Writer.Term

/-!
# What is written for a term

`Term.encoded t` is the encoding of `t` as a list of bytes, `Term.firstFault?` the reason why there
is none: the fault of the first node that has one, a tuple or a list coming before its elements.

* `Writes m fault data` : on a sink without bounds `m` writes `data`, or ends with `fault`;
* `writes_term`, `encodedSize_eq` : both the writer and the size follow `encoded` and `firstFault?`;
* `written_eq_ok_iff` : the terms that can be written, and what is written for them.
-/

namespace ExternalTerm

/-! ## Sinks without bounds -/

namespace Sink

/-- The sink takes all bytes in the end. -/
def Unlimited (s : Sink) : Prop := s.capacity = none ∧ s.chunk ≠ some 0

def append (s : Sink) (data : List UInt8) : Sink := { s with content := s.content ++ data }

theorem Unlimited.append {s : Sink} (h : s.Unlimited) (data : List UInt8) :
    (s.append data).Unlimited := h

@[simp] theorem append_nil (s : Sink) : s.append [] = s := by simp [append]

@[simp] theorem append_append (s : Sink) (x y : List UInt8) :
    (s.append x).append y = s.append (x ++ y) := by
  have : s.content ++ x ++ y = s.content ++ (x ++ y) := Array.ext' (by simp)
  rw [append, append, append, this]

theorem allowance_of_unlimited {s : Sink} (h : s.Unlimited) {n : Nat} (hn : 0 < n) :
    ∃ k, s.allowance n = k + 1 ∧ k < n := by
  have hpos : 0 < s.chunk.getD n := by
    cases hc : s.chunk with
    | none => exact hn
    | some c => exact Nat.pos_of_ne_zero fun h0 => h.2 (hc.trans (congrArg some h0))
  refine ⟨s.allowance n - 1, ?_, ?_⟩ <;>
    · unfold allowance
      rw [h.1, Option.getD_none]
      omega

theorem writeWithin_of_unlimited {offers : Nat} {s : Sink} (h : s.Unlimited) {data : List UInt8}
    (hd : data.length ≤ offers) : s.writeWithin offers data = (none, s.append data) := by
  induction offers generalizing s data with
  | zero =>
    obtain rfl := List.eq_nil_of_length_eq_zero (Nat.le_zero.1 hd)
    rw [append_nil]
    rfl
  | succ offers ih =>
    cases data with
    | nil =>
      rw [append_nil]
      rfl
    | cons b data =>
      obtain ⟨k, hk, hlt⟩ := allowance_of_unlimited h (Nat.succ_pos data.length)
      rw [writeWithin, List.length_cons, hk]
      · change writeWithin offers (s.append ((b :: data).take (k + 1))) _ = _
        rw [ih (h.append _) (by simp at hd ⊢; omega), append_append, List.take_append_drop]
      · exact fun h => nomatch h

theorem write_of_unlimited {s : Sink} (h : s.Unlimited) (data : List UInt8) :
    s.write data = (none, s.append data) := writeWithin_of_unlimited h (Nat.le_refl _)

end Sink

/-! ## Writers -/

def orFault {α : Type} (fault : Option EncodeError) (a : α) : Except EncodeError α :=
  match fault with
  | none => .ok a
  | some e => .error e

@[simp] theorem orFault_none {α : Type} (a : α) : orFault none a = .ok a := rfl

@[simp] theorem orFault_some {α : Type} (e : EncodeError) (a : α) :
    orFault (some e) a = .error e := rfl

theorem orFault_eq_ok_iff {α : Type} {fault : Option EncodeError} {a b : α} :
    orFault fault a = .ok b ↔ fault = none ∧ b = a := by
  cases fault with
  | none => simp [eq_comm]
  | some e => simp

/-- On a sink without bounds the action writes `data`, unless it ends with the fault. -/
def Writes (m : WriteM Unit) (fault : Option EncodeError) (data : List UInt8) : Prop :=
  ∀ s : Sink, s.Unlimited →
    match fault with
    | none => m s = .ok () (s.append data)
    | some e => ∃ s', m s = .error e s'

theorem Writes.pure : Writes (Pure.pure ()) none [] := fun s _ => by
  rw [Sink.append_nil]
  rfl

theorem Writes.throw (e : EncodeError) (data : List UInt8) :
    Writes (MonadExcept.throw e) (some e) data := fun s _ => ⟨s, rfl⟩

theorem Writes.throw_bind (e : EncodeError) (f : Unit → WriteM Unit) (data : List UInt8) :
    Writes (MonadExcept.throw e >>= f) (some e) data := fun s _ => ⟨s, rfl⟩

theorem Writes.bind {m : WriteM Unit} {f : Unit → WriteM Unit} {e₁ e₂ : Option EncodeError}
    {x y : List UInt8} (hm : Writes m e₁ x) (hf : Writes (f ()) e₂ y) :
    Writes (m >>= f) (e₁.or e₂) (x ++ y) := by
  intro s hs
  cases e₁ with
  | some e =>
    obtain ⟨s', h⟩ := hm s hs
    exact ⟨s', bind_error h⟩
  | none =>
    have h : m s = .ok () (s.append x) := hm s hs
    have h' := hf (s.append x) (hs.append x)
    rw [Option.none_or]
    cases e₂ with
    | none =>
      rw [Sink.append_append] at h'
      exact (bind_ok h).trans h'
    | some e =>
      obtain ⟨s', h'⟩ := h'
      exact ⟨s', (bind_ok h).trans h'⟩

theorem writes_bytes (data : List UInt8) : Writes (Writer.bytes data) none data := fun s hs => by
  rw [Writer.bytes, Sink.write_of_unlimited hs]

theorem writes_two (x y : List UInt8) :
    Writes (do Writer.bytes x; Writer.bytes y) none (x ++ y) :=
  (writes_bytes x).bind (writes_bytes y)

theorem writes_three (x y z : List UInt8) :
    Writes (do Writer.bytes x; Writer.bytes y; Writer.bytes z) none (x ++ (y ++ z)) :=
  (writes_bytes x).bind (writes_two y z)

/-! ## Terms -/

namespace Term

mutual

/-- The term and all terms inside it, every term before the ones inside it. -/
def nodes : Term → List Term
  | tuple ts => tuple ts :: allNodes ts
  | list ts => list ts :: allNodes ts
  | t => [t]

def allNodes : List Term → List Term
  | [] => []
  | t :: ts => nodes t ++ allNodes ts

end

/-- Why the term cannot be written, whatever is inside it. -/
def fault? : Term → Option EncodeError
  | atom name =>
    if mediumLengthMax < Utf8.size name then some (.atomTooLong (Utf8.size name)) else none
  | text value =>
    if largeLengthMax < Utf8.size value then
      some (.lengthOverflow .binary (Utf8.size value))
    else
      none
  | int _ => none
  | bigInt n =>
    if ¬ Width.w32.Fits n ∧ 256 ^ smallLengthMax ≤ n.natAbs then
      some (.bigIntegerTooLarge (Digits.byteLength n.natAbs))
    else
      none
  | tuple ts =>
    if largeLengthMax < ts.length then some (.lengthOverflow .tuple ts.length) else none
  | list ts => if largeLengthMax < ts.length then some (.lengthOverflow .list ts.length) else none

def firstFault? (t : Term) : Option EncodeError := t.nodes.findSome? fault?

def Encodable (t : Term) : Prop := t.firstFault? = none

def nameBytes (name : String) : List UInt8 :=
  if Utf8.size name ≤ smallLengthMax then
    Tag.smallAtomUtf8.byte :: Digits.bigEndian 1 (Utf8.size name) ++ Utf8.encode name
  else
    Tag.atomUtf8.byte :: Digits.bigEndian 2 (Utf8.size name) ++ Utf8.encode name

def textBytes (value : String) : List UInt8 :=
  Tag.binary.byte :: Digits.bigEndian 4 (Utf8.size value) ++ Utf8.encode value

def integerBytes (n : Int) : List UInt8 :=
  if 0 ≤ n ∧ n ≤ smallIntegerMax then
    Tag.smallInteger.byte :: Digits.bigEndian 1 n.toNat
  else if Width.w32.Fits n then
    Tag.integer.byte :: Digits.bigEndian 4 (n % 2 ^ 32).toNat
  else
    Tag.smallBig.byte :: Digits.bigEndian 1 (Digits.byteLength n.natAbs) ++
      (if n < 0 then 1 else 0) :: Digits.littleEndian (Digits.byteLength n.natAbs) n.natAbs

def tupleHeader (arity : Nat) : List UInt8 :=
  if arity ≤ smallLengthMax then
    Tag.smallTuple.byte :: Digits.bigEndian 1 arity
  else
    Tag.largeTuple.byte :: Digits.bigEndian 4 arity

def listHeader (count : Nat) : List UInt8 := Tag.list.byte :: Digits.bigEndian 4 count

mutual

/-- The encoding of a term, if it has one. -/
def encoded : Term → List UInt8
  | atom name => nameBytes name
  | text value => textBytes value
  | int n => integerBytes n.toInt
  | bigInt n => integerBytes n
  | tuple ts => tupleHeader ts.length ++ allEncoded ts
  | list ts => listHeader ts.length ++ (allEncoded ts ++ [Tag.nil.byte])

def allEncoded : List Term → List UInt8
  | [] => []
  | t :: ts => encoded t ++ allEncoded ts

end

theorem allNodes_eq_flatMap (ts : List Term) : allNodes ts = ts.flatMap nodes := by
  induction ts with
  | nil => rfl
  | cons t ts ih => rw [allNodes, ih, List.flatMap_cons]

theorem allEncoded_eq_flatMap (ts : List Term) : allEncoded ts = ts.flatMap encoded := by
  induction ts with
  | nil => rfl
  | cons t ts ih => rw [allEncoded, ih, List.flatMap_cons]

def allFirstFault? (ts : List Term) : Option EncodeError := (allNodes ts).findSome? fault?

theorem allFirstFault?_cons (t : Term) (ts : List Term) :
    allFirstFault? (t :: ts) = t.firstFault?.or (allFirstFault? ts) := List.findSome?_append

theorem firstFault?_tuple (ts : List Term) :
    (tuple ts).firstFault? = (tuple ts).fault?.or (allFirstFault? ts) := by
  rw [firstFault?, nodes, List.findSome?_cons]
  cases (tuple ts).fault? <;> rfl

theorem firstFault?_list (ts : List Term) :
    (list ts).firstFault? = (list ts).fault?.or (allFirstFault? ts) := by
  rw [firstFault?, nodes, List.findSome?_cons]
  cases (list ts).fault? <;> rfl

/-- The magnitude has too many digits exactly when the number is too large. -/
theorem fault?_bigInt (n : Int) :
    (bigInt n).fault? =
      if ¬ Width.w32.Fits n ∧ smallLengthMax < Digits.byteLength n.natAbs then
        some (.bigIntegerTooLarge (Digits.byteLength n.natAbs))
      else
        none := by
  simp only [fault?, Digits.lt_byteLength_iff]

theorem firstFault?_of_nodes {t : Term} (h : t.nodes = [t]) : t.firstFault? = t.fault? := by
  rw [firstFault?, h, List.findSome?_cons, List.findSome?_nil]
  cases t.fault? <;> rfl

end Term

/-! ## Writing -/

open Term

theorem writes_atom (name : String) :
    Writes (Writer.atom name) (atom name).fault? (nameBytes name) := by
  rw [Writer.atom, fault?, nameBytes]
  dsimp only
  rw [← Utf8.size]
  by_cases h₁ : Utf8.size name ≤ smallLengthMax
  · rw [if_pos h₁, if_pos h₁, if_neg (by unfold smallLengthMax mediumLengthMax at *; omega)]
    exact writes_two _ _
  · rw [if_neg h₁, if_neg h₁]
    by_cases h₂ : Utf8.size name ≤ mediumLengthMax
    · rw [if_pos h₂, if_neg (by omega)]
      exact writes_three [_] _ _
    · rw [if_neg h₂, if_pos (by omega)]
      exact Writes.throw_bind _ _ _

theorem writes_binary (value : String) :
    Writes (Writer.binary (Utf8.encode value)) (text value).fault? (textBytes value) := by
  rw [Writer.binary, fault?, textBytes]
  dsimp only
  rw [← Utf8.size]
  by_cases h : largeLengthMax < Utf8.size value
  · rw [if_pos h, if_pos h]
    exact Writes.throw_bind _ _ _
  · rw [if_neg h, if_neg h]
    exact writes_three [_] _ _

theorem writes_int32 {n : Int} (h : Width.w32.Fits n) :
    Writes (Writer.int32 (Int32.ofInt n)) none (integerBytes n) := by
  rw [Writer.int32, integerBytes, Writer.int32Bytes, Width.toInt_ofInt32 h]
  by_cases hsmall : 0 ≤ n ∧ n ≤ smallIntegerMax
  · rw [if_pos hsmall, if_pos hsmall]
    exact writes_bytes _
  · rw [if_neg hsmall, if_neg hsmall, if_pos h]
    exact writes_bytes _

theorem fits_w32_of_small {n : Int} (h : 0 ≤ n ∧ n ≤ smallIntegerMax) : Width.w32.Fits n := by
  unfold smallIntegerMax at h
  rw [Width.fits_w32_iff]
  omega

theorem writes_integer (n : Int) :
    Writes (Writer.integer n) (bigInt n).fault? (integerBytes n) := by
  rw [Writer.integer, fault?_bigInt]
  by_cases h : Width.w32.Fits n
  · rw [if_pos h, if_neg (fun h' => h'.1 h)]
    exact writes_int32 h
  · rw [if_neg h, integerBytes, if_neg (mt fits_w32_of_small h), if_neg h]
    dsimp only
    by_cases hlen : smallLengthMax < Digits.byteLength n.natAbs
    · rw [if_pos hlen, if_pos (And.intro h hlen)]
      exact Writes.throw_bind _ _ _
    · rw [if_neg hlen, if_neg (fun h' : _ ∧ _ => hlen h'.2)]
      exact writes_two [_, _, _] _

theorem writes_tupleHeader (n : Nat) :
    Writes (Writer.tupleHeader n)
      (if largeLengthMax < n then some (.lengthOverflow .tuple n) else none) (tupleHeader n) := by
  rw [Writer.tupleHeader, tupleHeader]
  by_cases h₁ : n ≤ smallLengthMax
  · rw [if_pos h₁, if_pos h₁, if_neg (by unfold smallLengthMax largeLengthMax at *; omega)]
    exact writes_bytes _
  · rw [if_neg h₁, if_neg h₁]
    by_cases h₂ : n ≤ largeLengthMax
    · rw [if_pos h₂, if_neg (by omega)]
      exact writes_two [_] _
    · rw [if_neg h₂, if_pos (by omega)]
      exact Writes.throw _ _

theorem writes_listHeader (n : Nat) :
    Writes (Writer.listHeader n)
      (if largeLengthMax < n then some (.lengthOverflow .list n) else none) (listHeader n) := by
  rw [Writer.listHeader, listHeader]
  by_cases h : largeLengthMax < n
  · rw [if_pos h, if_pos h]
    exact Writes.throw_bind _ _ _
  · rw [if_neg h, if_neg h]
    exact writes_two [_] _

mutual

theorem writes_term : (t : Term) → Writes (Writer.term t) t.firstFault? t.encoded
  | atom name => by
    rw [firstFault?_of_nodes (rfl)]
    exact writes_atom name
  | text value => by
    rw [firstFault?_of_nodes (rfl)]
    exact writes_binary value
  | int n => by
    rw [firstFault?_of_nodes (rfl), encoded]
    have h := writes_int32 (Width.fits_toInt32 n)
    rwa [Int32.ofInt_toInt] at h
  | bigInt n => by
    rw [firstFault?_of_nodes (rfl)]
    exact writes_integer n
  | tuple ts => by
    rw [firstFault?_tuple, Writer.term, encoded]
    exact (writes_tupleHeader ts.length).bind (writes_terms ts)
  | list ts => by
    rw [firstFault?_list, Writer.term, encoded]
    have h : Writes (do Writer.terms ts; Writer.nil) _ (allEncoded ts ++ [Tag.nil.byte]) :=
      (writes_terms ts).bind (writes_bytes _)
    rw [Option.or_none] at h
    exact (writes_listHeader ts.length).bind h

theorem writes_terms :
    (ts : List Term) → Writes (Writer.terms ts) (allFirstFault? ts) (allEncoded ts)
  | [] => Writes.pure
  | t :: ts => by
    rw [allFirstFault?_cons, Writer.terms, allEncoded]
    exact (writes_term t).bind (writes_terms ts)

end

/-- The bytes written for a term on an empty sink without bounds. -/
def Term.written (t : Term) : Except EncodeError (List UInt8) :=
  match (Writer.term t).run {} with
  | .ok _ s => .ok s.content.toList
  | .error e _ => .error e

theorem unlimited_empty : Sink.Unlimited {} := ⟨rfl, fun h => nomatch h⟩

theorem written_eq (t : Term) : t.written = orFault t.firstFault? t.encoded := by
  have h := writes_term t {} unlimited_empty
  unfold written EStateM.run
  cases hf : t.firstFault? with
  | none =>
    rw [hf] at h
    dsimp only at h
    rw [h]
    simp [Sink.append]
  | some e =>
    rw [hf] at h
    obtain ⟨s', h⟩ := h
    rw [h]
    rfl

theorem written_eq_ok_iff {t : Term} {bytes : List UInt8} :
    t.written = .ok bytes ↔ t.Encodable ∧ bytes = t.encoded := by
  rw [written_eq, orFault_eq_ok_iff]
  rfl

/-! ## Sizes -/

theorem orFault_bind {α β : Type} (e₁ e₂ : Option EncodeError) (a : α) (b : β)
    {f : α → Except EncodeError β} (hf : f a = orFault e₂ b) :
    (orFault e₁ a >>= f) = orFault (e₁.or e₂) b := by
  cases e₁ with
  | none => exact hf
  | some e => rfl

theorem length_allEncoded_cons (t : Term) (ts : List Term) :
    (allEncoded (t :: ts)).length = t.encoded.length + (allEncoded ts).length := by
  rw [allEncoded, List.length_append]

theorem length_nameBytes (name : String) :
    (nameBytes name).length =
      (if Utf8.size name ≤ smallLengthMax then 2 else 3) + Utf8.size name := by
  unfold nameBytes
  split <;> simp <;> omega

theorem length_textBytes (value : String) :
    (textBytes value).length = 5 + Utf8.size value := by
  simp [textBytes]
  omega

theorem length_integerBytes (n : Int) :
    (integerBytes n).length =
      if Width.w32.Fits n then Term.int32Size n else 3 + Digits.byteLength n.natAbs := by
  unfold integerBytes Term.int32Size
  by_cases hsmall : 0 ≤ n ∧ n ≤ smallIntegerMax
  · rw [if_pos hsmall, if_pos (fits_w32_of_small hsmall), if_pos hsmall]
    simp
  · rw [if_neg hsmall, if_neg hsmall]
    split
    · simp
    · simp
      omega

theorem length_tupleHeader (arity : Nat) :
    (tupleHeader arity).length = if arity ≤ smallLengthMax then 2 else 5 := by
  unfold tupleHeader
  split <;> simp

theorem length_listHeader (count : Nat) : (listHeader count).length = 5 := by
  simp [listHeader]

mutual

theorem encodedSize_eq : (t : Term) → t.encodedSize = orFault t.firstFault? t.encoded.length
  | atom name => by
    rw [firstFault?_of_nodes rfl, encodedSize, fault?, encoded, length_nameBytes]
    by_cases h₁ : Utf8.size name ≤ smallLengthMax
    · rw [if_pos h₁, if_pos h₁, if_neg (by unfold smallLengthMax mediumLengthMax at *; omega)]
      rfl
    · rw [if_neg h₁, if_neg h₁]
      by_cases h₂ : Utf8.size name ≤ mediumLengthMax
      · rw [if_pos h₂, if_neg (Nat.not_lt.2 h₂)]
        rfl
      · rw [if_neg h₂, if_pos (Nat.lt_of_not_le h₂)]
        rfl
  | text value => by
    rw [firstFault?_of_nodes rfl, encodedSize, fault?, encoded, length_textBytes]
    split <;> rfl
  | int n => by
    rw [firstFault?_of_nodes rfl, encodedSize, fault?, encoded, length_integerBytes,
      if_pos (Width.fits_toInt32 n)]
    rfl
  | bigInt n => by
    rw [firstFault?_of_nodes rfl, encodedSize, fault?_bigInt, encoded, length_integerBytes]
    by_cases h : Width.w32.Fits n
    · rw [if_pos h, if_pos h, if_neg (fun h' => h'.1 h)]
      rfl
    · rw [if_neg h, if_neg h]
      by_cases hlen : smallLengthMax < Digits.byteLength n.natAbs
      · rw [if_pos hlen, if_pos (And.intro h hlen)]
        rfl
      · rw [if_neg hlen, if_neg (fun h' => hlen h'.2)]
        rfl
  | tuple ts => by
    rw [firstFault?_tuple, encodedSize, fault?, encoded, List.length_append, length_tupleHeader]
    split
    · rfl
    · exact encodedSizes_eq _ ts
  | list ts => by
    rw [firstFault?_list, encodedSize, fault?, encoded, List.length_append, length_listHeader,
      List.length_append, List.length_singleton, Nat.add_comm (allEncoded ts).length,
      ← Nat.add_assoc]
    split
    · rfl
    · exact encodedSizes_eq _ ts

theorem encodedSizes_eq (before : Nat) : (ts : List Term) →
    encodedSizes before ts = orFault (allFirstFault? ts) (before + (allEncoded ts).length)
  | [] => rfl
  | t :: ts => by
    rw [encodedSizes, allFirstFault?_cons, length_allEncoded_cons, encodedSize_eq t,
      ← Nat.add_assoc]
    exact orFault_bind _ _ _ _ (encodedSizes_eq _ ts)

end

end ExternalTerm
