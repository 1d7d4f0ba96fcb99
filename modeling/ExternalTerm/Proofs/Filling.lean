import ExternalTerm.Proofs.Agreement

/-!
# Sinks that fill up

A sink with little room takes the first bytes of what is written, as many as fit, however many it
takes at once.

* `Sink.room?`, `Sink.holds`, `Sink.fitting` : the room that is left, and what fits into it;
* `Sink.write_eq` : writing bytes to any sink that takes some at all;
* `Streams m data fault` : on every such sink `m` writes `data` and ends with `fault`, unless the
  sink is full before;
* `streamed_term`, `streamed_encode` : every writer does this.

So a message that does not fit leaves its first bytes on the sink, behind what was there.
-/

namespace ExternalTerm

namespace Sink

/-- The number of bytes that still fit, if that is bounded. -/
def room? (s : Sink) : Option Nat := s.capacity.map (· - s.content.size)

def holds (s : Sink) (n : Nat) : Bool := s.room?.all (n ≤ ·)

/-- The first of these bytes, as many as fit. -/
def fitting (s : Sink) (data : List UInt8) : List UInt8 := data.take (s.room?.getD data.length)

def refusal (s : Sink) : Failure := if s.stalls then .stalled else .closed

section
variable {s : Sink} {data x y : List UInt8} {n : Nat}

theorem room?_append (s : Sink) (x : List UInt8) :
    (s.append x).room? = s.room?.map (· - x.length) := by
  have hsize : (s.append x).content.size = s.content.size + x.length := by
    simp [append, ← Array.length_toList]
  simp only [room?, hsize, Option.map_map]
  exact congrArg (Option.map · s.capacity) (funext fun c => (Nat.sub_sub ..).symm)

@[simp] theorem holds_zero (s : Sink) : s.holds 0 := by
  unfold holds
  cases s.room? <;> simp

theorem holds_of_unlimited (h : s.Unlimited) (n : Nat) : s.holds n := by
  unfold holds room?
  rw [h.1]
  rfl

theorem fitting_of_holds (h : s.holds data.length) : s.fitting data = data := by
  unfold fitting
  unfold holds at h
  refine List.take_of_length_le ?_
  cases hr : s.room? with
  | none => exact Nat.le_refl _
  | some room => simpa [hr] using h

theorem holds_append_iff :
    s.holds (x ++ y).length ↔ s.holds x.length ∧ (s.append x).holds y.length := by
  unfold holds
  rw [room?_append, List.length_append]
  cases s.room? with
  | none => simp
  | some room =>
    simp
    omega

/-- When the first of two runs fits, what fits of both is the first one and what fits of the second
one then. -/
theorem fitting_append_of_holds (h : s.holds x.length) (y : List UInt8) :
    s.fitting (x ++ y) = x ++ (s.append x).fitting y := by
  unfold fitting
  unfold holds at h
  rw [room?_append]
  cases hr : s.room? with
  | none =>
    rw [Option.map_none, Option.getD_none, Option.getD_none, List.take_length, List.take_length]
  | some room =>
    have hle : x.length ≤ room := by simpa [hr] using h
    simp [List.take_append, List.take_of_length_le hle]

/-- When it does not, nothing of the second one fits. -/
theorem fitting_append_of_not_holds (h : ¬ s.holds x.length) (y : List UInt8) :
    s.fitting (x ++ y) = s.fitting x := by
  unfold fitting
  unfold holds at h
  cases hr : s.room? with
  | none => simp [hr] at h
  | some room =>
    have hlt : room < x.length := by simpa [hr] using h
    exact List.take_append_of_le_length (Nat.le_of_lt hlt)

/-! ## Writing bytes -/

/-- A sink that takes some bytes at all takes none when no more fit, and else as many as fit at
most. -/
theorem allowance_cases (hs : s.chunk ≠ some 0) (hn : 0 < n) :
    (s.allowance n = 0 ∧ s.room? = some 0) ∨ 
      (0 < s.allowance n ∧ s.allowance n ≤ n ∧ s.holds (s.allowance n)) := by
  have hpos : 0 < s.chunk.getD n := by
    cases hc : s.chunk with
    | none => exact hn
    | some c => exact Nat.pos_of_ne_zero fun h0 => hs (hc.trans (congrArg some h0))
  unfold allowance room? holds room?
  cases s.capacity with
  | none => simp; omega
  | some c => simp; omega

theorem writeWithin_of_allowance_eq_zero {offers : Nat} (hd : data ≠ [])
    (h : s.allowance data.length = 0) : s.writeWithin (offers + 1) data = (some s.refusal, s) := by
  rw [writeWithin, h]
  · rfl
  · exact hd

theorem writeWithin_of_allowance_pos {offers : Nat} (hd : data ≠ [])
    (h : 0 < s.allowance data.length) :
    s.writeWithin (offers + 1) data =
      (s.append (data.take (s.allowance data.length))).writeWithin offers
        (data.drop (s.allowance data.length)) := by
  rw [writeWithin]
  · split
    next h0 => omega
    next => rfl
  · exact hd

/-- Offered often enough, a sink takes all bytes that fit. -/
theorem writeWithin_eq {offers : Nat} (hs : s.chunk ≠ some 0) (hd : data.length ≤ offers) :
    s.writeWithin offers data =
      (if s.holds data.length then none else some s.refusal, s.append (s.fitting data)) := by
  induction offers generalizing s data with
  | zero =>
    obtain rfl := List.eq_nil_of_length_eq_zero (Nat.le_zero.1 hd)
    simp [writeWithin, fitting]
  | succ offers ih =>
    by_cases hnil : data = []
    · subst hnil
      simp [writeWithin, fitting]
    have hpos : 0 < data.length := List.length_pos_iff.2 hnil
    obtain ⟨h0, hroom⟩ | ⟨hk, hle, hholds⟩ := allowance_cases hs hpos
    · have hfull : ¬ s.holds data.length := by simp [holds, hroom, hnil]
      have hnone : s.fitting data = [] := by simp [fitting, hroom]
      rw [writeWithin_of_allowance_eq_zero hnil h0, if_neg hfull, hnone, append_nil]
    · rw [writeWithin_of_allowance_pos hnil hk]
      generalize hx : data.take (s.allowance data.length) = x
      generalize hy : data.drop (s.allowance data.length) = y
      have hxy : data = x ++ y := by rw [← hx, ← hy, List.take_append_drop]
      have hxlen : x.length = s.allowance data.length := by
        rw [← hx, List.length_take_of_le hle]
      have hylen : y.length ≤ offers := by
        rw [← hy, List.length_drop]
        omega
      rw [← hxlen] at hholds
      have hiff : s.holds data.length ↔ (s.append x).holds y.length := by
        rw [hxy, holds_append_iff, and_iff_right hholds]
      have hrest := ih (s := s.append x) hs hylen
      rw [hrest, append_append, ← fitting_append_of_holds hholds, ← hxy]
      simp only [hiff]
      rfl

/-- Writing bytes to a sink that takes some at all: those that fit are taken, and the sink refuses
when these are not all. -/
theorem write_eq (hs : s.chunk ≠ some 0) (data : List UInt8) :
    s.write data =
      (if s.holds data.length then none else some s.refusal, s.append (s.fitting data)) :=
  writeWithin_eq hs (Nat.le_refl _)

end

end Sink

/-! ## Writers -/

def endWith (fault : Option EncodeError) (s : Sink) : EStateM.Result EncodeError Sink Unit :=
  match fault with
  | none => .ok () s
  | some e => .error e s

/-- On a sink that takes some bytes at all the action writes `data` and ends with the fault, unless
`data` does not fit: then it writes what fits, and ends with the failure of the sink. -/
def Streams (m : WriteM Unit) (data : List UInt8) (fault : Option EncodeError) : Prop :=
  ∀ s : Sink, s.chunk ≠ some 0 → m s =
    if s.holds data.length then
      endWith fault (s.append data)
    else
      endWith (some (.sinkFailed s.refusal)) (s.append (s.fitting data))

def Streamed (m : WriteM Unit) : Prop := ∃ data fault, Streams m data fault

section
variable {m : WriteM Unit} {f : Unit → WriteM Unit} {x y : List UInt8}
  {fault fault' : Option EncodeError}

theorem Streams.of_end (h : ∀ s, m s = endWith fault s) : Streams m [] fault := by
  intro s _
  rw [h, List.length_nil, if_pos s.holds_zero, Sink.append_nil]

theorem streams_bytes (data : List UInt8) : Streams (Writer.bytes data) data none := by
  intro s hs
  rw [Writer.bytes, Sink.write_eq hs]
  by_cases h : s.holds data.length
  · rw [if_pos h, if_pos h, Sink.fitting_of_holds h]
    rfl
  · rw [if_neg h, if_neg h]
    rfl

/-- After an action that ends well, the next one writes behind it. -/
theorem Streams.bind (hm : Streams m x none) (hf : Streams (f ()) y fault) :
    Streams (m >>= f) (x ++ y) fault := by
  intro s hs
  have hms := hm s hs
  by_cases hx : s.holds x.length
  · rw [if_pos hx] at hms
    have hfs := hf (s.append x) hs
    rw [bind_ok hms, hfs, Sink.append_append, Sink.append_append, Sink.fitting_append_of_holds hx]
    simp only [Sink.holds_append_iff, hx, true_and]
    rfl
  · rw [if_neg hx] at hms
    rw [bind_error hms, if_neg fun h => hx (Sink.holds_append_iff.1 h).1,
      Sink.fitting_append_of_not_holds hx]
    rfl

/-- After a fault nothing more is written. -/
theorem Streams.bind_fault {e : EncodeError} (hm : Streams m x (some e)) :
    Streams (m >>= f) x (some e) := by
  intro s hs
  have hms := hm s hs
  split at hms
  next hx => rw [bind_error hms, if_pos hx]; rfl
  next hx => rw [bind_error hms, if_neg hx]; rfl

theorem Streamed.pure : Streamed (Pure.pure ()) := ⟨[], none, .of_end fun _ => rfl⟩

theorem Streamed.throw (e : EncodeError) : Streamed (MonadExcept.throw e) :=
  ⟨[], some e, .of_end fun _ => rfl⟩

theorem streamed_bytes (data : List UInt8) : Streamed (Writer.bytes data) :=
  ⟨data, none, streams_bytes data⟩

theorem Streamed.bind (hm : Streamed m) (hf : Streamed (f ())) : Streamed (m >>= f) := by
  obtain ⟨x, _ | e, hm⟩ := hm
  · obtain ⟨y, fault, hf⟩ := hf
    exact ⟨x ++ y, fault, hm.bind hf⟩
  · exact ⟨x, some e, hm.bind_fault⟩

theorem Streamed.ite {c : Prop} [Decidable c] {m' : WriteM Unit} (h : Streamed m)
    (h' : Streamed m') : Streamed (if c then m else m') := by
  split
  · exact h
  · exact h'

end

/-! ## Terms and messages -/

theorem streamed_two (x y : List UInt8) : Streamed (do Writer.bytes x; Writer.bytes y) :=
  (streamed_bytes x).bind (streamed_bytes y)

theorem streamed_three (x y z : List UInt8) :
    Streamed (do Writer.bytes x; Writer.bytes y; Writer.bytes z) :=
  (streamed_bytes x).bind (streamed_two y z)

theorem streamed_atom (name : String) : Streamed (Writer.atom name) :=
  .ite (streamed_two _ _) (.ite (streamed_three _ _ _) (.bind (.throw _) (streamed_bytes _)))

theorem streamed_binary (data : List UInt8) : Streamed (Writer.binary data) :=
  .ite (.bind (.throw _) (streamed_three _ _ _)) (streamed_three _ _ _)

theorem streamed_int32 (n : Int32) : Streamed (Writer.int32 n) :=
  .ite (streamed_bytes _) (streamed_bytes _)

theorem streamed_integer (n : Int) : Streamed (Writer.integer n) :=
  .ite (streamed_int32 _) (.ite (.bind (.throw _) (streamed_two _ _)) (streamed_two _ _))

theorem streamed_tupleHeader (arity : Nat) : Streamed (Writer.tupleHeader arity) :=
  .ite (streamed_bytes _) (.ite (streamed_two _ _) (.throw _))

theorem streamed_listHeader (count : Nat) : Streamed (Writer.listHeader count) :=
  .ite (.bind (.throw _) (streamed_two _ _)) (streamed_two _ _)

mutual

theorem streamed_term : (t : Term) → Streamed (Writer.term t)
  | .atom name => streamed_atom name
  | .text value => streamed_binary (Utf8.encode value)
  | .int n => streamed_int32 n
  | .bigInt n => streamed_integer n
  | .tuple ts => (streamed_tupleHeader ts.length).bind (streamed_terms ts)
  | .list ts =>
    (streamed_listHeader ts.length).bind ((streamed_terms ts).bind (streamed_bytes _))

theorem streamed_terms : (ts : List Term) → Streamed (Writer.terms ts)
  | [] => .pure
  | t :: ts => (streamed_term t).bind (streamed_terms ts)

end

theorem streamed_message (t : Term) : Streamed (writeMessage t) :=
  (streamed_bytes [versionMagic]).bind (streamed_term t)

theorem streamed_encode (v : Value) : Streamed (encode v) := by
  cases hv : v.toTerm with
  | ok t =>
    rw [funext (encode_of_toTerm hv)]
    exact streamed_message t
  | error e => exact ⟨[], some e, .of_end (encode_of_error hv)⟩

def contentOf : EStateM.Result EncodeError Sink Unit → Array UInt8
  | .ok _ s | .error _ s => s.content

theorem contentOf_endWith (fault : Option EncodeError) (s : Sink) :
    contentOf (endWith fault s) = s.content := by
  cases fault <;> rfl

theorem Streams.content {m : WriteM Unit} {data : List UInt8} {fault : Option EncodeError}
    (h : Streams m data fault) {s : Sink} (hs : s.chunk ≠ some 0) :
    contentOf (m s) = s.content ++ s.fitting data := by
  rw [h s hs]
  split
  next hholds => rw [contentOf_endWith, Sink.append, Sink.fitting_of_holds hholds]
  next => rw [contentOf_endWith, Sink.append]

/-- A message ends on any sink that takes some bytes at all as it does on one without bounds, behind
what is there, if all its bytes fit; if not, those that fit are written, and the sink has failed. It
does not matter how many bytes the sink takes at once. -/
theorem encode_of_room (v : Value) {free s : Sink} (hfree : free.Unlimited)
    (hs : s.chunk ≠ some 0) :
    ∃ data fault, encode v free = endWith fault (free.append data) ∧
      (s.holds data.length → encode v s = endWith fault (s.append data)) ∧
      (¬ s.holds data.length →
        encode v s = endWith (some (.sinkFailed s.refusal)) (s.append (s.fitting data))) ∧
      ∀ chunk, chunk ≠ some 0 →
        contentOf (encode v { s with chunk }) = s.content ++ s.fitting data := by
  obtain ⟨data, fault, h⟩ := streamed_encode v
  refine ⟨data, fault, ?_, fun hd => ?_, fun hd => ?_, fun chunk hc => h.content hc⟩
  · rw [h free hfree.2, if_pos (Sink.holds_of_unlimited hfree _)]
  · rw [h s hs, if_pos hd]
  · rw [h s hs, if_neg hd]

/-- Behind two bytes there is room for four bytes of a pair, so its first element is cut. -/
theorem encode_of_room_pair :
    let v : Value := .record [⟨none, .atom ⟨"ok"⟩⟩, ⟨none, .integer 300⟩]
    let s : Sink := { content := #[1, 2], capacity := some 6, chunk := some 3, stalls := true }
    Sink.Unlimited {} ∧ s.chunk ≠ some 0 ∧
    encode v {} = .ok () { content := #[131, 104, 2, 119, 2, 111, 107, 98, 0, 0, 1, 44] } ∧
    encode v s = .error (.sinkFailed .stalled) { s with content := #[1, 2, 131, 104, 2, 119] } := by
  intro v s
  have hfree : encode v {} =
      .ok () { content := #[131, 104, 2, 119, 2, 111, 107, 98, 0, 0, 1, 44] } := by decide +kernel
  have hs : s.chunk ≠ some 0 := by decide
  obtain ⟨data, fault, h, -, hshort, -⟩ := encode_of_room v unlimited_empty hs
  cases fault with
  | some e => cases hfree.symm.trans h
  | none =>
    have hdata : data = [131, 104, 2, 119, 2, 111, 107, 98, 0, 0, 1, 44] := by
      have hcontent := congrArg (fun o => (contentOf o).toList) (hfree.symm.trans h)
      simpa [contentOf, endWith, Sink.append] using hcontent.symm
    subst hdata
    exact ⟨unlimited_empty, hs, hfree, hshort (by decide)⟩

end ExternalTerm
