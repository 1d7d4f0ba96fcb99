import ExternalTerm.Message
import ExternalTerm.Proofs.Encoding

/-!
# Sizes and encodings agree

A size is computed apart from what is written, and a message can be written to a sink or made as
bytes. All of them follow one description: the first fault of the nodes of a term, and else the
encoding.

* `Writes.ok_iff`, `Writes.error_iff` : how a writer ends, from what it writes;
* `toBytes_of_toTerm`, `encode_of_toTerm` : messages;
* `encodings_agree` : the size, the writer, the message as bytes and the message written to a sink.
-/

namespace ExternalTerm

section
variable {m : WriteM Unit} {fault : Option EncodeError} {data x : List UInt8} {s s' : Sink}
  {e : EncodeError} {t : Term} {v : Value}

theorem Sink.append_inj : s.append data = s.append x ↔ data = x := by
  refine ⟨fun h => ?_, fun h => h ▸ rfl⟩
  have hcontent := congrArg (fun s => s.content.toList) h
  simpa [append] using hcontent

theorem Writes.ok_iff (h : Writes m fault data) (hs : s.Unlimited) :
    m s = .ok () (s.append x) ↔ orFault fault data = .ok x := by
  have hm := h s hs
  cases fault with
  | none =>
    dsimp only at hm
    rw [hm, EStateM.Result.ok.injEq, Sink.append_inj]
    simp
  | some e =>
    obtain ⟨s', hm⟩ := hm
    rw [hm]
    exact iff_of_false nofun nofun

theorem Writes.error_iff (h : Writes m fault data) (hs : s.Unlimited) :
    (∃ s', m s = .error e s') ↔ orFault fault data = .error e := by
  have hm := h s hs
  cases fault with
  | none =>
    dsimp only at hm
    rw [hm]
    exact iff_of_false nofun nofun
  | some e' =>
    obtain ⟨s', hm⟩ := hm
    rw [hm]
    simp

theorem orFault_eq_error_iff {α : Type} {a : α} : orFault fault a = .error e ↔ fault = some e := by
  cases fault <;> simp

/-! ## Messages -/

theorem writes_message (t : Term) :
    Writes (writeMessage t) t.firstFault? (versionMagic :: t.encoded) := by
  have h := (writes_bytes [versionMagic]).bind (f := fun _ => Writer.term t) (writes_term t)
  rwa [Option.none_or] at h

theorem messageSize_eq (t : Term) :
    t.messageSize = orFault t.firstFault? (1 + t.encoded.length) := by
  rw [Term.messageSize, encodedSize_eq]
  cases t.firstFault? <;> rfl

/-- The size of a message has the faults of its term, so finding it first changes nothing. -/
theorem toBytes_of_toTerm (hv : v.toTerm = .ok t) :
    toBytes v = orFault t.firstFault? (versionMagic :: t.encoded) := by
  rw [toBytes, hv]
  change (t.messageSize >>= fun _ => _) = _
  rw [messageSize_eq]
  cases hf : t.firstFault? with
  | some e => rfl
  | none =>
    have hwrite : (writeMessage t).run {} =
        .ok () (({} : Sink).append (versionMagic :: t.encoded)) := by
      have h := writes_message t {} unlimited_empty
      rwa [hf] at h
    rw [orFault_none]
    change Except.bind _ _ = _
    rw [Except.bind, hwrite]
    simp [Sink.append, pure, Except.pure]

theorem toBytes_of_error (hv : v.toTerm = .error e) : toBytes v = .error e := by
  rw [toBytes, hv]
  rfl

theorem encode_of_toTerm (hv : v.toTerm = .ok t) (s : Sink) : encode v s = writeMessage t s := by
  rw [encode, hv]
  rfl

theorem encode_of_error (hv : v.toTerm = .error e) (s : Sink) : encode v s = .error e s := by
  rw [encode, hv]
  rfl

theorem toBytes_eq_ok_iff (hs : s.Unlimited) :
    toBytes v = .ok data ↔ encode v s = .ok () (s.append data) := by
  cases hv : v.toTerm with
  | ok t => rw [toBytes_of_toTerm hv, encode_of_toTerm hv, (writes_message t).ok_iff hs]
  | error e =>
    rw [toBytes_of_error hv, encode_of_error hv]
    exact iff_of_false nofun nofun

theorem toBytes_eq_error_iff (hs : s.Unlimited) :
    toBytes v = .error e ↔ ∃ s', encode v s = .error e s' := by
  cases hv : v.toTerm with
  | ok t => simp only [toBytes_of_toTerm hv, encode_of_toTerm hv, (writes_message t).error_iff hs]
  | error e' =>
    rw [toBytes_of_error hv, encode_of_error hv]
    simp

/-! ## Agreement -/

/-- On a sink that takes all bytes, the size of a term, writing it, the message of a value as bytes
and writing the message all succeed or fail together, with the number of bytes that are written,
with the same bytes and with the same error: that of the first node, a tuple or a list before its
elements, that is too long for its form. -/
theorem encodings_agree (hs : s.Unlimited) (t : Term) (v : Value) :
    (∀ n, t.encodedSize = .ok n ↔
      ∃ data, data.length = n ∧ Writer.term t s = .ok () (s.append data)) ∧
    (∀ e, t.encodedSize = .error e ↔ ∃ s', Writer.term t s = .error e s') ∧
    ((∃ e s', Writer.term t s = .error e s') ↔ ∃ u ∈ t.nodes, u.fault? ≠ none) ∧
    (∀ e, (∃ s', Writer.term t s = .error e s') ↔
      ∃ before u rest, t.nodes = before ++ u :: rest ∧ u.fault? = some e ∧
        ∀ x ∈ before, x.fault? = none) ∧
    (∀ data, toBytes v = .ok data ↔ encode v s = .ok () (s.append data)) ∧
    (∀ e, toBytes v = .error e ↔ ∃ s', encode v s = .error e s') := by
  have hterm := writes_term t
  refine ⟨fun n => ?_, fun e => ?_, ?_, fun e => ?_, fun data => toBytes_eq_ok_iff hs,
    fun e => toBytes_eq_error_iff hs⟩
  · simp only [encodedSize_eq, hterm.ok_iff hs, orFault_eq_ok_iff]
    constructor
    · rintro ⟨hf, rfl⟩
      exact ⟨t.encoded, rfl, hf, rfl⟩
    · rintro ⟨_, rfl, hf, rfl⟩
      exact ⟨hf, rfl⟩
  · rw [hterm.error_iff hs, encodedSize_eq, orFault_eq_error_iff, orFault_eq_error_iff]
  · simp only [hterm.error_iff hs, orFault_eq_error_iff]
    rw [← Option.ne_none_iff_exists', ne_eq, Term.firstFault?, List.findSome?_eq_none_iff]
    simp only [ne_eq, Classical.not_forall, exists_prop]
  · rw [hterm.error_iff hs, orFault_eq_error_iff, Term.firstFault?, List.findSome?_eq_some_iff]

theorem encodings_agree_pair :
    Sink.Unlimited {} ∧ (Term.tuple [.atom "ok", .int 300]).encodedSize = .ok 11 ∧
    ∃ data, data.length = 11 ∧
      Writer.term (.tuple [.atom "ok", .int 300]) {} = .ok () (({} : Sink).append data) := by
  have hsize : (Term.tuple [.atom "ok", .int 300]).encodedSize = .ok 11 := by rfl
  exact ⟨unlimited_empty, hsize, ((encodings_agree unlimited_empty _ .unit).1 11).1 hsize⟩

end

end ExternalTerm
