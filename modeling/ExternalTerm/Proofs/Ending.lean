import ExternalTerm.Proofs.Refusal

/-!
# How messages end

* `decode_ending` : decoding ends after the first of the bytes, whatever comes next, or it reads all
  of them and reports a lack of data;
* `exists_lack_of_take` : less of a message than decoding reads of it ends early;
* `isTruncation_or_missingNil_of_take` : with which errors.

So more bytes change the outcome only of a message that ended early.
-/

namespace ExternalTerm

open Reader

/-- No shape is refused for a lack of data. -/
theorem Shape.not_isLack_of_check (s : Shape) {e : DecodeError} (h : s.check = .error e) :
    ¬ e.IsLack :=
  (s.isRefusal_of_check h).not_isLack

def ReportsLack {α : Type} : Except DecodeError α → Prop
  | .ok _ => False
  | .error e => e.IsLack

section
variable {s : Shape} {L : Limits} {b : List UInt8}

/-- Decoding bytes in memory ends after the first of them, whatever comes next, or it reads them all
and reports a lack of data. -/
theorem decode_ending (s : Shape) (L : Limits) (b : List UInt8) :
    (∃ result data rest, b = data ++ rest ∧ ¬ ReportsLack result ∧
      ∀ x, decode (.ofBytes (data ++ x)) s L =
        (result, { pending := x, delivered := data.length })) ∨
    ∃ e : DecodeError, e.IsLack ∧
      decode (.ofBytes b) s L = (.error e, { pending := [], delivered := b.length }) := by
  cases hs : s.check with
  | error e =>
    refine .inl ⟨.error e, [], b, rfl, s.not_isLack_of_check hs, fun x => ?_⟩
    exact decode_of_refused hs (.ofBytes x) L
  | ok u =>
    have hd (x : List UInt8) : decode (.ofBytes x) s L = outcome (readMessage s (memory L 0 0 x)) :=
      decode_of_check hs (.ofBytes x) L
    cases (composed_message s).ending L 0 b with
    | @reads data rest v hb h =>
      refine .inl ⟨.ok v, data, rest, hb, not_false, fun x => ?_⟩
      rw [hd, h 0 x, Nat.zero_add]
      rfl
    | @stops data rest e hb he h =>
      refine .inl ⟨.error e, data, rest, hb, he, fun x => ?_⟩
      rw [hd, h 0 x trivial, Nat.zero_add]
      rfl
    | lacks he h =>
      have h₀ := h 0 [] rfl
      rw [List.append_nil, Nat.zero_add] at h₀
      refine .inr ⟨_, he, ?_⟩
      rw [hd, h₀]
      rfl

/-- Less of a message than decoding reads of it ends early. -/
theorem exists_lack_of_take {v : Decoded} {source : Source}
    (h : decode (.ofBytes b) s L = (.ok v, source)) {c : Nat} (hc : c < source.delivered) :
    ∃ e source', decode (.ofBytes (b.take c)) s L = (.error e, source') ∧ e.IsLack := by
  rcases decode_ending s L (b.take c) with ⟨result, data, rest, hb, -, hall⟩ | ⟨e, he, hd⟩
  · have hsplit : b = data ++ (rest ++ b.drop c) := by
      rw [← List.append_assoc, ← hb, List.take_append_drop]
    have hd := hall (rest ++ b.drop c)
    rw [← hsplit, h] at hd
    have hlen : data.length ≤ c := by
      have := congrArg List.length hb
      rw [List.length_take, List.length_append] at this
      omega
    cases hd
    exact absurd hc (Nat.not_lt.2 hlen)
  · exact ⟨e, _, hd, he⟩

/-- Unless decoding reports a lack of data, more bytes at the end change neither its outcome nor how
far it reads; if it does report one, it has read all bytes. So the first bytes of a message, when
they are fewer than decoding reads of it, always report a lack. -/
theorem decode_append {result : Except DecodeError Decoded} {source : Source}
    (h : decode (.ofBytes b) s L = (result, source)) :
    (¬ ReportsLack result → ∀ x, decode (.ofBytes (b ++ x)) s L =
      (result, { source with pending := source.pending ++ x })) ∧
    (ReportsLack result → source = { pending := [], delivered := b.length }) ∧
    (∀ v, result = .ok v → ∀ c < source.delivered, ∃ e source',
      decode (.ofBytes (b.take c)) s L = (.error e, source') ∧ e.IsLack) := by
  have hcut (v : Decoded) (hv : result = .ok v) (c : Nat) (hc : c < source.delivered) :
      ∃ e source', decode (.ofBytes (b.take c)) s L = (.error e, source') ∧ e.IsLack :=
    exists_lack_of_take (hv ▸ h) hc
  rcases decode_ending s L b with ⟨result', data, rest, rfl, hl, hall⟩ | ⟨e, he, hd⟩
  · cases h.symm.trans (hall rest)
    refine ⟨fun _ x => ?_, fun hl' => absurd hl' hl, hcut⟩
    rw [List.append_assoc]
    exact hall (rest ++ x)
  · cases h.symm.trans hd
    exact ⟨fun hl => absurd he hl, fun _ => rfl, hcut⟩

/-- A message with a list of one integer: what follows it does not matter, and without its last byte
it ends early. -/
theorem decode_append_list :
    decode (.ofBytes [131, 108, 0, 0, 0, 1, 97, 7, 106]) (.list .bigInteger) {} =
      (.ok (.list [.bigInteger 7]), { pending := [], delivered := 9 }) ∧
    decode (.ofBytes [131, 108, 0, 0, 0, 1, 97, 7, 106, 1, 2]) (.list .bigInteger) {} =
      (.ok (.list [.bigInteger 7]), { pending := [1, 2], delivered := 9 }) ∧
    ∃ e source', decode (.ofBytes [131, 108, 0, 0, 0, 1, 97, 7]) (.list .bigInteger) {} =
      (.error e, source') ∧ e.IsLack := by
  have h : decode (.ofBytes [131, 108, 0, 0, 0, 1, 97, 7, 106]) (.list .bigInteger) {} =
      (.ok (.list [.bigInteger 7]), { pending := [], delivered := 9 }) := by decide +kernel
  obtain ⟨hmore, -, hcut⟩ := decode_append h
  exact ⟨h, hmore not_false [1, 2], hcut _ rfl 8 (by decide)⟩

/-! ## Truncation -/

/-- The first bytes of a message, when they are fewer than decoding reads of it, end with a
truncation or before the end of a list. -/
theorem isTruncation_or_missingNil_of_take {v : Decoded} {source : Source}
    (h : decode (.ofBytes b) s L = (.ok v, source)) {c : Nat} (hc : c < source.delivered) :
    ∃ e source', decode (.ofBytes (b.take c)) s L = (.error e, source') ∧
      (e.isTruncation = true ∨ e = .missingNil none) := by
  obtain ⟨e, source', hd, he⟩ := exists_lack_of_take h hc
  refine ⟨e, source', hd, ?_⟩
  cases e with
  | truncated | bigIntegerLength => exact .inl rfl
  | missingNil found =>
    cases found with
    | none => exact .inr rfl
    | some b => cases he
  | _ => cases he

theorem isTruncation_or_missingNil_of_take_integer :
    decode (.ofBytes [131, 98, 0, 0, 1, 0, 9]) (.integer .w32) {} =
      (.ok (.integer 256), { pending := [9], delivered := 6 }) ∧ 4 < 6 ∧
    ∃ e source', decode (.ofBytes [131, 98, 0, 0]) (.integer .w32) {} = (.error e, source') ∧
      (e.isTruncation = true ∨ e = .missingNil none) := by
  have h : decode (.ofBytes [131, 98, 0, 0, 1, 0, 9]) (.integer .w32) {} =
      (.ok (.integer 256), { pending := [9], delivered := 6 }) := by decide +kernel
  exact ⟨h, by decide, isTruncation_or_missingNil_of_take (c := 4) h (by decide)⟩

/-- The end of the data where a list should end is no truncation: the message of an empty list is
accepted, and all of it but the last byte ends with an error that is not one. -/
theorem not_isTruncation_of_take :
    ¬ ∀ (s : Shape) (L : Limits) (b : List UInt8) (v : Decoded) (source : Source),
      s.check = .ok () → decode (.ofBytes b) s L = (.ok v, source) → ∀ c < source.delivered,
        ∃ e source', decode (.ofBytes (b.take c)) s L = (.error e, source') ∧
          e.isTruncation = true := by
  intro hall
  have h : decode (.ofBytes [131, 108, 0, 0, 0, 0, 106]) (.list .any) {} =
      (.ok (.list []), { pending := [], delivered := 7 }) := by decide +kernel
  have hcut : decode (.ofBytes [131, 108, 0, 0, 0, 0]) (.list .any) {} =
      (.error (.missingNil none), { pending := [], delivered := 6 }) := by decide +kernel
  obtain ⟨e, source', hd, he⟩ := hall _ _ _ _ _ rfl h 6 (by decide)
  cases hcut.symm.trans hd
  cases he

end

end ExternalTerm
