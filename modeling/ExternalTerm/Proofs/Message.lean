import ExternalTerm.Message
import ExternalTerm.Proofs.Position
import ExternalTerm.Proofs.Shaped

/-!
# Reading messages

* `reads_version_iff` : the byte that opens a message;
* `decode_ok_iff` : decoding bytes in memory is reading a message on a new reader;
* `exists_reads_of_decode` : what is decoded from any source is read from what it delivers;
* `decode_of_gives`, `decode_of_stops` : decoding follows what reading the term of the message
  gives.
-/

namespace ExternalTerm

open Reader

section
variable {L : Limits} {d : Nat} {data : List UInt8} {s : Shape} {v : Decoded} {source : Source}

theorem composed_message (s : Shape) : Composed (readMessage s) :=
  composed.version.bind fun _ => composed_shaped s

theorem reads_version_iff {u : Unit} : Reads version L d data u ↔ data = [versionMagic] := by
  have hopen (b : UInt8) : Composed
      (if b ≠ versionMagic then throw (.version b) else pure () : ReadM Unit) :=
    .ite (.throw not_false) (.pure _)
  refine (reads_byte_bind_iff hopen).trans ?_
  refine ⟨fun h => ?_, fun h => ?_⟩
  · obtain ⟨b, y, rfl, h⟩ := h
    split at h
    · exact absurd h not_reads_throw
    · next hb => rw [(reads_pure_iff.1 h).1, Decidable.not_not.1 hb]
  · subst h
    refine ⟨versionMagic, [], rfl, ?_⟩
    rw [if_neg fun h => h rfl]
    exact Reads.pure ()

theorem reads_version : Reads version L d [versionMagic] () := reads_version_iff.2 rfl

theorem reads_message_iff :
    Reads (readMessage s) L d data v ↔
      ∃ body, data = versionMagic :: body ∧ Reads (shaped s) L d body v := by
  unfold readMessage
  rw [reads_bind_iff composed.version fun _ => composed_shaped s]
  simp only [reads_version_iff]
  constructor
  · rintro ⟨_, u, body, rfl, rfl, h⟩
    exact ⟨body, rfl, h⟩
  · rintro ⟨body, rfl, h⟩
    exact ⟨_, (), body, rfl, rfl, h⟩

def outcome : EStateM.Result DecodeError Reader Decoded → Except DecodeError Decoded × Source
  | .ok v r => (.ok v, r.source)
  | .error e r => (.error e, r.source)

theorem decode_of_check (hs : s.check = .ok ()) (source : Source) (L : Limits) :
    decode source s L = outcome (readMessage s { source, limits := L }) := by
  rw [decode, hs]
  rfl

/-- A shape is refused before anything is read. -/
theorem decode_of_refused {e : DecodeError} (hs : s.check = .error e) (source : Source)
    (L : Limits) : decode source s L = (.error e, source) := by
  rw [decode, hs]

theorem message_of_decode {source' : Source} (h : decode source s L = (.ok v, source')) :
    s.check = .ok () ∧
      ∃ r, readMessage s { source, limits := L } = .ok v r ∧ source' = r.source := by
  cases hs : s.check with
  | error e =>
    rw [decode_of_refused hs] at h
    cases h
  | ok u =>
    rw [decode_of_check hs] at h
    cases hr : readMessage s { source, limits := L } with
    | ok v' r =>
      rw [hr] at h
      cases h
      exact ⟨rfl, r, rfl, rfl⟩
    | error e r =>
      rw [hr] at h
      cases h

/-- What is decoded from any source is read from the bytes that the source delivers for it, after
the first of them. -/
theorem exists_reads_of_decode {source' : Source} (h : decode source s L = (.ok v, source')) :
    ∃ data, Reads (shaped s) L 0 data v ∧
      source'.delivered = source.delivered + (data.length + 1) := by
  obtain ⟨-, r, hr, rfl⟩ := message_of_decode h
  obtain ⟨bytes, hread, hd⟩ := (composed_message s).exists_reads_of_ok hr
  obtain ⟨data, rfl, hdata⟩ := reads_message_iff.1 hread
  exact ⟨data, hdata, hd⟩

theorem decode_ok_iff (hs : s.check = .ok ()) :
    decode (.ofBytes data) s L = (.ok v, source) ↔
      ∃ r, readMessage s (fresh L data) = .ok v r ∧ source = r.source := by
  rw [decode_of_check hs, ← fresh]
  cases readMessage s (fresh L data) with
  | ok v' r => simp [outcome, eq_comm]
  | error e r => simp [outcome]

theorem decode_of_gives {E : DecodeError → Prop} {o : Option Decoded} (hs : s.check = .ok ())
    (h : Gives E (shaped s) L 0 data o) (rest : List UInt8) :
    decode (.ofBytes (versionMagic :: (data ++ rest))) s L = (.ok v, source) ↔
      o = some v ∧ source = { pending := rest, delivered := data.length + 1 } := by
  have hm : Gives E (readMessage s) L 0 (versionMagic :: data) o := reads_version.gives_bind h
  rw [decode_ok_iff hs, ← List.cons_append]
  simp only [hm.ok_iff rest]
  refine ⟨fun h => ?_, fun h => ?_⟩
  · obtain ⟨r, ⟨ho, rfl⟩, rfl⟩ := h
    exact ⟨ho, rfl⟩
  · obtain ⟨ho, rfl⟩ := h
    exact ⟨_, ⟨ho, rfl⟩, rfl⟩

theorem decode_of_stops {more : List UInt8 → Prop} {e : DecodeError} (hs : s.check = .ok ())
    (h : Stops more (shaped s) L 0 data e) (rest : List UInt8) (hr : more rest) :
    decode (.ofBytes (versionMagic :: (data ++ rest))) s L =
      (.error e, { pending := rest, delivered := data.length + 1 }) := by
  have hm : Stops more (readMessage s) L 0 (versionMagic :: data) e :=
    reads_version.bind_stops (f := fun _ => shaped s) h
  have hread : readMessage s (fresh L (versionMagic :: (data ++ rest))) =
      .error e (memory L 0 (0 + (data.length + 1)) rest) := hm 0 rest hr
  rw [decode_of_check hs, ← fresh, hread, Nat.zero_add]
  rfl

end

end ExternalTerm
