import ExternalTerm.Proofs.Ending

/-!
# Sources that deliver at their own pace

* `s.Delivers bytes fails` : the source `s` delivers `bytes`, few at a time and with interruptions
  as it likes, and then fails, or is at the end of its data;
* `Delivers.exists_pull` : reading on until there is enough gives the same bytes whatever the pace;
* `Draws` : a reader of such a source, beside the reader that holds the same bytes in memory;
* `Composed.follows` : every composed action does the same to both, except that what is a lack of
  data in memory is a failure where the source fails;
* `decode_of_delivers` : so decoding from a source is decoding the bytes it delivers.
-/

namespace ExternalTerm

/-- The error that is reported in place of this one when the source fails instead of ending. -/
def DecodeError.onFailure : DecodeError → DecodeError
  | truncated .. | bigIntegerLength .. | missingNil none => sourceFailed
  | e => e

theorem DecodeError.onFailure_of_isLack {e : DecodeError} (h : e.IsLack) :
    e.onFailure = sourceFailed := by
  unfold IsLack at h
  split at h
  · rfl
  · rfl
  · rfl
  · cases h

theorem DecodeError.onFailure_of_not_isLack {e : DecodeError} (h : ¬ e.IsLack) :
    e.onFailure = e := by
  unfold onFailure
  split
  · exact absurd trivial h
  · exact absurd trivial h
  · exact absurd trivial h
  · rfl

namespace Source

/-- The source delivers these bytes, and then it fails or its data ends. -/
structure Delivers (s : Source) (bytes : List UInt8) (fails : Bool) : Prop where
  chunk : s.chunk ≠ some 0
  ends : fails = false →
    s.pending = bytes ∧ ∀ p, s.failAt = some p → s.delivered + bytes.length < p
  breaks : fails = true →
    bytes <+: s.pending ∧ s.failAt = some (s.delivered + bytes.length)

section
variable {s : Source} {bytes : List UInt8} {fails : Bool} {want : Nat}

theorem Delivers.exhausted_iff (h : s.Delivers bytes fails) :
    s.exhausted = true ↔ bytes = [] ∧ fails = true := by
  unfold exhausted
  cases fails with
  | false =>
    obtain ⟨-, hlt⟩ := h.ends rfl
    cases hf : s.failAt with
    | none => simp
    | some p =>
      have := hlt p hf
      simp
      omega
  | true =>
    rw [(h.breaks rfl).2]
    simp

theorem Delivers.allowance_pos (h : s.Delivers bytes fails) (hw : 0 < want) (hb : bytes ≠ []) :
    0 < s.allowance want := by
  have hlen := List.length_pos_iff.2 hb
  have hchunk : 0 < s.chunk.getD want := by
    cases hc : s.chunk with
    | none => exact hw
    | some n => exact Nat.pos_of_ne_zero fun hn => h.chunk (hn ▸ hc)
  have hfail : s.delivered < s.failAt.getD (s.delivered + want) := by
    cases hf : s.failAt with
    | none => exact Nat.lt_add_of_pos_right hw
    | some p =>
      cases fails with
      | false => exact Nat.lt_of_le_of_lt (Nat.le_add_right _ _) ((h.ends rfl).2 p hf)
      | true =>
        cases hf.symm.trans (h.breaks rfl).2
        exact Nat.lt_add_of_pos_right hlen
  unfold allowance
  omega

/-- What is pending is cut where the bytes are. -/
theorem Delivers.pending_split (h : s.Delivers bytes fails) (want : Nat) :
    s.pending.take (s.allowance want) = bytes.take (s.allowance want) ∧
      ∃ beyond, s.pending.drop (s.allowance want) = bytes.drop (s.allowance want) ++ beyond ∧
        (fails = false → beyond = []) := by
  cases fails with
  | false =>
    rw [(h.ends rfl).1]
    exact ⟨rfl, [], (List.append_nil _).symm, fun _ => rfl⟩
  | true =>
    obtain ⟨⟨beyond, hpending⟩, hfail⟩ := h.breaks rfl
    have hle : s.allowance want ≤ bytes.length := by
      unfold allowance
      rw [hfail, Option.getD_some]
      omega
    rw [← hpending, List.take_append_of_le_length hle, List.drop_append_of_le_length hle]
    exact ⟨rfl, beyond, rfl, nofun⟩

/-- A read that is not interrupted delivers the first of the bytes, unless there are none. -/
theorem Delivers.exists_read (h : s.Delivers bytes fails) (hi : s.interruptNext = false)
    (hw : 0 < want) :
    ∃ data rest s', bytes = data ++ rest ∧
      s.read want = (if bytes = [] ∧ fails = true then .failed else .data data, s') ∧
      data.length ≤ want ∧ (bytes ≠ [] → data ≠ []) ∧ s'.Delivers rest fails ∧
      s'.delivered = s.delivered + data.length := by
  unfold read
  rw [hi, if_neg Bool.false_ne_true]
  by_cases hb : bytes = [] ∧ fails = true
  · rw [if_pos (h.exhausted_iff.2 hb)]
    exact ⟨[], bytes, _, rfl, congrArg (·, _) (if_pos hb).symm, Nat.zero_le _,
      fun hne => absurd hb.1 hne, ⟨h.chunk, h.ends, h.breaks⟩, rfl⟩
  · rw [if_neg (mt h.exhausted_iff.1 hb)]
    obtain ⟨htake, beyond, hdrop, hnone⟩ := h.pending_split want
    have hle : s.allowance want ≤ want := by
      unfold allowance
      omega
    rw [htake]
    refine ⟨bytes.take (s.allowance want), bytes.drop (s.allowance want), _,
      (List.take_append_drop ..).symm, congrArg (·, _) (if_neg hb).symm,
      (List.length_take_le ..).trans hle, fun hne hnil => ?_,
      ⟨h.chunk, fun hf => ?_, fun hf => ?_⟩, rfl⟩
    · have := h.allowance_pos hw hne
      rcases List.take_eq_nil_iff.1 hnil with h0 | h0
      · omega
      · exact hne h0
    · refine ⟨by rw [hdrop, hnone hf, List.append_nil], fun p hp => ?_⟩
      have := (h.ends hf).2 p hp
      simp only [List.length_take, List.length_drop]
      omega
    · refine ⟨⟨beyond, hdrop.symm⟩, (h.breaks hf).2.trans (congrArg some ?_)⟩
      simp only [List.length_take, List.length_drop]
      omega

/-- Reads enough for what is wanted and an interruption before each of them. -/
theorem Delivers.exists_pullWithin {reads : Nat} (got : List UInt8) (h : s.Delivers bytes fails)
    (hn : 2 * want ≤ reads + if s.interruptNext then 0 else 1) :
    ∃ s', s.pullWithin reads want got =
        (⟨got.reverse ++ bytes.take want, fails && decide (bytes.length < want)⟩, s') ∧
      s'.Delivers (bytes.drop want) fails ∧
      s'.delivered = s.delivered + (bytes.take want).length := by
  induction reads generalizing s bytes want got with
  | zero =>
    obtain rfl : want = 0 := by
      split at hn <;> omega
    exact ⟨s, by simp [pullWithin], h, rfl⟩
  | succ reads ih =>
    rw [pullWithin]
    by_cases hw : want = 0
    · subst hw
      exact ⟨s, by simp, h, rfl⟩
    have hpos := Nat.pos_of_ne_zero hw
    rw [if_neg hw]
    cases hi : s.interruptNext with
    | true =>
      rw [hi, if_pos rfl] at hn
      rw [read, hi, if_pos rfl]
      exact ih (s := { s with interruptNext := false }) got ⟨h.chunk, h.ends, h.breaks⟩ hn
    | false =>
      rw [hi, if_neg Bool.false_ne_true] at hn
      obtain ⟨data, rest, s', rfl, hread, hle, hdata, hs', hd⟩ := h.exists_read hi hpos
      rw [hread]
      by_cases hb : data ++ rest = []
      · obtain ⟨rfl, rfl⟩ := List.append_eq_nil_iff.1 hb
        cases fails with
        | true => exact ⟨s', by simp [hpos], by simpa using hs', by simpa using hd⟩
        | false => exact ⟨s', by simp, by simpa using hs', by simpa using hd⟩
      rw [if_neg fun h => hb h.1]
      obtain ⟨b, data, rfl⟩ := List.exists_cons_of_ne_nil (hdata hb)
      have hn' : 2 * (want - (b :: data).length) ≤
          reads + if s'.interruptNext then 0 else 1 := by
        rw [List.length_cons]
        omega
      obtain ⟨s'', hpull, hs'', hd'⟩ := ih ((b :: data).reverseAux got) hs' hn'
      refine ⟨s'', ?_, ?_, ?_⟩
      · have hlt : rest.length < want - (b :: data).length ↔
            (b :: data ++ rest).length < want := by
          rw [List.length_append]
          omega
        dsimp only
        rw [hpull, List.take_append, List.take_of_length_le hle, List.reverseAux_eq,
          List.reverse_append, List.reverse_reverse, List.append_assoc, decide_eq_decide.2 hlt]
      · rwa [List.drop_append, List.drop_eq_nil_of_le hle, List.nil_append]
      · rw [hd', hd, List.take_append, List.take_of_length_le hle, List.length_append,
          Nat.add_assoc]

/-- The bytes that are wanted arrive, as far as the source has them. -/
theorem Delivers.exists_pull (h : s.Delivers bytes fails) (want : Nat) :
    ∃ s', s.pull want = (⟨bytes.take want, fails && decide (bytes.length < want)⟩, s') ∧
      s'.Delivers (bytes.drop want) fails ∧
      s'.delivered = s.delivered + (bytes.take want).length :=
  h.exists_pullWithin [] (Nat.le_add_right _ _)

end

end Source

def DecodeError.reported (fails : Bool) (e : DecodeError) : DecodeError :=
  if fails then e.onFailure else e

theorem DecodeError.reported_of_isLack {fails : Bool} {e : DecodeError} (h : e.IsLack) :
    e.reported fails = if fails then sourceFailed else e := by
  rw [reported, e.onFailure_of_isLack h]

theorem DecodeError.reported_of_not_isLack (fails : Bool) {e : DecodeError} (h : ¬ e.IsLack) :
    e.reported fails = e := by
  rw [reported, e.onFailure_of_not_isLack h, ite_self]

theorem DecodeError.reported_rename {g : DecodeError → DecodeError}
    (hg : ∀ e, g e = e ∨ e.IsLack ∧ (g e).IsLack) (fails : Bool) (e : DecodeError) :
    g (e.reported fails) = (g e).reported fails := by
  have hiff := Reader.isLack_rename_iff hg e
  by_cases he : e.IsLack
  · rw [reported_of_isLack he, reported_of_isLack (hiff.2 he)]
    cases fails with
    | true => exact (hg sourceFailed).resolve_right And.left
    | false => rfl
  · rw [reported_of_not_isLack fails he, reported_of_not_isLack fails (mt hiff.1 he)]

namespace Reader

/-- The reader is at position `p`, inside `d` tuples and lists, and its source delivers `bytes`. -/
structure Draws (fails : Bool) (L : Limits) (d p : Nat) (bytes : List UInt8) (r : Reader) :
    Prop where
  limits : r.limits = L
  depth : r.depth = d
  delivered : r.source.delivered = p
  source : r.source.Delivers bytes fails

/-- What an action gives from a source, beside what it gives from memory. -/
inductive Beside (fails : Bool) (L : Limits) (d : Nat) {α : Type} :
    EStateM.Result DecodeError Reader α → EStateM.Result DecodeError Reader α → Prop
  | ok {a : α} {p : Nat} {bytes : List UInt8} {r : Reader} (h : Draws fails L d p bytes r) :
    Beside fails L d (.ok a (memory L d p bytes)) (.ok a r)
  | error {e : DecodeError} {r₀ r : Reader} (h : r.source.delivered = r₀.source.delivered) :
    Beside fails L d (.error e r₀) (.error (e.reported fails) r)

def Follows (fails : Bool) {α : Type} (m : ReadM α) : Prop :=
  ∀ ⦃L d p bytes r⦄, Draws fails L d p bytes r → Beside fails L d (m (memory L d p bytes)) (m r)

section
variable {α β : Type} {m : ReadM α} {f : α → ReadM β} {fails : Bool}

theorem follows_pure (a : α) : Follows fails (pure a) := fun _ _ _ _ _ hr => .ok hr

theorem follows_throw {e : DecodeError} (he : ¬ e.IsLack) :
    Follows fails (throw e : ReadM α) := by
  intro L d p bytes r hr
  have h : Beside fails L d (.error e (memory L d p bytes) : EStateM.Result _ _ α)
      (.error (e.reported fails) r) := .error hr.delivered
  rwa [e.reported_of_not_isLack fails he] at h

theorem Follows.bind (hm : Follows fails m) (hf : ∀ a, Follows fails (f a)) :
    Follows fails (m >>= f) := by
  intro L d p bytes r hr
  have h := hm hr
  generalize h₀ : m (memory L d p bytes) = o₀ at h
  generalize h₁ : m r = o₁ at h
  cases h with
  | ok h =>
    rw [bind_ok h₀, bind_ok h₁]
    exact hf _ h
  | error h =>
    rw [bind_error h₀, bind_error h₁]
    exact .error h

theorem Follows.ask {f : Limits → Nat → ReadM α} (h : ∀ L d, Follows fails (f L d)) :
    Follows fails fun r => f r.limits r.depth r := by
  intro L d p bytes r hr
  dsimp only
  rw [hr.limits, hr.depth]
  exact h L d hr

theorem Follows.nested (hm : Follows fails m) : Follows fails (Reader.nested m) := by
  rintro L d p bytes r ⟨rfl, rfl, hp, hs⟩
  rw [nested_memory, Reader.nested]
  by_cases hd : r.limits.maxDepth ≤ r.depth
  · rw [if_pos hd, if_pos hd]
    exact follows_throw (e := .depthExceeded r.limits.maxDepth) not_false ⟨rfl, rfl, hp, hs⟩
  rw [if_neg hd, if_neg hd]
  have h := hm (r := { r with depth := r.depth + 1 }) ⟨rfl, rfl, hp, hs⟩
  generalize m (memory r.limits (r.depth + 1) p bytes) = o₀ at h ⊢
  generalize m { r with depth := r.depth + 1 } = o₁ at h ⊢
  cases h with
  | ok h => exact .ok ⟨h.limits, congrArg (· - 1) h.depth, h.delivered, h.source⟩
  | error h => exact .error h

theorem Follows.rename {g : DecodeError → DecodeError} (hm : Follows fails m)
    (hg : ∀ e, g e = e ∨ e.IsLack ∧ (g e).IsLack) :
    Follows fails (EStateM.adaptExcept g m) := by
  intro L d p bytes r hr
  have h := hm hr
  rw [adaptExcept_eq, adaptExcept_eq]
  generalize m (memory L d p bytes) = o₀ at h ⊢
  generalize m r = o₁ at h ⊢
  cases h with
  | ok h => exact .ok h
  | @error e r₀ r₁ h =>
    dsimp only
    rw [e.reported_rename hg fails]
    exact .error h

/-! ## The reads -/

/-- What comes of reading on until there are `n` bytes, whatever is then counted as consumed. -/
theorem Draws.beside_pull {L : Limits} {d p : Nat} {bytes : List UInt8} {r : Reader}
    (hr : Draws fails L d p bytes r) (n : Nat) :
    ∃ got source, r.source.pull n = (got, source) ∧ ∀ c c', Beside fails L d
      (if bytes.length < n then
        .error (.truncated n bytes.length) (memory L d (p + bytes.length) [])
      else
        .ok (bytes.take n) (memory L d (p + n) (bytes.drop n)))
      (if got.failed then
        .error .sourceFailed { r with source, consumed := c }
      else if got.bytes.length < n then
        .error (.truncated n got.bytes.length) { r with source, consumed := c' }
      else
        .ok got.bytes { r with source, consumed := c' }) := by
  obtain ⟨source, hpull, hs, hd⟩ := hr.source.exists_pull n
  refine ⟨_, source, hpull, fun c c' => ?_⟩
  rw [hr.delivered] at hd
  by_cases hn : bytes.length < n
  · rw [List.take_of_length_le (Nat.le_of_lt hn)] at hd ⊢
    rw [if_pos hn, if_pos hn, decide_eq_true hn, Bool.and_true]
    cases fails with
    | true => exact .error (e := .truncated n bytes.length) hd
    | false => exact .error (e := .truncated n bytes.length) hd
  · have hlen : (bytes.take n).length = n := List.length_take_of_le (Nat.le_of_not_lt hn)
    rw [hlen] at hd ⊢
    rw [if_neg hn, decide_eq_false hn, Bool.and_false, if_neg Bool.false_ne_true,
      if_neg (Nat.lt_irrefl n)]
    exact .ok ⟨hr.limits, hr.depth, hd, hs⟩

theorem follows_exactly (n : Nat) : Follows fails (exactly n) := by
  intro L d p bytes r hr
  obtain ⟨got, source, hpull, h⟩ := hr.beside_pull n
  rw [exactly_memory, exactly, hpull]
  exact h _ _

theorem follows_run (n : Nat) : Follows fails (run n) := by
  intro L d p bytes r hr
  obtain ⟨got, source, hpull, h⟩ := hr.beside_pull n
  obtain rfl := hr.limits
  rw [run_memory, run, hpull]
  by_cases hn : r.limits.maxPayload < n
  · rw [if_pos hn, if_pos hn]
    exact follows_throw (e := .limitExceeded .byteRun n r.limits.maxPayload) not_false hr
  · rw [if_neg hn, if_neg hn]
    exact h _ _

theorem Composed.follows (h : Composed m) (fails : Bool) : Follows fails m := by
  induction h with
  | pure a => exact follows_pure a
  | throw he => exact follows_throw he
  | bind _ _ ihm ihf => exact ihm.bind ihf
  | ask _ ih => exact .ask ih
  | exactly n => exact follows_exactly n
  | run n => exact follows_run n
  | nested _ ih => exact ih.nested
  | rename hg _ ih => exact ih.rename hg

end

end Reader

/-! ## Messages -/

open Reader

section
variable {source : Source} {bytes : List UInt8} {fails : Bool}

/-- Decoding from a source is decoding the bytes it delivers. -/
theorem decode_of_delivers (h : source.Delivers bytes fails) (hd : source.delivered = 0)
    (s : Shape) (L : Limits) :
    (decode source s L).1 =
      (decode (.ofBytes bytes) s L).1.mapError (DecodeError.reported fails) ∧
    (decode source s L).2.delivered = (decode (.ofBytes bytes) s L).2.delivered := by
  cases hs : s.check with
  | error e =>
    rw [decode_of_refused hs, decode_of_refused hs]
    have he := e.reported_of_not_isLack fails (s.not_isLack_of_check hs)
    exact ⟨congrArg Except.error he.symm, hd⟩
  | ok u =>
    rw [decode_of_check hs, decode_of_check hs]
    have hm : Beside fails L 0 (readMessage s { source := .ofBytes bytes, limits := L })
        (readMessage s { source, limits := L }) :=
      (composed_message s).follows fails ⟨rfl, rfl, hd, h⟩
    generalize readMessage s { source := .ofBytes bytes, limits := L } = o₀ at hm ⊢
    generalize readMessage s { source, limits := L } = o₁ at hm ⊢
    cases hm with
    | ok h => exact ⟨rfl, h.delivered⟩
    | error h => exact ⟨rfl, h⟩

/-- It does not matter how a source delivers its bytes. If it does not fail, decoding ends as it does
with the bytes in memory, after as many of them. If it fails, decoding ends as it does with the bytes
before the failure, but for a lack of data: then the failure is reported, and all of these bytes are
delivered. -/
theorem decode_of_source (source : Source) (hchunk : source.chunk ≠ some 0)
    (hd : source.delivered = 0) (s : Shape) (L : Limits) :
    ((∀ p, source.failAt = some p → source.pending.length < p) →
      (decode source s L).1 = (decode (.ofBytes source.pending) s L).1 ∧
      (decode source s L).2.delivered = (decode (.ofBytes source.pending) s L).2.delivered) ∧
    (∀ p ≤ source.pending.length, source.failAt = some p →
      (decode source s L).1 =
        (decode (.ofBytes (source.pending.take p)) s L).1.mapError DecodeError.onFailure ∧
      (decode source s L).2.delivered =
        (decode (.ofBytes (source.pending.take p)) s L).2.delivered ∧
      (ReportsLack (decode (.ofBytes (source.pending.take p)) s L).1 →
        (decode source s L).2.delivered = p)) := by
  refine ⟨fun hall => ?_, fun p hp hf => ?_⟩
  · have h : source.Delivers source.pending false :=
      ⟨hchunk, fun _ => ⟨rfl, fun p hp => by rw [hd, Nat.zero_add]; exact hall p hp⟩, nofun⟩
    obtain ⟨hresult, hdelivered⟩ := decode_of_delivers h hd s L
    refine ⟨hresult.trans ?_, hdelivered⟩
    cases (decode (.ofBytes source.pending) s L).1 with
    | ok v => rfl
    | error e => rfl
  · have hlen : (source.pending.take p).length = p := List.length_take_of_le hp
    have h : source.Delivers (source.pending.take p) true :=
      ⟨hchunk, nofun, fun _ => ⟨List.take_prefix p _, by rw [hd, hlen, Nat.zero_add]; exact hf⟩⟩
    obtain ⟨hresult, hdelivered⟩ := decode_of_delivers h hd s L
    refine ⟨hresult, hdelivered, fun hl => hdelivered.trans ?_⟩
    rcases decode_ending s L (source.pending.take p) with ⟨_, data, rest, hb, hn, hall⟩ | ⟨e, -, he⟩
    · have h' := hall rest
      rw [← hb] at h'
      rw [h'] at hl
      exact absurd hl hn
    · rw [he]
      exact hlen

/-- An integer that arrives byte by byte, with interruptions, is read; when the source fails before
its last two bytes, the failure is reported. -/
theorem decode_of_source_integer :
    (decode { pending := [131, 98, 0, 0, 1, 0], chunk := some 1, interrupts := true }
      (.integer .w32) {}).1 = .ok (.integer 256) ∧
    ∃ source, decode
      { pending := [131, 98, 0, 0, 1, 0], chunk := some 1, failAt := some 4, interrupts := true }
      (.integer .w32) {} = (.error .sourceFailed, source) ∧ source.delivered = 4 := by
  have hwhole : decode (.ofBytes [131, 98, 0, 0, 1, 0]) (.integer .w32) {} =
      (.ok (.integer 256), { pending := [], delivered := 6 }) := by decide +kernel
  have hpart : decode (.ofBytes [131, 98, 0, 0]) (.integer .w32) {} =
      (.error (.truncated 4 2), { pending := [], delivered := 4 }) := by decide +kernel
  obtain ⟨hall, -⟩ := decode_of_source
    { pending := [131, 98, 0, 0, 1, 0], chunk := some 1, interrupts := true }
    (by decide) rfl (.integer .w32) {}
  obtain ⟨-, hfail⟩ := decode_of_source
    { pending := [131, 98, 0, 0, 1, 0], chunk := some 1, failAt := some 4, interrupts := true }
    (by decide) rfl (.integer .w32) {}
  obtain ⟨hresult, -, hdelivered⟩ := hfail 4 (by decide) rfl
  change _ = (decode (.ofBytes [131, 98, 0, 0]) (.integer .w32) {}).1.mapError _ at hresult
  change ReportsLack (decode (.ofBytes [131, 98, 0, 0]) (.integer .w32) {}).1 → _ at hdelivered
  rw [hpart] at hresult hdelivered
  exact ⟨(hall fun p hp => by cases hp).1.trans (congrArg Prod.fst hwhole), _, Prod.ext hresult rfl,
    hdelivered trivial⟩

end

end ExternalTerm
