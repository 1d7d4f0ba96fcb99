import ExternalTerm.Proofs.Composed

/-!
# Positions

How far a source is read.

* `Source.Advances` : a source delivers more bytes, but none after its point of failure;
* `Composed.advances` : no action goes back;
* `Composed.exists_reads_of_ok` : what an action gives from any source is what it gives from the
  bytes that the source delivers to it.
-/

namespace ExternalTerm

/-! ## Sources -/

namespace Source

/-- `s'` is `s` after `n` more bytes, none of them beyond the point of failure. -/
structure Advances (s s' : Source) (n : Nat) : Prop where
  failAt : s'.failAt = s.failAt
  delivered : s'.delivered = s.delivered + n
  bounded : ∀ p, s.failAt = some p → s.delivered ≤ p → s'.delivered ≤ p

section
variable {s s' s'' : Source} {n n' want : Nat}

theorem Advances.refl (s : Source) : s.Advances s 0 := ⟨rfl, rfl, fun _ _ h => h⟩

theorem Advances.trans (h : s.Advances s' n) (h' : s'.Advances s'' n') :
    s.Advances s'' (n + n') where
  failAt := h'.failAt.trans h.failAt
  delivered := by rw [h'.delivered, h.delivered, Nat.add_assoc]
  bounded p hp hle := h'.bounded p (h.failAt.trans hp) (h.bounded p hp hle)

/-- At the point of failure nothing more is delivered. -/
theorem Advances.eq_zero (h : s.Advances s' n) (hp : s.failAt = some s.delivered) : n = 0 := by
  have := h.bounded _ hp (Nat.le_refl _)
  rw [h.delivered] at this
  omega

def Outcome.bytes : Outcome → List UInt8
  | .data bytes => bytes
  | .interrupted | .failed => []

theorem read_advances (s : Source) (want : Nat) :
    s.Advances (s.read want).2 (s.read want).1.bytes.length ∧
      ((s.read want).1 = .failed → (s.read want).2.exhausted = true) := by
  unfold read
  by_cases hi : s.interruptNext = true
  · rw [if_pos hi]
    exact ⟨⟨rfl, rfl, fun _ _ h => h⟩, by rintro ⟨⟩⟩
  rw [if_neg hi]
  by_cases he : s.exhausted = true
  · rw [if_pos he]
    exact ⟨⟨rfl, rfl, fun _ _ h => h⟩, fun _ => he⟩
  · rw [if_neg he]
    refine ⟨⟨rfl, rfl, fun p hp hle => ?_⟩, by rintro ⟨⟩⟩
    have hallowance : s.allowance want ≤ p - s.delivered := by
      unfold allowance
      rw [hp, Option.getD_some]
      omega
    simp only [List.length_take]
    omega

theorem length_read_le (s : Source) (want : Nat) : (s.read want).1.bytes.length ≤ want := by
  unfold read
  split
  · exact Nat.zero_le want
  · split
    · exact Nat.zero_le want
    · simp only [Outcome.bytes, allowance, List.length_take]
      omega

theorem pullWithin_advances (reads : Nat) (s : Source) (want : Nat) (got : List UInt8) :
    ∃ n, (s.pullWithin reads want got).1.bytes.length = got.length + n ∧ n ≤ want ∧
      s.Advances (s.pullWithin reads want got).2 n ∧
      ((s.pullWithin reads want got).1.failed = true →
        (s.pullWithin reads want got).2.exhausted = true) := by
  induction reads generalizing s want got with
  | zero => exact ⟨0, by simp [pullWithin], Nat.zero_le _, .refl s, by rintro ⟨⟩⟩
  | succ reads ih =>
    rw [pullWithin]
    by_cases hw : want = 0
    · rw [if_pos hw]
      exact ⟨0, by simp, Nat.zero_le _, .refl s, by rintro ⟨⟩⟩
    rw [if_neg hw]
    obtain ⟨hread, hfailed⟩ := s.read_advances want
    have hle := s.length_read_le want
    generalize s.read want = o at hread hfailed hle ⊢
    obtain ⟨outcome, s'⟩ := o
    cases outcome with
    | interrupted =>
      obtain ⟨n, hlen, hn, hs, hf⟩ := ih s' want got
      exact ⟨n, hlen, hn, by simpa [Outcome.bytes] using hread.trans hs, hf⟩
    | failed => exact ⟨0, by simp, Nat.zero_le _, hread, fun _ => hfailed rfl⟩
    | data bytes =>
      cases bytes with
      | nil => exact ⟨0, by simp, Nat.zero_le _, hread, by rintro ⟨⟩⟩
      | cons b bytes =>
        obtain ⟨n, hlen, hn, hs, hf⟩ :=
          ih s' (want - (b :: bytes).length) ((b :: bytes).reverseAux got)
        refine ⟨(b :: bytes).length + n, ?_, ?_, hread.trans hs, hf⟩
        · rw [hlen, List.reverseAux_eq]
          simp
          omega
        · simp only [Outcome.bytes] at hle
          omega

/-- What is delivered while there is reading on is what comes of it; and it fails at the point of
failure only. -/
theorem pull_advances (s : Source) (want : Nat) :
    s.Advances (s.pull want).2 (s.pull want).1.bytes.length ∧
      ((s.pull want).1.failed = true → (s.pull want).2.exhausted = true) := by
  obtain ⟨n, hlen, -, hs, hf⟩ := pullWithin_advances (2 * want) s want []
  rw [List.length_nil, Nat.zero_add] at hlen
  exact ⟨hlen ▸ hs, hf⟩

theorem length_pull_le (s : Source) (want : Nat) : (s.pull want).1.bytes.length ≤ want := by
  obtain ⟨n, hlen, hn, -, -⟩ := pullWithin_advances (2 * want) s want []
  rw [List.length_nil, Nat.zero_add] at hlen
  rw [pull, hlen]
  exact hn

end

end Source

/-! ## Actions -/

namespace Reader

section
variable {α : Type} {m : ReadM α}

theorem Composed.advances (h : Composed m) (r : Reader) :
    ∃ n, r.source.Advances (after m r).source n := by
  induction h generalizing r with
  | pure a => exact ⟨0, .refl _⟩
  | throw e => exact ⟨0, .refl _⟩
  | @bind α β m f _ _ ihm ihf =>
    obtain ⟨n, hn⟩ := ihm r
    cases hm : m r with
    | ok a r₁ =>
      rw [after_ok hm] at hn
      obtain ⟨n', hn'⟩ := ihf a r₁
      rw [after, bind_ok hm]
      exact ⟨n + n', hn.trans hn'⟩
    | error e r₁ =>
      rw [after_error hm] at hn
      rw [after_error (bind_error hm)]
      exact ⟨n, hn⟩
  | ask _ ih => exact ih r.limits r.depth r
  | exactly n =>
    have hpull := (r.source.pull_advances n).1
    obtain ⟨bytes, h⟩ | ⟨e, h⟩ := exactly_cases n r
    · rw [after_ok h]
      exact ⟨_, hpull⟩
    · rw [after_error h]
      exact ⟨_, hpull⟩
  | run n =>
    have hpull := (r.source.pull_advances n).1
    obtain ⟨bytes, h⟩ | ⟨e, h⟩ | ⟨e, h⟩ | ⟨-, h⟩ := run_cases n r
    · rw [after_ok h]
      exact ⟨_, hpull⟩
    · rw [after_error h]
      exact ⟨_, hpull⟩
    · rw [after_error h]
      exact ⟨0, .refl _⟩
    · rw [after_error h]
      exact ⟨_, hpull⟩
  | @nested α m _ ih =>
    obtain ⟨n, hn⟩ := ih { r with depth := r.depth + 1 }
    rw [after_nested]
    split
    · exact ⟨0, .refl _⟩
    · exact ⟨n, hn⟩
  | @rename α m g _ _ ih =>
    obtain ⟨n, hn⟩ := ih r
    unfold after at hn ⊢
    rw [adaptExcept_eq]
    cases hm : m r <;>
      · rw [hm] at hn
        exact ⟨n, hn⟩

/-! ## What comes from a source -/

variable {n : Nat} {r r' : Reader} {bytes : List UInt8} {a : α}

/-- A source is read on until all is there that is wanted, and no further. -/
theorem delivered_of_pull (h : ¬ (r.source.pull n).1.bytes.length < n) :
    (r.source.pull n).1.bytes.length = n ∧
      (r.source.pull n).2.delivered = r.source.delivered + (r.source.pull n).1.bytes.length :=
  ⟨Nat.le_antisymm (r.source.length_pull_le n) (Nat.le_of_not_lt h),
    (r.source.pull_advances n).1.delivered⟩

theorem exactly_ok (h : exactly n r = .ok bytes r') :
    bytes.length = n ∧ r'.source.delivered = r.source.delivered + bytes.length := by
  unfold Reader.exactly at h
  dsimp only at h
  split at h
  · cases h
  split at h
  · cases h
  next hn =>
    cases h
    exact delivered_of_pull hn

theorem run_ok (h : run n r = .ok bytes r') :
    n ≤ r.limits.maxPayload ∧ bytes.length = n ∧
      r'.source.delivered = r.source.delivered + bytes.length := by
  unfold Reader.run at h
  dsimp only at h
  split at h
  · cases h
  next hl =>
  split at h
  · cases h
  split at h
  · cases h
  next hn =>
    cases h
    exact ⟨Nat.le_of_not_lt hl, delivered_of_pull hn⟩

/-- What an action gives from any source is what it gives from the bytes that are delivered. -/
theorem Composed.exists_reads_of_ok (h : Composed m) (hr : m r = .ok a r') :
    ∃ data, Reads m r.limits r.depth data a ∧
      r'.source.delivered = r.source.delivered + data.length := by
  induction h generalizing r r' with
  | pure a =>
    cases hr
    exact ⟨[], Reads.pure a, rfl⟩
  | throw _ => cases hr
  | @bind α β m f hm _ ihm ihf =>
    obtain ⟨b, r₁, hb, hf⟩ := bind_eq_ok_iff.1 hr
    obtain ⟨x, hx, hdx⟩ := ihm hb
    obtain ⟨y, hy, hdy⟩ := ihf b hf
    have hs := hm.steady r
    rw [after_ok hb] at hs
    rw [hs.1, hs.2] at hy
    refine ⟨x ++ y, hx.bind hy, ?_⟩
    rw [hdy, hdx, List.length_append, Nat.add_assoc]
  | ask _ ih =>
    obtain ⟨data, hdata, hd⟩ := ih r.limits r.depth hr
    exact ⟨data, fun p rest => hdata p rest, hd⟩
  | exactly n =>
    obtain ⟨hn, hd⟩ := exactly_ok hr
    exact ⟨_, reads_exactly hn, hd⟩
  | run n =>
    obtain ⟨hl, hn, hd⟩ := run_ok hr
    exact ⟨_, reads_run hn hl, hd⟩
  | @nested α m _ ih =>
    unfold Reader.nested at hr
    split at hr
    · cases hr
    next hdepth =>
    cases hm : m { r with depth := r.depth + 1 } with
    | ok a₁ r₁ =>
      rw [hm] at hr
      cases hr
      obtain ⟨data, hdata, hd⟩ := ih hm
      exact ⟨data, hdata.nested (Nat.lt_of_not_le hdepth), hd⟩
    | error e r₁ =>
      rw [hm] at hr
      cases hr
  | @rename α m g _ _ ih =>
    rw [adaptExcept_eq] at hr
    cases hm : m r with
    | ok a₁ r₁ =>
      rw [hm] at hr
      cases hr
      obtain ⟨data, hdata, hd⟩ := ih hm
      exact ⟨data, hdata.rename g, hd⟩
    | error e r₁ =>
      rw [hm] at hr
      cases hr

end

end Reader

end ExternalTerm
