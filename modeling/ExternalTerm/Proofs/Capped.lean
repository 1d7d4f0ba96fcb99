import ExternalTerm.Proofs.Leveled
import ExternalTerm.Proofs.Position
import ExternalTerm.Proofs.RoundTrip

/-!
# Smaller limits

What smaller limits change is that reading may end at one of them, with an error that says so.

* `Capped` : one reader ended as another one with larger limits, or at a limit before that;
* `leveled_caps` : reading under smaller limits is capped, whatever is read;
* `decode_eq_or_limit` : so decoding gives the same under smaller limits, or an error about one.
-/

namespace ExternalTerm

theorem DecodeError.IsLimit.not_isLack {e : DecodeError} (h : e.IsLimit) : ¬ e.IsLack := by
  unfold IsLimit at h
  unfold IsLack
  split at h <;> simp_all

namespace Reader

def endOf {α : Type} : EStateM.Result DecodeError Reader α → Nat
  | .ok _ r | .error _ r => r.source.delivered

/-- Under the limits `L` reading bytes in memory ended like this, and under `L'` like that: both
ended the same way at the same place, or the first one at a limit, no later than the other. -/
inductive Capped (L L' : Limits) (d : Nat) {α : Type} :
    EStateM.Result DecodeError Reader α → EStateM.Result DecodeError Reader α → Prop
  | ok (a : α) (p : Nat) (rest : List UInt8) :
    Capped L L' d (.ok a (memory L d p rest)) (.ok a (memory L' d p rest))
  | error (e : DecodeError) (p : Nat) (rest : List UInt8) :
    Capped L L' d (.error e (memory L d p rest)) (.error e (memory L' d p rest))
  | limit {e : DecodeError} {p : Nat} (rest : List UInt8) {o : EStateM.Result DecodeError Reader α}
    (he : e.IsLimit) (hp : p ≤ endOf o) : Capped L L' d (.error e (memory L d p rest)) o

/-- Where `L` leaves `levels` levels, what the action does under `L` is capped by `L`. -/
structure Caps (L L' : Limits) (levels : Nat) {α : Type} (m : ReadM α) : Prop where
  composed : Composed m
  capped : ∀ d p bytes, L.maxDepth - d = levels →
    Capped L L' d (m (memory L d p bytes)) (m (memory L' d p bytes))

section
variable {α β : Type} {m : ReadM α} {f : α → ReadM β} {L L' : Limits} {d p levels : Nat}

theorem endOf_eq (m : ReadM α) (r : Reader) : endOf (m r) = (after m r).source.delivered := by
  unfold endOf after
  cases m r <;> rfl

theorem Composed.le_endOf (h : Composed m) (r : Reader) : r.source.delivered ≤ endOf (m r) := by
  obtain ⟨n, hn⟩ := h.advances r
  rw [endOf_eq, hn.delivered]
  exact Nat.le_add_right ..

/-- A limit that is met before anything is read caps whatever is done under other limits. -/
theorem Composed.capped_limit (h : Composed m) {e : DecodeError} (he : e.IsLimit)
    (bytes : List UInt8) :
    Capped L L' d (.error e (memory L d p bytes)) (m (memory L' d p bytes)) :=
  .limit bytes he (h.le_endOf (memory L' d p bytes))

theorem Caps.bind (hm : Caps L L' levels m) (hf : ∀ a, Caps L L' levels (f a)) :
    Caps L L' levels (m >>= f) := by
  refine ⟨hm.composed.bind fun a => (hf a).composed, fun d p bytes hd => ?_⟩
  have h := hm.capped d p bytes hd
  generalize hr : m (memory L d p bytes) = o at h
  generalize hr' : m (memory L' d p bytes) = o' at h
  cases h with
  | ok a p₁ rest =>
    rw [bind_ok hr, bind_ok hr']
    exact (hf a).capped d p₁ rest hd
  | error e p₁ rest =>
    rw [bind_error hr, bind_error hr']
    exact .error e p₁ rest
  | limit rest he hp =>
    rw [bind_error hr]
    refine .limit rest he ?_
    cases o' with
    | ok a r =>
      rw [bind_ok hr']
      exact hp.trans ((hf a).composed.le_endOf r)
    | error e r => rwa [bind_error hr']

theorem Caps.rename {g : DecodeError → DecodeError} (hg : ∀ e, g e = e ∨ e.IsLack ∧ (g e).IsLack)
    (hm : Caps L L' levels m) : Caps L L' levels (EStateM.adaptExcept g m) := by
  refine ⟨.rename hg hm.composed, fun d p bytes hd => ?_⟩
  have h := hm.capped d p bytes hd
  rw [adaptExcept_eq, adaptExcept_eq]
  generalize m (memory L d p bytes) = o at h ⊢
  generalize m (memory L' d p bytes) = o' at h ⊢
  cases h with
  | ok a p₁ rest => exact .ok a p₁ rest
  | error e p₁ rest => exact .error (g e) p₁ rest
  | @limit e p₁ rest _ he hp =>
    have hge : g e = e := (hg e).resolve_right fun h => he.not_isLack h.1
    dsimp only
    rw [hge]
    refine .limit rest he ?_
    cases o' <;> exact hp

theorem caps_exactly (n : Nat) : Caps L L' levels (exactly n) := by
  refine ⟨.exactly n, fun d p bytes _ => ?_⟩
  rw [exactly_memory, exactly_memory]
  split
  · exact .error ..
  · exact .ok ..

theorem caps_checkElements (hL : L.Below L') (what : Kind) (n : Nat) :
    Caps L L' levels (checkElements what n) := by
  refine ⟨composed.checkElements what n, fun d p bytes _ => ?_⟩
  by_cases h : L.maxElements < n
  · rw [checkElements_memory what n L, if_pos h]
    refine (composed.checkElements what n).capped_limit ?_ bytes
    trivial
  · have h' : ¬ L'.maxElements < n := fun h' => h (Nat.lt_of_le_of_lt hL.elements h')
    rw [checkElements_memory, checkElements_memory, if_neg h, if_neg h']
    exact .ok ..

theorem caps_run (hL : L.Below L') (n : Nat) : Caps L L' levels (run n) := by
  refine ⟨.run n, fun d p bytes hd => ?_⟩
  by_cases h : L.maxPayload < n
  · rw [run_memory n L, if_pos h]
    refine (Composed.run n).capped_limit ?_ bytes
    trivial
  · have h' : n ≤ L'.maxPayload := (Nat.not_lt.1 h).trans hL.payload
    rw [run_memory_of_le (Nat.not_lt.1 h), run_memory_of_le h']
    exact (caps_exactly n).capped d p bytes hd

theorem compositional_caps (hL : L.Below L') (levels : Nat) : Compositional (Caps L L' levels) where
  pure a := ⟨.pure a, fun _ _ _ _ => .ok ..⟩
  throw he := ⟨.throw he.not_isLack, fun _ _ _ _ => .error ..⟩
  bind := Caps.bind
  rename := Caps.rename
  exactly := caps_exactly
  checkElements := caps_checkElements hL
  run := caps_run hL

theorem Caps.nested (hL : L.Below L') (hm : Caps L L' levels m) :
    Caps L L' (levels + 1) (Reader.nested m) := by
  refine ⟨.nested hm.composed, fun d p bytes hd => ?_⟩
  have hlt : d < L.maxDepth := by omega
  have hlt' : d < L'.maxDepth := Nat.lt_of_lt_of_le hlt hL.depth
  have h := hm.capped (d + 1) p bytes (by omega)
  rw [nested_memory, nested_memory, if_neg (Nat.not_le.2 hlt), if_neg (Nat.not_le.2 hlt')]
  generalize m (memory L (d + 1) p bytes) = o at h ⊢
  generalize m (memory L' (d + 1) p bytes) = o' at h ⊢
  cases h with
  | ok a p₁ rest => exact .ok a p₁ rest
  | error e p₁ rest => exact .error e p₁ rest
  | limit rest he hp =>
    refine .limit rest he ?_
    cases o' <;> exact hp

theorem caps_nested_zero (hm : Composed m) : Caps L L' 0 (Reader.nested m) := by
  refine ⟨.nested hm, fun d p bytes hd => ?_⟩
  rw [nested_memory m L, if_pos (Nat.le_of_sub_eq_zero hd)]
  refine hm.nested.capped_limit ?_ bytes
  trivial

theorem leveled_caps (hL : L.Below L') : Leveled (Caps L L') where
  compositional := compositional_caps hL
  nested_zero := caps_nested_zero
  nested_succ _ h := h.nested hL

end

end Reader

/-! ## Messages -/

open Reader

section
variable {L L' : Limits}

/-- Under smaller limits a message decodes to the same value or error and leaves the source at the
same place, or it is refused at a limit, no later than where decoding under the larger ones
stops. -/
theorem decode_eq_or_limit (hL : L.Below L') (s : Shape) (b : List UInt8) :
    decode (.ofBytes b) s L = decode (.ofBytes b) s L' ∨
      ∃ e, (decode (.ofBytes b) s L).1 = .error e ∧ e.IsLimit ∧
        (decode (.ofBytes b) s L).2.delivered ≤ (decode (.ofBytes b) s L').2.delivered := by
  cases hs : s.check with
  | error e =>
    refine .inl ?_
    rw [decode, decode, hs]
  | ok u =>
    have h := ((leveled_caps hL).message hs _).capped 0 0 b rfl
    rw [decode_of_check hs, decode_of_check hs]
    change Capped L L' 0 (readMessage s { source := .ofBytes b, limits := L })
      (readMessage s { source := .ofBytes b, limits := L' }) at h
    generalize readMessage s { source := .ofBytes b, limits := L } = o at h ⊢
    generalize readMessage s { source := .ofBytes b, limits := L' } = o' at h ⊢
    cases h with
    | ok v p rest => exact .inl rfl
    | error e p rest => exact .inl rfl
    | limit rest he hp =>
      refine .inr ⟨_, rfl, he, ?_⟩
      cases o' <;> exact hp

/-- Text that is spelled out in a list is refused at its count where one element is allowed, before
the place where reading it without limits ends. -/
theorem decode_eq_or_limit_text :
    let b : List UInt8 := [131, 108, 0, 0, 0, 2, 97, 104, 97, 105, 106]
    ∃ e, (decode (.ofBytes b) .text { maxElements := 1 }).1 = .error e ∧ e.IsLimit ∧
      (decode (.ofBytes b) .text { maxElements := 1 }).2.delivered ≤ 11 := by
  intro b
  have hfree : decode (.ofBytes b) .text .unbounded =
      (.ok (.text "hi"), { pending := [], delivered := 11 }) := by decide +kernel
  have hcapped : decode (.ofBytes b) .text { maxElements := 1 } =
      (.error (.limitExceeded .list 2 1),
        { pending := [97, 104, 97, 105, 106], delivered := 6 }) := by decide +kernel
  have hL : Limits.Below { maxElements := 1 } .unbounded := ⟨by decide, by decide, by decide⟩
  obtain h | ⟨e, he, hl, hp⟩ := decode_eq_or_limit hL .text b
  · rw [hfree, hcapped] at h
    cases h
  · rw [hfree] at hp
    exact ⟨e, he, hl, hp⟩

end

end ExternalTerm
