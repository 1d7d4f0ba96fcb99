import ExternalTerm.Proofs.Delivery
import ExternalTerm.Proofs.Leveled

/-!
# Readers side by side

A reader that is some levels deep does what a new reader does whose limit is lower by as many
levels, apart from the limit that an error about depth names.

* `Source.Matches` : two sources deliver the same from here on, at whatever pace;
* `Peers` : two readers of such sources are as far below their limits;
* `EndsAlike` : an action of the one ended as an action of the other did;
* `leveled_parallel` : whatever is read, peers end alike.
-/

namespace ExternalTerm

theorem DecodeError.IsDefect.ne_depthExceeded {e : DecodeError} (h : e.IsDefect) (n : Nat) :
    e ≠ .depthExceeded n := by
  rintro rfl
  exact h

/-! ## Sources -/

namespace Source

def pulls : List Nat → Source → List Pulled
  | [], _ => []
  | want :: wants, s => (s.pull want).1 :: pulls wants (s.pull want).2

/-- The sources deliver the same from here on, whatever is asked of them. -/
def Matches (s s' : Source) : Prop := ∀ wants, pulls wants s = pulls wants s'

section
variable {s s' : Source}

theorem Matches.pulled (h : s.Matches s') (n : Nat) : (s.pull n).1 = (s'.pull n).1 :=
  (List.cons.inj (h [n])).1

theorem Matches.rest (h : s.Matches s') (n : Nat) : (s.pull n).2.Matches (s'.pull n).2 :=
  fun wants => (List.cons.inj (h (n :: wants))).2

/-- The pace and the position of a source do not matter, nor what would come after a failure. -/
theorem Delivers.matches {bytes : List UInt8} {fails : Bool} (h : s.Delivers bytes fails)
    (h' : s'.Delivers bytes fails) : s.Matches s' := by
  intro wants
  induction wants generalizing s s' bytes with
  | nil => rfl
  | cons want wants ih =>
    obtain ⟨t, ht, hrest, -⟩ := h.exists_pull want
    obtain ⟨t', ht', hrest', -⟩ := h'.exists_pull want
    rw [pulls, pulls, ht, ht']
    exact congrArg _ (ih hrest hrest')

/-- A source that never fails delivers what is delivered from memory. -/
theorem matches_ofBytes (hchunk : s.chunk ≠ some 0) (hfail : s.failAt = none) :
    s.Matches (.ofBytes s.pending) := by
  have hslow : s.Delivers s.pending false := by
    refine ⟨hchunk, fun _ => ⟨rfl, fun p hp => ?_⟩, fun h => ?_⟩
    · rw [hfail] at hp
      cases hp
    · cases h
  have hmemory : (ofBytes s.pending).Delivers s.pending false := by
    refine ⟨by rintro ⟨⟩, fun _ => ⟨rfl, fun p hp => ?_⟩, fun h => ?_⟩
    · cases hp
    · cases h
  exact hslow.matches hmemory

end

end Source

namespace Reader

/-! ## Readers -/

/-- Both readers may read as much from matching sources, and `levels` levels deeper than they are. -/
structure Peers (levels : Nat) (r r' : Reader) : Prop where
  payload : r.limits.maxPayload = r'.limits.maxPayload
  elements : r.limits.maxElements = r'.limits.maxElements
  left : r.limits.maxDepth - r.depth = levels
  right : r'.limits.maxDepth - r'.depth = levels
  source : r.source.Matches r'.source

/-- From `r` to `r₁` as many bytes were read and counted as from `r'` to `r₁'`; what is left unread
is the same, and both are as deep as before. -/
structure Alongside (r r' r₁ r₁' : Reader) : Prop where
  left : Alike r r₁
  right : Alike r' r₁'
  source : r₁.source.Matches r₁'.source
  consumed : ∃ n, r₁.consumed = r.consumed + n ∧ r₁'.consumed = r'.consumed + n
  delivered : ∃ n, r₁.source.delivered = r.source.delivered + n ∧
    r₁'.source.delivered = r'.source.delivered + n

section
variable {r r' r₁ r₁' r₂ r₂' : Reader} {levels n : Nat}

theorem Alongside.refl (h : r.source.Matches r'.source) : Alongside r r' r r' :=
  ⟨.refl r, .refl r', h, ⟨0, rfl, rfl⟩, ⟨0, rfl, rfl⟩⟩

theorem Alongside.trans (h : Alongside r r' r₁ r₁') (h' : Alongside r₁ r₁' r₂ r₂') :
    Alongside r r' r₂ r₂' := by
  obtain ⟨n, hn, hn'⟩ := h.consumed
  obtain ⟨m, hm, hm'⟩ := h'.consumed
  obtain ⟨p, hp, hp'⟩ := h.delivered
  obtain ⟨q, hq, hq'⟩ := h'.delivered
  exact ⟨h.left.trans h'.left, h.right.trans h'.right, h'.source, ⟨n + m, by omega, by omega⟩,
    ⟨p + q, by omega, by omega⟩⟩

theorem Peers.of_alongside (h : Peers levels r r') (ha : Alongside r r' r₁ r₁') :
    Peers levels r₁ r₁' where
  payload := by rw [ha.left.1, ha.right.1, h.payload]
  elements := by rw [ha.left.1, ha.right.1, h.elements]
  left := by rw [ha.left.1, ha.left.2, h.left]
  right := by rw [ha.right.1, ha.right.2, h.right]
  source := ha.source

/-- Peers read on for the same bytes, whatever they then count as consumed. -/
theorem Peers.alongside_pull (h : Peers levels r r') (n c : Nat) :
    Alongside r r' { r with source := (r.source.pull n).2, consumed := r.consumed + c }
      { r' with source := (r'.source.pull n).2, consumed := r'.consumed + c } := by
  refine ⟨.refl r, .refl r', h.source.rest n, ⟨c, rfl, rfl⟩, ⟨_,
    (r.source.pull_advances n).1.delivered, ?_⟩⟩
  rw [h.source.pulled n]
  exact (r'.source.pull_advances n).1.delivered

theorem Peers.alongside_drawn (h : Peers levels r r') (n : Nat) :
    Alongside r r' (r.drawn n) (r'.drawn n) := by
  unfold drawn
  rw [h.source.pulled n]
  exact h.alongside_pull n _

/-- One level further in there is one level less. -/
theorem Peers.enter (h : Peers (levels + 1) r r') :
    Peers levels { r with depth := r.depth + 1 } { r' with depth := r'.depth + 1 } := by
  have hleft := h.left
  have hright := h.right
  exact ⟨h.payload, h.elements, by dsimp only; omega, by dsimp only; omega, h.source⟩

theorem Alongside.leave
    (h : Alongside { r with depth := r.depth + 1 } { r' with depth := r'.depth + 1 } r₁ r₁') :
    Alongside r r' { r₁ with depth := r₁.depth - 1 } { r₁' with depth := r₁'.depth - 1 } :=
  ⟨h.left.leave, h.right.leave, h.source, h.consumed, h.delivered⟩

end

/-! ## Actions -/

/-- An action that `r` began and one that `r'` began ended alike: with the same result, or with the
same error; only an error about depth names the limit of the reader that reports it. -/
inductive EndsAlike (r r' : Reader) {α : Type} :
    EStateM.Result DecodeError Reader α → EStateM.Result DecodeError Reader α → Prop
  | ok (a : α) {r₁ r₁' : Reader} (h : Alongside r r' r₁ r₁') :
    EndsAlike r r' (.ok a r₁) (.ok a r₁')
  | error {e : DecodeError} {r₁ r₁' : Reader} (he : ∀ n, e ≠ .depthExceeded n)
    (h : Alongside r r' r₁ r₁') : EndsAlike r r' (.error e r₁) (.error e r₁')
  | depth {r₁ r₁' : Reader} (h : Alongside r r' r₁ r₁') :
    EndsAlike r r' (.error (.depthExceeded r.limits.maxDepth) r₁)
      (.error (.depthExceeded r'.limits.maxDepth) r₁')

def Parallel (levels : Nat) {α : Type} (m : ReadM α) : Prop :=
  ∀ ⦃r r'⦄, Peers levels r r' → EndsAlike r r' (m r) (m r')

section
variable {α β : Type} {m : ReadM α} {f : α → ReadM β} {r r' r₁ r₁' : Reader} {levels : Nat}

theorem EndsAlike.of_alongside {o o' : EStateM.Result DecodeError Reader α}
    (ha : Alongside r r' r₁ r₁') (h : EndsAlike r₁ r₁' o o') : EndsAlike r r' o o' := by
  cases h with
  | ok a h => exact .ok a (ha.trans h)
  | error he h => exact .error he (ha.trans h)
  | depth h =>
    rw [ha.left.1, ha.right.1]
    exact .depth (ha.trans h)

theorem parallel_pure (a : α) : Parallel levels (pure a) := fun _ _ h => .ok a (.refl h.source)

theorem parallel_throw {e : DecodeError} (he : ∀ n, e ≠ .depthExceeded n) :
    Parallel levels (throw e : ReadM α) := fun _ _ h => .error he (.refl h.source)

theorem Parallel.bind (hm : Parallel levels m) (hf : ∀ a, Parallel levels (f a)) :
    Parallel levels (m >>= f) := by
  intro r r' h
  have hends := hm h
  generalize hr : m r = o at hends
  generalize hr' : m r' = o' at hends
  cases hends with
  | ok a ha =>
    rw [bind_ok hr, bind_ok hr']
    exact .of_alongside ha (hf a (h.of_alongside ha))
  | error he ha =>
    rw [bind_error hr, bind_error hr']
    exact .error he ha
  | depth ha =>
    rw [bind_error hr, bind_error hr']
    exact .depth ha

theorem Parallel.rename {g : DecodeError → DecodeError}
    (hg : ∀ e, g e = e ∨ e.IsLack ∧ (g e).IsLack) (hm : Parallel levels m) :
    Parallel levels (EStateM.adaptExcept g m) := by
  intro r r' h
  have hends := hm h
  have hdepth (n : Nat) : g (.depthExceeded n) = .depthExceeded n :=
    (hg _).resolve_right fun hlack => hlack.1
  have hne {e : DecodeError} (he : ∀ n, e ≠ .depthExceeded n) (n : Nat) :
      g e ≠ .depthExceeded n := by
    intro heq
    rcases hg e with hsame | ⟨-, hlack⟩
    · exact he n (hsame.symm.trans heq)
    · rw [heq] at hlack
      exact hlack
  rw [adaptExcept_eq, adaptExcept_eq]
  generalize m r = o at hends ⊢
  generalize m r' = o' at hends ⊢
  cases hends with
  | ok a ha => exact .ok a ha
  | error he ha => exact .error (hne he) ha
  | depth ha =>
    dsimp only
    rw [hdepth, hdepth]
    exact .depth ha

theorem parallel_exactly (n : Nat) : Parallel levels (exactly n) := by
  intro r r' h
  have hdrawn := h.alongside_drawn n
  unfold drawn at hdrawn
  unfold exactly
  dsimp only
  rw [h.source.pulled n] at hdrawn ⊢
  split_ifs
  · exact .error (by rintro _ ⟨⟩) hdrawn
  · exact .error (by rintro _ ⟨⟩) hdrawn
  · exact .ok _ hdrawn

theorem parallel_run (n : Nat) : Parallel levels (run n) := by
  intro r r' h
  have hdrawn := h.alongside_drawn n
  unfold drawn at hdrawn
  unfold run
  dsimp only
  rw [h.payload]
  rw [h.source.pulled n] at hdrawn ⊢
  split_ifs
  · exact .error (by rintro _ ⟨⟩) (.refl h.source)
  · exact .error (by rintro _ ⟨⟩) (h.alongside_pull n 0)
  · exact .error (by rintro _ ⟨⟩) hdrawn
  · exact .ok _ hdrawn

theorem parallel_checkElements (what : Kind) (n : Nat) :
    Parallel levels (checkElements what n) := by
  intro r r' h
  change EndsAlike r r'
    ((if r.limits.maxElements < n then throw (.limitExceeded what n r.limits.maxElements)
      else pure () : ReadM Unit) r)
    ((if r'.limits.maxElements < n then throw (.limitExceeded what n r'.limits.maxElements)
      else pure () : ReadM Unit) r')
  rw [h.elements]
  split
  · exact parallel_throw (by rintro _ ⟨⟩) h
  · exact parallel_pure () h

theorem compositional_parallel (levels : Nat) : Compositional (Parallel levels) where
  pure := parallel_pure
  throw he := parallel_throw he.ne_depthExceeded
  bind := Parallel.bind
  rename := Parallel.rename
  exactly := parallel_exactly
  checkElements := parallel_checkElements
  run := parallel_run

/-- Where no level is left, each reader names its own limit. -/
theorem parallel_nested_zero (m : ReadM α) : Parallel 0 (Reader.nested m) := by
  intro r r' h
  unfold Reader.nested
  rw [if_pos (Nat.le_of_sub_eq_zero h.left), if_pos (Nat.le_of_sub_eq_zero h.right)]
  exact .depth (.refl h.source)

theorem Parallel.nested (hm : Parallel levels m) : Parallel (levels + 1) (Reader.nested m) := by
  intro r r' h
  have hlt : r.depth < r.limits.maxDepth := Nat.lt_of_sub_eq_succ h.left
  have hlt' : r'.depth < r'.limits.maxDepth := Nat.lt_of_sub_eq_succ h.right
  have hends := hm h.enter
  unfold Reader.nested
  rw [if_neg (Nat.not_le.2 hlt), if_neg (Nat.not_le.2 hlt')]
  generalize m { r with depth := r.depth + 1 } = o at hends ⊢
  generalize m { r' with depth := r'.depth + 1 } = o' at hends ⊢
  cases hends with
  | ok a ha => exact .ok a ha.leave
  | error he ha => exact .error he ha.leave
  | depth ha => exact .depth ha.leave

/-- Peers end alike, whatever they read. -/
theorem leveled_parallel : Leveled Parallel where
  compositional := compositional_parallel
  nested_zero _ := parallel_nested_zero _
  nested_succ _ h := h.nested

end

end Reader

end ExternalTerm
