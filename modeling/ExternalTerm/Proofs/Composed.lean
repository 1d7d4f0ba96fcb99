import ExternalTerm.Proofs.Memory
import Mathlib.Data.List.Forall2

/-!
# Readers built from parts

`Composed m` says that `m` is built from the reads of a reader and `nested` alone. What such an
action does follows from what its parts do:

* `exactly_cases`, `run_cases`, `nested_cases` : how the parts end, and where;
* `Composed.steady` : it leaves the limits and the depth of the reader as they were;
* `Composed.ending` : on bytes in memory it ends after the first of them, whatever comes next, or it
  reads them all and reports a lack of data;
* `Composed.exists_reads` : what it gives from memory depends on the bytes it consumes only;
* `reads_bind_iff`, `reads_nested_iff`, `reads_repeated_iff` : what a sequence reads is what its
  parts read, one after the other.
-/

namespace ExternalTerm

def DecodeError.IsLack : DecodeError → Prop
  | .truncated .. | .bigIntegerLength .. | .missingNil none => True
  | _ => False

namespace Reader

/-- The action is built from these parts. Only the reads themselves find that the data ended early;
such an error may be renamed, as long as it still says so. -/
inductive Composed : {α : Type} → ReadM α → Prop
  | pure {α : Type} (a : α) : Composed (Pure.pure a)
  | throw {α : Type} {e : DecodeError} (h : ¬ e.IsLack) :
    Composed (MonadExcept.throw e : ReadM α)
  | bind {α β : Type} {m : ReadM α} {f : α → ReadM β} (hm : Composed m)
      (hf : ∀ a, Composed (f a)) : Composed (m >>= f)
  | ask {α : Type} {f : Limits → Nat → ReadM α} (h : ∀ L d, Composed (f L d)) :
      Composed fun r => f r.limits r.depth r
  | exactly (n : Nat) : Composed (Reader.exactly n)
  | run (n : Nat) : Composed (Reader.run n)
  | nested {α : Type} {m : ReadM α} (h : Composed m) : Composed (Reader.nested m)
  | rename {α : Type} {m : ReadM α} {g : DecodeError → DecodeError}
      (hg : ∀ e, g e = e ∨ e.IsLack ∧ (g e).IsLack) (h : Composed m) :
      Composed (EStateM.adaptExcept g m)

theorem adaptExcept_eq {α : Type} (g : DecodeError → DecodeError) (m : ReadM α) (r : Reader) :
    EStateM.adaptExcept g m r =
      match m r with
      | .ok a r => .ok a r
      | .error e r => .error (g e) r := by
  unfold EStateM.adaptExcept
  cases m r <;> rfl

/-! ## The reader after an action -/

def after {α : Type} (m : ReadM α) (r : Reader) : Reader :=
  match m r with
  | .ok _ r => r
  | .error _ r => r

section
variable {α β : Type} {m m' : ReadM α} {f f' : α → ReadM β} {r r' : Reader} {L : Limits} {d : Nat}

theorem after_ok {a : α} (h : m r = .ok a r') : after m r = r' := by rw [after, h]

theorem after_error {e : DecodeError} (h : m r = .error e r') : after m r = r' := by rw [after, h]

/-- The reader after reading on for `n` bytes, with all that was delivered counted. -/
def drawn (r : Reader) (n : Nat) : Reader :=
  { r with
    source := (r.source.pull n).2
    consumed := r.consumed + (r.source.pull n).1.bytes.length }

theorem exactly_cases (n : Nat) (r : Reader) :
    (∃ bytes, exactly n r = .ok bytes (r.drawn n)) ∨ ∃ e, exactly n r = .error e (r.drawn n) := by
  unfold Reader.exactly
  dsimp only
  by_cases hf : (r.source.pull n).1.failed = true
  · rw [if_pos hf]
    exact .inr ⟨_, rfl⟩
  rw [if_neg hf]
  by_cases hn : (r.source.pull n).1.bytes.length < n
  · rw [if_pos hn]
    exact .inr ⟨_, rfl⟩
  · rw [if_neg hn]
    exact .inl ⟨_, rfl⟩

/-- Reading a run, unlike a part of a fixed size, counts nothing when the source fails. -/
theorem run_cases (n : Nat) (r : Reader) :
    (∃ bytes, run n r = .ok bytes (r.drawn n)) ∨ (∃ e, run n r = .error e (r.drawn n)) ∨
      (∃ e, run n r = .error e r) ∨
      (r.source.pull n).1.failed = true ∧
        run n r = .error .sourceFailed { r with source := (r.source.pull n).2 } := by
  unfold Reader.run
  dsimp only
  by_cases hl : r.limits.maxPayload < n
  · rw [if_pos hl]
    exact .inr (.inr (.inl ⟨_, rfl⟩))
  rw [if_neg hl]
  by_cases hf : (r.source.pull n).1.failed = true
  · rw [if_pos hf]
    exact .inr (.inr (.inr ⟨hf, rfl⟩))
  rw [if_neg hf]
  by_cases hn : (r.source.pull n).1.bytes.length < n
  · rw [if_pos hn]
    exact .inr (.inl ⟨_, rfl⟩)
  · rw [if_neg hn]
    exact .inl ⟨_, rfl⟩

theorem nested_cases (m : ReadM α) (r : Reader) :
    nested m r = .error (.depthExceeded r.limits.maxDepth) r ∨
      (∃ a r', m { r with depth := r.depth + 1 } = .ok a r' ∧
        nested m r = .ok a { r' with depth := r'.depth - 1 }) ∨
      ∃ e r', m { r with depth := r.depth + 1 } = .error e r' ∧
        nested m r = .error e { r' with depth := r'.depth - 1 } := by
  unfold Reader.nested
  by_cases hd : r.limits.maxDepth ≤ r.depth
  · rw [if_pos hd]
    exact .inl rfl
  rw [if_neg hd]
  cases hm : m { r with depth := r.depth + 1 } with
  | ok a r' => exact .inr (.inl ⟨a, r', rfl, rfl⟩)
  | error e r' => exact .inr (.inr ⟨e, r', rfl, rfl⟩)

theorem after_map (m : ReadM α) (g : α → β) (r : Reader) :
    after (m >>= fun a => pure (g a)) r = after m r := by
  cases hm : m r with
  | ok a r' => rw [after_ok hm, after, bind_ok hm]; rfl
  | error e r' => rw [after_error hm, after_error (bind_error hm)]

theorem after_nested (m : ReadM α) (r : Reader) :
    after (nested m) r =
      if r.limits.maxDepth ≤ r.depth then r
      else
        let last := after m { r with depth := r.depth + 1 }
        { last with depth := last.depth - 1 } := by
  unfold after Reader.nested
  by_cases hd : r.limits.maxDepth ≤ r.depth
  · rw [if_pos hd, if_pos hd]
  · rw [if_neg hd, if_neg hd]
    cases m { r with depth := r.depth + 1 } <;> rfl

/-- Both readers allow as much: their limits and their depths are the same. -/
def Alike (r r' : Reader) : Prop := r'.limits = r.limits ∧ r'.depth = r.depth

theorem Alike.refl (r : Reader) : Alike r r := ⟨rfl, rfl⟩

theorem Alike.trans {r₁ r₂ r₃ : Reader} (h : Alike r₁ r₂) (h' : Alike r₂ r₃) : Alike r₁ r₃ :=
  ⟨h'.1.trans h.1, h'.2.trans h.2⟩

theorem Alike.leave (h : Alike { r with depth := r.depth + 1 } r') :
    Alike r { r' with depth := r'.depth - 1 } := ⟨h.1, congrArg (· - 1) h.2⟩

theorem exactly_steady (n : Nat) (r : Reader) : Alike r (after (exactly n) r) := by
  obtain ⟨bytes, h⟩ | ⟨e, h⟩ := exactly_cases n r
  · rw [after_ok h]
    exact .refl r
  · rw [after_error h]
    exact .refl r

theorem run_steady (n : Nat) (r : Reader) : Alike r (after (run n) r) := by
  obtain ⟨bytes, h⟩ | ⟨e, h⟩ | ⟨e, h⟩ | ⟨-, h⟩ := run_cases n r
  · rw [after_ok h]
    exact .refl r
  all_goals
    rw [after_error h]
    exact .refl r

theorem nested_steady (h : ∀ r, Alike r (after m r)) (r : Reader) :
    Alike r (after (nested m) r) := by
  rw [after_nested]
  split
  · exact .refl r
  · exact (h { r with depth := r.depth + 1 }).leave

theorem Composed.steady (h : Composed m) (r : Reader) : Alike r (after m r) := by
  induction h generalizing r with
  | pure a => exact .refl r
  | throw e => exact .refl r
  | @bind α β m f _ _ ihm ihf =>
    have hr := ihm r
    cases hm : m r with
    | ok a r₁ =>
      rw [after_ok hm] at hr
      rw [after, bind_ok hm]
      exact hr.trans (ihf a r₁)
    | error e r₁ =>
      rw [after_error hm] at hr
      rwa [after_error (bind_error hm)]
  | ask _ ih => exact ih r.limits r.depth r
  | exactly n => exact exactly_steady n r
  | run n => exact run_steady n r
  | nested _ ih => exact nested_steady ih r
  | @rename α m g _ _ ih =>
    have hr := ih r
    unfold after at hr ⊢
    rw [adaptExcept_eq]
    cases hm : m r <;> rwa [hm] at hr

/-! ## Sequences -/

theorem repeatOnto_eq (m : ReadM α) (n : Nat) (got : List α) :
    repeatOnto m n got = (fun as => got.reverse ++ as) <$> repeated n m := by
  induction n generalizing got with
  | zero => simp [repeated, repeatOnto]
  | succ n ih =>
    simp only [repeated, repeatOnto, map_bind]
    congr
    funext a
    rw [ih, ih [a], Functor.map_map]
    simp

theorem repeated_zero (m : ReadM α) : repeated 0 m = pure [] := rfl

theorem repeated_succ (m : ReadM α) (n : Nat) :
    repeated (n + 1) m = m >>= fun a => repeated n m >>= fun as => pure (a :: as) := by
  rw [repeated, repeatOnto]
  congr
  funext a
  rw [repeatOnto_eq, map_eq_pure_bind]
  rfl

theorem Composed.repeated (h : Composed m) (n : Nat) : Composed (repeated n m) := by
  induction n with
  | zero => exact .pure _
  | succ n ih =>
    rw [repeated_succ]
    exact h.bind fun a => ih.bind fun as => .pure _

theorem gives_repeated {τ : Type} {E : DecodeError → Prop} {enc : τ → List UInt8}
    {v : τ → Option α} {ts : List τ} (h : ∀ t ∈ ts, Gives E m L d (enc t) (v t)) :
    Gives E (Reader.repeated ts.length m) L d (ts.flatMap enc) (ts.mapM v) := by
  induction ts with
  | nil => exact Gives.pure []
  | cons t ts ih =>
    obtain ⟨ht, hts⟩ := List.forall_mem_cons.1 h
    rw [List.length_cons, repeated_succ, List.flatMap_cons, List.mapM_cons]
    refine ht.bind fun a _ => ?_
    have h := (ih hts).map (a :: ·)
    rwa [Option.map_eq_bind] at h

/-! ## Actions that agree where a reader allows as much -/

def Agree (m m' : ReadM α) (L : Limits) (d : Nat) : Prop :=
  ∀ r : Reader, r.limits = L → r.depth = d → m r = m' r

theorem Agree.refl (m : ReadM α) : Agree m m L d := fun _ _ _ => rfl

theorem Agree.bind (h : Agree m m' L d) (hm : Composed m) (hf : ∀ a, Agree (f a) (f' a) L d) :
    Agree (m >>= f) (m' >>= f') L d := by
  rintro r rfl rfl
  have hr := h r rfl rfl
  cases hm' : m r with
  | ok a r₁ =>
    have hs := hm.steady r
    rw [after_ok hm'] at hs
    rw [bind_ok hm', bind_ok (hr.symm.trans hm')]
    exact hf a r₁ hs.1 hs.2
  | error e r₁ => rw [bind_error hm', bind_error (hr.symm.trans hm')]

theorem Agree.nested (h : d < L.maxDepth → Agree m m' L (d + 1)) :
    Agree (nested m) (nested m') L d := by
  rintro r rfl rfl
  unfold Reader.nested
  by_cases hd : r.limits.maxDepth ≤ r.depth
  · rw [if_pos hd, if_pos hd]
  · rw [if_neg hd, if_neg hd, h (Nat.lt_of_not_le hd) { r with depth := r.depth + 1 } rfl rfl]

theorem Agree.repeated (h : Agree m m' L d) (hm : Composed m) (n : Nat) :
    Agree (repeated n m) (repeated n m') L d := by
  induction n with
  | zero => exact .refl _
  | succ n ih =>
    rw [repeated_succ, repeated_succ]
    exact h.bind hm fun a => ih.bind (hm.repeated n) fun as => .refl _

end

/-! ## How composed actions end on bytes in memory -/

/-- Where `data` comes next, and then bytes of which `more` holds, `m` reads exactly `data` and ends
with the error `e`. -/
def Stops {α : Type} (more : List UInt8 → Prop) (m : ReadM α) (L : Limits) (d : Nat)
    (data : List UInt8) (e : DecodeError) : Prop :=
  ∀ p rest, more rest →
    m (memory L d p (data ++ rest)) = .error e (memory L d (p + data.length) rest)

/-- How the action ends on these bytes: with a result or an error after the first of them, whatever
comes next, or, if nothing does, for a lack of more of them. -/
inductive Ending {α : Type} (m : ReadM α) (L : Limits) (d : Nat) (bytes : List UInt8) : Prop
  | reads {data rest : List UInt8} {a : α} (hb : bytes = data ++ rest) (h : Reads m L d data a)
  | stops {data rest : List UInt8} {e : DecodeError} (hb : bytes = data ++ rest)
      (he : ¬ e.IsLack) (h : Stops (fun _ => True) m L d data e)
  | lacks {e : DecodeError} (he : e.IsLack) (h : Stops (· = []) m L d bytes e)

section
variable {α β : Type} {m : ReadM α} {f : α → ReadM β} {L : Limits} {d : Nat}
  {x y data bytes : List UInt8} {a : α} {e : DecodeError} {more : List UInt8 → Prop}

theorem Stops.bind (h : Stops more m L d data e) : Stops more (m >>= f) L d data e :=
  fun p rest hr => bind_error (h p rest hr)

theorem Reads.bind_stops (hm : Reads m L d x a) (hf : Stops more (f a) L d y e) :
    Stops more (m >>= f) L d (x ++ y) e := by
  intro p rest hr
  rw [List.append_assoc, bind_ok (hm p (y ++ rest)), hf _ rest hr, List.length_append,
    Nat.add_assoc]

theorem Stops.nested (hd : d < L.maxDepth) (h : Stops more m L (d + 1) data e) :
    Stops more (Reader.nested m) L d data e := by
  intro p rest hr
  rw [nested_memory, if_neg (Nat.not_le.2 hd), h p rest hr]
  rfl

theorem Stops.rename (h : Stops more m L d data e) (g : DecodeError → DecodeError) :
    Stops more (EStateM.adaptExcept g m) L d data (g e) := by
  intro p rest hr
  rw [adaptExcept_eq, h p rest hr]

/-! Limits are checked before anything is read. -/

theorem stops_run {n : Nat} (h : L.maxPayload < n) :
    Stops more (run n) L d [] (.limitExceeded .byteRun n L.maxPayload) := by
  intro p rest _
  rw [run_memory, if_pos h]
  rfl

theorem stops_checkElements {what : Kind} {n : Nat} (h : L.maxElements < n) :
    Stops more (checkElements what n) L d [] (.limitExceeded what n L.maxElements) := by
  intro p rest _
  rw [checkElements_memory, if_pos h]
  rfl

theorem stops_nested (h : L.maxDepth ≤ d) :
    Stops more (nested m) L d [] (.depthExceeded L.maxDepth) := by
  intro p rest _
  rw [nested_memory, if_pos h]
  rfl

/-! Each action ends in one of the three ways. -/

theorem ending_exactly (n : Nat) : Ending (exactly n) L d bytes := by
  by_cases hn : bytes.length < n
  · refine .lacks (e := .truncated n bytes.length) trivial ?_
    rintro p _ rfl
    rw [List.append_nil, exactly_memory, if_pos hn]
  · exact .reads (List.take_append_drop n bytes).symm
      (reads_exactly (List.length_take_of_le (Nat.le_of_not_lt hn)))

theorem ending_run (n : Nat) : Ending (run n) L d bytes := by
  by_cases hl : L.maxPayload < n
  · exact .stops (e := .limitExceeded .byteRun n L.maxPayload) (List.nil_append bytes).symm
      not_false (stops_run hl)
  have hle := Nat.le_of_not_lt hl
  by_cases hn : bytes.length < n
  · refine .lacks (e := .truncated n bytes.length) trivial ?_
    rintro p _ rfl
    rw [List.append_nil, run_memory_of_le hle, exactly_memory, if_pos hn]
  · exact .reads (List.take_append_drop n bytes).symm
      (reads_run (List.length_take_of_le (Nat.le_of_not_lt hn)) hle)

theorem ending_bind (hm : Ending m L d bytes) (hf : ∀ a rest, Ending (f a) L d rest) :
    Ending (m >>= f) L d bytes := by
  cases hm with
  | stops hb he h => exact .stops hb he h.bind
  | lacks he h => exact .lacks he h.bind
  | @reads x rest a hb h =>
    subst hb
    cases hf a rest with
    | reads hb h' => exact .reads (by rw [hb, List.append_assoc]) (h.bind h')
    | stops hb he h' => exact .stops (by rw [hb, List.append_assoc]) he (h.bind_stops h')
    | lacks he h' => exact .lacks he (h.bind_stops h')

theorem ending_nested (hm : Ending m L (d + 1) bytes) : Ending (nested m) L d bytes := by
  by_cases hd : L.maxDepth ≤ d
  · exact .stops (e := .depthExceeded L.maxDepth) (List.nil_append bytes).symm not_false
      (stops_nested hd)
  have hlt := Nat.lt_of_not_le hd
  cases hm with
  | reads hb h => exact .reads hb (h.nested hlt)
  | stops hb he h => exact .stops hb he (h.nested hlt)
  | lacks he h => exact .lacks he (h.nested hlt)

/-- A renaming that keeps a lack a lack turns nothing else into one. -/
theorem isLack_rename_iff {g : DecodeError → DecodeError}
    (hg : ∀ e, g e = e ∨ e.IsLack ∧ (g e).IsLack) (e : DecodeError) :
    (g e).IsLack ↔ e.IsLack := by
  rcases hg e with h | ⟨h, h'⟩
  · rw [h]
  · exact iff_of_true h' h

theorem ending_rename (hm : Ending m L d bytes) {g : DecodeError → DecodeError}
    (hg : ∀ e, g e = e ∨ e.IsLack ∧ (g e).IsLack) :
    Ending (EStateM.adaptExcept g m) L d bytes := by
  cases hm with
  | reads hb h => exact .reads hb (h.rename g)
  | stops hb he h => exact .stops hb (mt (isLack_rename_iff hg _).1 he) (h.rename g)
  | lacks he h => exact .lacks ((isLack_rename_iff hg _).2 he) (h.rename g)

theorem Composed.ending (h : Composed m) (L : Limits) (d : Nat) (bytes : List UInt8) :
    Ending m L d bytes := by
  induction h generalizing L d bytes with
  | pure a => exact .reads (List.nil_append bytes).symm (Reads.pure a)
  | throw he => exact .stops (List.nil_append bytes).symm he fun _ _ _ => rfl
  | bind _ _ ihm ihf => exact ending_bind (ihm L d bytes) fun a rest => ihf a L d rest
  | ask _ ih =>
    cases ih L d L d bytes with
    | reads hb h => exact .reads hb h
    | stops hb he h => exact .stops hb he h
    | lacks he h => exact .lacks he h
  | exactly n => exact ending_exactly n
  | run n => exact ending_run n
  | nested _ ih => exact ending_nested (ih L (d + 1) bytes)
  | rename hg _ ih => exact ending_rename (ih L d bytes) hg

end

/-! ## What composed actions read from memory -/

section
variable {α β : Type} {m : ReadM α} {f : α → ReadM β} {r : Reader} {L : Limits} {d p : Nat}
  {bytes data : List UInt8} {a : α} {b : β}

/-- What an action gives depends on the bytes it consumes only. -/
theorem Composed.exists_reads (h : Composed m) (hr : m (memory L d p bytes) = .ok a r) :
    ∃ data rest, bytes = data ++ rest ∧ r = memory L d (p + data.length) rest ∧
      Reads m L d data a := by
  cases h.ending L d bytes with
  | @reads data rest a' hb h =>
    rw [hb, h p rest] at hr
    cases hr
    exact ⟨data, rest, hb, rfl, h⟩
  | @stops data rest e hb _ h =>
    rw [hb, h p rest trivial] at hr
    cases hr
  | lacks _ h =>
    have h' := h p [] rfl
    rw [List.append_nil, hr] at h'
    cases h'

/-! ## The bytes a sequence reads -/

theorem Composed.reads_iff (h : Composed m) :
    Reads m L d data a ↔ m (memory L d 0 data) = .ok a (memory L d data.length []) := by
  refine ⟨fun hr => ?_, fun hr => ?_⟩
  · have := hr 0 []
    rwa [List.append_nil, Nat.zero_add] at this
  · obtain ⟨x, rest, rfl, hmem, hx⟩ := h.exists_reads hr
    obtain rfl := (memory_inj.1 hmem).2
    rwa [List.append_nil]

/-- What a composed action gives on a new reader. -/
theorem Composed.ok_iff (h : Composed m) :
    m (fresh L bytes) = .ok a r ↔
      ∃ data rest, bytes = data ++ rest ∧ Reads m L 0 data a ∧ r = memory L 0 data.length rest := by
  refine ⟨fun hr => ?_, fun hr => ?_⟩
  · obtain ⟨data, rest, hb, hmem, hreads⟩ := h.exists_reads (p := 0) hr
    rw [Nat.zero_add] at hmem
    exact ⟨data, rest, hb, hreads, hmem⟩
  · obtain ⟨data, rest, rfl, hreads, rfl⟩ := hr
    have := hreads 0 rest
    rwa [Nat.zero_add] at this

theorem reads_pure_iff {a' : α} : Reads (pure a) L d data a' ↔ data = [] ∧ a' = a := by
  rw [(Composed.pure a).reads_iff]
  refine ⟨fun h => ?_, fun h => ?_⟩
  · cases data with
    | nil => cases h; exact ⟨rfl, rfl⟩
    | cons b data => cases h
  · obtain ⟨rfl, rfl⟩ := h
    rfl

theorem not_reads_throw {e : DecodeError} : ¬ Reads (throw e : ReadM α) L d data a := fun h => by
  cases h 0 []

theorem reads_bind_iff (hm : Composed m) (hf : ∀ a, Composed (f a)) :
    Reads (m >>= f) L d data b ↔
      ∃ x a y, data = x ++ y ∧ Reads m L d x a ∧ Reads (f a) L d y b := by
  refine ⟨fun h => ?_, fun h => ?_⟩
  · obtain ⟨a, r, h₁, h₂⟩ := bind_eq_ok_iff.1 ((hm.bind hf).reads_iff.1 h)
    obtain ⟨x, rest, rfl, rfl, hx⟩ := hm.exists_reads h₁
    obtain ⟨y, rest, rfl, hmem, hy⟩ := (hf a).exists_reads h₂
    obtain rfl := (memory_inj.1 hmem).2
    exact ⟨x, a, y, by rw [List.append_nil], hx, hy⟩
  · obtain ⟨x, a, y, rfl, hx, hy⟩ := h
    exact hx.bind hy

theorem reads_exactly_iff {n : Nat} {got : List UInt8} :
    Reads (exactly n) L d data got ↔ got = data ∧ data.length = n := by
  refine ⟨fun h => ?_, fun h => ?_⟩
  · have h₀ := (Composed.exactly n).reads_iff.1 h
    rw [exactly_memory] at h₀
    split at h₀
    · cases h₀
    · injection h₀ with hgot hmem
      have hn : data.length = n := by rw [← (memory_inj.1 hmem).1, Nat.zero_add]
      rw [← hgot, List.take_of_length_le (Nat.le_of_eq hn)]
      exact ⟨rfl, hn⟩
  · obtain ⟨rfl, h⟩ := h
    exact reads_exactly h

theorem reads_run_iff {n : Nat} {got : List UInt8} :
    Reads (run n) L d data got ↔ got = data ∧ data.length = n ∧ n ≤ L.maxPayload := by
  refine ⟨fun h => ?_, fun h => ?_⟩
  · by_cases hl : L.maxPayload < n
    · have h₀ := h 0 []
      rw [run_memory, if_pos hl] at h₀
      cases h₀
    have hle := Nat.le_of_not_lt hl
    have hx : Reads (exactly n) L d data got := fun p rest => by
      rw [← run_memory_of_le hle, h p rest]
    obtain ⟨rfl, hn⟩ := reads_exactly_iff.1 hx
    exact ⟨rfl, hn, hle⟩
  · obtain ⟨rfl, h, hl⟩ := h
    exact reads_run h hl

theorem nested_ok (h : nested m (memory L d p bytes) = .ok a r) :
    d < L.maxDepth ∧ ∃ r', m (memory L (d + 1) p bytes) = .ok a r' ∧
      r = { r' with depth := r'.depth - 1 } := by
  rw [nested_memory] at h
  split at h
  · cases h
  next hd =>
  cases hm : m (memory L (d + 1) p bytes) with
  | ok a' r' =>
    rw [hm] at h
    cases h
    exact ⟨Nat.lt_of_not_le hd, r', rfl, rfl⟩
  | error e r' =>
    rw [hm] at h
    cases h

theorem reads_nested_iff (hm : Composed m) :
    Reads (nested m) L d data a ↔ d < L.maxDepth ∧ Reads m L (d + 1) data a := by
  refine ⟨fun h => ?_, fun h => ?_⟩
  · obtain ⟨hd, r, h₁, h₂⟩ := nested_ok (hm.nested.reads_iff.1 h)
    obtain ⟨x, rest, rfl, rfl, hx⟩ := hm.exists_reads h₁
    obtain ⟨-, rfl⟩ := (memory_inj (d := d)).1 h₂
    rw [List.append_nil]
    exact ⟨hd, hx⟩
  · obtain ⟨hd, h⟩ := h
    exact h.nested hd

theorem reads_rename_iff (g : DecodeError → DecodeError) (hm : Composed m) :
    Reads (EStateM.adaptExcept g m) L d data a ↔ Reads m L d data a := by
  refine ⟨fun h => hm.reads_iff.2 ?_, fun h => h.rename g⟩
  have h' := h 0 []
  rw [List.append_nil, Nat.zero_add, adaptExcept_eq] at h'
  cases hr : m (memory L d 0 data) with
  | ok a' r => rwa [hr] at h'
  | error e r =>
    rw [hr] at h'
    cases h'

theorem reads_repeated_iff (hm : Composed m) {n : Nat} {as : List α} :
    Reads (repeated n m) L d data as ↔
      as.length = n ∧ ∃ parts, data = List.flatten parts ∧ List.Forall₂ (Reads m L d) parts as := by
  induction n generalizing data as with
  | zero =>
    rw [repeated_zero, reads_pure_iff]
    refine ⟨fun h => ?_, fun h => ?_⟩
    · obtain ⟨rfl, rfl⟩ := h
      exact ⟨rfl, [], rfl, .nil⟩
    · obtain ⟨hlen, parts, rfl, h⟩ := h
      obtain rfl := List.eq_nil_of_length_eq_zero hlen
      cases h
      exact ⟨rfl, rfl⟩
  | succ n ih =>
    rw [repeated_succ, reads_bind_iff hm fun a => (hm.repeated n).bind fun as => .pure _]
    simp only [reads_bind_iff (hm.repeated n) fun as => .pure _, reads_pure_iff, ih]
    refine ⟨fun h => ?_, fun h => ?_⟩
    · obtain ⟨x, a, y, rfl, hx, _, as, _, rfl, ⟨rfl, parts, rfl, h⟩, rfl, rfl⟩ := h
      exact ⟨rfl, x :: parts, by simp, .cons hx h⟩
    · obtain ⟨hlen, parts, rfl, h⟩ := h
      cases h with
      | nil => cases hlen
      | @cons x a parts as hx h =>
        exact ⟨x, a, parts.flatten, rfl, hx, _, as, [], (List.append_nil _).symm,
          ⟨Nat.succ.inj hlen, parts, rfl, h⟩, rfl, rfl⟩

theorem stops_repeated {more : List UInt8 → Prop} {x y : List UInt8} {e : DecodeError} {n : Nat}
    {as : List α} (hm : Composed m) (hx : Reads (repeated as.length m) L d x as)
    (hn : as.length < n) (hy : Stops more m L d y e) :
    Stops more (repeated n m) L d (x ++ y) e := by
  induction as generalizing n x with
  | nil =>
    obtain ⟨rfl, -⟩ := reads_pure_iff.1 hx
    obtain ⟨n, rfl⟩ := Nat.exists_eq_succ_of_ne_zero (Nat.ne_of_gt hn)
    rw [repeated_succ]
    exact hy.bind
  | cons a as ih =>
    obtain ⟨n, rfl⟩ := Nat.exists_eq_succ_of_ne_zero (Nat.ne_of_gt (Nat.zero_lt_of_lt hn))
    obtain ⟨-, parts, rfl, h⟩ := (reads_repeated_iff hm).1 hx
    cases h with
    | cons ha has =>
      have hrest := (reads_repeated_iff hm).2 ⟨rfl, _, rfl, has⟩
      rw [repeated_succ, List.flatten_cons, List.append_assoc]
      exact ha.bind_stops (ih hrest (Nat.lt_of_succ_lt_succ hn)).bind

end

end Reader

end ExternalTerm
