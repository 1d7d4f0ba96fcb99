import ExternalTerm.Proofs.Action
import ExternalTerm.Reader.Basic

/-!
# Reading bytes in memory

`memory L d p bytes` reads `bytes`, which begin at position `p`, inside `d` tuples and lists.

* `Reads m L d data a` : wherever `data` comes next, `m` reads exactly `data` and gives `a`;
* `Fails E m L d data` : wherever `data` comes next, `m` ends with an error of which `E` holds.

* `Gives E m L d data o` : the one or the other, as `o` says.

All are stated for any bytes after `data`, so that they compose along sequences.
-/

namespace ExternalTerm.Reader

def memory (L : Limits) (d p : Nat) (bytes : List UInt8) : Reader where
  source := { pending := bytes, delivered := p }
  limits := L
  depth := d
  consumed := p

def fresh (L : Limits) (bytes : List UInt8) : Reader := { source := .ofBytes bytes, limits := L }

theorem memory_inj {L : Limits} {d p p' : Nat} {b b' : List UInt8} :
    memory L d p b = memory L d p' b' ↔ p = p' ∧ b = b' := by
  refine ⟨fun h => ?_, fun h => ?_⟩
  · exact ⟨congrArg Reader.consumed h, congrArg (fun r => r.source.pending) h⟩
  · obtain ⟨rfl, rfl⟩ := h
    rfl

/-- What was consumed are the bytes before those that are left. -/
theorem take_consumed (L : Limits) (d : Nat) (data rest : List UInt8) :
    (data ++ rest).take (memory L d data.length rest).consumed = data := List.take_left

/-! ## The reads of a source in memory -/

theorem read_memory (p want : Nat) (bytes : List UInt8) :
    Source.read { pending := bytes, delivered := p } want =
      (.data (bytes.take want),
        { pending := bytes.drop want, delivered := p + (bytes.take want).length }) := by
  have h : Source.allowance { pending := bytes, delivered := p } want = want := by
    simp [Source.allowance]
  simp [Source.read, Source.exhausted, h]

theorem pull_memory (p want : Nat) (bytes : List UInt8) :
    Source.pull { pending := bytes, delivered := p } want =
      (⟨bytes.take want, false⟩,
        { pending := bytes.drop want, delivered := p + (bytes.take want).length }) := by
  unfold Source.pull
  cases want with
  | zero => simp [Source.pullWithin]
  | succ n =>
    rw [Nat.mul_succ, Source.pullWithin, if_neg (Nat.succ_ne_zero n), read_memory]
    cases bytes with
    | nil => rfl
    | cons b bytes =>
      rw [List.take_succ_cons, List.drop_succ_cons]
      dsimp only
      rw [Source.pullWithin]
      split
      next => simp
      next h =>
        rw [read_memory]
        have hle : bytes.length ≤ n := by
          simp only [List.length_cons, List.length_take] at h
          omega
        rw [List.drop_eq_nil_of_le hle, List.take_nil]
        simp

theorem exactly_memory (n : Nat) (L : Limits) (d p : Nat) (bytes : List UInt8) :
    exactly n (memory L d p bytes) =
      if bytes.length < n then
        .error (.truncated n bytes.length) (memory L d (p + bytes.length) [])
      else
        .ok (bytes.take n) (memory L d (p + n) (bytes.drop n)) := by
  simp only [exactly, memory, pull_memory]
  rw [List.length_take, if_neg Bool.false_ne_true]
  by_cases h : bytes.length < n
  · rw [if_pos h, if_pos (by omega), Nat.min_eq_right (by omega),
      List.drop_eq_nil_of_le (by omega)]
  · rw [if_neg h, if_neg (by omega), Nat.min_eq_left (by omega)]

theorem run_memory (n : Nat) (L : Limits) (d p : Nat) (bytes : List UInt8) :
    run n (memory L d p bytes) =
      if L.maxPayload < n then
        .error (.limitExceeded .byteRun n L.maxPayload) (memory L d p bytes)
      else if bytes.length < n then
        .error (.truncated n bytes.length) (memory L d (p + bytes.length) [])
      else
        .ok (bytes.take n) (memory L d (p + n) (bytes.drop n)) := by
  simp only [run, memory, pull_memory]
  rw [List.length_take, if_neg Bool.false_ne_true]
  split
  · rfl
  · by_cases h : bytes.length < n
    · rw [if_pos h, if_pos (by omega), Nat.min_eq_right (by omega),
        List.drop_eq_nil_of_le (by omega)]
    · rw [if_neg h, if_neg (by omega), Nat.min_eq_left (by omega)]

/-- Within the limit a run is read as a part of a fixed size is. -/
theorem run_memory_of_le {n : Nat} {L : Limits} (hl : n ≤ L.maxPayload) (d p : Nat)
    (bytes : List UInt8) : run n (memory L d p bytes) = exactly n (memory L d p bytes) := by
  rw [run_memory, if_neg (Nat.not_lt.2 hl), exactly_memory]

theorem nested_memory {α : Type} (m : ReadM α) (L : Limits) (d p : Nat) (bytes : List UInt8) :
    nested m (memory L d p bytes) =
      if L.maxDepth ≤ d then
        .error (.depthExceeded L.maxDepth) (memory L d p bytes)
      else
        match m (memory L (d + 1) p bytes) with
        | .ok a r => .ok a { r with depth := r.depth - 1 }
        | .error e r => .error e { r with depth := r.depth - 1 } := rfl

theorem checkElements_memory (what : Kind) (n : Nat) (L : Limits) (d p : Nat)
    (bytes : List UInt8) :
    checkElements what n (memory L d p bytes) =
      if L.maxElements < n then
        .error (.limitExceeded what n L.maxElements) (memory L d p bytes)
      else
        .ok () (memory L d p bytes) := by
  change (if L.maxElements < n then throw (.limitExceeded what n L.maxElements) else pure () :
    ReadM Unit) (memory L d p bytes) = _
  split <;> rfl

/-! ## Reading and failing -/

/-- Where `data` comes next, `m` reads exactly `data` and gives `a`. -/
def Reads {α : Type} (m : ReadM α) (L : Limits) (d : Nat) (data : List UInt8) (a : α) : Prop :=
  ∀ p rest, m (memory L d p (data ++ rest)) = .ok a (memory L d (p + data.length) rest)

/-- Where `data` comes next, `m` ends with an error of which `E` holds. -/
def Fails {α : Type} (E : DecodeError → Prop) (m : ReadM α) (L : Limits) (d : Nat)
    (data : List UInt8) : Prop :=
  ∀ p rest, ∃ e r, m (memory L d p (data ++ rest)) = .error e r ∧ E e

section
variable {α β : Type} {m : ReadM α} {f : α → ReadM β} {L : Limits} {d : Nat}
  {E : DecodeError → Prop} {x y data : List UInt8} {a : α} {b : β}

theorem Reads.pure (a : α) : Reads (Pure.pure a) L d [] a := fun _ _ => rfl

theorem Reads.bind (hm : Reads m L d x a) (hf : Reads (f a) L d y b) :
    Reads (m >>= f) L d (x ++ y) b := by
  intro p rest
  rw [List.append_assoc, bind_ok (hm p (y ++ rest)), hf, List.length_append, Nat.add_assoc]

theorem Fails.append (h : Fails E m L d x) (y : List UInt8) : Fails E m L d (x ++ y) := by
  intro p rest
  rw [List.append_assoc]
  exact h p (y ++ rest)

theorem Fails.bind (h : Fails E m L d data) : Fails E (m >>= f) L d data := by
  intro p rest
  obtain ⟨e, r, he, hE⟩ := h p rest
  exact ⟨e, r, bind_error he, hE⟩

theorem Reads.bind_fails (hm : Reads m L d x a) (hf : Fails E (f a) L d y) :
    Fails E (m >>= f) L d (x ++ y) := by
  intro p rest
  obtain ⟨e, r, he, hE⟩ := hf (p + x.length) rest
  refine ⟨e, r, ?_, hE⟩
  rw [List.append_assoc, bind_ok (hm p (y ++ rest)), he]

theorem Fails.imp {E' : DecodeError → Prop} (h : Fails E m L d data) (hE : ∀ e, E e → E' e) :
    Fails E' m L d data := by
  intro p rest
  obtain ⟨e, r, he, hE'⟩ := h p rest
  exact ⟨e, r, he, hE e hE'⟩

theorem Reads.rename (h : Reads m L d data a) (g : DecodeError → DecodeError) :
    Reads (EStateM.adaptExcept g m) L d data a := by
  intro p rest
  rw [EStateM.adaptExcept, h p rest]

theorem Fails.rename (h : Fails E m L d data) {g : DecodeError → DecodeError}
    (hg : ∀ e, E e → E (g e)) : Fails E (EStateM.adaptExcept g m) L d data := by
  intro p rest
  obtain ⟨e, r, he, hE⟩ := h p rest
  refine ⟨g e, r, ?_, hg e hE⟩
  rw [EStateM.adaptExcept, he]

theorem fails_throw {e : DecodeError} (h : E e) : Fails E (throw e : ReadM α) L d data :=
  fun _ _ => ⟨e, _, rfl, h⟩

/-! ## The steps -/

theorem reads_exactly {n : Nat} (h : data.length = n) : Reads (exactly n) L d data data := by
  intro p rest
  rw [exactly_memory, if_neg (by simp; omega), ← h, List.take_left, List.drop_left]

theorem reads_run {n : Nat} (h : data.length = n) (hn : n ≤ L.maxPayload) :
    Reads (run n) L d data data := by
  intro p rest
  rw [run_memory_of_le hn]
  exact reads_exactly h p rest

theorem fails_run {n : Nat} (hn : L.maxPayload < n)
    (hE : E (.limitExceeded .byteRun n L.maxPayload)) : Fails E (run n) L d data := by
  intro p rest
  rw [run_memory, if_pos hn]
  exact ⟨_, _, rfl, hE⟩

theorem reads_checkElements {what : Kind} {n : Nat} (h : n ≤ L.maxElements) :
    Reads (checkElements what n) L d [] () := by
  intro p rest
  rw [checkElements_memory, if_neg (by omega)]
  rfl

theorem fails_checkElements {what : Kind} {n : Nat} (h : L.maxElements < n)
    (hE : E (.limitExceeded what n L.maxElements)) :
    Fails E (checkElements what n) L d data := by
  intro p rest
  rw [checkElements_memory, if_pos h]
  exact ⟨_, _, rfl, hE⟩

theorem Reads.nested (hd : d < L.maxDepth) (h : Reads m L (d + 1) data a) :
    Reads (Reader.nested m) L d data a := by
  intro p rest
  rw [nested_memory, if_neg (Nat.not_le.2 hd), h p rest]
  rfl

theorem fails_nested (hd : L.maxDepth ≤ d) (hE : E (.depthExceeded L.maxDepth)) :
    Fails E (Reader.nested m) L d data := by
  intro p rest
  exact ⟨_, _, if_pos hd, hE⟩

theorem Fails.nested (h : Fails E m L (d + 1) data) (hd : d < L.maxDepth) :
    Fails E (Reader.nested m) L d data := by
  intro p rest
  obtain ⟨e, r, he, hE⟩ := h p rest
  refine ⟨e, { r with depth := r.depth - 1 }, ?_, hE⟩
  rw [nested_memory, if_neg (Nat.not_le.2 hd), he]

/-! ## Either -/

/-- Where `data` comes next, `m` gives what `o` holds, or fails if there is nothing. -/
def Gives (E : DecodeError → Prop) (m : ReadM α) (L : Limits) (d : Nat) (data : List UInt8) :
    Option α → Prop
  | some a => Reads m L d data a
  | none => Fails E m L d data

theorem Gives.pure (a : α) : Gives E (Pure.pure a) L d [] (some a) := Reads.pure a

theorem Gives.bind {o : Option α} {g : α → Option β} (hm : Gives E m L d x o)
    (hf : ∀ a, o = some a → Gives E (f a) L d y (g a)) :
    Gives E (m >>= f) L d (x ++ y) (o.bind g) := by
  cases o with
  | none => exact (Fails.bind hm).append y
  | some a =>
    have h := hf a rfl
    rw [Option.bind_some]
    cases hg : g a with
    | none =>
      rw [hg] at h
      exact Reads.bind_fails hm h
    | some b =>
      rw [hg] at h
      exact Reads.bind hm h

theorem Reads.gives_bind {o : Option β} (hm : Reads m L d x a) (hf : Gives E (f a) L d y o) :
    Gives E (m >>= f) L d (x ++ y) o :=
  Gives.bind (o := some a) (g := fun _ => o) hm fun _ ha => Option.some.inj ha ▸ hf

theorem Gives.map {o : Option α} (hm : Gives E m L d data o) (g : α → β) :
    Gives E (m >>= fun a => Pure.pure (g a)) L d data (o.map g) := by
  have h := hm.bind (f := fun a => Pure.pure (g a)) fun a _ => Gives.pure (E := E) (g a)
  rw [List.append_nil] at h
  rw [Option.map_eq_bind]
  exact h

theorem Gives.bind_ite {c c' : Prop} [Decidable c] [Decidable c']
    (hm : Gives E m L d x (if c then some a else none))
    (hf : c → Gives E (f a) L d y (if c' then some b else none)) :
    Gives E (m >>= f) L d (x ++ y) (if c ∧ c' then some b else none) := by
  by_cases hc : c
  · rw [if_pos hc] at hm
    have h := hm.bind (g := fun _ => if c' then some b else none) fun _ ha =>
      Option.some.inj ha ▸ hf hc
    simp only [hc, true_and]
    exact h
  · rw [if_neg hc] at hm
    rw [if_neg fun h => hc h.1]
    exact (Fails.bind hm).append y

theorem Gives.nested {o : Option α} (hd : d < L.maxDepth) (h : Gives E m L (d + 1) data o) :
    Gives E (Reader.nested m) L d data o := by
  cases o with
  | none => exact Fails.nested h hd
  | some a => exact Reads.nested hd h

/-- How an action ends on a new reader, whatever follows what it reads. -/
theorem Gives.ok_iff {o : Option α} (h : Gives E m L 0 data o) (rest : List UInt8) {r : Reader} :
    m (fresh L (data ++ rest)) = .ok a r ↔ o = some a ∧ r = memory L 0 data.length rest := by
  cases o with
  | none =>
    obtain ⟨e, r', he, -⟩ := h 0 rest
    refine ⟨fun h => ?_, fun h => nomatch h.1⟩
    cases h.symm.trans he
  | some a' =>
    have ha : m (fresh L (data ++ rest)) = .ok a' (memory L 0 (0 + data.length) rest) := h 0 rest
    rw [ha, Nat.zero_add]
    refine ⟨fun h => ?_, fun h => ?_⟩
    · cases h
      exact ⟨rfl, rfl⟩
    · rw [Option.some.inj h.1, h.2]

end

end ExternalTerm.Reader
