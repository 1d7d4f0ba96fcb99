import ExternalTerm.Proofs.Composed
import ExternalTerm.Reader.Shape

/-!
# Properties of every reader

A property of actions that holds of the primitive reads, and of a sequence when it holds of its
parts, holds of all readers. Each structure says for which parts a property is to be shown, and its
lemmas for which readers it holds then:

* `Sequential P` : parts of a fixed size, and what is made of them;
* `Compositional P` : runs of bytes too, so integers and texts, and terms but for their elements.

Being built from parts is such a property (`composed`).
-/

namespace ExternalTerm

/-- The error is about bytes that are there, and are no form of what is expected. -/
def DecodeError.IsDefect : DecodeError → Prop
  | .version _ | .unexpectedTag .. | .arityMismatch .. | .overflow .. | .bigIntegerSign _
  | .missingNil (some _) | .invalidUtf8 _ | .invalidCodePoint _ => True
  | _ => False

theorem DecodeError.IsDefect.not_isLack {e : DecodeError} (h : e.IsDefect) : ¬ e.IsLack := by
  unfold IsDefect at h
  unfold IsLack
  split at h <;> simp_all

namespace Reader

/-! ## Parts of a fixed size -/

/-- The property holds of reads of a fixed size and of checks, and of what is composed of actions of
which it holds. -/
structure Sequential (P : ∀ {α : Type}, ReadM α → Prop) : Prop where
  pure {α : Type} (a : α) : P (Pure.pure a)
  throw {α : Type} {e : DecodeError} (h : e.IsDefect) : P (MonadExcept.throw e : ReadM α)
  bind {α β : Type} {m : ReadM α} {f : α → ReadM β} (hm : P m) (hf : ∀ a, P (f a)) : P (m >>= f)
  rename {α : Type} {m : ReadM α} {g : DecodeError → DecodeError}
    (hg : ∀ e, g e = e ∨ e.IsLack ∧ (g e).IsLack) (h : P m) : P (EStateM.adaptExcept g m)
  exactly (n : Nat) : P (Reader.exactly n)
  checkElements (what : Kind) (n : Nat) : P (Reader.checkElements what n)

namespace Sequential
variable {P : ∀ {α : Type}, ReadM α → Prop} (hP : Sequential P) {α β : Type} {m : ReadM α}
include hP

theorem refuse {c : Prop} [Decidable c] {e : DecodeError} (he : e.IsDefect) (h : P m) :
    P (if c then MonadExcept.throw e else m) := by
  split
  · exact hP.throw he
  · exact h

theorem map (h : P m) (g : α → β) : P (m >>= fun a => Pure.pure (g a)) :=
  hP.bind h fun _ => hP.pure _

/-- Renaming the errors for a lack of data keeps the property. -/
theorem renameTruncated (h : P m) (g : Nat → Nat → DecodeError) (hg : ∀ x y, (g x y).IsLack) :
    P (EStateM.adaptExcept (fun | .truncated x y => g x y | e => e) m) := by
  refine hP.rename (fun e => ?_) h
  split
  · exact .inr ⟨trivial, hg _ _⟩
  · exact .inl rfl

theorem repeated (h : P m) (n : Nat) : P (Reader.repeated n m) := by
  induction n with
  | zero => exact hP.pure _
  | succ n ih =>
    rw [repeated_succ]
    exact hP.bind h fun a => hP.map ih _

theorem unsigned (w : Nat) : P (Reader.unsigned w) := hP.map (hP.exactly w) _

theorem byte : P Reader.byte := hP.map (hP.exactly 1) _

theorem int32 : P Reader.int32 := hP.map (hP.unsigned 4) _

theorem version : P Reader.version :=
  hP.bind hP.byte fun _ => hP.refuse trivial (hP.pure _)

theorem count (w : Nat) (what : Kind) : P (do
    let count ← Reader.unsigned w
    Reader.checkElements what count
    return count) :=
  hP.bind (hP.unsigned w) fun _ => hP.map (hP.checkElements ..) _

theorem tupleArity (tag : UInt8) : P (Reader.tupleArity tag) := by
  unfold Reader.tupleArity
  split
  · exact hP.count 1 .tuple
  · exact hP.count 4 .tuple
  · exact hP.bind (hP.throw trivial) fun _ => hP.map (hP.checkElements ..) _

theorem listCount : P Reader.listCount := hP.count 4 .list

theorem nil : P Reader.nil :=
  hP.bind (hP.renameTruncated hP.byte (fun _ _ => .missingNil none) fun _ _ => trivial) fun _ =>
    hP.refuse trivial (hP.pure _)

end Sequential

/-! ## Runs of bytes -/

/-- The property holds of runs of bytes too. -/
structure Compositional (P : ∀ {α : Type}, ReadM α → Prop) : Prop extends Sequential P where
  run (n : Nat) : P (Reader.run n)

namespace Compositional
variable {P : ∀ {α : Type}, ReadM α → Prop} (hP : Compositional P)
include hP

theorem bigIntegerBody : P Reader.bigIntegerBody :=
  hP.bind (hP.unsigned 1) fun n => hP.bind hP.byte fun _ => hP.refuse trivial <|
    hP.map (hP.renameTruncated (hP.run n) .bigIntegerLength fun _ _ => trivial) _

theorem bigIntegerTagged (tag : UInt8) : P (Reader.bigIntegerTagged tag) := by
  unfold Reader.bigIntegerTagged
  split
  · exact hP.map (hP.unsigned 1) _
  · exact hP.map hP.int32 _
  · exact hP.bigIntegerBody
  · exact hP.throw trivial

theorem bigInteger : P Reader.bigInteger := hP.bind hP.byte hP.bigIntegerTagged

theorem int64Tagged (tag : UInt8) : P (Reader.int64Tagged tag) := by
  unfold Reader.int64Tagged
  split
  · exact hP.map hP.byte _
  · exact hP.map hP.int32 _
  · exact hP.bind hP.bigIntegerBody fun _ => hP.refuse trivial (hP.pure _)
  · exact hP.throw trivial

theorem integerTagged (tag : UInt8) (width : Width) : P (Reader.integerTagged tag width) :=
  hP.bind (hP.int64Tagged tag) fun _ => hP.refuse trivial (hP.pure _)

theorem integer (width : Width) : P (Reader.integer width) :=
  hP.bind hP.byte fun tag => hP.integerTagged tag width

theorem utf8 (length : Nat) : P (Reader.utf8 length) := by
  refine hP.bind (hP.run length) fun bytes => ?_
  cases Utf8.decode bytes with
  | ok s => exact hP.pure s
  | error defect => exact hP.throw trivial

theorem character : P Reader.character := by
  refine hP.bind (hP.integer .w64) fun code => ?_
  cases char? code.toInt with
  | some c => exact hP.pure c
  | none => exact hP.throw trivial

theorem characters : P Reader.characters :=
  hP.bind hP.listCount fun n => hP.bind (hP.repeated hP.character n) fun _ => hP.map hP.nil _

theorem textTagged (tag : UInt8) : P (Reader.textTagged tag) := by
  have hsized (w : Nat) : P (Reader.unsigned w >>= Reader.utf8) := hP.bind (hP.unsigned w) hP.utf8
  unfold Reader.textTagged
  split
  · exact hsized 1
  · exact hsized 1
  · exact hsized 2
  · exact hsized 2
  · exact hsized 2
  · exact hsized 4
  · exact hP.characters
  · exact hP.pure _
  · exact hP.throw trivial

theorem taggedTextTagged (tag : UInt8) : P (Reader.taggedTextTagged tag) := by
  unfold Reader.taggedTextTagged
  cases (Tag.ofByte? tag).bind Tag.textFamily? with
  | none => exact hP.throw trivial
  | some family => exact hP.map (hP.textTagged tag) _

theorem byteElements (element : Shape) : P (Reader.byteElements element) := by
  unfold Reader.byteElements
  cases byteElement? element with
  | none => exact hP.throw trivial
  | some ofByte => exact hP.bind (hP.unsigned 2) fun n => hP.map (hP.run n) _

/-- The body of a term, when the property holds of the elements of tuples and lists. -/
theorem termBody {element : ReadM Term} (h : ∀ n, P (nested (Reader.repeated n element)))
    (tag : UInt8) : P (Reader.termBody element tag) := by
  unfold Reader.termBody
  cases Tag.ofByte? tag with
  | none => exact hP.throw trivial
  | some t =>
    cases t with
    | smallInteger | integer | smallBig => exact hP.map (hP.bigIntegerTagged tag) _
    | atom | smallAtom | atomUtf8 | smallAtomUtf8 | binary => exact hP.map (hP.textTagged tag) _
    | string => exact hP.bind (hP.unsigned 2) fun n => hP.map (hP.run n) _
    | nil => exact hP.pure _
    | smallTuple | largeTuple => exact hP.bind (hP.tupleArity tag) fun n => hP.map (h n) _
    | list => exact hP.bind hP.listCount fun n => hP.bind (h n) fun _ => hP.map hP.nil _

end Compositional

/-! ## Being built from parts -/

section
variable {α β : Type} {m m' : ReadM α}

theorem Composed.ite {c : Prop} [Decidable c] (h : Composed m) (h' : Composed m') :
    Composed (if c then m else m') := by
  split
  · exact h
  · exact h'

theorem Composed.map (h : Composed m) (g : α → β) : Composed (m >>= fun a => Pure.pure (g a)) :=
  h.bind fun _ => .pure _

theorem composed_checkElements (what : Kind) (n : Nat) : Composed (checkElements what n) := by
  have h (L : Limits) (_ : Nat) : Composed
      (if L.maxElements < n then throw (.limitExceeded what n L.maxElements) else pure () :
        ReadM Unit) :=
    .ite (.throw not_false) (.pure _)
  exact .ask h

/-- All readers are built from these parts. -/
theorem composed : Compositional Composed where
  pure := .pure
  throw he := .throw he.not_isLack
  bind := .bind
  rename := .rename
  exactly := .exactly
  checkElements := composed_checkElements
  run := .run

end

end Reader

end ExternalTerm
