import ExternalTerm.Reader.Shape

/-!
# Sessions

A session is a sequence of steps on one reader. A step that fails does not end the session: the next
one goes on from wherever the reader is. Steps can be grouped in blocks, which count as one more
level of nesting; a strict block ends with its first failure.
-/

namespace ExternalTerm

/-- One use of a reader. -/
inductive Step where
  /-- An unsigned number of this many bytes. -/
  | unsigned (size : Nat)
  | int32
  | run (length : Nat)
  /-- Only the check of a list's count against the limit. -/
  | checkElements (count : Nat)
  | version
  | nil
  | listCount
  | tupleArity (tag : UInt8)
  | integer (width : Width)
  | bigInteger
  | bigIntegerBody
  | text
  | textTagged (tag : UInt8)
  | taggedTextTagged (tag : UInt8)
  | term
  | shaped (shape : Shape)
  | block (steps : List Step)
  | strictBlock (steps : List Step)

/-- How a step ended, and the reader's count of consumed bytes after it. -/
structure Report (α : Type) where
  outcome : Except DecodeError α
  consumed : Nat

inductive Answer where
  | done
  /-- A number of a fixed size, an arity or a count. -/
  | number (n : Int)
  /-- The value of an integer term. -/
  | integer (n : Int)
  | bytes (data : List UInt8)
  | text (s : String)
  | tagged (t : TaggedText)
  | term (t : Term)
  | decoded (d : Decoded)
  | block (reports : List (Report Answer))

namespace Reader

/-- Report on an action, however it ends. -/
def attempt {α : Type} (action : ReadM α) : StateM Reader (Report α) := fun r =>
  match action r with
  | .ok a r => (⟨.ok a, r.consumed⟩, r)
  | .error e r => (⟨.error e, r.consumed⟩, r)

/-- Report on an action that has to succeed. -/
def insist {α : Type} (action : ReadM α) : ReadM (Report α) := do
  let a ← action
  let r ← get
  return ⟨.ok a, r.consumed⟩

def infallible {α : Type} (action : StateM Reader α) : ReadM α := fun r =>
  match action r with
  | (a, r) => .ok a r

end Reader

open Reader in
mutual

def Step.take : Step → ReadM Answer
  | .unsigned size => do
    let n ← Reader.unsigned size
    return .number n
  | .int32 => do
    let n ← Reader.int32
    return .number n.toInt
  | .run length => do
    let data ← Reader.run length
    return .bytes data
  | .checkElements count => do
    Reader.checkElements .list count
    return .done
  | .version => do
    Reader.version
    return .done
  | .nil => do
    Reader.nil
    return .done
  | .listCount => do
    let n ← Reader.listCount
    return .number n
  | .tupleArity tag => do
    let n ← Reader.tupleArity tag
    return .number n
  | .integer width => do
    let n ← Reader.integer width
    return .integer n.toInt
  | .bigInteger => do
    let n ← Reader.bigInteger
    return .integer n
  | .bigIntegerBody => do
    let n ← Reader.bigIntegerBody
    return .integer n
  | .text => do
    let s ← Reader.text
    return .text s
  | .textTagged tag => do
    let s ← Reader.textTagged tag
    return .text s
  | .taggedTextTagged tag => do
    let t ← Reader.taggedTextTagged tag
    return .tagged t
  | .term => do
    let t ← Reader.term
    return .term t
  | .shaped shape => do
    let d ← Reader.shaped shape
    return .decoded d
  | .block steps => do
    let reports ← nested (infallible (Step.takeAll steps))
    return .block reports
  | .strictBlock steps => do
    let reports ← nested (Step.takeStrictly steps)
    return .block reports

/-- Take steps one after the other, whether or not they fail. -/
def Step.takeAll : List Step → StateM Reader (List (Report Answer))
  | [] => pure []
  | step :: steps => do
    let report ← attempt step.take
    let reports ← Step.takeAll steps
    return report :: reports

/-- Take steps one after the other until one fails. -/
def Step.takeStrictly : List Step → ReadM (List (Report Answer))
  | [] => pure []
  | step :: steps => do
    let report ← insist step.take
    let reports ← Step.takeStrictly steps
    return report :: reports

end

/-- The reports of a session that starts with a fresh reader, and the reader after it. -/
def session (steps : List Step) (source : Source) (limits : Limits) :
    List (Report Answer) × Reader :=
  (Step.takeAll steps).run { source, limits }

end ExternalTerm
