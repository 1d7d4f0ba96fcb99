import ExternalTerm.Proofs.Canonical

/-!
# The elements of a tuple or a list

`Elements parts data` says that `data` are the bytes of a tuple or a list, and `parts` those of its
elements, in their order.

* `parts_unique` : terms one after the other can be told apart;
* `Elements.unique` : so bytes have the elements of one tuple or list only;
* `element_iff` : the elements that `Element` speaks of are these.
-/

namespace ExternalTerm

open Reader

/-- The bytes stand for a tuple or a list with elements of these bytes. -/
inductive Elements (parts : List (List UInt8)) : List UInt8 → Prop
  | tuple {tag : Tag} {w : Nat} {ts : List Term} (hw : tag.tupleWidth? = some w)
      (hn : ts.length < 256 ^ w) (h : List.Forall₂ Wire parts ts) :
      Elements parts (tag.byte :: (Digits.bigEndian w ts.length ++ parts.flatten))
  | list {ts : List Term} (hn : ts.length < 256 ^ 4) (h : List.Forall₂ Wire parts ts) :
      Elements parts
        (Tag.list.byte :: (Digits.bigEndian 4 ts.length ++ (parts.flatten ++ [Tag.nil.byte])))

section
variable {parts parts' : List (List UInt8)} {ts ts' : List Term} {data x xs ys : List UInt8}
  {tag : Tag} {w n n' : Nat}

/-- As many terms, one after the other at the beginning of the same bytes, have the same bytes. -/
theorem parts_unique (h : List.Forall₂ Wire parts ts) (h' : List.Forall₂ Wire parts' ts')
    (hlen : ts.length = ts'.length) (he : parts.flatten ++ xs = parts'.flatten ++ ys) :
    parts = parts' := by
  induction h generalizing parts' ts' with
  | nil =>
    cases h' with
    | nil => rfl
    | cons => cases hlen
  | cons hx _ ih =>
    cases h' with
    | nil => cases hlen
    | cons hy hys =>
      rw [List.flatten_cons, List.flatten_cons, List.append_assoc, List.append_assoc] at he
      obtain ⟨rfl, -⟩ := hx.unique hy he
      rw [ih hys (Nat.succ.inj hlen) (List.append_cancel_left he)]

/-- The digits of a count come back, and with them what follows. -/
theorem bigEndian_append_inj (hn : n < 256 ^ w) (hn' : n' < 256 ^ w)
    (he : Digits.bigEndian w n ++ xs = Digits.bigEndian w n' ++ ys) : n = n' ∧ xs = ys := by
  obtain ⟨hdigits, hrest⟩ := List.append_inj he (by simp)
  have hof := congrArg Digits.ofBigEndian hdigits
  rw [Digits.ofBigEndian_bigEndian_of_lt hn, Digits.ofBigEndian_bigEndian_of_lt hn'] at hof
  exact ⟨hof, hrest⟩

theorem Elements.unique (h : Elements parts data) (h' : Elements parts' data) : parts = parts' := by
  generalize hd : data = data' at h'
  cases h with
  | tuple hw hn hparts =>
    cases h' with
    | tuple hw' hn' hparts' =>
      injection hd with htag hbody
      obtain rfl := Tag.byte_injective htag
      obtain rfl := Option.some.inj (hw.symm.trans hw')
      obtain ⟨hlen, hflat⟩ := bigEndian_append_inj hn hn' hbody
      exact parts_unique hparts hparts' hlen (congrArg (· ++ []) hflat)
    | list =>
      injection hd with htag
      rw [Tag.byte_injective htag] at hw
      cases hw
  | list hn hparts =>
    cases h' with
    | tuple hw' =>
      injection hd with htag
      rw [← Tag.byte_injective htag] at hw'
      cases hw'
    | list hn' hparts' =>
      injection hd with _ hbody
      obtain ⟨hlen, hflat⟩ := bigEndian_append_inj hn hn' hbody
      exact parts_unique hparts hparts' hlen hflat

theorem element_iff : Element x data ↔ ∃ parts, Elements parts data ∧ x ∈ parts := by
  constructor
  · rintro (⟨hw, hn, h, hx⟩ | ⟨hn, h, hx⟩)
    · exact ⟨_, .tuple hw hn h, hx⟩
    · exact ⟨_, .list hn h, hx⟩
  · rintro ⟨parts, ⟨hw, hn, h⟩ | ⟨hn, h⟩, hx⟩
    · exact .tuple hw hn h hx
    · exact .list hn h hx

theorem Elements.element_iff (h : Elements parts data) : Element x data ↔ x ∈ parts := by
  rw [ExternalTerm.element_iff]
  constructor
  · rintro ⟨parts', h', hx⟩
    rwa [h.unique h']
  · exact fun hx => ⟨parts, h, hx⟩

/-- Only tuples and lists have elements. -/
theorem Elements.tag_eq (h : Elements parts (tag.byte :: data)) :
    tag.tupleWidth? ≠ none ∨ tag = .list := by
  generalize hd : tag.byte :: data = bytes at h
  cases h with
  | tuple hw =>
    injection hd with htag
    rw [Tag.byte_injective htag, hw]
    exact .inl nofun
  | list =>
    injection hd with htag
    exact .inr (Tag.byte_injective htag)

end

end ExternalTerm
