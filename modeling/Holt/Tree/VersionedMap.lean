import Mathlib.Data.Finmap
import Holt.Journal.Ring

/-!
# The versioned map a tree stands for

A tree maps byte-string keys to records: a value and the sequence number of the write that
put it there, which is the record's version token.  Conditional writes look at the record
under their key before they change it; `InsertCondition` and `EraseCondition` are the
conditions of `insert_multi_conditional` and `erase_multi_conditional`.
-/

namespace Holt

abbrev Key := List Byte

abbrev Value := List Byte

/-- A live record: its value and its version token. -/
structure Record where
  value : Value
  version : ℕ
deriving DecidableEq

/-- What a tree means: finitely many keys with their records. -/
abbrev VersionedMap := Finmap (fun _ : Key => Record)

/-- The key has no NUL byte.  A tree keeps a key with a NUL behind it, and its frames refuse a
key whose bytes then continue those of another key they have a leaf for, also one that is
deleted and not yet compacted away.  Of keys without a NUL byte none is refused. -/
def Key.NulFree (key : Key) : Prop := 0 ∉ key

instance (key : Key) : Decidable key.NulFree := inferInstanceAs (Decidable (0 ∉ key))

/-- The keys of the map have no NUL byte. -/
def VersionedMap.NulFree (m : VersionedMap) : Prop := ∀ key ∈ m.keys, key.NulFree

instance (m : VersionedMap) : Decidable m.NulFree :=
  inferInstanceAs (Decidable (∀ key ∈ m.keys, key.NulFree))

/-- The condition of an insert. -/
inductive InsertCondition
  | always
  | ifAbsent
  | ifVersion (expected : ℕ)
deriving DecidableEq

/-- The condition of an erase. -/
inductive EraseCondition
  | always
  | ifVersion (expected : ℕ)
deriving DecidableEq

/-- Whether an insert may replace the record found under its key. -/
def InsertCondition.allows : InsertCondition → Option Record → Bool
  | .always, _ => true
  | .ifAbsent, found => found.isNone
  | .ifVersion expected, found => found.any (fun r => r.version == expected)

/-- Whether an erase may remove the record found under its key; there must be one. -/
def EraseCondition.allows : EraseCondition → Option Record → Bool
  | .always, found => found.isSome
  | .ifVersion expected, found => found.any (fun r => r.version == expected)

namespace VersionedMap

/-- `insert_multi_conditional`: the map afterwards, and whether the insert took place. -/
def insertConditional (m : VersionedMap) (key : Key) (value : Value) (seq : ℕ)
    (condition : InsertCondition) : VersionedMap × Bool :=
  if condition.allows (m.lookup key) then (m.insert key ⟨value, seq⟩, true) else (m, false)

/-- `erase_multi_conditional`: the map afterwards, and whether a record was removed. -/
def eraseConditional (m : VersionedMap) (key : Key) (condition : EraseCondition) :
    VersionedMap × Bool :=
  if condition.allows (m.lookup key) then (m.erase key, true) else (m, false)

lemma lookup_insert_eq (m : VersionedMap) (key k : Key) (r : Record) :
    (m.insert key r).lookup k = if k = key then some r else m.lookup k := by
  split_ifs with h
  · rw [h, Finmap.lookup_insert]
  · exact Finmap.lookup_insert_of_ne _ h

lemma lookup_erase_eq (m : VersionedMap) (key k : Key) :
    (m.erase key).lookup k = if k = key then none else m.lookup k := by
  split_ifs with h
  · rw [h, Finmap.lookup_erase]
  · exact Finmap.lookup_erase_ne h

/-- Erasing an absent key changes nothing, so an unconditional erase is `Finmap.erase`. -/
lemma eraseConditional_always_fst (m : VersionedMap) (key : Key) :
    (m.eraseConditional key .always).1 = m.erase key := by
  unfold eraseConditional
  split_ifs with h
  · rfl
  · refine Finmap.ext_lookup (fun k => ?_)
    rw [lookup_erase_eq]
    split_ifs with hk
    · subst hk
      simpa [EraseCondition.allows] using h
    · rfl

@[simp] lemma insertConditional_always (m : VersionedMap) (key : Key) (value : Value) (seq : ℕ) :
    m.insertConditional key value seq .always = (m.insert key ⟨value, seq⟩, true) := rfl

end VersionedMap

end Holt
