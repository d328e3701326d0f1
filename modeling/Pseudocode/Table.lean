import Pseudocode.Text.Basic

/-! # Names and tables that remember the order of entry -/

namespace Pseudocode

/-- Distinct names, in the order in which they were first entered. -/
abbrev Names := List Text

/-- Enters a name at the end, unless it is there already. -/
def Names.add (ns : Names) (n : Text) : Names := if ns.contains n then ns else ns ++ [n]

@[simp] theorem Names.mem_add {ns : Names} {n m : Text} : m ∈ ns.add n ↔ m ∈ ns ∨ m = n := by
  unfold Names.add
  split
  · next h =>
    have h : n ∈ ns := by simpa using h
    exact ⟨Or.inl, fun h' => h'.elim id fun e => e ▸ h⟩
  · simp

theorem Names.nodup_add {ns : Names} (h : ns.Nodup) (n : Text) : (ns.add n).Nodup := by
  unfold Names.add
  split
  · exact h
  · next hn =>
    have hn : n ∉ ns := by simpa using hn
    refine List.nodup_append.2 ⟨h, by simp, fun a ha b hb e => hn ?_⟩
    rw [← List.mem_singleton.1 hb, ← e]
    exact ha

/-- Keys with their values, in the order in which the keys were first entered. -/
structure Table (α : Type) where
  entries : List (Text × α) := []
  deriving DecidableEq, Repr

namespace Table

variable {α : Type}

def get? (t : Table α) (k : Text) : Option α := t.entries.lookup k

def has (t : Table α) (k : Text) : Bool := (t.get? k).isSome

/-- Changes the value of a key where it stands; a new key is entered at the end, with `f` applied to
`initial`. -/
def modify (t : Table α) (k : Text) (initial : α) (f : α → α) : Table α :=
  if t.has k then ⟨t.entries.map fun e => if e.1 = k then (k, f e.2) else e⟩
  else ⟨t.entries ++ [(k, f initial)]⟩

/-- Gives a key a value, whether it had one or not. -/
def set (t : Table α) (k : Text) (v : α) : Table α := t.modify k v fun _ => v

/-- Gives a key a value unless it has one. -/
def add (t : Table α) (k : Text) (v : α) : Table α := t.modify k v id

end Table

end Pseudocode
