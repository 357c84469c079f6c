import InvariantSynthesis.Table

/-!
Registers of names. A register lists its entries in the order in which they were made, and has an
index that finds the entry of a name. If a name is entered again, the index follows its last entry.
-/

namespace InvariantSynthesis

variable {α β : Type}

/-- The last entry of a name is at a place. -/
structure LastAt (entries : List (String × α)) (name : String) (i : Nat) : Prop where
  found : ∃ a, entries[i]? = some (name, a)
  last : ∀ {j a}, entries[j]? = some (name, a) → j ≤ i

theorem getElem?_concat_eq_some {entries : List (String × α)} {p q : String × α} {i : Nat} :
    (entries ++ [p])[i]? = some q ↔ entries[i]? = some q ∨ i = entries.length ∧ p = q := by
  rw [List.getElem?_append]
  by_cases h : i < entries.length
  · simp [h, Nat.ne_of_lt h]
  · by_cases heq : i = entries.length
    · simp [heq]
    · have hne : i - entries.length ≠ 0 := by omega
      simp [h, heq, hne]

theorem lastAt_concat {entries : List (String × α)} {name x : String} {a : α} {i : Nat} :
    LastAt (entries ++ [(name, a)]) x i ↔
      if x = name then i = entries.length else LastAt entries x i := by
  split
  · rename_i hx
    subst hx
    constructor
    · rintro ⟨⟨b, hb⟩, hlast⟩
      have hle : entries.length ≤ i := hlast (getElem?_concat_eq_some.mpr (.inr ⟨rfl, rfl⟩))
      obtain hb | ⟨hi, -⟩ := getElem?_concat_eq_some.mp hb
      · have := (List.getElem?_eq_some_iff.mp hb).1
        omega
      · exact hi
    · rintro rfl
      refine ⟨⟨a, by simp⟩, fun {j b} hb => ?_⟩
      have := (List.getElem?_eq_some_iff.mp hb).1
      simp only [List.length_append, List.length_cons, List.length_nil] at this
      omega
  · rename_i hx
    have hplace : ∀ {j : Nat} {b : α},
        (entries ++ [(name, a)])[j]? = some (x, b) ↔ entries[j]? = some (x, b) := by
      intro j b
      rw [getElem?_concat_eq_some]
      simp [Ne.symm hx]
    constructor
    · rintro ⟨⟨b, hb⟩, hlast⟩
      exact ⟨⟨b, hplace.mp hb⟩, fun h => hlast (hplace.mpr h)⟩
    · rintro ⟨⟨b, hb⟩, hlast⟩
      exact ⟨⟨b, hplace.mpr hb⟩, fun h => hlast (hplace.mp h)⟩

/-- Names with values in the order in which they were entered, and an index by name. -/
structure Registry (α : Type) where
  entries : List (String × α)
  index : Table Nat
  indexed : ∀ name i, index.get? name = some i ↔ LastAt entries name i

namespace Registry

def empty : Registry α where
  entries := []
  index := .empty
  indexed := fun name i => by
    constructor
    · intro h
      simp at h
    · rintro ⟨⟨a, ha⟩, -⟩
      simp at ha

instance : Inhabited (Registry α) := ⟨empty⟩

/-- The value at the place that the index has for a name. -/
def get? (r : Registry α) (name : String) : Option α := do
  let i ← r.index.get? name
  let entry ← r.entries[i]?
  return entry.2

def insert (r : Registry α) (name : String) (a : α) : Registry α where
  entries := r.entries ++ [(name, a)]
  index := r.index.insert name r.entries.length
  indexed := fun x i => by
    rw [Table.get?_insert, lastAt_concat]
    split
    · simp [eq_comm]
    · exact r.indexed x i

def map (f : α → β) (r : Registry α) : Table β :=
  Table.ofList (r.entries.map fun p => (p.1, f p.2))

theorem get?_insert (r : Registry α) (name x : String) (a : α) :
    (r.insert name a).get? x = if x = name then some a else r.get? x := by
  have hget : (r.insert name a).get? x = ((r.index.insert name r.entries.length).get? x).bind
      fun i => ((r.entries ++ [(name, a)])[i]?).bind fun p => some p.2 := rfl
  rw [hget, Table.get?_insert]
  split
  · simp
  · show _ = (r.index.get? x).bind fun i => (r.entries[i]?).bind fun p => some p.2
    cases hi : r.index.get? x with
    | none => rfl
    | some i =>
      -- The index points to an entry, so the new one is behind it.
      obtain ⟨b, hb⟩ := ((r.indexed x i).mp hi).found
      have hlt := (List.getElem?_eq_some_iff.mp hb).1
      simp [List.getElem?_append, hlt]

end Registry

end InvariantSynthesis
