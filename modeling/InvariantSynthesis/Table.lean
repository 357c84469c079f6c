namespace InvariantSynthesis

/-- Bindings of names in strictly increasing order of the names. -/
@[ext]
structure Table (α : Type) where
  entries : List (String × α)
  sorted : entries.Pairwise (fun p q => p.1 < q.1)

namespace Table

variable {α : Type}

def empty : Table α := ⟨[], .nil⟩

instance : Inhabited (Table α) := ⟨empty⟩

def find (name : String) : List (String × α) → Option α
  | [] => none
  | p :: rest => if name = p.1 then some p.2 else find name rest

def get? (t : Table α) (name : String) : Option α := find name t.entries

def contains (t : Table α) (name : String) : Bool := (t.get? name).isSome

def names (t : Table α) : List String := t.entries.map (·.1)

/-- Put a binding in its place; a binding of the same name is replaced. -/
def place (name : String) (a : α) : List (String × α) → List (String × α)
  | [] => [(name, a)]
  | p :: rest =>
    if name < p.1 then (name, a) :: p :: rest
    else if name = p.1 then (name, a) :: rest
    else p :: place name a rest

theorem mem_place {name : String} {a : α} {entries : List (String × α)} {q : String × α}
    (h : q ∈ place name a entries) : q = (name, a) ∨ q ∈ entries := by
  induction entries with
  | nil => simpa [place] using h
  | cons p rest ih =>
    unfold place at h
    split at h
    · simpa using h
    · split at h
      · rcases List.mem_cons.mp h with h | h
        · exact .inl h
        · exact .inr (List.mem_cons_of_mem _ h)
      · rcases List.mem_cons.mp h with h | h
        · exact .inr (by simp [h])
        · exact (ih h).imp_right (List.mem_cons_of_mem _)

theorem lt_of_not_lt_of_ne {a b : String} (h : ¬ a < b) (hne : a ≠ b) : b < a := by
  apply Classical.byContradiction
  intro hba
  exact hne (String.le_antisymm (String.not_lt.mp hba) (String.not_lt.mp h))

theorem sorted_place (name : String) (a : α) {entries : List (String × α)}
    (h : entries.Pairwise (fun p q => p.1 < q.1)) :
    (place name a entries).Pairwise (fun p q => p.1 < q.1) := by
  induction entries with
  | nil => simp [place]
  | cons p rest ih =>
    obtain ⟨hp, hrest⟩ := List.pairwise_cons.mp h
    unfold place
    split
    · rename_i hlt
      refine List.pairwise_cons.mpr ⟨fun q hq => ?_, h⟩
      rcases List.mem_cons.mp hq with rfl | hq
      · exact hlt
      · exact String.lt_trans hlt (hp q hq)
    · rename_i hge
      split
      · rename_i heq
        exact List.pairwise_cons.mpr ⟨fun q hq => heq ▸ hp q hq, hrest⟩
      · rename_i hne
        refine List.pairwise_cons.mpr ⟨fun q hq => ?_, ih hrest⟩
        rcases mem_place hq with rfl | hq
        · exact lt_of_not_lt_of_ne hge hne
        · exact hp q hq

def insert (t : Table α) (name : String) (a : α) : Table α :=
  ⟨place name a t.entries, sorted_place name a t.sorted⟩

/-- Keep an earlier binding of the name. -/
def insertNew (t : Table α) (name : String) (a : α) : Table α :=
  if t.contains name then t else t.insert name a

/-- Later bindings of a name win. -/
def ofList (bindings : List (String × α)) : Table α :=
  bindings.foldl (fun t p => t.insert p.1 p.2) empty

def filter (keep : String → α → Bool) (t : Table α) : Table α :=
  ⟨t.entries.filter (fun p => keep p.1 p.2), t.sorted.filter _⟩

theorem find_place (name x : String) (a : α) (entries : List (String × α)) :
    find x (place name a entries) = if x = name then some a else find x entries := by
  induction entries with
  | nil => simp [place, find]
  | cons p rest ih =>
    unfold place
    split
    · simp [find]
    · split
      · rename_i heq
        subst heq
        by_cases h : x = p.1 <;> simp [find, h]
      · rename_i hne
        by_cases h : x = p.1
        · have : x ≠ name := fun hx => hne (hx ▸ h)
          simp [find, h, Ne.symm hne]
        · simp [find, h, ih]

@[simp]
theorem get?_empty (x : String) : (empty : Table α).get? x = none := rfl

theorem get?_insert (t : Table α) (name x : String) (a : α) :
    (t.insert name a).get? x = if x = name then some a else t.get? x :=
  find_place name x a t.entries

end Table

/-- A set of names is a table that binds them to nothing. -/
abbrev NameSet := Table Unit

def NameSet.ofNames (names : List String) : NameSet := Table.ofList (names.map (·, ()))

end InvariantSynthesis
