import InvariantSynthesis.Registry
import Mathlib.Data.List.Induction
import Mathlib.Data.List.Sort

namespace InvariantSynthesis

namespace Table

variable {α : Type}

theorem mem_of_find {n : String} {a : α} {entries : List (String × α)}
    (h : find n entries = some a) : (n, a) ∈ entries := by
  induction entries with
  | nil => cases h
  | cons p rest ih =>
    rw [find] at h
    split at h
    · rename_i hn
      cases h
      rw [hn]
      exact List.mem_cons_self
    · exact List.mem_cons_of_mem _ (ih h)

theorem find_of_mem {n : String} {a : α} {entries : List (String × α)}
    (hsorted : entries.Pairwise fun p q => p.1 < q.1) (h : (n, a) ∈ entries) :
    find n entries = some a := by
  induction entries with
  | nil => cases h
  | cons p rest ih =>
    obtain ⟨hp, hrest⟩ := List.pairwise_cons.mp hsorted
    rw [find]
    obtain rfl | hmem := List.mem_cons.mp h
    · rw [if_pos rfl]
    · have hne : n ≠ p.1 := fun hn => String.lt_irrefl n (hn ▸ hp (n, a) hmem)
      rw [if_neg hne, ih hrest hmem]

theorem find_eq_none {n : String} {entries : List (String × α)} (h : ∀ q ∈ entries, n < q.1) :
    find n entries = none :=
  Option.eq_none_iff_forall_ne_some.mpr fun a ha =>
    String.lt_irrefl n (h (n, a) (mem_of_find ha))

theorem eq_of_get? {t u : Table α} (h : ∀ n, t.get? n = u.get? n) : t = u := by
  have hirrefl : Std.Irrefl fun p q : String × α => p.1 < q.1 := ⟨fun p => String.lt_irrefl p.1⟩
  have hantisymm : Std.Antisymm fun p q : String × α => p.1 < q.1 :=
    ⟨fun p q hpq hqp => absurd (String.lt_trans hpq hqp) (String.lt_irrefl p.1)⟩
  apply Table.ext
  apply t.sorted.eq_of_mem_iff u.sorted
  rintro ⟨n, a⟩
  constructor
  · intro hmem
    exact mem_of_find ((h n).symm.trans (find_of_mem t.sorted hmem))
  · intro hmem
    exact mem_of_find ((h n).trans (find_of_mem u.sorted hmem))

theorem get?_foldl_insert (l : List (String × α)) (t : Table α) (x : String) :
    (l.foldl (fun t p => t.insert p.1 p.2) t).get? x = (l.reverse.lookup x).or (t.get? x) := by
  induction l generalizing t with
  | nil => simp
  | cons p l ih =>
    obtain ⟨n, a⟩ := p
    rw [List.foldl_cons, ih, get?_insert, List.reverse_cons, List.lookup_append, Option.or_assoc,
      List.lookup_cons]
    by_cases hx : x = n
    · simp [hx]
    · have hne : (x == n) = false := by simpa using hx
      simp [hx, hne]

/-- Of several bindings of a name the last one counts. -/
theorem get?_ofList_eq (l : List (String × α)) (x : String) :
    (ofList l).get? x = l.reverse.lookup x := by
  rw [ofList, get?_foldl_insert, get?_empty, Option.or_none]

theorem get?_ofList {n : String} {a : α} {l : List (String × α)} (h : (n, a) ∈ l) :
    ∃ b, (ofList l).get? n = some b ∧ (n, b) ∈ l := by
  have hbound : (l.reverse.lookup n).isSome = true := by
    rw [List.lookup_isSome_iff]
    exact ⟨(n, a), List.mem_reverse.mpr h, by simp⟩
  obtain ⟨b, hb⟩ := Option.isSome_iff_exists.mp hbound
  obtain ⟨after, before, hl, -⟩ := List.lookup_eq_some_iff.mp hb
  refine ⟨b, by rw [get?_ofList_eq, hb], ?_⟩
  rw [← List.mem_reverse, hl]
  simp

theorem get?_insertNew (t : Table α) (n x : String) (a : α) :
    (t.insertNew n a).get? x = (t.get? x).or (if x = n then some a else none) := by
  rw [insertNew, contains]
  by_cases hx : x = n
  · subst hx
    cases ht : t.get? x <;> simp [ht, get?_insert]
  · split <;> simp [get?_insert, hx]

theorem get?_foldl_insertNew (l : List (String × α)) (t : Table α) (x : String) :
    (l.foldl (fun t p => t.insertNew p.1 p.2) t).get? x = (t.get? x).or (l.lookup x) := by
  induction l generalizing t with
  | nil => simp
  | cons p l ih =>
    obtain ⟨n, a⟩ := p
    rw [List.foldl_cons, ih, get?_insertNew, List.lookup_cons, Option.or_assoc]
    by_cases hx : x = n
    · simp [hx]
    · have hne : (x == n) = false := by simpa using hx
      simp [hx, hne]

theorem lookup_entries (t : Table α) (n : String) : t.entries.lookup n = t.get? n := by
  obtain ⟨entries, sorted⟩ := t
  show entries.lookup n = find n entries
  clear sorted
  induction entries with
  | nil => rfl
  | cons p rest ih =>
    obtain ⟨m, a⟩ := p
    rw [List.lookup_cons, find, ih]
    by_cases h : n = m
    · simp [h]
    · rw [beq_eq_false_iff_ne.mpr h, if_neg h]

theorem get?_ofList_of_mem_iff {l : List (String × α)} {n : String} {r : Option α}
    (h : ∀ a, (n, a) ∈ l ↔ r = some a) : (ofList l).get? n = r := by
  cases r with
  | some a =>
    obtain ⟨b, hb, hmem⟩ := get?_ofList ((h a).mpr rfl)
    rw [hb, (h b).mp hmem]
  | none =>
    rw [get?_ofList_eq, List.lookup_eq_none_iff]
    intro p hp
    refine bne_iff_ne.mpr fun hn => ?_
    have hbound := (h p.2).mp (hn ▸ List.mem_reverse.mp hp)
    cases hbound

theorem mem_entries_iff {t : Table α} {n : String} {a : α} :
    (n, a) ∈ t.entries ↔ t.get? n = some a :=
  ⟨find_of_mem t.sorted, mem_of_find⟩

theorem mem_names_iff {t : Table α} {n : String} : n ∈ t.names ↔ t.contains n = true := by
  rw [contains, Option.isSome_iff_exists, names, List.mem_map]
  constructor
  · rintro ⟨⟨_, a⟩, hmem, rfl⟩
    exact ⟨a, mem_entries_iff.mp hmem⟩
  · rintro ⟨a, ha⟩
    exact ⟨(n, a), mem_entries_iff.mpr ha, rfl⟩

theorem get?_ofList_eq_some_iff {l : List (String × α)} {n : String} {a : α} :
    (ofList l).get? n = some a ↔ ∃ i, LastAt l n i ∧ l[i]? = some (n, a) := by
  induction l using List.reverseRecOn with
  | nil =>
    rw [ofList, List.foldl_nil, get?_empty]
    simp
  | append_singleton l p ih =>
    obtain ⟨m, b⟩ := p
    have hfold : ofList (l ++ [(m, b)]) = (ofList l).insert m b := by
      rw [ofList, List.foldl_append, List.foldl_cons, List.foldl_nil, ofList]
    rw [hfold, get?_insert]
    simp only [lastAt_concat, getElem?_concat_eq_some]
    by_cases hn : n = m
    · subst hn
      simp
    · simp [hn, Ne.symm hn, ih]

end Table

theorem lastAt_map {α β : Type} {f : α → β} {entries : List (String × α)} {n : String} {i : Nat} :
    LastAt (entries.map fun p => (p.1, f p.2)) n i ↔ LastAt entries n i := by
  have hplace : ∀ {j : Nat} {b : β}, (entries.map fun p => (p.1, f p.2))[j]? = some (n, b) ↔
      ∃ a, entries[j]? = some (n, a) ∧ f a = b := by
    intro j b
    simp
  constructor
  · rintro ⟨⟨b, hb⟩, hlast⟩
    obtain ⟨a, ha, -⟩ := hplace.mp hb
    exact ⟨⟨a, ha⟩, fun h => hlast (hplace.mpr ⟨_, h, rfl⟩)⟩
  · rintro ⟨⟨a, ha⟩, hlast⟩
    refine ⟨⟨f a, hplace.mpr ⟨a, ha, rfl⟩⟩, fun h => ?_⟩
    obtain ⟨_, h, -⟩ := hplace.mp h
    exact hlast h

namespace Registry

variable {α β : Type}

theorem get?_eq_some_iff {r : Registry α} {n : String} {a : α} :
    r.get? n = some a ↔ ∃ i, LastAt r.entries n i ∧ r.entries[i]? = some (n, a) := by
  have hget : r.get? n = (r.index.get? n).bind fun i => (r.entries[i]?).bind fun p => some p.2 := rfl
  simp only [hget, Option.bind_eq_some_iff, r.indexed]
  refine exists_congr fun i => and_congr_right fun hlast => ?_
  obtain ⟨b, hb⟩ := hlast.found
  simp [hb]

theorem get?_eq_none_iff {r : Registry α} {n : String} :
    r.get? n = none ↔ ∀ a, (n, a) ∉ r.entries := by
  constructor
  · intro hnone a hmem
    obtain ⟨b, hb, -⟩ := Table.get?_ofList hmem
    obtain ⟨i, hlast, hi⟩ := Table.get?_ofList_eq_some_iff.mp hb
    rw [get?_eq_some_iff.mpr ⟨i, hlast, hi⟩] at hnone
    cases hnone
  · intro h
    apply Option.eq_none_iff_forall_ne_some.mpr
    intro a ha
    obtain ⟨i, -, hi⟩ := get?_eq_some_iff.mp ha
    exact h a (List.mem_of_getElem? hi)

theorem get?_map (f : α → β) (r : Registry α) (n : String) :
    (r.map f).get? n = (r.get? n).map f := by
  apply Option.ext
  intro b
  rw [map, Table.get?_ofList_eq_some_iff, Option.map_eq_some_iff]
  simp only [lastAt_map, get?_eq_some_iff]
  constructor
  · rintro ⟨i, hlast, hb⟩
    obtain ⟨a, ha⟩ := hlast.found
    exact ⟨a, ⟨i, hlast, ha⟩, by simpa [ha] using hb⟩
  · rintro ⟨a, ⟨i, hlast, ha⟩, rfl⟩
    exact ⟨i, hlast, by simp [ha]⟩

/-- No name has two entries. -/
def Once (r : Registry α) : Prop := (r.entries.map (·.1)).Nodup

variable {r : Registry α} {n : String} {a b : α} {i j : Nat}

theorem once_empty : (empty : Registry α).Once := List.nodup_nil

theorem Once.insert (h : r.Once) (hn : r.get? n = none) : (r.insert n a).Once := by
  have hnew : n ∉ r.entries.map (·.1) := by
    simpa using get?_eq_none_iff.mp hn
  show ((r.entries ++ [(n, a)]).map (·.1)).Nodup
  rw [List.map_append, List.map_singleton, List.nodup_append]
  refine ⟨h, List.nodup_singleton n, fun m hm m' hm' heq => ?_⟩
  obtain rfl : m' = n := List.mem_singleton.mp hm'
  exact hnew (heq ▸ hm)

theorem Once.place_eq (h : r.Once) (hi : r.entries[i]? = some (n, a))
    (hj : r.entries[j]? = some (n, b)) : i = j := by
  have hlt : i < (r.entries.map (·.1)).length := by
    rw [List.length_map]
    exact (List.getElem?_eq_some_iff.mp hi).1
  apply (List.getElem?_inj hlt h).mp
  rw [List.getElem?_map, List.getElem?_map, hi, hj]
  rfl

theorem Once.lastAt_iff (h : r.Once) : LastAt r.entries n i ↔ ∃ a, r.entries[i]? = some (n, a) := by
  refine ⟨LastAt.found, fun hfound => ⟨hfound, fun hj => ?_⟩⟩
  obtain ⟨a, hi⟩ := hfound
  exact Nat.le_of_eq (h.place_eq hj hi)

theorem Once.index_iff (h : r.Once) :
    r.index.get? n = some i ↔ ∃ a, r.entries[i]? = some (n, a) :=
  (r.indexed n i).trans h.lastAt_iff

theorem Once.get?_of_entry (h : r.Once) (hi : r.entries[i]? = some (n, a)) : r.get? n = some a :=
  get?_eq_some_iff.mpr ⟨i, h.lastAt_iff.mpr ⟨a, hi⟩, hi⟩

theorem entries_insert : r.entries <+: (r.insert n a).entries := List.prefix_append _ _

end Registry

end InvariantSynthesis
