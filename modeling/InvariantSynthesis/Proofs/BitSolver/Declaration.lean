import InvariantSynthesis.Proofs.BitSolver.Acceptance

namespace InvariantSynthesis.BitSolver

open Diagram

variable {s t : BitSolver} {ints : List String} {rest : List TypedName} {n m : String}
  {first second sort : ValueSort}

/-- A name is listed at another sort than the table has, or as an integer after it was listed as a
boolean. Names of integers that wait for their bits are left out. -/
structure Refused (s : BitSolver) (ints : List String) (names : List TypedName) (n : String)
    (first second : ValueSort) : Prop where
  listed : (n, second) ∈ names
  differ : first ≠ second
  known : s.sorts n = some first ∨
    s.sorts n = none ∧ n ∉ ints ∧ first = .bool ∧ names.lookup n = some .bool

section step

variable (hothers : ∀ m, m ≠ n → t.sorts m = s.sorts m) {ints' : List String}
  (hints : ∀ m, m ≠ n → (m ∈ ints' ↔ m ∈ ints))
include hothers hints

theorem refused_cons_of_ne (hm : m ≠ n) :
    Refused s ints ((n, sort) :: rest) m first second ↔ Refused t ints' rest m first second := by
  have hlisted : (m, second) ∈ (n, sort) :: rest ↔ (m, second) ∈ rest := by simp [hm]
  have hlookup : ((n, sort) :: rest).lookup m = rest.lookup m := by
    rw [List.lookup_cons, beq_false_of_ne hm]
  constructor
  · rintro ⟨h, hdiffer, hknown⟩
    rw [← hothers m hm, ← hints m hm, hlookup] at hknown
    exact ⟨hlisted.mp h, hdiffer, hknown⟩
  · rintro ⟨h, hdiffer, hknown⟩
    rw [hothers m hm, hints m hm, ← hlookup] at hknown
    exact ⟨hlisted.mpr h, hdiffer, hknown⟩

theorem refused_cons (hn : ∀ first second, Refused s ints ((n, sort) :: rest) n first second ↔
      Refused t ints' rest n first second) :
    Refused s ints ((n, sort) :: rest) m first second ↔ Refused t ints' rest m first second := by
  by_cases hm : m = n
  · subst hm
    exact hn first second
  · exact refused_cons_of_ne hothers hints hm

end step

theorem refused_cons_known (hn : s.sorts n = some sort) :
    Refused s ints ((n, sort) :: rest) m first second ↔ Refused s ints rest m first second := by
  apply refused_cons (fun _ _ => rfl) (fun _ _ => Iff.rfl)
  intro first second
  constructor
  · rintro ⟨hlisted, hdiffer, hknown⟩
    have hfirst : first = sort := by simpa [hn, eq_comm] using hknown
    subst hfirst
    exact ⟨by simpa [hdiffer.symm] using hlisted, hdiffer, .inl hn⟩
  · rintro ⟨hlisted, hdiffer, hknown⟩
    have hfirst : first = sort := by simpa [hn, eq_comm] using hknown
    subst hfirst
    exact ⟨List.mem_cons_of_mem _ hlisted, hdiffer, .inl hn⟩

theorem refused_cons_waiting (hn : s.sorts n = none) (hmem : n ∈ ints) :
    Refused s ints ((n, sort) :: rest) m first second ↔ Refused s ints rest m first second := by
  apply refused_cons (fun _ _ => rfl) (fun _ _ => Iff.rfl)
  intro first second
  constructor <;> rintro ⟨-, -, hknown⟩ <;> simp [hn, hmem] at hknown

theorem refused_cons_bool (hn : s.sorts n = none) (hmem : n ∉ ints) (ht : t.sorts n = some .bool)
    (hothers : ∀ m, m ≠ n → t.sorts m = s.sorts m) :
    Refused s ints ((n, .bool) :: rest) m first second ↔ Refused t ints rest m first second := by
  apply refused_cons hothers (fun _ _ => Iff.rfl)
  intro first second
  constructor
  · rintro ⟨hlisted, hdiffer, hknown⟩
    have hfirst : first = .bool := by simpa [hn, hmem] using hknown
    subst hfirst
    exact ⟨by simpa [hdiffer.symm] using hlisted, hdiffer, .inl ht⟩
  · rintro ⟨hlisted, hdiffer, hknown⟩
    have hfirst : first = .bool := by simpa [ht, eq_comm] using hknown
    subst hfirst
    exact ⟨List.mem_cons_of_mem _ hlisted, hdiffer, .inr ⟨hn, hmem, rfl, by simp⟩⟩

theorem refused_cons_int (hn : s.sorts n = none) :
    Refused s ints ((n, .int) :: rest) m first second ↔
      Refused s (ints ++ [n]) rest m first second := by
  apply refused_cons (fun _ _ => rfl) (fun m hm => by simp [hm])
  intro first second
  constructor <;> rintro ⟨-, -, hknown⟩ <;> simp [hn] at hknown

theorem symbol_bool_new (hs : s.Valid) (hn : s.sorts n = none) :
    ∃ u t, symbol n .bool s = (.ok u, t) ∧ t.Valid ∧ t.sorts n = some .bool ∧
      ∀ m, m ≠ n → t.sorts m = s.sorts m := by
  have hheeds : s.Heeds fun m => (s.sorts m).getD .bool := by
    intro m u hu
    simp [sorts, hu]
  obtain ⟨u, t, hrun, -⟩ := (symbol_screened n .bool).accepted (by simp [hn]) s hheeds
  have hruns := symbol_runs hs n .bool
  obtain ⟨hu, hsort, hothers⟩ := hruns.result u (by rw [hrun])
  have hgrows := hruns.grows
  rw [hrun] at hu hothers hgrows
  refine ⟨u, t, hrun, hgrows.valid, ?_, fun m hm => ?_⟩
  · rw [sorts, hu, Option.map_some, hsort]
  · rw [sorts, sorts, hothers m hm]

theorem announce_cases (hs : s.Valid) (ints : List String) (names : List TypedName) :
    (∃ n first second t, announce ints names s = (.error (.sortClash n first second), t) ∧
        Refused s ints names n first second) ∨
      ∃ ints' t, announce ints names s = (.ok ints', t) ∧
        ∀ n first second, ¬Refused s ints names n first second := by
  induction names generalizing s ints with
  | nil =>
    refine .inr ⟨ints, s, rfl, ?_⟩
    rintro n first second ⟨hlisted, -, -⟩
    cases hlisted
  | cons p rest ih =>
    obtain ⟨n, sort⟩ := p
    rw [announce_cons]
    cases hsymbol : s.symbols.get? n with
    | some u =>
      have hn : s.sorts n = some u.sort := by rw [sorts, hsymbol, Option.map_some]
      dsimp only
      by_cases hsort : u.sort = sort
      · subst hsort
        simp only [if_true, refused_cons_known hn]
        exact ih hs ints
      · rw [if_neg hsort]
        exact .inl ⟨n, u.sort, sort, s, rfl, List.mem_cons_self, hsort, .inl hn⟩
    | none =>
      have hn : s.sorts n = none := by rw [sorts, hsymbol, Option.map_none]
      dsimp only
      by_cases hmem : n ∈ ints
      · simp only [if_pos hmem, refused_cons_waiting hn hmem]
        exact ih hs ints
      rw [if_neg hmem]
      cases sort with
      | bool =>
        obtain ⟨u, t, hrun, ht, htn, hothers⟩ := symbol_bool_new hs hn
        dsimp only
        simp only [Session.bind_ok hrun, refused_cons_bool hn hmem htn hothers]
        exact ih ht ints
      | int =>
        simp only [refused_cons_int hn]
        exact ih hs (ints ++ [n])

theorem bindColumns_ok (rows : List (List Edge)) (i : Nat) (names : List String) (s : BitSolver) :
    ∃ t, bindColumns rows i names s = (.ok (), t) := by
  induction names generalizing s i with
  | nil => exact ⟨s, rfl⟩
  | cons n names ih => exact ih (i + 1) _

theorem declare_cases (hs : s.Valid) (names : List TypedName) :
    (∃ n first second t, declare names s = (.error (.sortClash n first second), t) ∧
        Refused s [] names n first second) ∨
      ∃ t, declare names s = (.ok (), t) ∧
        ∀ n first second, ¬Refused s [] names n first second := by
  obtain ⟨n, first, second, t, hrun, hrefused⟩ | ⟨ints, t, hrun, hnone⟩ := announce_cases hs [] names
  · refine .inl ⟨n, first, second, t, ?_, hrefused⟩
    rw [declare, Session.bind_error hrun]
  · have hget : (get : Request BitSolver BitSolver) t = (.ok t, t) := rfl
    obtain ⟨rows, u, hrows, -⟩ := freshPlaces_free ints.length t.width t
    obtain ⟨v, hv⟩ := bindColumns_ok rows 0 ints u
    refine .inr ⟨v, ?_, hnone⟩
    rw [declare, Session.bind_ok hrun, Session.bind_ok hget, Session.bind_ok hrows, hv]

/-- The two ways in which a name is refused. -/
theorem exists_refused_iff {names : List TypedName} :
    (∃ n first second, Refused s [] names n first second) ↔
      (∃ n first second, s.sorts n = some first ∧ (n, second) ∈ names ∧ first ≠ second) ∨
      ∃ n, s.sorts n = none ∧ names.lookup n = some .bool ∧ (n, .int) ∈ names := by
  constructor
  · rintro ⟨n, first, second, hlisted, hdiffer, hknown | ⟨hnone, -, rfl, hlookup⟩⟩
    · exact .inl ⟨n, first, second, hknown, hlisted, hdiffer⟩
    · cases second with
      | bool => exact absurd rfl hdiffer
      | int => exact .inr ⟨n, hnone, hlookup, hlisted⟩
  · rintro (⟨n, first, second, hknown, hlisted, hdiffer⟩ | ⟨n, hnone, hlookup, hlisted⟩)
    · exact ⟨n, first, second, hlisted, hdiffer, .inl hknown⟩
    · exact ⟨n, .bool, .int, hlisted, by simp, .inr ⟨hnone, by simp, rfl, hlookup⟩⟩

/-- After a declaration, a name has the sort at which it is listed, unless it is new and was listed as
an integer before. -/
theorem sorts_of_declare {names : List TypedName} (hs : s.Valid) (hrun : declare names s = (.ok (), t))
    (hlisted : (n, sort) ∈ names) : t.sorts n = some sort ∨
      s.sorts n = none ∧ names.lookup n = some .int ∧ sort = .bool ∧ t.sorts n = some .int := by
  have hruns := declare_runs hs names
  have hgrows := hruns.grows
  have hsorts := hruns.result ()
  rw [hrun] at hgrows hsorts
  obtain ⟨first, hfirst⟩ := exists_lookup_of_mem hlisted
  have ht := hsorts rfl n first hfirst
  by_cases hsame : first = sort
  · exact .inl (hsame ▸ ht)
  have hnot : ¬Refused s [] names n first sort := by
    obtain ⟨_, _, _, _, herror, -⟩ | ⟨_, -, hnone⟩ := declare_cases hs names
    · rw [hrun] at herror
      cases herror
    · exact hnone n first sort
  cases hknown : s.sorts n with
  | some known =>
    obtain rfl : known = first := Option.some.inj ((hgrows.sorts n known hknown).symm.trans ht)
    exact absurd ⟨hlisted, hsame, .inl hknown⟩ hnot
  | none =>
    cases first with
    | bool => exact absurd ⟨hlisted, hsame, .inr ⟨hknown, by simp, rfl, hfirst⟩⟩ hnot
    | int =>
      cases sort with
      | bool => exact .inr ⟨rfl, hfirst, rfl, ht⟩
      | int => exact absurd rfl hsame

/-- A list is refused exactly if it has a name at another sort than the table, or a name that is not in
the table first as a boolean and later as an integer. The error names a variable with both its sorts.
Otherwise every name of the list has its sort in the table afterwards, but for a new name that was
listed as an integer before: this is an integer, whatever else the list says. A variable that was in the
table keeps its bits, and the bits their meaning. -/
theorem declare_refused_iff {width limit : Nat} {s₀ : BitSolver} (hs₀ : create width limit = .ok s₀)
    (commands : List Command) (names : List TypedName) :
    let s := (s₀.execute commands).1
    let after := declare names s
    ((∃ err, after.1 = .error err) ↔
        (∃ n first second, s.sorts n = some first ∧ (n, second) ∈ names ∧ first ≠ second) ∨
        ∃ n, s.sorts n = none ∧ names.lookup n = some .bool ∧ (n, .int) ∈ names) ∧
      (∀ err, after.1 = .error err → ∃ n first second, err = .sortClash n first second ∧
        first ≠ second ∧ (n, second) ∈ names ∧
        (s.sorts n = some first ∨ s.sorts n = none ∧ names.lookup n = some first)) ∧
      (after.1 = .ok () → ∀ n sort, (n, sort) ∈ names → after.2.sorts n = some sort ∨
        s.sorts n = none ∧ names.lookup n = some .int ∧ sort = .bool ∧
          after.2.sorts n = some .int) ∧
      ∀ n t, s.symbols.get? n = some t → after.2.symbols.get? n = some t ∧
        ∀ e ∈ t.bits, ∀ α, after.2.store.truth α e = s.store.truth α e := by
  obtain ⟨-, -, hkeeps, -⟩ := keeps_of_create hs₀ commands
  have hs := hkeeps.valid
  have hgrows := (declare_runs hs names).grows
  refine ⟨?_, ?_, ?_, fun n t ht => ⟨hgrows.symbols n t ht, fun e he α => ?_⟩⟩
  · rw [← exists_refused_iff]
    obtain ⟨n, first, second, t, hrun, hrefused⟩ | ⟨t, hrun, hnone⟩ := declare_cases hs names
    · rw [hrun]
      exact ⟨fun _ => ⟨n, first, second, hrefused⟩, fun _ => ⟨_, rfl⟩⟩
    · rw [hrun]
      simp [hnone]
  · intro err herr
    obtain ⟨n, first, second, t, hrun, hlisted, hdiffer, hknown⟩ | ⟨t, hrun, -⟩ :=
      declare_cases hs names
    · rw [hrun] at herr
      cases herr
      refine ⟨n, first, second, rfl, hdiffer, hlisted, hknown.imp_right ?_⟩
      rintro ⟨hnone, -, rfl, hlookup⟩
      exact ⟨hnone, hlookup⟩
    · rw [hrun] at herr
      cases herr
  · intro hok n sort hlisted
    exact sorts_of_declare hs (Prod.ext hok rfl) hlisted
  · exact hgrows.store.truth hs.store α ((hs.stored ht).has e he)

/-- With a boolean in the table, a list that has it as an integer is refused, a new integer is entered,
and a name that is listed at both sorts is refused if the boolean comes first. -/
theorem declare_refused_iff_flagged :
    ∃ s₀, create 2 100 = .ok s₀ ∧
      let s := (s₀.execute [.assert (.boolVar "a")]).1
      s.sorts "a" = some .bool ∧ (∃ err, (declare [("x", .int), ("a", .int)] s).1 = .error err) ∧
        (∃ err, (declare [("x", .bool), ("x", .int)] s).1 = .error err) ∧
        (declare [("x", .int), ("a", .bool)] s).1 = .ok () ∧
        (declare [("x", .int), ("a", .bool)] s).2.sorts "x" = some .int := by
  have hcreate : create 2 100 = .ok (fresh 2 100) := rfl
  refine ⟨fresh 2 100, hcreate, by decide +kernel, ?_, ?_, by decide +kernel, by decide +kernel⟩
  · exact (declare_refused_iff hcreate _ _).1.mpr
      (.inl ⟨"a", .bool, .int, by decide +kernel, by simp, by simp⟩)
  · exact (declare_refused_iff hcreate _ _).1.mpr
      (.inr ⟨"x", by decide +kernel, by simp, by simp⟩)

/-- A name that is listed first as an integer and then as a boolean is accepted, while the other order
is refused. -/
theorem declare_overlooks_clash :
    ∃ s₀, create 2 100 = .ok s₀ ∧
      (declare [("x", .int), ("x", .bool)] (s₀.execute []).1).1 = .ok () ∧
      (declare [("x", .int), ("x", .bool)] (s₀.execute []).1).2.sorts "x" = some .int ∧
      (declare [("x", .bool), ("x", .int)] (s₀.execute []).1).1 =
        .error (.sortClash "x" .bool .int) :=
  ⟨fresh 2 100, rfl, by decide +kernel, by decide +kernel, by decide +kernel⟩

end InvariantSynthesis.BitSolver
