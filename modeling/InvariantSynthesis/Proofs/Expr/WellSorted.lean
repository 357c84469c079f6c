import InvariantSynthesis.Proofs.Expr.Value

namespace InvariantSynthesis

namespace Expr

/-- The expression has a sort, and all its variables have the sorts that were fixed for their
names. -/
structure WellSorted (Γ : String → ValueSort) (e : Expr) (sort : ValueSort) : Prop where
  known : ∀ p ∈ e.occurrences, Γ p.1 = p.2
  sort : e.sort? = some sort

namespace WellSorted

variable {Γ : String → ValueSort} {a b c e : Expr} {args : List Expr} {σ τ sort : ValueSort}

theorem of_if {p : Prop} [Decidable p] (h : e.WellSorted Γ sort)
    (hsort : e.sort? = if p then some τ else none) : p ∧ τ = sort := by
  have hif := hsort.symm.trans h.sort
  split at hif
  · exact ⟨by assumption, Option.some.inj hif⟩
  · cases hif

theorem operand (h : e.WellSorted Γ sort) (hocc : e.occurrences = a.occurrences)
    (hsort : e.sort? = if a.sort? = some σ then some τ else none) :
    a.WellSorted Γ σ ∧ τ = sort := by
  obtain ⟨ha, hτ⟩ := h.of_if hsort
  exact ⟨⟨hocc ▸ h.known, ha⟩, hτ⟩

theorem operands (h : e.WellSorted Γ sort) (hocc : e.occurrences = a.occurrences ++ b.occurrences)
    (hsort : e.sort? = if a.sort? = some σ ∧ b.sort? = some σ then some τ else none) :
    (a.WellSorted Γ σ ∧ b.WellSorted Γ σ) ∧ τ = sort := by
  obtain ⟨⟨ha, hb⟩, hτ⟩ := h.of_if hsort
  refine ⟨⟨⟨fun p hp => h.known p ?_, ha⟩, ⟨fun p hp => h.known p ?_, hb⟩⟩, hτ⟩
  · simp [hocc, hp]
  · simp [hocc, hp]

theorem all (h : e.WellSorted Γ sort) (hocc : e.occurrences = occurrencesAll args)
    (hsort : e.sort? = if allOfSort σ args then some τ else none) :
    (∀ a ∈ args, a.WellSorted Γ σ) ∧ τ = sort := by
  obtain ⟨hargs, hτ⟩ := h.of_if hsort
  refine ⟨fun a ha => ⟨fun p hp => h.known p ?_, (allOfSort_iff σ args).mp hargs a ha⟩, hτ⟩
  rw [hocc, occurrencesAll_eq]
  exact List.mem_flatMap.mpr ⟨a, ha, hp⟩

theorem sides (h : (Expr.eq a b).WellSorted Γ sort) :
    (a.WellSorted Γ (a.sort?.getD .bool) ∧ b.WellSorted Γ (a.sort?.getD .bool)) ∧ .bool = sort := by
  have hsort := h.sort
  have hknown : ∀ p ∈ a.occurrences ++ b.occurrences, Γ p.1 = p.2 := h.known
  cases ha : a.sort? with
  | none => simp [sort?, ha] at hsort
  | some s =>
    cases hb : b.sort? with
    | none => simp [sort?, ha, hb] at hsort
    | some t =>
      rw [sort?, ha, hb] at hsort
      dsimp only at hsort
      split at hsort
      · rename_i hst
        refine ⟨⟨⟨fun p hp => hknown p ?_, ha⟩, ⟨fun p hp => hknown p ?_, ?_⟩⟩, Option.some.inj hsort⟩
        · simp [hp]
        · simp [hp]
        · rw [hb, ← hst]
          rfl
      · cases hsort

theorem choice (h : (Expr.ite c a b).WellSorted Γ sort) :
    c.WellSorted Γ .bool ∧ a.WellSorted Γ sort ∧ b.WellSorted Γ sort := by
  have hsort := h.sort
  have hknown : ∀ p ∈ c.occurrences ++ a.occurrences ++ b.occurrences, Γ p.1 = p.2 := h.known
  cases ha : a.sort? with
  | none => simp [sort?, ha] at hsort
  | some s =>
    rw [sort?, ha] at hsort
    dsimp only at hsort
    split at hsort
    · rename_i hcb
      cases hsort
      refine ⟨⟨fun p hp => hknown p ?_, hcb.1⟩, ⟨fun p hp => hknown p ?_, ha⟩,
        ⟨fun p hp => hknown p ?_, hcb.2⟩⟩ <;> simp [hp]
    · cases hsort

section building

theorem bool (b : Bool) : (Expr.bool b).WellSorted Γ .bool :=
  ⟨by simp [occurrences], rfl⟩

theorem int (k : Int) : (Expr.int k).WellSorted Γ .int :=
  ⟨by simp [occurrences], rfl⟩

theorem intVar {n : String} (h : Γ n = .int) : (Expr.intVar n).WellSorted Γ .int := by
  refine ⟨?_, rfl⟩
  simpa [Expr.intVar, occurrences] using h

theorem of_operand (ha : a.WellSorted Γ σ) (hocc : e.occurrences = a.occurrences)
    (hsort : e.sort? = if a.sort? = some σ then some τ else none) : e.WellSorted Γ τ :=
  ⟨hocc ▸ ha.known, by rw [hsort, if_pos ha.sort]⟩

theorem of_operands (ha : a.WellSorted Γ σ) (hb : b.WellSorted Γ σ)
    (hocc : e.occurrences = a.occurrences ++ b.occurrences)
    (hsort : e.sort? = if a.sort? = some σ ∧ b.sort? = some σ then some τ else none) :
    e.WellSorted Γ τ := by
  refine ⟨fun p hp => ?_, by rw [hsort, if_pos ⟨ha.sort, hb.sort⟩]⟩
  rw [hocc] at hp
  exact (List.mem_append.mp hp).elim (ha.known p) (hb.known p)

theorem of_all (hargs : ∀ a ∈ args, a.WellSorted Γ σ) (hocc : e.occurrences = occurrencesAll args)
    (hsort : e.sort? = if allOfSort σ args then some τ else none) : e.WellSorted Γ τ := by
  refine ⟨fun p hp => ?_, ?_⟩
  · rw [hocc, occurrencesAll_eq] at hp
    obtain ⟨a, ha, hp⟩ := List.mem_flatMap.mp hp
    exact (hargs a ha).known p hp
  · rw [hsort, if_pos ((allOfSort_iff σ args).mpr fun a ha => (hargs a ha).sort)]

theorem atLeast (ha : a.WellSorted Γ .int) (hb : b.WellSorted Γ .int) :
    (Expr.atLeast a b).WellSorted Γ .bool :=
  of_operands hb ha rfl rfl

theorem exceeds (ha : a.WellSorted Γ .int) (hb : b.WellSorted Γ .int) :
    (Expr.exceeds a b).WellSorted Γ .bool :=
  of_operands hb ha rfl rfl

theorem logical (Γ : String → ValueSort) : Logical (WellSorted Γ · .bool) where
  bool := bool
  not_iff {a} := ⟨fun h => (h.operand (a := a) (σ := .bool) rfl rfl).1, fun h => of_operand h rfl rfl⟩
  and_iff := ⟨fun h => (h.all rfl rfl).1, fun h => of_all h rfl rfl⟩
  or_iff := ⟨fun h => (h.all rfl rfl).1, fun h => of_all h rfl rfl⟩
  implies ha hb := of_operands ha hb rfl rfl

theorem arithmetical (Γ : String → ValueSort) : Arithmetical (WellSorted Γ · .int) where
  int := int
  neg_iff {a} := ⟨fun h => (h.operand (a := a) (σ := .int) rfl rfl).1, fun h => of_operand h rfl rfl⟩
  add_iff := ⟨fun h => (h.all rfl rfl).1, fun h => of_all h rfl rfl⟩
  sub ha hb := of_operands ha hb rfl rfl
  mul _ h := of_operand h rfl rfl

end building

end WellSorted

end Expr

end InvariantSynthesis
