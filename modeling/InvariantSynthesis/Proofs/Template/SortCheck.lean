import InvariantSynthesis.Proofs.Template.Flow

namespace InvariantSynthesis

/-- The procedures allow the use of a variable. The first of them that mentions its name decides on
the sort, and a name that none of them mentions has no sort. -/
def Procedure.Allow (ps : List Procedure) (p : TypedName) : Prop :=
  ∀ sort ∈ (ps.flatMap Procedure.symbols).lookup p.1, p.2 = sort

instance (ps : List Procedure) (p : TypedName) : Decidable (Procedure.Allow ps p) :=
  inferInstanceAs (Decidable (∀ sort ∈ (ps.flatMap Procedure.symbols).lookup p.1, p.2 = sort))

namespace Expr

/-- The variable occurs, and its name does not occur after it. -/
def UsedLast (e : Expr) (p : TypedName) : Prop :=
  ∃ before after, e.occurrences = before ++ p :: after ∧ ∀ q ∈ after, q.1 ≠ p.1

/-- No name is used at two sorts. -/
def Uniform (e : Expr) : Prop :=
  ∀ p ∈ e.occurrences, ∀ q ∈ e.occurrences, p.1 = q.1 → p.2 = q.2

instance (e : Expr) : Decidable e.Uniform :=
  inferInstanceAs (Decidable (∀ p ∈ e.occurrences, ∀ q ∈ e.occurrences, p.1 = q.1 → p.2 = q.2))

variable {e : Expr} {p : TypedName}

theorem get?_symbols : e.symbols.get? p.1 = some p.2 ↔ e.UsedLast p := by
  rw [symbols, Table.get?_ofList_eq, List.lookup_eq_some_iff]
  constructor
  · rintro ⟨after, before, hocc, hafter⟩
    refine ⟨before.reverse, after.reverse, ?_, fun q hq => ?_⟩
    · rw [← List.reverse_reverse e.occurrences, hocc]
      simp
    · have hne := bne_iff_ne.mp (hafter q (List.mem_reverse.mp hq))
      exact hne.symm
  · rintro ⟨before, after, hocc, hafter⟩
    refine ⟨after.reverse, before.reverse, by simp [hocc], fun q hq => ?_⟩
    have hne := hafter q (List.mem_reverse.mp hq)
    exact bne_iff_ne.mpr hne.symm

theorem UsedLast.mem (h : e.UsedLast p) : p ∈ e.occurrences := by
  obtain ⟨before, after, hocc, -⟩ := h
  simp [hocc]

theorem Uniform.usedLast (h : e.Uniform) (hp : p ∈ e.occurrences) : e.UsedLast p := by
  obtain ⟨sort, hsort, hmem⟩ := mem_symbols hp
  have hsame : sort = p.2 := h _ hmem p hp rfl
  rw [← get?_symbols, ← hsame]
  exact Table.find_of_mem e.symbols.sorted hsort

end Expr

namespace LoopSystem

variable {e : Expr} {sort : ValueSort}

theorem getD_declared {ps : List Procedure} {p : TypedName} :
    ((ofProcedures ps).declared p.1).getD p.2 = p.2 ↔ Procedure.Allow ps p := by
  rw [declared_eq, Procedure.Allow]
  cases (ps.flatMap Procedure.symbols).lookup p.1 with
  | none => simp
  | some t => simp [eq_comm]

theorem checkSort_iff_usedLast {ps : List Procedure} :
    (ofProcedures ps).checkSort e sort = .ok () ↔
      e.sort? = some sort ∧ ∀ p, e.UsedLast p → Procedure.Allow ps p := by
  rw [checkSort_iff]
  apply and_congr_right
  intro _
  constructor
  · intro h p hp
    exact getD_declared.mp (h p (Table.mem_of_find (Expr.get?_symbols.mpr hp)))
  · intro h p hp
    exact getD_declared.mpr (h p (Expr.get?_symbols.mp (Table.find_of_mem e.symbols.sorted hp)))

/-- What the check of sorts accepts, for any procedures: the expression has the expected sort and no
wrong operand, and the last use of every name is one that the procedures allow. If no name is used at
two sorts, this is to say that all uses of all variables are allowed. -/
theorem checkSort_reads_last_uses (ps : List Procedure) (e : Expr) (sort : ValueSort) :
    ((ofProcedures ps).checkSort e sort = .ok () ↔
      e.sort? = some sort ∧ ∀ p, e.UsedLast p → Procedure.Allow ps p) ∧
    (e.Uniform → ((ofProcedures ps).checkSort e sort = .ok () ↔
      e.sort? = some sort ∧ ∀ p ∈ e.occurrences, Procedure.Allow ps p)) := by
  refine ⟨checkSort_iff_usedLast, fun huniform => checkSort_iff_usedLast.trans ?_⟩
  apply and_congr_right
  intro _
  constructor
  · intro h p hp
    exact h p (huniform.usedLast hp)
  · intro h p hp
    exact h p hp.mem

def flag : Procedure where
  name := "flag"
  inputs := [("x", .bool)]

def flagged : Expr := .ite (.boolVar "x") (.intVar "y") (.int 0)

theorem checkSort_reads_last_uses_flagged : flagged.Uniform ∧
    (ofProcedures [flag]).checkSort flagged .int = .ok () ∧
    (ofProcedures [flag]).checkSort flagged .bool ≠ .ok () := by
  have huniform : flagged.Uniform := by decide
  have haccepts := fun sort => (checkSort_reads_last_uses [flag] flagged sort).2 huniform
  refine ⟨huniform, (haccepts .int).mpr (by decide), fun h => ?_⟩
  have hsort := ((haccepts .bool).mp h).1
  revert hsort
  decide

/-- The flag is used as a number first and as a flag after that. -/
def mixed : Expr := .conj [.eq (.intVar "x") (.int 0), .boolVar "x"]

/-- The use as a number is not allowed, but the check looks at the other one. -/
theorem checkSort_overlooks_first_use :
    ¬ ((ofProcedures [flag]).checkSort mixed .bool = .ok () ↔
      mixed.sort? = some .bool ∧ ∀ p ∈ mixed.occurrences, Procedure.Allow [flag] p) := by
  intro h
  have hallow := (h.mp rfl).2 ("x", .int) (by decide)
  revert hallow
  decide

end LoopSystem

end InvariantSynthesis
