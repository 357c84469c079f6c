import InvariantSynthesis.Expr.Sorting
import InvariantSynthesis.Proofs.Expr.Building

namespace InvariantSynthesis

abbrev Valuation := String → ValueSort → Value

namespace Value

def truth : Value → Bool
  | .bool b => b
  | .int _ => false

def number : Value → Int
  | .int k => k
  | .bool _ => 0

@[simp] theorem truth_bool (b : Bool) : (Value.bool b).truth = b := rfl
@[simp] theorem truth_int (k : Int) : (Value.int k).truth = false := rfl
@[simp] theorem number_int (k : Int) : (Value.int k).number = k := rfl
@[simp] theorem number_bool (b : Bool) : (Value.bool b).number = 0 := rfl

/-- A value of a sort; integers are in a range. -/
def Within (s : ValueSort) (range : Int × Int) : Value → Prop
  | .bool _ => s = .bool
  | .int k => s = .int ∧ range.1 ≤ k ∧ k ≤ range.2

theorem Within.sort_eq {s : ValueSort} {range : Int × Int} {v : Value} (h : v.Within s range) :
    v.sort = s := by
  cases v with
  | bool b => exact Eq.symm h
  | int k => exact h.1.symm

end Value

/-- Every variable has a value of the sort it is used at, with integers in a range. -/
def Valuation.InRange (ρ : Valuation) (range : Int × Int) : Prop :=
  ∀ n s, (ρ n s).Within s range

namespace Expr

mutual

def value (ρ : Valuation) : Expr → Value
  | .bool b => .bool b
  | .int k => .int k
  | .var n s => ρ n s
  | .not a => .bool !(value ρ a).truth
  | .and args => .bool (all ρ args)
  | .or args => .bool (any ρ args)
  | .implies a b => .bool (!(value ρ a).truth || (value ρ b).truth)
  | .neg a => .int (-(value ρ a).number)
  | .add args => .int (total ρ args)
  | .sub a b => .int ((value ρ a).number - (value ρ b).number)
  | .mul k a => .int (k * (value ρ a).number)
  | .eq a b => .bool (decide (value ρ a = value ρ b))
  | .le a b => .bool (decide ((value ρ a).number ≤ (value ρ b).number))
  | .lt a b => .bool (decide ((value ρ a).number < (value ρ b).number))
  | .ite c a b => if (value ρ c).truth then value ρ a else value ρ b

def all (ρ : Valuation) : List Expr → Bool
  | [] => true
  | a :: as => (value ρ a).truth && all ρ as

def any (ρ : Valuation) : List Expr → Bool
  | [] => false
  | a :: as => (value ρ a).truth || any ρ as

def total (ρ : Valuation) : List Expr → Int
  | [] => 0
  | a :: as => (value ρ a).number + total ρ as

end

attribute [local simp] value all any total

def holds (ρ : Valuation) (e : Expr) : Bool := (e.value ρ).truth

def number (ρ : Valuation) (e : Expr) : Int := (e.value ρ).number

variable {ρ σ : Valuation}

theorem all_eq (ρ : Valuation) (args : List Expr) : all ρ args = args.all (holds ρ) := by
  induction args with
  | nil => rfl
  | cons a as ih => rw [all, ih, List.all_cons, holds]

theorem any_eq (ρ : Valuation) (args : List Expr) : any ρ args = args.any (holds ρ) := by
  induction args with
  | nil => rfl
  | cons a as ih => rw [any, ih, List.any_cons, holds]

theorem total_append (ρ : Valuation) (as bs : List Expr) :
    total ρ (as ++ bs) = total ρ as + total ρ bs := by
  induction as with
  | nil => simp [total]
  | cons a as ih => simp [total, ih, Int.add_assoc]

theorem bind_var (e : Expr) : e.bind .var = e := by
  induction e with
  | bool | int | var => rfl
  | not a ih | neg a ih | mul k a ih => rw [bind, ih]
  | and args ih | or args ih | add args ih =>
    rw [bind, bindAll_eq, List.map_congr_left ih, List.map_id']
  | implies a b iha ihb | sub a b iha ihb | eq a b iha ihb | le a b iha ihb | lt a b iha ihb =>
    rw [bind, iha, ihb]
  | ite c a b ihc iha ihb => rw [bind, ihc, iha, ihb]

theorem lists_bind {f : String → ValueSort → Expr} {args : List Expr}
    (h : ∀ a ∈ args, (a.bind f).value ρ = a.value σ) :
    all ρ (bindAll f args) = all σ args ∧ any ρ (bindAll f args) = any σ args ∧
      total ρ (bindAll f args) = total σ args := by
  induction args with
  | nil => exact ⟨rfl, rfl, rfl⟩
  | cons a as ih =>
    obtain ⟨hall, hany, htotal⟩ := ih fun b hb => h b (List.mem_cons_of_mem _ hb)
    rw [bindAll, all, any, total, all, any, total, h a (by simp), hall, hany, htotal]
    exact ⟨rfl, rfl, rfl⟩

/-- A replacement has the value that the expression has where each variable that occurs has the value
of what replaces it. -/
theorem value_bind {f : String → ValueSort → Expr} {e : Expr}
    (h : ∀ p ∈ e.occurrences, (f p.1 p.2).value ρ = σ p.1 p.2) :
    (e.bind f).value ρ = e.value σ := by
  induction e with
  | bool | int => rfl
  | var n s => exact h (n, s) (by simp [occurrences])
  | not a ih | neg a ih | mul k a ih => rw [bind, value, value, ih h]
  | and args ih | or args ih | add args ih =>
    rw [occurrences, occurrencesAll_eq] at h
    obtain ⟨hall, hany, htotal⟩ := lists_bind fun a ha =>
      ih a ha fun p hp => h p (List.mem_flatMap.mpr ⟨a, ha, hp⟩)
    simp only [bind, value, hall, hany, htotal]
  | implies a b iha ihb | sub a b iha ihb | eq a b iha ihb | le a b iha ihb | lt a b iha ihb =>
    rw [occurrences] at h
    rw [bind, value, value, iha fun p hp => h p (List.mem_append_left _ hp),
      ihb fun p hp => h p (List.mem_append_right _ hp)]
  | ite c a b ihc iha ihb =>
    rw [occurrences, List.append_assoc] at h
    rw [bind, value, value, ihc fun p hp => h p (List.mem_append_left _ hp),
      iha fun p hp => h p (List.mem_append_right _ (List.mem_append_left _ hp)),
      ihb fun p hp => h p (List.mem_append_right _ (List.mem_append_right _ hp))]

theorem value_congr {e : Expr} (h : ∀ p ∈ e.occurrences, ρ p.1 p.2 = σ p.1 p.2) :
    e.value ρ = e.value σ := by
  have hbind : (e.bind .var).value ρ = e.value σ := value_bind h
  rwa [bind_var] at hbind

section build

variable (ρ : Valuation)

@[simp]
theorem holds_bool (b : Bool) : holds ρ (.bool b) = b := by simp [holds, value]

@[simp]
theorem number_int (k : Int) : number ρ (.int k) = k := by simp [number, value]

@[simp]
theorem holds_not (e : Expr) : holds ρ (.not e) = !holds ρ e := by simp [holds, value]

@[simp]
theorem holds_and (args : List Expr) : holds ρ (.and args) = args.all (holds ρ) := by
  rw [holds, value, all_eq, Value.truth_bool]

@[simp]
theorem holds_or (args : List Expr) : holds ρ (.or args) = args.any (holds ρ) := by
  rw [holds, value, any_eq, Value.truth_bool]

@[simp]
theorem holds_le (a b : Expr) : holds ρ (.le a b) = decide (number ρ a ≤ number ρ b) := by
  rw [holds, value]
  rfl

@[simp]
theorem holds_lt (a b : Expr) : holds ρ (.lt a b) = decide (number ρ a < number ρ b) := by
  rw [holds, value]
  rfl

@[simp]
theorem holds_eq (a b : Expr) : holds ρ (.eq a b) = decide (a.value ρ = b.value ρ) := by
  simp [holds, value]

@[simp]
theorem holds_implies (a b : Expr) : holds ρ (.implies a b) = (!holds ρ a || holds ρ b) := by
  simp [holds, value]

@[simp]
theorem holds_negate (e : Expr) : holds ρ (negate e) = !holds ρ e := by
  unfold negate
  split <;> simp

theorem conjuncts_spec (items : List Expr) :
    match conjuncts items with
    | none => items.all (holds ρ) = false
    | some args => args.all (holds ρ) = items.all (holds ρ) := by
  fun_induction conjuncts items <;> grind [holds_bool, holds_and]

@[simp]
theorem holds_conj (items : List Expr) : holds ρ (conj items) = items.all (holds ρ) := by
  have h := conjuncts_spec ρ items
  unfold conj
  split <;> simp_all

theorem holds_both {ρ : Valuation} {a b : Expr} :
    holds ρ (conj [a, b]) = true ↔ holds ρ a = true ∧ holds ρ b = true := by
  simp

theorem holds_exceeds {ρ : Valuation} {a b : Expr} :
    holds ρ (exceeds a b) = true ↔ number ρ b < number ρ a := by
  simp [exceeds]

theorem disjuncts_spec (items : List Expr) :
    match disjuncts items with
    | none => items.any (holds ρ) = true
    | some args => args.any (holds ρ) = items.any (holds ρ) := by
  fun_induction disjuncts items <;> grind [holds_bool, holds_or]

@[simp]
theorem holds_disj (items : List Expr) : holds ρ (disj items) = items.any (holds ρ) := by
  have h := disjuncts_spec ρ items
  unfold disj
  split <;> simp_all

@[simp]
theorem holds_imply (a b : Expr) : holds ρ (imply a b) = (!holds ρ a || holds ρ b) := by
  unfold imply
  split <;> simp

@[simp]
theorem number_opposite (e : Expr) : number ρ (opposite e) = -number ρ e := by
  unfold opposite
  split
  · split
    · rename_i k n h
      have := Bounded.check_eq_some.mp h
      simp [this.1]
    · simp [number, value]
  · simp [number, value]
  · simp [number, value]

theorem total_summands (e : Expr) : total ρ (summands e) = number ρ e := by
  unfold summands
  split
  · split <;> simp_all [total, number, value]
  · simp [number, value]
  · simp [total, number]

@[simp]
theorem number_sum (items : List Expr) : number ρ (sum items) = total ρ items := by
  have h : total ρ (items.flatMap summands) = total ρ items := by
    induction items with
    | nil => rfl
    | cons e rest ih => rw [List.flatMap_cons, total_append, ih, total_summands, total, number]
  rw [← h]
  unfold sum
  split
  · rename_i heq
    simp [heq, total]
  · rename_i heq
    simp [heq, total, number]
  · simp [number, value]

@[simp]
theorem number_minus (a b : Expr) : number ρ (minus a b) = number ρ a - number ρ b := by
  unfold minus
  split
  · split <;> simp_all [number, value]
  · simp [number, value]

@[simp]
theorem number_scale (k : Int) (e : Expr) : number ρ (scale k e) = k * number ρ e := by
  unfold scale
  split
  · simp_all
  · split
    · simp_all
    · split
      · simp_all
      · split
        · split
          · rename_i h
            have := Bounded.check_eq_some.mp h
            simp [this.1]
          · simp [number, value]
        · simp [number, value]

end build

end Expr

end InvariantSynthesis
