import InvariantSynthesis.Proofs.Expr.LinearForm

/-!
Saturating sums. The largest value of a linear form is summed up with a clamp after every product and
every sum, and what a clamp cuts off is missing from the result. So the result is the largest value,
clamped once, only if the amounts cut off cancel out or the sum ends at the end of the range where
they were cut off. Summands of one sign never lead back from there.
-/

namespace InvariantSynthesis

namespace Bounded

variable {a b c k m r : Int}

theorem clamp_nonneg_iff : 0 ≤ clamp k ↔ 0 ≤ k := by
  unfold clamp least greatest
  split_ifs <;> omega

theorem clamp_nonpos_iff : clamp k ≤ 0 ↔ k ≤ 0 := by
  unfold clamp least greatest
  split_ifs <;> omega

theorem clamp_add_clamp (h : 0 ≤ a ∧ 0 ≤ b ∨ a ≤ 0 ∧ b ≤ 0) : clamp (a + clamp b) = clamp (a + b) := by
  unfold clamp least greatest
  split_ifs <;> omega

theorem clamp_mono (h : a ≤ b) : clamp a ≤ clamp b := by
  unfold clamp least greatest
  split_ifs <;> omega

/-- One step up of a saturating sum. If it is too short, it leads to the end of the range, or as far
below it as it started below zero. -/
theorem satAdd_clamp_mem (hk : Fits k) (ha : 0 ≤ a) :
    k ≤ satAdd k (clamp a) ∧ satAdd k (clamp a) ≤ k + a ∧
      (satAdd k (clamp a) = k + a ∨ greatest + min k 0 ≤ satAdd k (clamp a)) := by
  unfold Fits at hk
  unfold satAdd clamp
  unfold least greatest at *
  split_ifs <;> omega

theorem eq_clamp_iff (hr : Fits r) (h : r + c = m) :
    r = clamp m ↔ c = 0 ∨ r = greatest ∧ 0 < c ∨ r = least ∧ c < 0 := by
  unfold Fits at hr
  unfold clamp
  unfold least greatest at *
  split_ifs <;> omega

end Bounded

namespace LinearForm

open Bounded

variable {lower upper c k : Int} {form : LinearForm} {entries : List (String × Int)}

/-- The largest contribution of one variable between the bounds, before it is clamped. -/
def summand (lower upper c : Int) : Int := if 0 ≤ c then c * upper else c * lower

theorem maxTerm_eq_clamp (lower upper c : Int) :
    maxTerm lower upper c = clamp (summand lower upper c) := by
  rw [maxTerm, satMul, satMul, summand, apply_ite clamp]

/-- What is cut off a sum with a start: at every variable, from the product and from the sum. An
amount is positive at the upper end of the range and negative at the lower. -/
def clippedFrom (lower upper k : Int) : List (String × Int) → Int
  | [] => 0
  | p :: rest =>
    let term := maxTerm lower upper p.2
    (summand lower upper p.2 - term) + (k + term - satAdd k term) +
      clippedFrom lower upper (satAdd k term) rest

def clipped (lower upper : Int) (form : LinearForm) : Int :=
  clippedFrom lower upper form.constant form.coeffs.entries

theorem foldl_add_clippedFrom (lower upper k : Int) (entries : List (String × Int)) :
    (entries.map fun p => maxTerm lower upper p.2).foldl satAdd k + clippedFrom lower upper k entries =
      k + tally (fun _ c => summand lower upper c) entries := by
  induction entries generalizing k with
  | nil => simp [clippedFrom, tally]
  | cons p rest ih =>
    have hrest := ih (satAdd k (maxTerm lower upper p.2))
    rw [List.map_cons, List.foldl_cons, clippedFrom, tally]
    linarith

theorem maxOver_add_clipped (lower upper : Int) (form : LinearForm) :
    form.maxOver lower upper + form.clipped lower upper = form.peak lower upper :=
  foldl_add_clippedFrom lower upper form.constant form.coeffs.entries

/-- The start of a sum and all its summands lie on one side of zero. -/
def OneSided (lower upper k : Int) (entries : List (String × Int)) : Prop :=
  0 ≤ k ∧ (∀ p ∈ entries, 0 ≤ maxTerm lower upper p.2) ∨
    k ≤ 0 ∧ ∀ p ∈ entries, maxTerm lower upper p.2 ≤ 0

theorem OneSided.cons {p : String × Int} (h : OneSided lower upper k (p :: entries)) :
    (0 ≤ k ∧ 0 ≤ summand lower upper p.2 ∧ 0 ≤ tally (fun _ c => summand lower upper c) entries ∨
      k ≤ 0 ∧ summand lower upper p.2 ≤ 0 ∧ tally (fun _ c => summand lower upper c) entries ≤ 0) ∧
      OneSided lower upper (satAdd k (maxTerm lower upper p.2)) entries := by
  obtain ⟨hk, hterms⟩ | ⟨hk, hterms⟩ := h
  · obtain ⟨hp, hrest⟩ := List.forall_mem_cons.mp hterms
    constructor
    · simp only [maxTerm_eq_clamp, clamp_nonneg_iff] at hp hrest
      exact .inl ⟨hk, hp, tally_nonneg hrest⟩
    · exact .inl ⟨clamp_nonneg_iff.mpr (add_nonneg hk hp), hrest⟩
  · obtain ⟨hp, hrest⟩ := List.forall_mem_cons.mp hterms
    constructor
    · simp only [maxTerm_eq_clamp, clamp_nonpos_iff] at hp hrest
      exact .inr ⟨hk, hp, tally_nonpos hrest⟩
    · exact .inr ⟨clamp_nonpos_iff.mpr (add_nonpos hk hp), hrest⟩

theorem foldl_satAdd_of_oneSided (hk : Fits k) (h : OneSided lower upper k entries) :
    (entries.map fun p => maxTerm lower upper p.2).foldl satAdd k =
      clamp (k + tally (fun _ c => summand lower upper c) entries) := by
  induction entries generalizing k with
  | nil => rw [tally, add_zero, clamp_of_fits hk, List.map_nil, List.foldl_nil]
  | cons p rest ih =>
    obtain ⟨hsigns, hrest⟩ := h.cons
    have hstep : satAdd k (maxTerm lower upper p.2) = clamp (k + summand lower upper p.2) := by
      rw [satAdd, maxTerm_eq_clamp, clamp_add_clamp (by omega)]
    rw [hstep] at hrest
    rw [List.map_cons, List.foldl_cons, hstep, ih (clamp_mem _) hrest, add_comm (clamp _),
      clamp_add_clamp (by omega), tally, add_comm (tally _ _), add_assoc]

theorem summand_nonneg (hlower : lower ≤ 0) (hupper : 0 ≤ upper) (c : Int) :
    0 ≤ summand lower upper c := by
  unfold summand
  split_ifs with hc
  · exact Int.mul_nonneg hc hupper
  · exact Int.mul_nonneg_of_nonpos_of_nonpos (by omega) hlower

/-- A sum of summands that are not negative stays below the clamped one, by no more than its start is
below zero. -/
theorem foldl_satAdd_mem (hk : Fits k) (h : ∀ p ∈ entries, 0 ≤ summand lower upper p.2) :
    let sum := (entries.map fun p => maxTerm lower upper p.2).foldl satAdd k
    let largest := clamp (k + tally (fun _ c => summand lower upper c) entries)
    k ≤ sum ∧ largest + min k 0 ≤ sum ∧ sum ≤ largest := by
  induction entries generalizing k with
  | nil => simp [tally, clamp_of_fits hk]
  | cons p rest ih =>
    obtain ⟨hp, hrest⟩ := List.forall_mem_cons.mp h
    have htail := ih (clamp_mem (k + clamp (summand lower upper p.2))) hrest
    rw [← satAdd] at htail
    obtain ⟨hle, hlower, hupper⟩ := htail
    obtain ⟨hup, hshort, hstep⟩ := satAdd_clamp_mem hk hp
    rw [List.map_cons, List.foldl_cons, tally, maxTerm_eq_clamp, ← add_assoc]
    refine ⟨hup.trans hle, ?_, hupper.trans (clamp_mono (by omega))⟩
    obtain hexact | hend := hstep
    · rw [hexact] at hlower ⊢
      omega
    · have hclamp := (clamp_mem (k + summand lower upper p.2 +
        tally (fun _ c => summand lower upper c) rest)).2
      omega

/-- The computed maximum is the largest value of the form less what was cut off on the way. It is the
largest value, clamped to the range, exactly if the amounts cut off cancel out or it is itself the end
of the range where more was cut off. This is so whenever the constant and the contributions of all
variables have the same sign. In a range around zero, the result is at most the clamped largest value,
and falls short of it by no more than a negative constant is below zero. -/
theorem maxOver_clamped_iff (hconstant : Fits form.constant) (hrange : lower ≤ upper) :
    ∃ largest, IsGreatest {k | ∃ x : String → Int, (∀ n, lower ≤ x n ∧ x n ≤ upper) ∧
        form.value x = k} largest ∧
      form.maxOver lower upper = largest - form.clipped lower upper ∧
      (form.maxOver lower upper = clamp largest ↔ form.clipped lower upper = 0 ∨
        form.maxOver lower upper = greatest ∧ 0 < form.clipped lower upper ∨
        form.maxOver lower upper = least ∧ form.clipped lower upper < 0) ∧
      (OneSided lower upper form.constant form.coeffs.entries →
        form.maxOver lower upper = clamp largest) ∧
      (lower ≤ 0 → 0 ≤ upper → clamp largest + min form.constant 0 ≤ form.maxOver lower upper ∧
        form.maxOver lower upper ≤ clamp largest) := by
  have hsum := maxOver_add_clipped lower upper form
  refine ⟨form.peak lower upper, isGreatest_peak hrange form, by linarith,
    eq_clamp_iff (maxOver_fits hconstant) hsum, foldl_satAdd_of_oneSided hconstant, ?_⟩
  intro hlower hupper
  exact (foldl_satAdd_mem hconstant fun p _ => summand_nonneg hlower hupper p.2).2

/-- A variable with the largest coefficient, and one with a negative coefficient. -/
def steep : LinearForm := ⟨.ofList [("x", greatest), ("y", -3)], 5⟩

/-- Of eight bits, the first variable alone fills the range, and the second one adds to it. -/
theorem maxOver_clamped_iff_steep :
    Fits steep.constant ∧ (-128 : Int) ≤ 127 ∧
      ∃ largest, IsGreatest {k | ∃ x : String → Int, (∀ n, -128 ≤ x n ∧ x n ≤ 127) ∧
          steep.value x = k} largest ∧
        steep.maxOver (-128) 127 = clamp largest ∧ steep.maxOver (-128) 127 = greatest ∧
        0 < steep.clipped (-128) 127 := by
  have hfits : Fits steep.constant := by decide
  obtain ⟨largest, hlargest, -, -, honeSided, -⟩ :=
    maxOver_clamped_iff hfits (by decide : (-128 : Int) ≤ 127)
  exact ⟨hfits, by decide, largest, hlargest, honeSided (.inl (by decide)), by decide, by decide⟩

-- A negative constant that falls short by all that it is below zero.
example : (⟨.ofList [("x", greatest)], -5⟩ : LinearForm).maxOver 0 2 = greatest - 5 := by decide

/-- The start is the largest number already. One step up is cut off there, the step down is not, and
the result is less than the only value that the form has. -/
theorem maxOver_below_attained :
    ∃ form, (Expr.sub (.add [.int greatest, .intVar "x"]) (.intVar "y")).linearForm? = some form ∧
      Fits form.constant ∧ (∀ p ∈ form.coeffs.entries, Fits p.2) ∧
      IsGreatest {k | ∃ x : String → Int, (∀ n, 1 ≤ x n ∧ x n ≤ 1) ∧ form.value x = k} greatest ∧
      form.maxOver 1 1 = greatest - 1 ∧ form.maxOver 1 1 ≠ clamp greatest := by
  refine ⟨⟨.ofList [("x", 1), ("y", -1)], greatest⟩, rfl, by decide, by decide, ?_, by decide, by decide⟩
  exact isGreatest_peak (le_refl 1) _

end LinearForm

end InvariantSynthesis
