import InvariantSynthesis.Proofs.Oracle.Contract

namespace InvariantSynthesis

namespace Expr

theorem sort_value {ρ : Valuation} {e : Expr} {s : ValueSort} (h : e.sort? = some s)
    (hρ : ∀ p ∈ e.occurrences, (ρ p.1 p.2).sort = p.2) : (e.value ρ).sort = s := by
  induction e generalizing s with
  | bool b | int k => cases h; simp [value, Value.sort]
  | var n t =>
    cases h
    rw [value]
    exact hρ (n, t) (by simp [occurrences])
  | not a ih | neg a ih | mul k a ih | implies a b iha ihb | sub a b iha ihb | le a b iha ihb
  | lt a b iha ihb | and args ih | or args ih | add args ih =>
    rw [sort?] at h
    split at h
    · cases h
      simp [value, Value.sort]
    · cases h
  | eq a b iha ihb =>
    rw [sort?] at h
    split at h
    · split at h
      · cases h
        simp [value, Value.sort]
      · cases h
    · cases h
  | ite c a b ihc iha ihb =>
    rw [sort?] at h
    rw [occurrences, List.append_assoc] at hρ
    split at h
    · rename_i t ht
      split at h
      · rename_i hcb
        cases h
        rw [value]
        split
        · exact iha ht fun p hp => hρ p (List.mem_append_right _ (List.mem_append_left _ hp))
        · exact ihb hcb.2 fun p hp => hρ p (List.mem_append_right _ (List.mem_append_right _ hp))
      · cases h
    · cases h

end Expr

namespace Value

theorem truth_of_bool? {v : Value} {b : Bool} (h : v.bool? = some b) : v.truth = b := by
  cases v <;> cases h
  rfl

theorem number_of_int? {v : Value} {k : Int} (h : v.int? = some k) : v.number = k := by
  cases v <;> cases h
  rfl

end Value

namespace Model

variable {m : Model} {e : Expr}

theorem get?_restrict (m : Model) (keep : String → Bool) (n : String) :
    (m.restrict keep).get? n = if keep n then m.get? n else none := by
  obtain ⟨entries, sorted⟩ := m
  show Table.find n (entries.filter fun p => keep p.1) = if keep n then Table.find n entries else none
  clear sorted
  induction entries with
  | nil => simp [Table.find]
  | cons p rest ih =>
    rw [List.filter_cons, Table.find]
    by_cases hn : n = p.1
    · subst hn
      by_cases hk : keep p.1 = true
      · simp [hk, Table.find]
      · simp [hk, ih]
    · by_cases hk : keep p.1 = true
      · simp [hk, Table.find, hn, ih]
      · simp [hk, hn, ih]

/-- The valuation gives every variable of a model its value, at whatever sort it is used. -/
def Reads (m : Model) (ρ : Valuation) : Prop := ∀ n s v, m.get? n = some v → ρ n s = v

theorem reads_valuation (m : Model) : m.Reads m.valuation := by
  intro n s v h
  rw [valuation, h, Option.getD_some]

variable {ρ : Valuation}

theorem evalAll_eq {args : List Expr} {vs : List Value}
    (ih : ∀ a ∈ args, ∀ v, m.eval a = some v → a.value ρ = v)
    (h : m.evalAll args = some vs) : vs = args.map (Expr.value ρ) := by
  induction args generalizing vs with
  | nil =>
    rw [evalAll] at h
    cases h
    rfl
  | cons a as iha =>
    simp only [evalAll, Option.bind_eq_bind, Option.bind_eq_some_iff, Option.pure_def] at h
    obtain ⟨v, hv, ws, hws, hvs⟩ := h
    cases hvs
    rw [List.map_cons, ih a (by simp) v hv, iha (fun b hb => ih b (List.mem_cons_of_mem _ hb)) hws]

theorem mapM_eq_map {α : Type} {f : Value → Option α} {g : Value → α}
    (hfg : ∀ {v a}, f v = some a → g v = a) {vs : List Value} {as : List α}
    (h : vs.mapM f = some as) : as = vs.map g := by
  induction vs generalizing as with
  | nil => simpa using h.symm
  | cons v vs ih =>
    simp only [List.mapM_cons, Option.bind_eq_bind, Option.bind_eq_some_iff, Option.pure_def] at h
    obtain ⟨a, ha, as', has', has⟩ := h
    cases has
    rw [List.map_cons, hfg ha, ih has']

theorem foldlM_add_eq {args : List Expr} {k sum : Int}
    (h : ((args.map (Expr.value ρ)).map Value.number).foldlM Bounded.add? k = some sum) :
    sum = k + Expr.total ρ args := by
  induction args generalizing k with
  | nil =>
    rw [Expr.total, Int.add_zero]
    exact (Option.some.inj h).symm
  | cons a args ih =>
    simp only [List.map_cons, List.foldlM_cons, Option.bind_eq_bind, Option.bind_eq_some_iff] at h
    obtain ⟨j, hj, hsum⟩ := h
    rw [ih hsum, Expr.total, ← (Bounded.check_eq_some.mp hj).1, Int.add_assoc]

/-- What evaluation gives is the value. -/
theorem Reads.value (hρ : m.Reads ρ) {v : Value} (h : m.eval e = some v) : e.value ρ = v := by
  induction e generalizing v with
  | bool b =>
    rw [eval] at h
    cases h
    rw [Expr.value]
  | int k =>
    simp only [eval, Option.bind_eq_bind, Option.bind_eq_some_iff, Option.pure_def] at h
    obtain ⟨k', hk, hv⟩ := h
    cases hv
    rw [Expr.value, (Bounded.check_eq_some.mp hk).1]
  | var n s =>
    rw [eval] at h
    rw [Expr.value]
    exact hρ n s v h
  | not a ih =>
    simp only [eval, Option.bind_eq_bind, Option.bind_eq_some_iff, Option.pure_def] at h
    obtain ⟨w, hw, b, hb, hv⟩ := h
    cases hv
    rw [Expr.value, ih hw, Value.truth_of_bool? hb]
  | and args ih =>
    simp only [eval, Option.bind_eq_bind, Option.bind_eq_some_iff, Option.pure_def] at h
    obtain ⟨vs, hvs, bs, hbs, hv⟩ := h
    cases hv
    rw [Expr.value, Expr.all_eq, mapM_eq_map Value.truth_of_bool? hbs,
      evalAll_eq (fun a ha v => ih a ha) hvs]
    simp only [List.all_map]
    rfl
  | or args ih =>
    simp only [eval, Option.bind_eq_bind, Option.bind_eq_some_iff, Option.pure_def] at h
    obtain ⟨vs, hvs, bs, hbs, hv⟩ := h
    cases hv
    rw [Expr.value, Expr.any_eq, mapM_eq_map Value.truth_of_bool? hbs,
      evalAll_eq (fun a ha v => ih a ha) hvs]
    simp only [List.any_map]
    rfl
  | implies a b iha ihb =>
    simp only [eval, Option.bind_eq_bind, Option.bind_eq_some_iff, Option.pure_def] at h
    obtain ⟨w, hw, c, hc, hv⟩ := h
    rw [Expr.value, iha hw, Value.truth_of_bool? hc]
    -- The conclusion is evaluated only if the condition is true.
    cases c with
    | true =>
      simp only [if_true, Option.bind_eq_some_iff] at hv
      obtain ⟨u, hu, d, hd, hv⟩ := hv
      cases hv
      rw [ihb hu, Value.truth_of_bool? hd]
      rfl
    | false =>
      cases hv
      rfl
  | neg a ih =>
    simp only [eval, Option.bind_eq_bind, Option.bind_eq_some_iff, Option.pure_def] at h
    obtain ⟨w, hw, k, hk, j, hj, hv⟩ := h
    cases hv
    rw [Expr.value, ih hw, Value.number_of_int? hk, (Bounded.check_eq_some.mp hj).1]
  | add args ih =>
    simp only [eval, Option.bind_eq_bind, Option.bind_eq_some_iff, Option.pure_def] at h
    obtain ⟨vs, hvs, ks, hks, sum, hsum, hv⟩ := h
    cases hv
    rw [mapM_eq_map Value.number_of_int? hks, evalAll_eq (fun a ha v => ih a ha) hvs] at hsum
    rw [Expr.value, foldlM_add_eq hsum, Int.zero_add]
  | sub a b iha ihb =>
    simp only [eval, Option.bind_eq_bind, Option.bind_eq_some_iff, Option.pure_def] at h
    obtain ⟨w, hw, k, hk, u, hu, l, hl, j, hj, hv⟩ := h
    cases hv
    rw [Expr.value, iha hw, ihb hu, Value.number_of_int? hk, Value.number_of_int? hl,
      (Bounded.check_eq_some.mp hj).1]
  | mul c a ih =>
    simp only [eval, Option.bind_eq_bind, Option.bind_eq_some_iff, Option.pure_def] at h
    obtain ⟨w, hw, k, hk, j, hj, hv⟩ := h
    cases hv
    rw [Expr.value, ih hw, Value.number_of_int? hk, ← (Bounded.check_eq_some.mp hj).1, Int.mul_comm]
  | eq a b iha ihb =>
    simp only [eval, Option.bind_eq_bind, Option.bind_eq_some_iff, Option.pure_def] at h
    obtain ⟨w, hw, u, hu, hv⟩ := h
    cases hv
    rw [Expr.value, iha hw, ihb hu]
  | le a b iha ihb | lt a b iha ihb =>
    simp only [eval, Option.bind_eq_bind, Option.bind_eq_some_iff, Option.pure_def] at h
    obtain ⟨w, hw, k, hk, u, hu, l, hl, hv⟩ := h
    cases hv
    rw [Expr.value, iha hw, ihb hu, Value.number_of_int? hk, Value.number_of_int? hl]
  | ite c a b ihc iha ihb =>
    simp only [eval, Option.bind_eq_bind, Option.bind_eq_some_iff] at h
    obtain ⟨w, hw, d, hd, hv⟩ := h
    rw [Expr.value, ihc hw, Value.truth_of_bool? hd]
    cases d with
    | true => exact iha hv
    | false => exact ihb hv

theorem Reads.holds (hρ : m.Reads ρ) {b : Bool} (h : m.evalBool e = some b) : e.holds ρ = b := by
  obtain ⟨v, hv, hb⟩ := Option.bind_eq_some_iff.mp h
  rw [Expr.holds, hρ.value hv, Value.truth_of_bool? hb]

theorem Reads.number (hρ : m.Reads ρ) {k : Int} (h : m.evalInt e = some k) : e.number ρ = k := by
  obtain ⟨v, hv, hk⟩ := Option.bind_eq_some_iff.mp h
  rw [Expr.number, hρ.value hv, Value.number_of_int? hk]

theorem value_of_eval {v : Value} (h : m.eval e = some v) : e.value m.valuation = v :=
  m.reads_valuation.value h

theorem holds_of_evalBool {b : Bool} (h : m.evalBool e = some b) : e.holds m.valuation = b :=
  m.reads_valuation.holds h

theorem number_of_evalInt {k : Int} (h : m.evalInt e = some k) : e.number m.valuation = k :=
  m.reads_valuation.number h

theorem value_of_evalInt {k : Int} (h : m.evalInt e = some k) :
    e.value m.valuation = .int k := by
  obtain ⟨v, hv, hk⟩ := Option.bind_eq_some_iff.mp h
  rw [value_of_eval hv]
  cases v <;> cases hk
  rfl

end Model

def Bounded.Fits (k : Int) : Prop := Bounded.least ≤ k ∧ k ≤ Bounded.greatest

instance (k : Int) : Decidable (Bounded.Fits k) := inferInstanceAs (Decidable (_ ∧ _))

theorem Bounded.fits_of_check {k v : Int} (h : Bounded.check k = some v) : Bounded.Fits v := by
  obtain ⟨rfl, hk⟩ := Bounded.check_eq_some.mp h
  exact hk

namespace Model

variable {m : Model} {e : Expr}

theorem Satisfies.fits {range : Int × Int} {Γ : Sorts} {es : List Expr}
    (h : m.Satisfies range Γ es)
    (hrange : Bounded.least ≤ range.1 ∧ range.2 ≤ Bounded.greatest) (n : String) (k : Int)
    (hk : m.get? n = some (.int k)) : Bounded.Fits k := by
  obtain ⟨-, h1, h2⟩ := h.within n _ hk
  exact ⟨Int.le_trans hrange.1 h1, Int.le_trans h2 hrange.2⟩

theorem foldlM_add_fits {ks : List Int} {k sum : Int} (hk : Bounded.Fits k)
    (h : ks.foldlM Bounded.add? k = some sum) : Bounded.Fits sum := by
  induction ks generalizing k with
  | nil =>
    cases h
    exact hk
  | cons i ks ih =>
    simp only [List.foldlM_cons, Option.bind_eq_bind, Option.bind_eq_some_iff] at h
    obtain ⟨j, hj, hsum⟩ := h
    exact ih (Bounded.fits_of_check hj) hsum

theorem fits_of_eval (hm : ∀ n k, m.get? n = some (.int k) → Bounded.Fits k) {k : Int}
    (h : m.eval e = some (.int k)) : Bounded.Fits k := by
  induction e with
  | bool b =>
    rw [eval] at h
    cases h
  | int i =>
    simp only [eval, Option.bind_eq_bind, Option.bind_eq_some_iff, Option.pure_def] at h
    obtain ⟨j, hj, hv⟩ := h
    cases hv
    exact Bounded.fits_of_check hj
  | var n s =>
    rw [eval] at h
    exact hm n k h
  | neg a ih | sub a b iha ihb | mul c a ih =>
    simp only [eval, Option.bind_eq_bind, Option.bind_eq_some_iff, Option.pure_def, Option.some.injEq,
      Value.int.injEq] at h
    grind [Bounded.neg?, Bounded.sub?, Bounded.mul?, Bounded.fits_of_check]
  | add args ih =>
    simp only [eval, Option.bind_eq_bind, Option.bind_eq_some_iff, Option.pure_def] at h
    obtain ⟨vs, hvs, ks, hks, sum, hsum, hv⟩ := h
    cases hv
    exact foldlM_add_fits (by unfold Bounded.Fits Bounded.least Bounded.greatest; omega) hsum
  | not a ih | and args ih | or args ih | eq a b iha ihb | le a b iha ihb | lt a b iha ihb =>
    simp [eval, Option.bind_eq_some_iff] at h
  | implies a b iha ihb =>
    simp only [eval, Option.bind_eq_bind, Option.bind_eq_some_iff, Option.pure_def] at h
    obtain ⟨w, hw, c, hc, hv⟩ := h
    cases c <;> simp [Option.bind_eq_some_iff] at hv
  | ite c a b ihc iha ihb =>
    simp only [eval, Option.bind_eq_bind, Option.bind_eq_some_iff] at h
    obtain ⟨w, hw, d, hd, hv⟩ := h
    cases d with
    | true => exact iha hv
    | false => exact ihb hv

theorem fits_of_evalInt (hm : ∀ n k, m.get? n = some (.int k) → Bounded.Fits k) {k : Int}
    (h : m.evalInt e = some k) : Bounded.Fits k := by
  obtain ⟨v, hv, hk⟩ := Option.bind_eq_some_iff.mp h
  cases v <;> cases hk
  exact fits_of_eval hm hv

/-- Evaluation fails though all operands have the right sorts and all variables have values. -/
def overflows (m : Model) (e : Expr) : Bool :=
  e.sort?.isSome && e.occurrences.all (fun p => (m.get? p.1).map Value.sort = some p.2) &&
    (m.eval e).isNone

theorem evalBool_isSome (hsort : e.sort? = some .bool)
    (hknown : ∀ p ∈ e.occurrences, (m.get? p.1).map Value.sort = some p.2)
    (h : m.overflows e = false) : m.evalBool e = some (e.holds m.valuation) := by
  have hall : e.occurrences.all (fun p => (m.get? p.1).map Value.sort = some p.2) = true := by
    simpa using hknown
  rw [overflows, hsort, hall] at h
  cases hv : m.eval e with
  | none =>
    rw [hv] at h
    cases h
  | some v =>
    have hvalue := value_of_eval hv
    have hvsort : (e.value m.valuation).sort = .bool := by
      refine Expr.sort_value hsort fun p hp => ?_
      obtain ⟨w, hw, hwsort⟩ := Option.map_eq_some_iff.mp (hknown p hp)
      rw [valuation, hw, Option.getD_some, hwsort]
    rw [evalBool, hv, Expr.holds]
    rw [hvalue] at hvsort ⊢
    cases v with
    | bool b => rfl
    | int k => cases hvsort

end Model

end InvariantSynthesis
