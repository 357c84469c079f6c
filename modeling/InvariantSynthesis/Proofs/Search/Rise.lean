import InvariantSynthesis.Proofs.Search.Round
import Mathlib.Order.Basic

/-!
Template polyhedra rise only as far as they have to. A round raises rows to values that are attained
under the current value. An inductive value admits all that is attained under a value below it, so
no round leads above an inductive value.
-/

namespace InvariantSynthesis

namespace RowValue

protected def Le : RowValue → RowValue → Prop
  | .bottom, _ => True
  | .bound a, .bound b => a ≤ b
  | _, .top => True
  | _, _ => False

instance : PartialOrder RowValue where
  le := RowValue.Le
  le_refl x := by cases x <;> simp [RowValue.Le]
  le_trans x y z hxy hyz := by
    cases x <;> cases y <;> cases z <;> simp_all [RowValue.Le]
    exact Int.le_trans hxy hyz
  le_antisymm x y hxy hyx := by
    cases x <;> cases y <;> simp_all [RowValue.Le]
    exact Int.le_antisymm hxy hyx

/-- The value flows back without an improvement. -/
def Admits : RowValue → Int → Prop
  | .bottom, _ => False
  | .bound b, k => k ≤ b
  | .top, _ => True

/-- A bound excludes some value of the row. -/
def Proper (limit : Int) : RowValue → Prop
  | .bound b => b < limit
  | .bottom | .top => True

end RowValue

theorem TemplateRow.holds_constraint_of_le {r : TemplateRow} {x y : RowValue} {ρ : Valuation}
    (h : x ≤ y) (hx : (r.constraint x).holds ρ = true) : (r.constraint y).holds ρ = true := by
  cases hpre : r.loop.preGuard.holds ρ with
  | false => cases y <;> simp [constraint, hpre]
  | true =>
    cases x with
    | bottom => simp [constraint, hpre] at hx
    | top =>
      cases y with
      | top => exact hx
      | bottom | bound => exact h.elim
    | bound a =>
      cases y with
      | bottom => exact h.elim
      | top => simp [constraint]
      | bound b =>
        simp only [constraint, Expr.holds_imply, hpre, Expr.holds_le, Expr.number_int, Bool.not_true,
          Bool.false_or, decide_eq_true_eq] at hx ⊢
        exact Int.le_trans hx h

namespace TemplateDomain

variable {d : TemplateDomain} {u v w : List RowValue} {i : Nat} {k limit : Int} {b : Bool}
  {x y : RowValue} {r : TemplateRow} {m : Model}

/-- The order of the rows, one by one. -/
structure Below (v w : List RowValue) : Prop where
  length : v.length = w.length
  le : ∀ {i : Nat} {x y : RowValue}, v[i]? = some x → w[i]? = some y → x ≤ y

theorem Below.antisymm (h : Below v w) (h' : Below w v) : v = w := by
  apply List.ext_getElem h.length
  intro i hv hw
  have hx := List.getElem?_eq_getElem hv
  have hy := List.getElem?_eq_getElem hw
  exact le_antisymm (h.le hx hy) (h'.le hy hx)

theorem Below.set (h : Below v w) (hx : ∀ y, w[i]? = some y → x ≤ y) : Below (v.set i x) w := by
  refine ⟨by rw [List.length_set, h.length], fun {j a y} ha hy => ?_⟩
  rcases getElem?_set_cases ha with ⟨rfl, rfl⟩ | ha
  · exact hx y hy
  · exact h.le ha hy

theorem Below.holds_pre {ρ : Valuation} (h : Below v w) (hpre : (d.pre v).holds ρ = true) :
    (d.pre w).holds ρ = true := by
  simp only [pre, Expr.holds_conj, List.all_map, List.all_eq_true, Function.comp_apply] at hpre ⊢
  rintro ⟨r, y⟩ hmem
  obtain ⟨i, hi⟩ := List.getElem?_of_mem hmem
  obtain ⟨hr, hy⟩ := List.getElem?_zip_eq_some.mp hi
  have hlt : i < v.length := h.length ▸ (List.getElem?_eq_some_iff.mp hy).1
  have hx := List.getElem?_eq_getElem hlt
  have hzip : (d.rows.zip v)[i]? = some (r, v[i]) := List.getElem?_zip_eq_some.mpr ⟨hr, hx⟩
  exact TemplateRow.holds_constraint_of_le (h.le hx hy) (hpre _ (List.mem_of_getElem? hzip))

/-- There is a value for every row, and every bound says something. -/
structure Proper (d : TemplateDomain) (v : List RowValue) : Prop where
  length : v.length = d.rows.length
  row : ∀ {i : Nat} {r : TemplateRow} {x : RowValue},
    d.rows[i]? = some r → v[i]? = some x → x.Proper (d.rowMax r)

/-- What flows back under the value is admitted by the value. -/
structure Inductive (d : TemplateDomain) (context : List Expr) (Γ : Sorts) (range : Int × Int)
    (v : List RowValue) : Prop extends d.Proper v where
  admits : ∀ {ρ : Valuation}, ρ.Typed Γ range → (∀ e ∈ context, e.holds ρ = true) →
    (d.pre v).holds ρ = true → ∀ {i : Nat} {r : TemplateRow} {x : RowValue},
      d.rows[i]? = some r → v[i]? = some x → r.loop.postGuard.holds ρ = true →
        x.Admits (r.post.number ρ)

/-- The value is below every inductive value. -/
structure Tight (d : TemplateDomain) (context : List Expr) (Γ : Sorts) (range : Int × Int)
    (v : List RowValue) : Prop extends d.Proper v where
  below : ∀ {w}, d.Inductive context Γ range w → Below v w

structure Least (d : TemplateDomain) (context : List Expr) (Γ : Sorts) (range : Int × Int)
    (v : List RowValue) : Prop extends d.Inductive context Γ range v, d.Tight context Γ range v

theorem Least.unique {context : List Expr} {Γ : Sorts} {range : Int × Int}
    (h : d.Least context Γ range v) (h' : d.Least context Γ range w) : v = w :=
  (h.below h'.toInductive).antisymm (h'.below h.toInductive)

theorem join_le (hx : x ≤ y) (hk : y.Admits k) (hy : y.Proper limit) : join limit k x ≤ y := by
  cases y with
  | bottom => exact hk.elim
  | top => cases join limit k x <;> exact trivial
  | bound c =>
    have hc : k ≤ c := hk
    have hlimit : c < limit := hy
    cases x with
    | top => exact hx.elim
    | bottom =>
      rw [join, if_neg (by omega)]
      exact hc
    | bound a =>
      rw [join]
      split
      · exact hx
      · rw [if_neg (by omega)]
        exact hc

theorem proper_join (hx : x.Proper limit) : (join limit k x).Proper limit := by
  unfold join
  split
  · trivial
  · split
    · trivial
    · exact Int.not_le.mp ‹_›
  · split
    · exact hx
    · split
      · trivial
      · exact Int.not_le.mp ‹_›

theorem proper_start (d : TemplateDomain) : d.Proper d.start := by
  refine ⟨List.length_map _, fun {i r x} _ hx => ?_⟩
  obtain ⟨-, -, rfl⟩ := List.mem_map.mp (List.mem_of_getElem? hx)
  trivial

theorem tight_start {context : List Expr} {Γ : Sorts} {range : Int × Int} :
    d.Tight context Γ range d.start := by
  refine ⟨d.proper_start, fun hw => ⟨d.proper_start.length.trans hw.length.symm, ?_⟩⟩
  intro i x y hx _
  obtain ⟨-, -, rfl⟩ := List.mem_map.mp (List.mem_of_getElem? hx)
  trivial

theorem Proper.raise (h : d.Proper v) (hraise : d.raise v i k = .ok (b, w)) : d.Proper w := by
  obtain ⟨r, old, hr, hold, rfl, -⟩ := raise_ok hraise
  refine ⟨by rw [List.length_set, h.length], fun {j r' x} hr' hx => ?_⟩
  rcases getElem?_set_cases hx with ⟨rfl, rfl⟩ | hx
  · cases hr.symm.trans hr'
    exact proper_join (h.row hr hold)
  · exact h.row hr' hx

/-- Rows are raised to values that they attain where the assertions hold. -/
inductive Rises (d : TemplateDomain) (range : Int × Int) (Γ : Sorts) (es : List Expr) :
    List RowValue → List RowValue → Prop
  | refl (v : List RowValue) : Rises d range Γ es v v
  | raise {v w u : List RowValue} {i : Nat} {r : TemplateRow} {k : Int} {b : Bool}
      (row : d.rows[i]? = some r) (attains : r.Attains range Γ es k)
      (raised : d.raise v i k = .ok (b, w)) (rest : Rises d range Γ es w u) : Rises d range Γ es v u

section rises

variable {range : Int × Int} {Γ Δ : Sorts} {context es : List Expr} {s : LoopSystem}

theorem Rises.of_eq (h : w = v) : d.Rises range Γ es v w := by
  rw [h]
  exact .refl v

theorem Rises.proper (h : d.Rises range Γ es v w) (hv : d.Proper v) : d.Proper w := by
  induction h with
  | refl => exact hv
  | raise _ _ raised _ ih => exact ih (hv.raise raised)

theorem Inductive.admits_attained (hw : d.Inductive context s.declared range w) (hvw : Below v w)
    (hcarried : r.Carried s) (hΓ : s.declared.Extends Γ) (hzero : range.1 ≤ 0 ∧ 0 ≤ range.2)
    (hcontext : ∀ e ∈ context, e ∈ es) (hk : r.Attains range Γ (d.pre v :: es) k)
    (hr : d.rows[i]? = some r) (hy : w[i]? = some y) : y.Admits k := by
  obtain ⟨m, Δ, hΔ, hfits, hsat, hguard, hvalue⟩ := hk
  have hholds : ∀ e ∈ d.pre v :: es, e.holds (m.typed s.declared) = true := fun e he =>
    (hsat.holds_typed (hfits e he)).trans (hsat.holds e he)
  obtain ⟨hguard', hpost⟩ := hcarried.reads fun n hn => Model.typed_declared (m := m) hn
  have hadmits := hw.admits (hsat.typed (hΓ.trans hΔ) hzero)
    (fun e he => hholds e (List.mem_cons_of_mem _ (hcontext e he)))
    (hvw.holds_pre (hholds _ List.mem_cons_self)) hr hy ((congrArg Value.truth hguard').trans hguard)
  rw [Expr.number, hpost, ← Expr.number, Model.number_of_evalInt hvalue] at hadmits
  exact hadmits

/-- Below an inductive value, rows rise no further than to this value. -/
theorem below_of_rises (h : d.Rises range Γ (d.pre u :: es) v w) {B : List RowValue}
    (hB : d.Inductive context s.declared range B) (hu : Below u B)
    (hcarried : ∀ r ∈ d.rows, r.Carried s) (hΓ : s.declared.Extends Γ)
    (hzero : range.1 ≤ 0 ∧ 0 ≤ range.2) (hcontext : ∀ e ∈ context, e ∈ es) (hv : Below v B) :
    Below w B := by
  induction h with
  | refl => exact hv
  | raise row attains raised _ ih =>
    apply ih
    obtain ⟨r, old, hr, hold, rfl, -⟩ := raise_ok raised
    cases row.symm.trans hr
    refine hv.set fun y hy => join_le (hv.le hold hy) ?_ (hB.row hr hy)
    exact hB.admits_attained hu (hcarried _ (List.mem_of_getElem? hr)) hΓ hzero hcontext attains hr hy

theorem Tight.rises (h : d.Tight context s.declared range v)
    (hrises : d.Rises range Γ (d.pre v :: es) v w) (hcarried : ∀ r ∈ d.rows, r.Carried s)
    (hΓ : s.declared.Extends Γ) (hzero : range.1 ≤ 0 ∧ 0 ≤ range.2)
    (hcontext : ∀ e ∈ context, e ∈ es) : d.Tight context s.declared range w := by
  refine ⟨hrises.proper h.toProper, fun hB => ?_⟩
  exact below_of_rises hrises hB (h.below hB) hcarried hΓ hzero hcontext (h.below hB)

end rises

section rounds

variable {σ : Type} [Oracle σ] {range : Int × Int} {F : Faithful σ range} {c : Scopes} {Γ : Sorts}
  {o p : σ} {stats : Statistics} {focus : Option Nat} {s : List RowValue × Statistics}

theorem improveAll_rises {es : List Expr} {conds : List (Nat × Expr)}
    (hconds : ∀ e ∈ conds, m.evalBool e.2 = some true → ∀ {r k}, d.rows[e.1]? = some r →
      m.evalInt r.post = some k → r.Attains range Γ es k)
    (h : (Domain.template d).improveAll m conds ((v, stats), o) = (.ok b, (s, p))) :
    d.Rises range Γ es v s.1 := by
  induction conds generalizing v stats b o with
  | nil =>
    cases h
    exact .refl v
  | cons e rest ih =>
    have hrest := fun e' he' => hconds e' (List.mem_cons_of_mem _ he')
    rw [Domain.improveAll] at h
    split at h
    · rename_i heval
      obtain ⟨changed, ⟨⟨w, t⟩, q⟩, himprove, h⟩ := Session.ok_of_bind h
      obtain ⟨more, ⟨⟨w', t'⟩, q'⟩, hmore, h⟩ := Session.ok_of_bind h
      cases h
      obtain ⟨r, k, hr, hk, hraise⟩ := edit_ok (Domain.Edit.pure_ok (Domain.improve_ok himprove).1)
      exact .raise hr (hconds e List.mem_cons_self heval hr hk) hraise (ih hrest hmore)
    · exact ih hrest h

theorem enumerate_rises (h : F.Keeps o c Γ)
    (hrun : (Domain.template d).enumerate focus ((v, stats), o) = (.ok b, (s, p))) :
    d.Rises range Γ (d.pre v :: c.live) v s.1 := by
  obtain ⟨-, hs, -, -⟩ | ⟨a, t, q, Δ, -, hasked, -, -, hrest⟩ := Domain.enumerate_ok h hrun
  · exact .of_eq hs
  obtain ⟨-, hs, -⟩ | ⟨rfl, m, hm, hall⟩ := hrest
  · exact .of_eq hs
  · exact improveAll_rises (fun e he heval _ _ hr hk => attains_of_asked hasked hm he heval hr hk) hall

theorem bisect_rises (h : F.Keeps o c Γ)
    (hrun : d.bisect focus ((v, stats), o) = (.ok b, (s, p))) :
    d.Rises range Γ (d.pre v :: c.live) v s.1 := by
  obtain ⟨-, hs, -, -⟩ | ⟨a, t, q, Δ, -, -, -, -, hrest⟩ := bisect_ok h hrun
  · exact .of_eq hs
  obtain ⟨-, hs, -⟩ | ⟨rfl, m, -, hfound⟩ := hrest
  · exact .of_eq hs
  split at hfound
  · exact .of_eq hfound.1
  · obtain ⟨r, k, best, hr, -, -, hattains, hraise⟩ := hfound
    exact .raise hr hattains hraise (.refl _)

end rounds

theorem admits_of_conditions {ρ : Valuation} (hr : d.rows[i]? = some r) (hx : v[i]? = some x)
    {focus : Option Nat} (hfocus : r.loop.inFocus focus = true)
    (h : ∀ e ∈ d.conditions v focus, e.2.holds ρ = false)
    (hguard : r.loop.postGuard.holds ρ = true) : x.Admits (r.post.number ρ) := by
  have hfalse : ∀ e, r.improvement? x = some e → e.holds ρ = false := fun e he =>
    h (i, e) (mem_conditions.mpr ⟨r, x, hr, hx, hfocus, he⟩)
  cases x with
  | top => trivial
  | bottom => exact absurd (hguard.symm.trans (hfalse _ rfl)) (by simp)
  | bound b => simpa [Expr.exceeds, hguard, RowValue.Admits] using hfalse _ rfl

end TemplateDomain

end InvariantSynthesis
