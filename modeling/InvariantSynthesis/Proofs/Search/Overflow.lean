import InvariantSynthesis.Proofs.Domain.Overflow
import InvariantSynthesis.Proofs.Search.Refinement
import InvariantSynthesis.Proofs.Template.RowMaximum

namespace InvariantSynthesis

namespace Session

variable {S σ α β : Type} {s : S} {o : σ}

theorem not_overflows_request (r : Request σ α) (so : S × σ) :
    ¬ Overflows (request r : Session S σ α) so := by
  obtain ⟨s, o⟩ := so
  unfold Overflows
  cases hr : r o with
  | mk x p =>
    cases x with
    | ok a => simp [request_eq hr]
    | error e => simp [request_error hr]

variable [Oracle σ]

theorem overflows_requireModel_bind {f : Model → Session S σ β} :
    Overflows (requireModel >>= f) (s, o) ↔
      ∃ m, Oracle.model? o = some m ∧ Overflows (f m) (s, o) := by
  cases hm : (Oracle.model? o : Option Model) with
  | none =>
    rw [Overflows, bind_error (requireModel_of_none hm s)]
    simp
  | some m =>
    rw [Overflows, bind_ok (requireModel_of_some hm s)]
    simp [Overflows]

theorem not_overflows_query (e e' : Expr) (so : (α × Statistics) × σ) :
    ¬ Overflows (Search.query e e' : Search α σ Answer) so := by
  intro h
  obtain ⟨⟨⟩, s₁, -, h⟩ := (overflows_bind_of_not (not_overflows_request _ _)).mp h
  obtain ⟨⟨⟩, s₂, -, h⟩ := (overflows_bind_of_not (not_overflows_request _ _)).mp h
  obtain h | ⟨⟨⟩, s₃, -, h⟩ := overflows_bind.mp h
  · cases h
  · exact not_overflows_request _ _ h

theorem overflows_query {v : α} {stats : Statistics} {e e' : Expr} {f : Answer → Search α σ β}
    (hunsat : ∀ so, ¬ Overflows (f .unsat) so)
    (hunknown : ∀ reason so, ¬ Overflows (f (.unknown reason)) so) :
    Overflows (inScope (Search.query e e' >>= f)) ((v, stats), o) ↔
      ∃ t q, (Search.query e e' : Search α σ Answer) ((v, stats), Oracle.push o) =
        (.ok .sat, ((v, t), q)) ∧ Overflows (f .sat) ((v, t), q) := by
  show Overflows (Search.query e e' >>= f) ((v, stats), Oracle.push o) ↔ _
  rw [overflows_bind_of_not (not_overflows_query e e' _)]
  constructor
  · rintro ⟨a, ⟨⟨u, t⟩, q⟩, hask, h⟩
    have hleaves := Search.leaves_query (α := α) e e' (v, stats) (Oracle.push o)
    rw [hask] at hleaves
    obtain rfl : u = v := hleaves
    cases a with
    | sat => exact ⟨t, q, hask, h⟩
    | unsat => exact (hunsat _ h).elim
    | unknown reason => exact (hunknown reason _ h).elim
  · rintro ⟨t, q, hask, h⟩
    exact ⟨_, _, hask, h⟩

end Session

open Session

namespace Domain

variable {σ : Type} [Oracle σ] {d : Domain} {m : Model} {o : σ}

theorem not_overflows_improveAll (h : ∀ i s, ¬ Overflows (d.edit o m i) s)
    (conds : List (Nat × Expr)) (s : d.Value × Statistics) :
    ¬ Overflows (d.improveAll m conds) (s, o) := by
  induction conds generalizing s with
  | nil => exact not_overflows_pure _ _
  | cons rc rest ih =>
    obtain ⟨i, c⟩ := rc
    by_cases heval : m.evalBool c = some true
    · cases hrun : d.edit o m i s with
      | mk x t =>
        cases x with
        | ok b =>
          rw [Overflows, improveAll_cons_ok heval hrun]
          exact fun hover => ih t (Except.map_eq_error.mp hover)
        | error e =>
          rw [Overflows, improveAll_cons_error heval hrun]
          rintro hover
          cases hover
          exact h i s (by rw [Overflows, hrun])
    · rw [Overflows, improveAll_cons_false heval]
      exact ih s

theorem overflows_enumerate {focus : Option Nat} {v : d.Value} {stats : Statistics} :
    Overflows (d.enumerate focus) ((v, stats), o) ↔
      ∃ t q m, (Search.query (d.pre v) (.disj ((d.conditions v focus).map (·.2))) :
          Search d.Value σ Answer) ((v, stats), Oracle.push o) = (.ok .sat, ((v, t), q)) ∧
        Oracle.model? q = some m ∧ Overflows (d.improveAll m (d.conditions v focus)) ((v, t), q) := by
  rw [Overflows, enumerate_eq]
  split
  · rename_i hempty
    refine iff_of_false (by simp) ?_
    rintro ⟨t, q, m, -, -, h⟩
    rw [List.isEmpty_iff.mp hempty] at h
    exact not_overflows_pure _ _ h
  · refine Iff.trans (overflows_query (f := d.improving (d.conditions v focus))
      (not_overflows_pure _) fun _ => not_overflows_pure _) ?_
    simp only [improving, overflows_requireModel_bind, exists_and_left]

end Domain

theorem RankingDomain.overflows_improveAll {d : RankingDomain} {m : Model} {v : List RankingRow}
    {stats : Statistics} {o : BitSolver} (hw : BitSolver.widthAllowed o.width = true)
    {conds : List (Nat × Expr)} (hconds : ∀ p ∈ conds, p.1 < d.loops.length ∧ p.1 < v.length) :
    Overflows ((Domain.ranking d).improveAll m conds) ((v, stats), o) ↔
      Until (fun p => m.evalBool p.2 = some true → d.Measures m p.1)
        (fun p => m.evalBool p.2 = some true ∧ d.Exceeds m p.1) conds := by
  induction conds generalizing v stats with
  | nil => exact iff_of_false (not_overflows_pure _ _) id
  | cons rc rest ih =>
    obtain ⟨i, e⟩ := rc
    have hrest := fun p hp => hconds p (List.mem_cons_of_mem _ hp)
    rw [Until]
    by_cases heval : m.evalBool e = some true
    · obtain ⟨hi, hv⟩ := hconds (i, e) List.mem_cons_self
      obtain ⟨hmeasures, w, t, hrun, hlength⟩ | ⟨hnot, err, hrun, herr⟩ :=
        edit_cases (m := m) (i := i) hw hi hv stats
      · rw [Overflows, Domain.improveAll_cons_ok heval hrun, Except.map_eq_error]
        refine (ih fun p hp => ?_).trans ?_
        · rw [hlength]
          exact hrest p hp
        · simp [heval, hmeasures, hmeasures.not_exceeds]
      · rw [Overflows, Domain.improveAll_cons_error heval hrun]
        simp [heval, hnot, herr]
    · rw [Overflows, Domain.improveAll_cons_false heval]
      refine (ih hrest).trans ?_
      simp [heval]

namespace TemplateDomain

variable {σ : Type} [Oracle σ] {d : TemplateDomain} {m : Model} {r : TemplateRow} {lower upper : Int}

/-- The interval between the value of a row and its largest value is longer than 64 bits can tell. -/
def Exceeds (d : TemplateDomain) (m : Model) (i : Nat) : Prop :=
  ∃ r k, d.rows[i]? = some r ∧ m.evalInt r.post = some k ∧ Bounded.greatest < d.rowMax r - k + 1

omit [Oracle σ] in
theorem overflows_fitting {S : Type} {x : Option Int} {so : S × σ} :
    Overflows (fitting x : Session S σ Int) so ↔ x = none := by
  cases x with
  | none => exact iff_of_true rfl rfl
  | some k => exact iff_of_false (not_overflows_pure k so) (by simp)

theorem midpoint?_eq_none (hlower : Bounded.least ≤ lower) (hupper : upper ≤ Bounded.greatest)
    (hlt : lower < upper) : midpoint? lower upper = none ↔ Bounded.greatest < upper - lower + 1 := by
  constructor
  · intro h
    by_contra hshort
    have hle : Bounded.least ≤ 0 := by decide
    have hdiff : Bounded.sub? upper lower = some (upper - lower) :=
      Bounded.check_eq_some.mpr ⟨rfl, by omega, by omega⟩
    have hwidth : Bounded.add? (upper - lower) 1 = some (upper - lower + 1) :=
      Bounded.check_eq_some.mpr ⟨rfl, by omega, by omega⟩
    have hmid : Bounded.add? lower ((upper - lower + 1) / 2) = some (lower + (upper - lower + 1) / 2) :=
      Bounded.check_eq_some.mpr ⟨rfl, by omega, by omega⟩
    simp [midpoint?, hdiff, hwidth, hmid] at h
  · intro hlong
    refine Option.eq_none_iff_forall_ne_some.mpr fun mid hmid => ?_
    simp only [midpoint?, Option.bind_eq_bind, Option.bind_eq_some_iff] at hmid
    obtain ⟨diff, hdiff, width, hwidth, -⟩ := hmid
    obtain ⟨rfl, -⟩ := Bounded.check_eq_some.mp hdiff
    have hle := (Bounded.check_eq_some.mp hwidth).2.2
    omega

theorem not_overflows_reaches (r : TemplateRow) (assumption : Expr) {bound : Int}
    (hbound : Bounded.Fits (bound - 1)) (so : (List RowValue × Statistics) × σ) :
    ¬ Overflows (reaches r assumption bound) so := by
  intro h
  rw [reaches_eq] at h
  obtain h | ⟨b, ⟨⟨v, stats⟩, o⟩, -, h⟩ := overflows_bind.mp h
  · have hsub : Bounded.sub? bound 1 = some (bound - 1) := Bounded.check_eq_some.mpr ⟨rfl, hbound⟩
    rw [overflows_fitting, hsub] at h
    cases h
  · obtain ⟨t, q, -, h⟩ := (overflows_query (f := reading r) (not_overflows_pure _)
      fun _ => not_overflows_pure _).mp h
    obtain ⟨m, -, h⟩ := overflows_requireModel_bind.mp h
    obtain h | ⟨k, s, -, h⟩ := overflows_bind.mp h
    · exact Model.requireInt_ne_fault h
    · exact not_overflows_pure _ _ h

theorem not_overflows_settle (r : TemplateRow) (assumption : Expr) {fuel : Nat}
    (hlower : Bounded.least ≤ lower) (hupper : upper ≤ Bounded.greatest)
    (hshort : upper - lower + 1 ≤ Bounded.greatest) (so : (List RowValue × Statistics) × σ) :
    ¬ Overflows (settle r assumption fuel lower upper) so := by
  induction fuel generalizing lower upper so with
  | zero => exact not_overflows_pure _ _
  | succ fuel ih =>
    intro h
    rw [settle] at h
    by_cases hlt : lower < upper
    · rw [if_pos hlt] at h
      obtain h | ⟨mid, t, hfit, hrest⟩ := overflows_bind.mp h
      · have hlong := (midpoint?_eq_none hlower hupper hlt).mp (overflows_fitting.mp h)
        exact absurd hshort (not_le.mpr hlong)
      · obtain ⟨hmid, rfl⟩ := fitting_ok hfit
        have hmem := midpoint?_mem hmid hlt
        have hfits : Bounded.Fits (mid - 1) := ⟨by omega, by omega⟩
        obtain ⟨result, t, -, h⟩ :=
          (overflows_bind_of_not (not_overflows_reaches r assumption hfits _)).mp hrest
        -- Either half is shorter than the interval was.
        cases result with
        | some v => exact ih (by omega) hupper (by omega) t h
        | none =>
          have hsub : Bounded.sub? mid 1 = some (mid - 1) := Bounded.check_eq_some.mpr ⟨rfl, hfits⟩
          simp only [hsub] at h
          exact ih hlower (by omega) (by omega) t h
    · rw [if_neg hlt] at h
      exact not_overflows_pure _ _ h

/-- Narrowing an interval overflows in its first step or not at all. -/
theorem overflows_settle {assumption : Expr} {so : (List RowValue × Statistics) × σ}
    (hlower : Bounded.least ≤ lower) (hupper : upper ≤ Bounded.greatest) :
    Overflows (settle r assumption (upper - lower).toNat lower upper) so ↔
      Bounded.greatest < upper - lower + 1 := by
  constructor
  · intro h
    by_contra hshort
    exact not_overflows_settle r assumption hlower hupper (not_lt.mp hshort) so h
  · intro hlong
    have hpos : 0 < Bounded.greatest := by decide
    have hlt : lower < upper := by omega
    obtain ⟨fuel, hfuel⟩ : ∃ fuel, (upper - lower).toNat = fuel + 1 :=
      Nat.exists_eq_add_one.mpr (by omega)
    rw [hfuel, settle, if_pos hlt, (midpoint?_eq_none hlower hupper hlt).mpr hlong]
    exact overflows_bind.mpr (.inl rfl)

theorem picking_eq {conds : List (Nat × Expr)} {q : σ} {i : Nat} {e : Expr} {k : Int}
    (hm : Oracle.model? q = some m)
    (hfind : conds.find? (fun (_, c) => m.evalBool c = some true) = some (i, e))
    (hr : d.rows[i]? = some r) (hk : m.evalInt r.post = some k) (s : List RowValue × Statistics) :
    d.picking conds .sat (s, q) = (.ok (some (i, k)), (s, q)) := by
  have hvalue : (do (← d.row i).postValue m) = .ok k := by
    rw [row_ok.mpr hr]
    exact Model.requireInt_of_some hk
  rw [picking, Session.bind_ok (requireModel_of_some hm s)]
  simp only [hfind, hvalue]
  rfl

theorem not_overflows_witness (d : TemplateDomain) (v : List RowValue) (conds : List (Nat × Expr))
    (so : (List RowValue × Statistics) × σ) : ¬ Overflows (d.witness v conds) so := by
  intro h
  obtain ⟨⟨w, stats⟩, o⟩ := so
  rw [witness_eq] at h
  obtain ⟨t, q, -, h⟩ := (overflows_query (f := d.picking conds) (not_overflows_pure _)
    fun _ => not_overflows_pure _).mp h
  obtain ⟨m, -, h⟩ := overflows_requireModel_bind.mp h
  split at h
  · exact not_overflows_pure _ _ h
  · obtain h | ⟨k, s, -, h⟩ := overflows_bind.mp h
    · exact postValue_ne_overflow h
    · exact not_overflows_pure _ _ h

def raiseFrom (d : TemplateDomain) (v : List RowValue) (i : Nat) (lower : Int) :
    Search (List RowValue) σ Bool := do
  let r ← Session.ofExcept (d.row i)
  let best ← settle r (d.pre v) (d.rowMax r - lower).toNat lower (d.rowMax r)
  let (changed, value) ← Session.ofExcept (d.raise v i best)
  Session.update (fun (_, stats) => (value, stats))
  return changed

variable {focus : Option Nat} {v : List RowValue} {stats : Statistics} {o : σ} {i : Nat} {k : Int}

theorem overflows_raiseFrom {so : (List RowValue × Statistics) × σ} (hr : d.rows[i]? = some r)
    (hk : Bounded.least ≤ k) (hmax : d.rowMax r ≤ Bounded.greatest) :
    Overflows (d.raiseFrom v i k) so ↔ Bounded.greatest < d.rowMax r - k + 1 := by
  have hrow : (Session.ofExcept (d.row i) : Search (List RowValue) σ TemplateRow) so = (.ok r, so) := by
    rw [row_ok.mpr hr]
    rfl
  rw [Overflows, raiseFrom, Session.bind_ok hrow]
  refine overflows_bind.trans ((or_iff_left ?_).trans (overflows_settle hk hmax))
  rintro ⟨best, s, -, h⟩
  obtain h | ⟨changed, t, -, h⟩ := overflows_bind.mp h
  · exact raise_ne_overflow h
  · cases h

theorem overflows_bisect_of_witness (hconds : d.conditions v focus ≠ []) :
    Overflows (d.bisect focus) ((v, stats), o) ↔ ∃ i k s,
      d.witness v (d.conditions v focus) ((v, stats), o) = (.ok (some (i, k)), s) ∧
        Overflows (d.raiseFrom v i k) s := by
  rw [Overflows, bisect_eq, if_neg (by simpa using hconds)]
  refine (overflows_bind_of_not (not_overflows_witness d v _ _)).trans ?_
  constructor
  · rintro ⟨result, s, hwitness, hrest⟩
    cases result with
    | none => exact (not_overflows_pure _ _ hrest).elim
    | some found => exact ⟨found.1, found.2, s, hwitness, hrest⟩
  · rintro ⟨i, k, s, hwitness, hrest⟩
    exact ⟨some (i, k), s, hwitness, hrest⟩

theorem witness_some {conds : List (Nat × Expr)} :
    (∃ s, d.witness v conds ((v, stats), o) = (.ok (some (i, k)), s)) ↔
      ∃ t q m, (Search.query (d.pre v) (.disj (conds.map (·.2))) : Search (List RowValue) σ Answer)
          ((v, stats), Oracle.push o) = (.ok .sat, ((v, t), q)) ∧ Oracle.model? q = some m ∧
        ∃ e r, conds.find? (fun p => m.evalBool p.2 = some true) = some (i, e) ∧
          d.rows[i]? = some r ∧ m.evalInt r.post = some k := by
  rw [witness_eq]
  constructor
  · rintro ⟨⟨s, p⟩, hwitness⟩
    obtain ⟨q', hbody, -⟩ := Session.inScope_ok hwitness
    obtain ⟨a, ⟨⟨u, t⟩, q⟩, hask, hpick⟩ := Session.ok_of_bind hbody
    have hleaves := Search.leaves_query (d.pre v) (.disj (conds.map (·.2))) (v, stats) (Oracle.push o)
    rw [hask] at hleaves
    obtain rfl : u = v := hleaves
    obtain ⟨-, -, ⟨-, hnone⟩ | ⟨rfl, m, hm, hfound⟩⟩ := picking_ok hpick
    · cases hnone
    · split at hfound
      · cases hfound
      · rename_i j e hfind
        obtain ⟨r, k', hr, hk, heq⟩ := hfound
        cases heq
        exact ⟨t, q, m, hask, hm, e, r, hfind, hr, hk⟩
  · rintro ⟨t, q, m, hask, hm, e, r, hfind, hr, hk⟩
    have hbody : (Search.query (d.pre v) (.disj (conds.map (·.2))) >>= d.picking conds)
        ((v, stats), Oracle.push o) = (.ok (some (i, k)), ((v, t), q)) := by
      rw [Session.bind_ok hask, picking_eq hm hfind hr hk]
    exact ⟨_, by rw [Session.inScope, hbody]⟩

/-- Bisection overflows when the row that it picks is too far below its largest value. -/
theorem overflows_bisect {Good : σ → Prop} (hgood : Oracle.Bounded Good) (ho : Good o)
    (hmax : ∀ r ∈ d.rows, d.rowMax r ≤ Bounded.greatest) :
    Overflows (d.bisect focus) ((v, stats), o) ↔
      ∃ t q m, (Search.query (d.pre v) (.disj ((d.conditions v focus).map (·.2))) :
          Search (List RowValue) σ Answer) ((v, stats), Oracle.push o) = (.ok .sat, ((v, t), q)) ∧
        Oracle.model? q = some m ∧ Until (fun p => m.evalBool p.2 ≠ some true)
          (fun p => m.evalBool p.2 = some true ∧ d.Exceeds m p.1) (d.conditions v focus) := by
  by_cases hconds : d.conditions v focus = []
  · rw [Overflows, bisect_eq, if_pos (by simpa using hconds), hconds]
    exact iff_of_false (by simp) (by simp [Until])
  rw [overflows_bisect_of_witness hconds]
  constructor
  · rintro ⟨i, k, s, hwitness, hraise⟩
    obtain ⟨t, q, m, hask, hm, e, r, hfind, hr, hk⟩ := witness_some.mp ⟨s, hwitness⟩
    refine ⟨t, q, m, hask, hm, until_iff_find.mpr ⟨(i, e), hfind, r, k, hr, hk, ?_⟩⟩
    have hfits := witness_fits hgood ho hwitness
    exact (overflows_raiseFrom hr hfits.1 (hmax r (List.mem_of_getElem? hr))).mp hraise
  · rintro ⟨t, q, m, hask, hm, huntil⟩
    obtain ⟨⟨i, e⟩, hfind, r, k, hr, hk, hlong⟩ := until_iff_find.mp huntil
    obtain ⟨s, hwitness⟩ := witness_some.mpr ⟨t, q, m, hask, hm, e, r, hfind, hr, hk⟩
    have hfits := witness_fits hgood ho hwitness
    exact ⟨i, k, s, hwitness,
      (overflows_raiseFrom hr hfits.1 (hmax r (List.mem_of_getElem? hr))).mpr hlong⟩

end TemplateDomain

namespace Method

/-- What a round computes from a model of its question leaves 64 bits. With bisection, the first row
whose condition is true in the model is too far below its largest value. With ranking functions, the
first loop whose condition is true and whose turn cannot be measured has a variable whose decrease
leaves 64 bits. Nothing else is computed. -/
def Exceeds (m : Model) (conds : List (Nat × Expr)) : Method → Prop
  | .bisection d => Until (fun p => m.evalBool p.2 ≠ some true)
      (fun p => m.evalBool p.2 = some true ∧ d.Exceeds m p.1) conds
  | .enumeration (.ranking d) => Until (fun p => m.evalBool p.2 = some true → d.Measures m p.1)
      (fun p => m.evalBool p.2 = some true ∧ d.Exceeds m p.1) conds
  | .enumeration _ => False

theorem not_exceeds_unranked {d : Domain} (hd : d.Unranked) {m : Model} {conds : List (Nat × Expr)} :
    ¬ Exceeds m conds (.enumeration d) := by
  cases d with
  | ranking d => exact hd.elim
  | template | equalities | predicates | heap | product | paths => exact id

variable {config : Config} {s : LoopSystem} {range : Int × Int}

theorem rows_of_config {d : TemplateDomain} (h : ofConfig config s range = .ok (.bisection d)) :
    ∃ shape withheld, s.rows shape withheld = .ok d.rows := by
  rw [ofConfig] at h
  split at h
  · obtain ⟨ranking, -, h⟩ := Except.exists_of_bind_ok h
    cases h
  · obtain ⟨equalities, -, h⟩ := Except.exists_of_bind_ok h
    cases h
  · obtain ⟨predicates, -, h⟩ := Except.exists_of_bind_ok h
    cases h
  · cases h
  · obtain ⟨template, -, h⟩ := Except.exists_of_bind_ok h
    split at h <;> cases h
  · obtain ⟨template, -, h⟩ := Except.exists_of_bind_ok h
    cases h
  · obtain ⟨template, htemplate, h⟩ := Except.exists_of_bind_ok h
    cases h
    obtain ⟨rows, hrows, htemplate⟩ := Except.exists_of_bind_ok htemplate
    cases htemplate
    exact ⟨_, _, hrows⟩

theorem ranking_or_unranked {d : Domain} (h : ofConfig config s range = .ok (.enumeration d)) :
    (∃ ranking, d = .ranking ranking) ∨ d.Unranked := by
  rcases domain_of_config h with hd | hd | ⟨inner, conds, rfl, hd⟩
  · exact .inr hd.unranked
  · exact .inl hd
  · exact .inr hd.unranked

end Method

namespace Round

def model? {σ : Type} [Oracle σ] (r : Round σ) : Option Model :=
  match r.question with
  | (.ok .sat, (_, o)) => Oracle.model? o
  | _ => none

theorem exists_model {σ : Type} [Oracle σ] {r : Round σ} {P : Model → Prop} :
    (∃ m, r.model? = some m ∧ P m) ↔
      ∃ t q m, (Search.query r.assumption (.disj (r.conditions.map (·.2))) :
          Search r.method.domain.Value σ Answer) ((r.value, r.stats), Oracle.push r.oracle) =
        (.ok .sat, ((r.value, t), q)) ∧ Oracle.model? q = some m ∧ P m := by
  have hquestion : r.question = (Search.query r.assumption (.disj (r.conditions.map (·.2))) :
      Search r.method.domain.Value σ Answer) ((r.value, r.stats), Oracle.push r.oracle) := rfl
  have hleaves := Search.leaves_query r.assumption (.disj (r.conditions.map (·.2)))
    (r.value, r.stats) (Oracle.push r.oracle)
  rw [← hquestion] at hleaves ⊢
  constructor
  · rintro ⟨m, hm, hP⟩
    rw [model?] at hm
    split at hm
    · rename_i s q hsat
      rw [hsat] at hleaves ⊢
      obtain ⟨u, t⟩ := s
      obtain rfl : u = r.value := hleaves
      exact ⟨t, q, m, rfl, hm, hP⟩
    · cases hm
  · rintro ⟨t, q, m, hsat, hm, hP⟩
    exact ⟨m, by rw [model?, hsat]; exact hm, hP⟩

variable {width : Nat} {config : Config} {ps : List Procedure} {bounds : Int × Int}

/-- A round on a bit-level solver ends because a number leaves 64 bits exactly if its question has a
model from which such a number is computed. -/
theorem arithmetic_overflow_iff {r : Round BitSolver} (horacle : r.oracle.Made width)
    (hmethod : Method.ofConfig config (.ofProcedures ps) bounds = .ok r.method) :
    r.outcome.1 = .error (.fault .overflow) ↔
      ∃ m, r.model? = some m ∧ r.method.Exceeds m r.conditions := by
  obtain ⟨method, focus, v, stats, o⟩ := r
  obtain ⟨limit, s₀, commands, hcreate, rfl⟩ := horacle
  obtain ⟨hmin, hmax, hkeeps, -, hwidth⟩ := BitSolver.keeps_of_create hcreate commands
  have hgood := BitSolver.bounded hmin hmax
  rw [exists_model]
  cases method with
  | bisection d =>
    obtain ⟨shape, withheld, hrows⟩ := Method.rows_of_config hmethod
    exact TemplateDomain.overflows_bisect hgood ⟨hwidth, _, hkeeps⟩
      fun r hr => (TemplateDomain.rowMax_fits hrows hr).2
  | enumeration d =>
    refine Domain.overflows_enumerate.trans ?_
    obtain ⟨d, rfl⟩ | hd := Method.ranking_or_unranked hmethod
    · refine exists_congr fun t => exists_congr fun q => exists_congr fun m => ?_
      refine and_congr_right fun hask => and_congr_right fun _ => ?_
      -- The solver still has its width after the question, so the search for a function has bits.
      obtain ⟨-, p, hp, hcheck⟩ := Search.query_good hgood (hgood.push ⟨hwidth, _, hkeeps⟩) hask
      have hq := hgood.check hp
      rw [hcheck] at hq
      obtain ⟨c, hc⟩ := hq.2
      refine RankingDomain.overflows_improveAll hc.width ?_
      rintro ⟨i, e⟩ hmem
      obtain ⟨l, r, hl, hr, -⟩ := RankingDomain.mem_conditions.mp hmem
      exact ⟨(List.getElem?_eq_some_iff.mp hl).1, (List.getElem?_eq_some_iff.mp hr).1⟩
    · refine iff_of_false ?_ ?_
      · rintro ⟨t, q, m, -, -, h⟩
        exact Domain.not_overflows_improveAll (Domain.not_overflows_edit hd) _ _ h
      · rintro ⟨t, q, m, -, -, h⟩
        exact Method.not_exceeds_unranked hd h

/-- A loop whose variable falls to a fixed number. -/
def falling (k : Int) : Procedure where
  name := "falling"
  blocks := [
    { location := 1, source := ⟨"falling", 1⟩ },
    { location := 2, source := ⟨"falling", 2⟩, head := some 0, loopVars := [⟨"x#lb2", .int k, false⟩] }]

def fallingCommands (k : Int) : List BitSolver.Command :=
  [.declare (falling k).symbols, .assert (falling k).formula, .assert (falling k).enablingExpr]

/-- The first round of a method on the loop, with two bits. -/
def fall (k : Int) (method : Method) : Round BitSolver where
  method
  focus := none
  value := method.domain.start
  stats := .zero
  oracle := ((BitSolver.fresh 2 1000).execute (fallingCommands k)).1

theorem made_fall (k : Int) (method : Method) : (fall k method).oracle.Made 2 :=
  ⟨1000, _, fallingCommands k, BitSolver.create_eq 1000 (by decide) (by decide), rfl⟩

/-- The row of the variable is at most one, so the interval from two above the least number of 64 bits
is the shortest one that is too long. -/
theorem arithmetic_overflow_iff_fall : ∃ method,
    Method.ofConfig { domain := .template .intervals .bisection }
        (.ofProcedures [falling (Bounded.least + 2)]) (-2, 1) = .ok method ∧
      (fall (Bounded.least + 2) method).oracle.Made 2 ∧
      (fall (Bounded.least + 2) method).outcome.1 = .error (.fault .overflow) ∧
      ∃ m, (fall (Bounded.least + 2) method).model? = some m ∧
        method.Exceeds m (fall (Bounded.least + 2) method).conditions := by
  obtain ⟨method, hmethod⟩ : ∃ method, Method.ofConfig { domain := .template .intervals .bisection }
    (.ofProcedures [falling (Bounded.least + 2)]) (-2, 1) = .ok method := ⟨_, rfl⟩
  have hmade := made_fall (Bounded.least + 2) method
  have hover : (fall (Bounded.least + 2) method).outcome.1 = .error (.fault .overflow) := by
    cases hmethod
    decide +kernel
  exact ⟨method, hmethod, hmade, hover, (arithmetic_overflow_iff hmade hmethod).mp hover⟩

/-- With bisection and with ranking functions, a value that every model gives to what flows back ends
the round. -/
theorem fall_leaves_bits : ∃ bisection ranking,
    Method.ofConfig { domain := .template .intervals .bisection }
        (.ofProcedures [falling Bounded.least]) (-2, 1) = .ok bisection ∧
      Method.ofConfig { domain := .ranking false }
        (.ofProcedures [falling Bounded.least]) (-2, 1) = .ok ranking ∧
      (∀ l ∈ (LoopSystem.ofProcedures [falling Bounded.least]).loops, ∀ x ∈ l.vars, ∀ m : Model,
        m.evalInt x.post = some Bounded.least) ∧
      (fall Bounded.least bisection).outcome.1 = .error (.fault .overflow) ∧
      (fall Bounded.least ranking).outcome.1 = .error (.fault .overflow) := by
  have hposts : ∀ l ∈ (LoopSystem.ofProcedures [falling Bounded.least]).loops, ∀ x ∈ l.vars,
      x.post = .int Bounded.least := by decide +kernel
  refine ⟨_, _, rfl, rfl, ?_, by decide +kernel, by decide +kernel⟩
  intro l hl x hx m
  rw [hposts l hl x hx]
  rfl

end Round

end InvariantSynthesis
