import InvariantSynthesis.Proofs.Domain.Clause
import InvariantSynthesis.Proofs.Expr.Eval
import Mathlib.Data.Fintype.BigOperators
import Mathlib.Data.List.Nodup
import Mathlib.Tactic.Ring

/-!
What an improvement does to a value. A value that is improved has a lower height, and a value that
is not improved stays as it is. A model in which a condition of a value is true improves the value.
-/

namespace InvariantSynthesis

theorem total_set {α : Type} (f : α → Nat) {l : List α} {i : Nat} {a : α} (h : l[i]? = some a)
    (b : α) : total f (l.set i b) + f a = total f l + f b := by
  induction l generalizing i with
  | nil => cases h
  | cons c l ih =>
    cases i with
    | zero =>
      cases h
      simp only [List.set_cons_zero, total]
      omega
    | succ i =>
      have := ih (i := i) h
      simp only [List.set_cons_succ, total]
      omega

theorem total_append {α : Type} (f : α → Nat) (as bs : List α) :
    total f (as ++ bs) = total f as + total f bs := by
  induction as with
  | nil => simp [total]
  | cons a as ih => simp [total, ih, Nat.add_assoc]

theorem getElem?_set_cases {α : Type} {l : List α} {i j : Nat} {a b : α}
    (h : (l.set i a)[j]? = some b) : i = j ∧ b = a ∨ l[j]? = some b := by
  by_cases hij : i = j
  · rw [hij, List.getElem?_set_self'] at h
    obtain ⟨-, -, rfl⟩ := Option.map_eq_some_iff.mp h
    exact .inl ⟨hij, rfl⟩
  · rw [List.getElem?_set_ne hij] at h
    exact .inr h

theorem zip_set {α β : Type} {as : List α} {bs : List β} {i : Nat} {a : α} (h : as[i]? = some a)
    (b : β) : as.zip (bs.set i b) = (as.zip bs).set i (a, b) := by
  induction as generalizing bs i with
  | nil => cases h
  | cons c as ih =>
    cases bs with
    | nil => rfl
    | cons d bs =>
      cases i with
      | zero =>
        cases h
        rfl
      | succ i => simp [ih (i := i) h]

theorem set_of_getElem? {α : Type} {l : List α} {i : Nat} {a : α} (h : l[i]? = some a) :
    l.set i a = l := by
  obtain ⟨hi, rfl⟩ := List.getElem?_eq_some_iff.mp h
  exact List.set_getElem_self hi

theorem length_le_two_pow {n : Nat} {paths : List (List Bool)} (hnodup : paths.Nodup)
    (hlength : ∀ p ∈ paths, p.length = n) : paths.length ≤ 2 ^ n := by
  have hinj : ∀ p ∈ paths, ∀ q ∈ paths,
      (fun i : Fin n => p.getD i false) = (fun i : Fin n => q.getD i false) → p = q := by
    intro p hp q hq heq
    apply List.ext_getElem ((hlength p hp).trans (hlength q hq).symm)
    intro i hi hj
    have := congrFun heq ⟨i, hlength p hp ▸ hi⟩
    simpa [hi, hj] using this
  have hcard := (hnodup.map_on hinj).length_le_card
  simpa using hcard

def Model.Fits (m : Model) : Prop := ∀ n k, m.get? n = some (.int k) → Bounded.Fits k

theorem Model.requireInt_ok {m : Model} {e : Expr} {k : Int} (h : m.requireInt e = .ok k) :
    m.evalInt e = some k := by
  rw [requireInt] at h
  split at h
  · rename_i j hj
    cases h
    exact hj
  · cases h

namespace Domain

/-- A pointer has no more targets than allowed, a loop that is not given up has no more turns than
allowed, and paths are distinct and as long as there are branch conditions. -/
def Sane : (d : Domain) → d.Value → Prop
  | .heap d, (v : List PointsTo) => ∀ ts, .targets ts ∈ v → ts.length ≤ d.maxTargets
  | .ranking d, (v : List RankingRow) =>
    ∀ r ∈ v, r.function ≠ .gaveUp → r.turns.length ≤ d.maxRefinements
  | .product a b, (v, w) => a.Sane v ∧ b.Sane w
  | .paths d conds, (ps : List (List Bool × d.Value)) =>
    (ps.map (·.1)).Nodup ∧ ∀ p ∈ ps, p.1.length = conds.length ∧ d.Sane p.2
  | .template _, _ | .equalities _, _ | .predicates _, _ => True

theorem sane_start (d : Domain) : d.Sane d.start := by
  induction d with
  | heap d =>
    intro ts hts
    obtain ⟨r, -, hr⟩ := List.mem_map.mp hts
    cases hr
    exact Nat.zero_le _
  | ranking d =>
    intro r hr _
    obtain ⟨l, -, rfl⟩ := List.mem_map.mp hr
    exact Nat.zero_le _
  | product a b iha ihb => exact ⟨iha, ihb⟩
  | paths d conds => exact ⟨List.nodup_nil, fun p hp => absurd hp List.not_mem_nil⟩
  | template | equalities | predicates => trivial

/-- Every path has a number of its own. -/
def Roomy : (d : Domain) → d.Value → Prop
  | .product a b, (v, w) => a.Roomy v ∧ b.Roomy w
  | .paths d _, (ps : List (List Bool × d.Value)) =>
    ps.length ≤ newPath ∧ ∀ p ∈ ps, d.Roomy p.2
  | .template _, _ | .equalities _, _ | .predicates _, _ | .ranking _, _ | .heap _, _ => True

def Unranked : Domain → Prop
  | .product a b => a.Unranked ∧ b.Unranked
  | .paths d _ => d.Unranked
  | .ranking _ => False
  | .template _ | .equalities _ | .predicates _ | .heap _ => True

theorem Relational.unranked {d : Domain} (h : d.Relational) : d.Unranked := by
  induction d with
  | product a b iha ihb => exact ⟨iha h.1, ihb h.2⟩
  | paths | ranking => exact h.elim
  | template | equalities | predicates | heap => trivial

theorem Relational.roomy {d : Domain} (h : d.Relational) {v : d.Value} : d.Roomy v := by
  induction d with
  | product a b iha ihb => exact ⟨iha h.1, ihb h.2⟩
  | paths | ranking => exact h.elim
  | template | equalities | predicates | heap => trivial

/-- The second value follows from the first by improvements, if there are any. -/
structure Step (d : Domain) (v : d.Value) (changed : Bool) (v' : d.Value) : Prop where
  sane : d.Sane v'
  lower : changed = true → d.height v' < d.height v
  same : changed = false → v' = v

theorem Step.height_le {d : Domain} {v v' : d.Value} {changed : Bool} (h : d.Step v changed v') :
    d.height v' ≤ d.height v := by
  cases changed with
  | true => exact Nat.le_of_lt (h.lower rfl)
  | false => rw [h.same rfl]

theorem Step.of_eq {d : Domain} {v v' : d.Value} (hs : d.Sane v) (h : v' = v) :
    d.Step v false v' :=
  ⟨h ▸ hs, nofun, fun _ => h⟩

theorem Step.trans {d : Domain} {u v w : d.Value} {a b : Bool} (h : d.Step u a v)
    (h' : d.Step v b w) : d.Step u (b || a) w := by
  refine ⟨h'.sane, fun hc => ?_, fun hc => ?_⟩
  · rcases (Bool.or_eq_true b a).mp hc with hb | ha
    · exact Nat.lt_of_lt_of_le (h'.lower hb) h.height_le
    · exact Nat.lt_of_le_of_lt h'.height_le (h.lower ha)
  · obtain ⟨hb, ha⟩ := Bool.or_eq_false_iff.mp hc
    rw [h'.same hb, h.same ha]

theorem Edit.pure_ok {α : Type} {f : α → Except Error (Bool × α)} {v v' : α} {b : Bool}
    {stats stats' : Statistics} (h : Edit.pure f (v, stats) = (.ok b, (v', stats'))) :
    f v = .ok (b, v') := by
  rw [Edit.pure] at h
  split at h
  · rename_i heq
    cases h
    exact heq
  · cases h

end Domain

namespace TemplateDomain

variable {d : TemplateDomain} {v v' : List RowValue} {i : Nat} {m : Model} {b : Bool}

theorem row_ok {r : TemplateRow} : d.row i = .ok r ↔ d.rows[i]? = some r := by
  rw [row]
  cases d.rows[i]? <;> simp

theorem join_eq_of_ne {limit k : Int} {x : RowValue} (h : join limit k x ≠ x) :
    join limit k x = if k < limit then .bound k else .top := by
  revert h
  cases x with
  | top => exact fun h => absurd rfl h
  | bottom =>
    intro _
    by_cases hk : k < limit
    · rw [join, if_neg (by omega), if_pos hk]
    · rw [join, if_pos (by omega), if_neg hk]
  | bound b =>
    by_cases hb : k ≤ b
    · rw [join, if_pos hb]
      exact fun h => absurd rfl h
    · intro _
      by_cases hk : k < limit
      · rw [join, if_neg hb, if_neg (by omega), if_pos hk]
      · rw [join, if_neg hb, if_pos (by omega), if_neg hk]

theorem raise_ok {k : Int} (h : d.raise v i k = .ok (b, v')) :
    ∃ r old, d.rows[i]? = some r ∧ v[i]? = some old ∧
      v' = v.set i (join (d.rowMax r) k old) ∧ b = decide (join (d.rowMax r) k old ≠ old) := by
  obtain ⟨r, hr, h⟩ := Except.exists_of_bind_ok h
  cases hv : v[i]? with
  | none =>
    simp only [hv] at h
    cases h
  | some old =>
    simp only [hv] at h
    cases h
    exact ⟨r, old, row_ok.mp hr, rfl, rfl, rfl⟩

theorem edit_ok (h : d.edit v i m = .ok (b, v')) :
    ∃ r k, d.rows[i]? = some r ∧ m.evalInt r.post = some k ∧ d.raise v i k = .ok (b, v') := by
  obtain ⟨r, hr, h⟩ := Except.exists_of_bind_ok h
  obtain ⟨k, hk, h⟩ := Except.exists_of_bind_ok h
  exact ⟨r, k, row_ok.mp hr, Model.requireInt_ok hk, h⟩

theorem rowHeight_join {limit k : Int} {x : RowValue} (hk : Bounded.least ≤ k)
    (h : join limit k x ≠ x) : rowHeight limit (join limit k x) < rowHeight limit x := by
  revert h
  unfold join
  split
  · exact fun h => absurd rfl h
  · split <;> simp only [rowHeight] <;> omega
  · split
    · exact fun h => absurd rfl h
    · split <;> simp only [rowHeight] <;> omega

theorem raise_step {k : Int} (hk : Bounded.least ≤ k) (h : d.raise v i k = .ok (b, v')) :
    (Domain.template d).Step v b v' := by
  obtain ⟨r, old, hr, hold, rfl, rfl⟩ := raise_ok h
  refine ⟨trivial, fun hb => ?_, fun hb => ?_⟩
  · have hlower := rowHeight_join hk (of_decide_eq_true hb)
    have hget : (d.rows.zip v)[i]? = some (r, old) := List.getElem?_zip_eq_some.mpr ⟨hr, hold⟩
    have hset := total_set (fun (p : TemplateRow × RowValue) => rowHeight (d.rowMax p.1) p.2) hget
      (r, join (d.rowMax r) k old)
    rw [← zip_set hr] at hset
    dsimp only at hset
    simp only [Domain.height, height]
    omega
  · have hsame : join (d.rowMax r) k old = old := by simpa using hb
    rw [hsame]
    exact set_of_getElem? hold

theorem join_ne {r : TemplateRow} {x : RowValue} {e : Expr} {ρ : Valuation} {limit k : Int}
    (he : r.improvement? x = some e) (hholds : e.holds ρ = true) (hk : r.post.number ρ ≤ k) :
    join limit k x ≠ x := by
  cases x with
  | bottom =>
    rw [join]
    split <;> simp
  | bound b =>
    cases he
    have hlt : b < r.post.number ρ := Expr.holds_exceeds.mp (Expr.holds_both.mp hholds).2
    rw [join, if_neg (by omega)]
    split
    · simp
    · simp only [ne_eq, RowValue.bound.injEq]
      omega
  | top => cases he

theorem raise_changes {focus : Option Nat} {c : Expr} {r : TemplateRow} {k : Int} {ρ : Valuation}
    (hc : (i, c) ∈ d.conditions v focus) (hholds : c.holds ρ = true) (hr : d.rows[i]? = some r)
    (hk : r.post.number ρ ≤ k) (h : d.raise v i k = .ok (b, v')) : b = true := by
  obtain ⟨r', x, hr', hx, -, he⟩ := mem_conditions.mp hc
  obtain ⟨r'', old, hr'', hold, -, rfl⟩ := raise_ok h
  cases hr.symm.trans hr'
  cases hr.symm.trans hr''
  cases hx.symm.trans hold
  exact decide_eq_true (join_ne he hholds hk)

end TemplateDomain

namespace CandidateDomain

theorem edit_ok {v v' : List Bool} {i : Nat} {b : Bool} (h : edit v i = .ok (b, v')) :
    v[i]? = some b ∧ v' = v.set i false := by
  rw [edit] at h
  split at h
  · rename_i heq
    cases h
    exact ⟨heq, rfl⟩
  · cases h

theorem edit_count {v v' : List Bool} {i : Nat} {b : Bool} (h : edit v i = .ok (b, v')) :
    (b = true → v'.count true < v.count true) ∧ (b = false → v' = v) := by
  obtain ⟨hb, rfl⟩ := edit_ok h
  constructor
  · rintro rfl
    obtain ⟨hi, hget⟩ := List.getElem?_eq_some_iff.mp hb
    have hpos : 0 < v.count true := List.count_pos_iff.mpr (List.mem_of_getElem? hb)
    rw [List.count_set hi, hget]
    simp only [BEq.rfl, if_true]
    simp only [Bool.false_beq, Bool.not_true, Bool.false_eq_true, if_false]
    omega
  · rintro rfl
    exact set_of_getElem? hb

end CandidateDomain

namespace RankingDomain

variable {σ : Type} [Oracle σ] {d : RankingDomain} {v v' : List RankingRow} {i : Nat} {m : Model}
  {parent : σ} {stats stats' : Statistics} {b : Bool}

/-- One more turn is recorded. The loop is given up, or there are coefficients for a function and the
turns are not too many. -/
structure Revised (d : RankingDomain) (l : RankedLoop) (r r' : RankingRow) : Prop where
  turns : r'.turns.length = r.turns.length + 1
  function : r'.function = .gaveUp ∨
    r'.turns.length ≤ d.maxRefinements ∧ r'.function = .found (l.components r'.coefficients)

theorem edit_ok (h : d.edit parent i m (v, stats) = (.ok b, (v', stats'))) :
    b = true ∧ ∃ l r r', d.loops[i]? = some l ∧ v[i]? = some r ∧ v' = v.set i r' ∧
      d.Revised l r r' := by
  simp only [edit] at h
  split at h
  · rename_i l r hl hr
    split at h
    · cases h
    · rename_i turn _
      by_cases hmany : d.maxRefinements < (r.turns ++ [turn]).length
      · rw [if_pos hmany] at h
        cases h
        exact ⟨rfl, l, r, _, hl, hr, rfl, by simp, .inl rfl⟩
      · rw [if_neg hmany] at h
        split at h
        · rename_i found _ _
          cases h
          refine ⟨rfl, l, r, _, hl, hr, rfl, ?_⟩
          cases found with
          | none => exact ⟨by simp [adopt], .inl rfl⟩
          | some cs => exact ⟨by simp [adopt], .inr ⟨Nat.le_of_not_lt hmany, rfl⟩⟩
        · cases h
  · cases h

theorem rowHeight_revised {l : RankedLoop} {r r' : RankingRow} (h : d.Revised l r r')
    (halive : r.function ≠ .gaveUp) (hturns : r.turns.length ≤ d.maxRefinements) :
    d.rowHeight r' < d.rowHeight r := by
  have hr : d.rowHeight r = d.maxRefinements + 2 - r.turns.length := by
    rw [rowHeight]
    split
    · rename_i hgave
      exact absurd hgave halive
    · rfl
  have hlength := h.turns
  obtain hgave | ⟨hfew, hfound⟩ := h.function
  · have hr' : d.rowHeight r' = 0 := by simp [rowHeight, hgave]
    omega
  · have hr' : d.rowHeight r' = d.maxRefinements + 2 - r'.turns.length := by
      simp [rowHeight, hfound]
    omega

/-- Revising the row of a loop that is not given up lowers the height. -/
theorem edit_step (hs : (Domain.ranking d).Sane v)
    (halive : ∀ {r}, v[i]? = some r → r.function ≠ .gaveUp)
    (h : d.edit parent i m (v, stats) = (.ok b, (v', stats'))) : (Domain.ranking d).Step v b v' := by
  obtain ⟨rfl, l, r, r', -, hr, rfl, hrevised⟩ := edit_ok h
  refine ⟨fun x hx halive' => ?_, fun _ => ?_, nofun⟩
  · obtain hx | rfl := List.mem_or_eq_of_mem_set hx
    · exact hs x hx halive'
    · exact (hrevised.function.resolve_left halive').1
  · have htotal := total_set d.rowHeight hr r'
    have hlower := rowHeight_revised hrevised (halive hr)
      (hs r (List.mem_of_getElem? hr) (halive hr))
    show total d.rowHeight (v.set i r') < total d.rowHeight v
    omega

end RankingDomain

namespace HeapDomain

variable {d : HeapDomain} {v v' : List PointsTo} {i : Nat} {m : Model} {b : Bool}

theorem length_addTarget {t : Int} {ts : List Int} (h : t ∉ ts) :
    (addTarget t ts).length = ts.length + 1 := by
  induction ts with
  | nil => rfl
  | cons u us ih =>
    rw [addTarget]
    split
    · rfl
    · have hne : t ≠ u := fun hu => h (hu ▸ List.mem_cons_self)
      rw [if_neg hne, List.length_cons, ih fun hu => h (List.mem_cons_of_mem _ hu), List.length_cons]

theorem edit_ok (h : d.edit v i m = .ok (b, v')) :
    ∃ r old k, d.rows[i]? = some r ∧ v[i]? = some old ∧ m.evalInt r.post = some k ∧
      v' = v.set i (d.extend k old) ∧ b = decide (d.extend k old ≠ old) := by
  rw [edit] at h
  split at h
  · rename_i r old hr hold
    obtain ⟨k, hk, h⟩ := Except.exists_of_bind_ok h
    cases h
    exact ⟨r, old, k, hr, hold, Model.requireInt_ok hk, rfl, rfl⟩
  · cases h

theorem extend_ne {ts : List Int} {t : Int} (h : t ∉ ts) : d.extend t (.targets ts) ≠ .targets ts := by
  rw [extend, if_neg h]
  split
  · simp
  · intro heq
    have := congrArg List.length (PointsTo.targets.inj heq)
    rw [length_addTarget h] at this
    omega

theorem extend_lower {x : PointsTo} {t : Int}
    (hx : ∀ ts, x = .targets ts → ts.length ≤ d.maxTargets) (h : d.extend t x ≠ x) :
    d.rowHeight (d.extend t x) < d.rowHeight x := by
  revert h
  unfold extend
  split
  · exact fun h => absurd rfl h
  · rename_i ts
    have := hx ts rfl
    split
    · exact fun h => absurd rfl h
    · rename_i hmem
      have := length_addTarget hmem
      split <;> simp only [rowHeight] <;> omega

theorem extend_length {x : PointsTo} {t : Int}
    (hx : ∀ ts, x = .targets ts → ts.length ≤ d.maxTargets) :
    ∀ ts, d.extend t x = .targets ts → ts.length ≤ d.maxTargets := by
  intro us hus
  unfold extend at hus
  split at hus
  · cases hus
  · split at hus
    · exact hx us hus
    · split at hus
      · cases hus
      · cases hus
        omega

theorem edit_step (hs : (Domain.heap d).Sane v) (h : d.edit v i m = .ok (b, v')) :
    (Domain.heap d).Step v b v' := by
  obtain ⟨r, old, k, -, hold, -, rfl, rfl⟩ := edit_ok h
  have hlength : ∀ ts, old = .targets ts → ts.length ≤ d.maxTargets := fun ts hts =>
    hs ts (hts ▸ List.mem_of_getElem? hold)
  refine ⟨fun ts hts => ?_, fun hb => ?_, fun hb => ?_⟩
  · rcases List.mem_or_eq_of_mem_set hts with hts | hts
    · exact hs ts hts
    · exact extend_length hlength ts hts.symm
  · have hlower := extend_lower hlength (of_decide_eq_true hb)
    have hset := total_set d.rowHeight hold (d.extend k old)
    simp only [Domain.height]
    omega
  · have hsame : d.extend k old = old := by simpa using hb
    rw [hsame]
    exact set_of_getElem? hold

/-- A model in which a pointer escapes adds a target. -/
theorem edit_changes {focus : Option Nat} {c : Expr} (hc : (i, c) ∈ d.conditions v focus)
    (hholds : c.holds m.valuation = true) (h : d.edit v i m = .ok (b, v')) : b = true := by
  obtain ⟨r, x, hr, hx, -, he⟩ := mem_conditions.mp hc
  obtain ⟨r', old, k, hr', hold, hk, -, rfl⟩ := edit_ok h
  cases hr.symm.trans hr'
  cases hx.symm.trans hold
  cases x with
  | targets ts =>
    cases he
    refine decide_eq_true (extend_ne fun hmem => ?_)
    have hvalue := Model.value_of_evalInt hk
    have hescapes := (Expr.holds_both.mp hholds).2
    simp only [Expr.holds_negate, pointsTo, Expr.holds_disj, Bool.not_eq_true', List.any_eq_false,
      List.mem_map] at hescapes
    exact hescapes _ ⟨k, hmem, rfl⟩ (by simp [hvalue, Expr.value])
  | top => cases he

end HeapDomain

namespace Domain

section paths

variable {d : Domain} {conds : List Expr} {m : Model} {inner : Edit d.Value}

/-- The inner improvements of a path lower the height of its value. -/
def Steps (d : Domain) (inner : Edit d.Value) : Prop :=
  ∀ {v v' stats stats' b}, d.Sane v → inner (v, stats) = (.ok b, (v', stats')) → d.Step v b v'

theorem pathOf_ok {path : List Bool} (h : pathOf conds m = .ok path) :
    path = conds.map (Expr.holds m.valuation) := by
  induction conds generalizing path with
  | nil =>
    cases h
    rfl
  | cons c conds ih =>
    rw [pathOf, List.mapM_cons] at h
    obtain ⟨b, hb, h⟩ := Except.exists_of_bind_ok h
    obtain ⟨bs, hbs, h⟩ := Except.exists_of_bind_ok h
    cases h
    split at hb
    · rename_i b' heval
      cases hb
      rw [List.map_cons, Model.holds_of_evalBool heval, ← ih hbs]
    · cases hb

variable {ps ps' : List (List Bool × d.Value)} {k : Nat} {b : Bool} {stats stats' : Statistics}

theorem Edit.onPath_ok (h : Edit.onPath k inner (ps, stats) = (.ok b, (ps', stats'))) :
    ∃ path v v', ps[k]? = some (path, v) ∧ inner (v, stats) = (.ok b, (v', stats')) ∧
      ps' = ps.set k (path, v') := by
  rw [Edit.onPath] at h
  cases hk : ps[k]? with
  | none =>
    simp only [hk] at h
    cases h
  | some p =>
    obtain ⟨path, v⟩ := p
    simp only [hk] at h
    cases hrun : inner (v, stats) with
    | mk r s =>
      obtain ⟨v', stats''⟩ := s
      simp only [hrun] at h
      cases h
      exact ⟨path, v, v', rfl, hrun, rfl⟩

theorem Edit.onPath_keys (h : Edit.onPath k inner (ps, stats) = (.ok b, (ps', stats'))) :
    ps'.map (·.1) = ps.map (·.1) := by
  obtain ⟨path, v, v', hk, -, rfl⟩ := Edit.onPath_ok h
  rw [List.map_set]
  exact set_of_getElem? (by rw [List.getElem?_map, hk]; rfl)

theorem Edit.onPath_step (hinner : Steps d inner) (hs : (Domain.paths d conds).Sane ps)
    (h : Edit.onPath k inner (ps, stats) = (.ok b, (ps', stats'))) :
    (Domain.paths d conds).Step ps b ps' := by
  have hkeys := Edit.onPath_keys h
  obtain ⟨path, v, v', hk, hrun, rfl⟩ := Edit.onPath_ok h
  obtain ⟨hnodup, hall⟩ := hs
  have hp : path.length = conds.length ∧ d.Sane v := hall _ (List.mem_of_getElem? hk)
  have hstep := hinner hp.2 hrun
  refine ⟨⟨?_, fun p hmem => ?_⟩, fun hb => ?_, fun hb => ?_⟩
  · rwa [hkeys]
  · rcases List.mem_or_eq_of_mem_set hmem with hmem | rfl
    · exact hall p hmem
    · exact ⟨hp.1, hstep.sane⟩
  · have hset := total_set (fun (p : List Bool × d.Value) => d.height p.2) hk (path, v')
    have hlower := hstep.lower hb
    simp only [height, List.length_set]
    dsimp only at hset
    omega
  · rw [hstep.same hb]
    exact set_of_getElem? hk

theorem Edit.onModelPath_ok {first : d.Value}
    (h : Edit.onModelPath conds m first inner (ps, stats) = (.ok b, (ps', stats'))) :
    ∃ path, pathOf conds m = .ok path ∧
      ((∃ k, Edit.onPath k inner (ps, stats) = (.ok b, (ps', stats')) ∧ path ∈ ps.map (·.1)) ∨
        ∃ v' changed, path ∉ ps.map (·.1) ∧ inner (first, stats) = (.ok changed, (v', stats')) ∧
          ps' = ps ++ [(path, v')] ∧ b = true) := by
  rw [Edit.onModelPath] at h
  split at h
  · cases h
  · rename_i path hpath
    refine ⟨path, hpath, ?_⟩
    split at h
    · rename_i k hk
      obtain ⟨hlt, hkey, -⟩ := List.findIdx?_eq_some_iff_getElem.mp hk
      exact .inl ⟨k, h, List.mem_map.mpr ⟨ps[k], List.getElem_mem hlt, of_decide_eq_true hkey⟩⟩
    · rename_i hnone
      have hnew : path ∉ ps.map (·.1) := by
        intro hmem
        obtain ⟨p, hp, hkey⟩ := List.mem_map.mp hmem
        have := List.findIdx?_eq_none_iff.mp hnone p hp
        simp [hkey] at this
      right
      cases hrun : Edit.onPath ps.length inner (ps ++ [(path, first)], stats) with
      | mk r s =>
        obtain ⟨qs, stats''⟩ := s
        simp only [hrun] at h
        cases r with
        | error e => cases h
        | ok changed =>
          cases h
          obtain ⟨path', v, v', hget, hrun, rfl⟩ := Edit.onPath_ok hrun
          rw [List.getElem?_concat_length] at hget
          cases hget
          refine ⟨v', changed, hnew, hrun, ?_, rfl⟩
          rw [List.set_append_right _ _ (Nat.le_refl _), Nat.sub_self, List.set_cons_zero]

theorem height_concat {path : List Bool} {v' : d.Value} (hs : (Domain.paths d conds).Sane ps)
    (hlength : path.length = conds.length) (hnew : path ∉ ps.map (·.1))
    (hv : d.height v' ≤ d.height d.start) :
    (Domain.paths d conds).height (ps ++ [(path, v')]) < (Domain.paths d conds).height ps := by
  have hroom : ps.length + 1 ≤ 2 ^ conds.length := by
    have hnodup : (path :: ps.map (·.1)).Nodup := List.nodup_cons.mpr ⟨hnew, hs.1⟩
    have := length_le_two_pow hnodup (n := conds.length) fun p hp => by
      rcases List.mem_cons.mp hp with rfl | hp
      · exact hlength
      · obtain ⟨q, hq, rfl⟩ := List.mem_map.mp hp
        exact (hs.2 q hq).1
    simpa using this
  obtain ⟨n, hn⟩ : ∃ n, Nat.pow 2 conds.length = ps.length + 1 + n :=
    ⟨2 ^ conds.length - (ps.length + 1), by show 2 ^ conds.length = _; omega⟩
  simp only [height, total_append, total, List.length_append, List.length_singleton, hn]
  have h₁ : ps.length + 1 + n - (ps.length + 1) = n := by omega
  have h₂ : ps.length + 1 + n - ps.length = n + 1 := by omega
  rw [h₁, h₂, Nat.succ_mul]
  omega

theorem Edit.onModelPath_step (hinner : Steps d inner) (hs : (Domain.paths d conds).Sane ps)
    (h : Edit.onModelPath conds m d.start inner (ps, stats) = (.ok b, (ps', stats'))) :
    (Domain.paths d conds).Step ps b ps' := by
  obtain ⟨path, hpath, ⟨k, hrun, -⟩ | ⟨v', changed, hnew, hrun, rfl, rfl⟩⟩ := Edit.onModelPath_ok h
  · exact Edit.onPath_step hinner hs hrun
  · have hstep := hinner d.sane_start hrun
    have hlength : path.length = conds.length := by rw [pathOf_ok hpath, List.length_map]
    refine ⟨⟨?_, fun p hmem => ?_⟩, fun _ => height_concat hs hlength hnew hstep.height_le, nofun⟩
    · rw [List.map_append]
      exact List.nodup_append.mpr ⟨hs.1, by simp, fun a ha b hb => by
        obtain rfl : b = path := by simpa using hb
        exact fun heq => hnew (heq ▸ ha)⟩
    · rcases List.mem_append.mp hmem with hmem | hmem
      · exact hs.2 p hmem
      · obtain rfl := List.mem_singleton.mp hmem
        exact ⟨hlength, hstep.sane⟩

end paths

variable {σ : Type} [Oracle σ]

theorem edit_product_ok {a b : Domain} {parent : σ} {m : Model} {i : Nat} {v v' : a.Value}
    {w w' : b.Value} {stats stats' : Statistics} {changed : Bool}
    (h : (Domain.product a b).edit parent m i ((v, w), stats) = (.ok changed, ((v', w'), stats'))) :
    (∃ j, i = 2 * j ∧ a.edit parent m j (v, stats) = (.ok changed, (v', stats')) ∧ w' = w) ∨
      ∃ j, i = 2 * j + 1 ∧ b.edit parent m j (w, stats) = (.ok changed, (w', stats')) ∧ v' = v := by
  rw [edit] at h
  by_cases hi : i % 2 = 0
  · simp only [hi, if_true] at h
    cases hrun : a.edit parent m (i / 2) (v, stats) with
    | mk r s =>
      simp only [hrun] at h
      cases h
      exact .inl ⟨i / 2, by omega, hrun, rfl⟩
  · simp only [hi, if_false] at h
    cases hrun : b.edit parent m (i / 2) (w, stats) with
    | mk r s =>
      simp only [hrun] at h
      cases h
      exact .inr ⟨i / 2, by omega, hrun, rfl⟩

/-- The number of a row tells its path, if there are not too many paths. -/
theorem edit_along {d : Domain} {conds : List Expr} {parent : σ} {m : Model} {k : Nat}
    (hk : k < newPath) (j : Nat) : (Domain.paths d conds).edit parent m (j * stride + k) =
      Edit.onPath k (d.edit parent m j) := by
  have hdiv : (j * stride + k) / stride = j := by unfold newPath stride at *; omega
  have hmod : (j * stride + k) % stride = k := by unfold newPath stride at *; omega
  rw [edit, hdiv, hmod]
  exact if_neg (Nat.ne_of_lt hk)

theorem edit_fresh {d : Domain} {conds : List Expr} {parent : σ} {m : Model} (j : Nat) :
    (Domain.paths d conds).edit parent m (j * stride + newPath) =
      Edit.onModelPath conds m d.start (d.edit parent m j) := by
  have hdiv : (j * stride + newPath) / stride = j := by unfold newPath stride; omega
  have hmod : (j * stride + newPath) % stride = newPath := by unfold newPath stride; omega
  rw [edit, hdiv, hmod]
  exact if_pos rfl

/-- An improvement lowers the height. -/
theorem edit_step {d : Domain} (hd : d.Unranked) {parent : σ} {m : Model} (hm : m.Fits) {i : Nat} :
    Steps d (d.edit parent m i) := by
  induction d generalizing i with
  | template d =>
    intro v v' stats stats' b hs h
    obtain ⟨r, k, -, hk, hraise⟩ := TemplateDomain.edit_ok (Edit.pure_ok h)
    exact TemplateDomain.raise_step (Model.fits_of_evalInt hm hk).1 hraise
  | equalities d | predicates d =>
    intro v v' stats stats' b hs h
    obtain ⟨hlower, hsame⟩ := CandidateDomain.edit_count (Edit.pure_ok h)
    exact ⟨trivial, hlower, hsame⟩
  | heap d =>
    intro v v' stats stats' b hs h
    exact HeapDomain.edit_step hs (Edit.pure_ok h)
  | product a b iha ihb =>
    rintro ⟨v, w⟩ ⟨v', w'⟩ stats stats' changed ⟨hv, hw⟩ h
    obtain ⟨j, -, hrun, rfl⟩ | ⟨j, -, hrun, rfl⟩ := edit_product_ok h
    · have hstep := iha hd.1 hv hrun
      refine ⟨⟨hstep.sane, hw⟩, fun hc => ?_, fun hc => ?_⟩
      · exact Nat.add_lt_add_right (hstep.lower hc) _
      · rw [hstep.same hc]
    · have hstep := ihb hd.2 hw hrun
      refine ⟨⟨hv, hstep.sane⟩, fun hc => ?_, fun hc => ?_⟩
      · exact Nat.add_lt_add_left (hstep.lower hc) _
      · rw [hstep.same hc]
  | ranking d => exact hd.elim
  | paths d conds ih =>
    intro ps ps' stats stats' b hs h
    by_cases hi : i % stride = newPath
    · simp only [edit, hi] at h
      exact Edit.onModelPath_step (ih hd) hs h
    · simp only [edit, hi] at h
      exact Edit.onPath_step (ih hd) hs h

theorem holds_pathExpr {conds : List Expr} {path : List Bool} {ρ : Valuation}
    (hlength : path.length = conds.length) :
    (pathExpr conds path).holds ρ = true ↔ path = conds.map (Expr.holds ρ) := by
  rw [pathExpr, Expr.holds_conj]
  induction conds generalizing path with
  | nil => simpa using hlength
  | cons c conds ih =>
    cases path with
    | nil => cases hlength
    | cons b path =>
      rw [List.zip_cons_cons, List.map_cons, List.all_cons, Bool.and_eq_true, List.map_cons,
        List.cons.injEq, ih (Nat.succ.inj hlength)]
      cases b <;> cases hc : c.holds ρ <;> simp [hc]

theorem unseen_changes {d : Domain} {conds : List Expr} {ps ps' : List (List Bool × d.Value)}
    {inner : Edit d.Value} {m : Model} {stats stats' : Statistics} {changed : Bool}
    (hlength : ∀ p ∈ ps, p.1.length = conds.length)
    (hunseen : (unseen conds ps).holds m.valuation = true)
    (h : Edit.onModelPath conds m d.start inner (ps, stats) = (.ok changed, (ps', stats'))) :
    changed = true := by
  obtain ⟨path, hpath, ⟨k, -, hmem⟩ | ⟨-, -, -, -, -, rfl⟩⟩ := Edit.onModelPath_ok h
  · obtain ⟨p, hp, rfl⟩ := List.mem_map.mp hmem
    have htaken := (holds_pathExpr (hlength p hp)).mpr (pathOf_ok hpath)
    rw [holds_unseen.mp hunseen p hp] at htaken
    cases htaken
  · rfl

/-- A model in which a condition of the value is true improves the value. -/
theorem edit_changes {d : Domain} {v v' : d.Value} {focus : Option Nat} {parent : σ} {m : Model}
    {i : Nat} {c : Expr} {stats stats' : Statistics} {changed : Bool} (hs : d.Sane v) (hr : d.Roomy v)
    (hc : (i, c) ∈ d.conditions v focus) (heval : m.evalBool c = some true)
    (h : d.edit parent m i (v, stats) = (.ok changed, (v', stats'))) : changed = true := by
  have hholds := Model.holds_of_evalBool heval
  clear heval
  induction d generalizing i c stats stats' changed with
  | template d =>
    obtain ⟨r, k, hr, hk, hraise⟩ := TemplateDomain.edit_ok (Edit.pure_ok h)
    exact TemplateDomain.raise_changes hc hholds hr (Int.le_of_eq (Model.number_of_evalInt hk)) hraise
  | equalities d | predicates d =>
    obtain ⟨k, alive, -, hb, hfocus, -⟩ := CandidateDomain.mem_conditions.mp hc
    have halive := (CandidateDomain.edit_ok (Edit.pure_ok h)).1
    cases hb.symm.trans halive
    exact (Bool.and_eq_true _ _ ▸ hfocus).1
  | ranking d => exact (RankingDomain.edit_ok h).1
  | heap d => exact HeapDomain.edit_changes hc hholds (Edit.pure_ok h)
  | product a b iha ihb =>
    obtain ⟨v, w⟩ := v
    obtain ⟨v', w'⟩ := v'
    obtain ⟨j, rfl, hmem⟩ | ⟨j, rfl, hmem⟩ := mem_conditions_product.mp hc
    · obtain ⟨j', hj, hrun, -⟩ | ⟨j', hj, -⟩ := edit_product_ok h
      · obtain rfl : j = j' := by omega
        exact iha hs.1 hr.1 hmem hrun hholds
      · omega
    · obtain ⟨j', hj, -⟩ | ⟨j', hj, hrun, -⟩ := edit_product_ok h
      · omega
      · obtain rfl : j = j' := by omega
        exact ihb hs.2 hr.2 hmem hrun hholds
  | paths d conds ih =>
    obtain ⟨hnodup, hall⟩ := hs
    obtain ⟨k, path, w, j, e, hk, hmem, rfl, rfl⟩ | ⟨-, j, e, -, rfl, rfl⟩ :=
      mem_conditions_paths.mp hc
    · have hp := List.mem_of_getElem? hk
      have hlt : k < newPath := Nat.lt_of_lt_of_le (List.getElem?_eq_some_iff.mp hk).1 hr.1
      rw [edit_along hlt] at h
      obtain ⟨path', u, u', hk', hrun, -⟩ := Edit.onPath_ok h
      cases hk.symm.trans hk'
      exact ih (hall _ hp).2 (hr.2 _ hp) hmem hrun (Expr.holds_both.mp hholds).2
    · rw [edit_fresh] at h
      exact unseen_changes (fun p hp => (hall p hp).1) (Expr.holds_both.mp hholds).1 h

end Domain

end InvariantSynthesis
