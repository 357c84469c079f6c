import InvariantSynthesis.Proofs.BitSolver.Exact
import InvariantSynthesis.Proofs.Search.Order
import InvariantSynthesis.Proofs.Search.Progress

/-!
Rounds lead up. A round makes one improvement after the other, so its value is above the one from
before, and it is another value if and only if some improvement has changed it. A loop that is given
up has no condition, so no round revises it as long as every row has a number of its own.
-/

namespace InvariantSynthesis

namespace Domain

variable {d : Domain} {u v v' w : d.Value} {a b : Bool}

/-- The second value is the first one or above it, and the flag says whether it is another one. -/
structure Ascent (d : Domain) (v : d.Value) (changed : Bool) (v' : d.Value) : Prop where
  le : v ≤ v'
  changed : changed = false ↔ v' = v

theorem Ascent.refl (v : d.Value) : d.Ascent v false v := ⟨le_refl v, iff_of_true rfl rfl⟩

theorem Ascent.trans (h : d.Ascent u a v) (h' : d.Ascent v b w) : d.Ascent u (b || a) w := by
  refine ⟨h.le.trans h'.le, ?_⟩
  rw [Bool.or_eq_false_iff, h.changed, h'.changed]
  constructor
  · rintro ⟨hw, hv⟩
    exact hw.trans hv
  · -- what has risen does not come back
    intro hw
    have hback : v ≤ u := hw ▸ h'.le
    have hv : v = u := le_antisymm hback h.le
    exact ⟨hw.trans hv.symm, hv⟩

variable {σ : Type} [Oracle σ] {m : Model} {i : Nat} {c : Expr} {focus : Option Nat}
  {stats stats' : Statistics} {o p : σ}

theorem edit_ascends (h : d.edit o m i (v, stats) = (.ok b, (v', stats'))) : d.Ascent v b v' := by
  have hle := d.le_edit o m i v stats
  rw [h] at hle
  exact ⟨hle, edit_changed h⟩

theorem improveAll_ascends {conds : List (Nat × Expr)}
    (h : d.improveAll m conds ((v, stats), o) = (.ok b, ((v', stats'), p))) : d.Ascent v b v' := by
  induction conds generalizing v stats b with
  | nil =>
    cases h
    exact .refl _
  | cons rc rest ih =>
    obtain ⟨row, c⟩ := rc
    by_cases heval : m.evalBool c = some true
    · cases hrun : d.edit o m row (v, stats) with
      | mk x s =>
        cases x with
        | error e =>
          rw [improveAll_cons_error heval hrun] at h
          cases h
        | ok first =>
          rw [improveAll_cons_ok heval hrun] at h
          cases hrest : d.improveAll m rest (s, o) with
          | mk y t =>
            rw [hrest] at h
            cases y with
            | error e => cases h
            | ok more =>
              cases h
              exact (edit_ascends hrun).trans (ih hrest)
    · rw [improveAll_cons_false heval] at h
      exact ih h

theorem enumerate_improves (h : d.enumerate focus ((v, stats), o) = (.ok b, ((v', stats'), p))) :
    b = false ∧ v' = v ∨ ∃ m t, ∃ q q' : σ,
      d.improveAll m (d.conditions v focus) ((v, t), q) = (.ok b, ((v', stats'), q')) := by
  obtain ⟨hsame, hne⟩ | ⟨m, t, q, -, hresult, hstate⟩ := enumerate_cases d focus v stats o
  · rw [h] at hsame hne
    refine .inl ⟨?_, hsame⟩
    cases b with
    | false => rfl
    | true => exact absurd rfl hne
  · cases hrun : d.improveAll m (d.conditions v focus) ((v, t), q) with
    | mk x s =>
      obtain ⟨s, q'⟩ := s
      rw [h, hrun] at hresult hstate
      cases hresult
      cases hstate
      exact .inr ⟨m, t, q, q', hrun⟩

theorem enumerate_ascends (h : d.enumerate focus ((v, stats), o) = (.ok b, ((v', stats'), p))) :
    d.Ascent v b v' := by
  obtain ⟨rfl, rfl⟩ | ⟨m, t, q, q', hrun⟩ := enumerate_improves h
  · exact .refl _
  · exact improveAll_ascends hrun

theorem roomy_of_enumerate (hd : d.Spacious) (hv : d.Roomy v)
    (h : d.enumerate focus ((v, stats), o) = (.ok b, ((v', stats'), p))) : d.Roomy v' := by
  cases hd with
  | plain hroomy => exact hroomy v'
  | paths hroomy =>
    obtain ⟨-, rfl⟩ | ⟨m, t, q, q', hrun⟩ := enumerate_improves h
    · exact hv
    · exact improveAll_roomy hroomy hv hrun

end Domain

theorem TemplateDomain.bisect_ascends {σ : Type} [Oracle σ] {d : TemplateDomain} {focus : Option Nat}
    {v v' : List RowValue} {stats stats' : Statistics} {o p : σ} {b : Bool}
    (h : d.bisect focus ((v, stats), o) = (.ok b, ((v', stats'), p))) :
    (Domain.template d).Ascent v b v' := by
  rw [bisect_eq] at h
  split at h
  · cases h
    exact .refl _
  obtain ⟨result, ⟨s, q⟩, hwitness, h⟩ := Session.ok_of_bind h
  cases result with
  | none =>
    rw [witness_eq] at hwitness
    obtain ⟨q', hbody, -⟩ := Session.inScope_ok hwitness
    obtain ⟨answer, ⟨t, q₁⟩, hask, hpick⟩ := Session.ok_of_bind hbody
    obtain ⟨-, rfl, -⟩ := picking_ok hpick
    have hleaves := Search.leaves_query (d.pre v) (.disj ((d.conditions v focus).map (·.2)))
      (v, stats) (Oracle.push o)
    rw [hask] at hleaves
    cases h
    obtain rfl : v' = v := hleaves
    exact .refl _
  | some found =>
    obtain ⟨i, lower⟩ := found
    obtain ⟨r, t₁, -, h₁⟩ := Session.ok_of_bind h
    obtain ⟨best, t₂, -, h₂⟩ := Session.ok_of_bind h₁
    obtain ⟨⟨changed, w⟩, t₃, hraise, h₃⟩ := Session.ok_of_bind h₂
    obtain ⟨hraised, rfl⟩ := Session.ofExcept_ok hraise
    cases h₃
    exact ⟨le_raise hraised, raise_changed hraised⟩

namespace Domain

/-- Loops that are given up stay as they are. -/
def KeepsGivenUp : (d : Domain) → d.Value → d.Value → Prop
  | .ranking _, (v : List RankingRow), (w : List RankingRow) =>
    Entrywise (fun r r' => r.function = .gaveUp → r' = r) v w
  | .product a b, (v, w), (v', w') => a.KeepsGivenUp v v' ∧ b.KeepsGivenUp w w'
  | .paths d _, (ps : List (List Bool × d.Value)), (qs : List (List Bool × d.Value)) =>
    Pathwise d.KeepsGivenUp ps qs
  | .template _, _, _ | .equalities _, _, _ | .predicates _, _, _ | .heap _, _, _ => True

theorem keepsGivenUp_refl {d : Domain} (v : d.Value) : d.KeepsGivenUp v v := by
  induction d with
  | ranking => exact .refl (fun _ _ => rfl) v
  | product a b iha ihb => exact ⟨iha v.1, ihb v.2⟩
  | paths d conds ih => exact .refl ih v
  | template | equalities | predicates | heap => trivial

section paths

variable {d : Domain} {conds : List Expr} {m : Model} {ps us : List (List Bool × d.Value)}
  {inner : Edit d.Value} {stats : Statistics} {k : Nat}

theorem keepsGivenUp_onPath (h : Pathwise d.KeepsGivenUp ps us)
    (hinner : ∀ {path v u}, ps[k]? = some (path, v) → d.KeepsGivenUp v u →
      d.KeepsGivenUp v (inner (u, stats)).2.1) :
    Pathwise d.KeepsGivenUp ps (Edit.onPath k inner (us, stats)).2.1 := by
  obtain hsame | ⟨path, u, hk, hset⟩ := Edit.onPath_state k inner us stats
  · rwa [hsame]
  · rw [hset]
    refine Entrywise.set h fun p hp => ?_
    obtain ⟨q, hq, hpath, hkeeps⟩ := h hp
    cases hk.symm.trans hq
    exact ⟨hpath, hinner hp hkeeps⟩

theorem keepsGivenUp_onModelPath (h : Pathwise d.KeepsGivenUp ps us)
    (hunseen : ∀ p ∈ ps, (pathExpr conds p.1).holds m.valuation = false) :
    Pathwise d.KeepsGivenUp ps (Edit.onModelPath conds m d.start inner (us, stats)).2.1 := by
  obtain hsame | ⟨path, hpath, ⟨k, u, hk, hset⟩ | ⟨-, hadd⟩⟩ :=
    Edit.onModelPath_state conds m d.start inner us stats
  · rwa [hsame]
  · rw [hset]
    refine Entrywise.set h fun p hp => ?_
    obtain ⟨q, hq, hkey, -⟩ := h hp
    cases hk.symm.trans hq
    have htaken : p.1 = conds.map (Expr.holds m.valuation) := hkey.trans (pathOf_ok hpath)
    have hlength : p.1.length = conds.length := by rw [htaken, List.length_map]
    have hholds := (holds_pathExpr hlength).mpr htaken
    rw [hunseen p (List.mem_of_getElem? hp)] at hholds
    cases hholds
  · rw [hadd]
    exact Entrywise.append h _

end paths

variable {σ : Type} [Oracle σ]

/-- An improvement by a condition of the value leaves loops alone that are given up in the value. -/
theorem keepsGivenUp_edit {d : Domain} {v u : d.Value} {focus : Option Nat} {parent : σ} {m : Model}
    {i : Nat} {c : Expr} {stats : Statistics} (hroomy : d.Roomy v)
    (hc : (i, c) ∈ d.conditions v focus) (hholds : c.holds m.valuation = true)
    (h : d.KeepsGivenUp v u) : d.KeepsGivenUp v (d.edit parent m i (u, stats)).2.1 := by
  induction d generalizing i c stats with
  | ranking d =>
    have hstep : Entrywise (fun r r' : RankingRow => r.function = .gaveUp → r' = r) v
        (d.edit parent i m (u, stats)).2.1 := by
      obtain hsame | ⟨r, r', -, -, hset⟩ := RankingDomain.edit_extends d parent i m u stats
      · rw [hsame]
        exact h
      · rw [hset]
        exact h.set fun x hx hgave => absurd hgave (RankingDomain.alive_of_mem_conditions hc hx)
    exact hstep
  | product a b iha ihb =>
    obtain ⟨v, w⟩ := v
    obtain ⟨u, t⟩ := u
    obtain ⟨j, rfl, hmem⟩ | ⟨j, rfl, hmem⟩ := mem_conditions_product.mp hc
    · have hdiv : 2 * j / 2 = j := by omega
      have hmod : 2 * j % 2 = 0 := by omega
      simp only [edit, hdiv, hmod, if_true]
      exact ⟨iha hroomy.1 hmem hholds h.1, h.2⟩
    · have hdiv : (2 * j + 1) / 2 = j := by omega
      have hmod : ¬(2 * j + 1) % 2 = 0 := by omega
      simp only [edit, hdiv, hmod, if_false]
      exact ⟨h.1, ihb hroomy.2 hmem hholds h.2⟩
  | paths d conds ih =>
    obtain ⟨k, path, w, j, e, hk, hmem, rfl, rfl⟩ | ⟨-, j, e, -, rfl, rfl⟩ :=
      mem_conditions_paths.mp hc
    · have hlt : k < newPath := Nat.lt_of_lt_of_le (List.getElem?_eq_some_iff.mp hk).1 hroomy.1
      rw [edit_along hlt]
      refine keepsGivenUp_onPath h fun {path' v u} hp hkeeps => ?_
      cases hk.symm.trans hp
      exact ih (hroomy.2 _ (List.mem_of_getElem? hp)) hmem (Expr.holds_both.mp hholds).2 hkeeps
    · rw [edit_fresh]
      exact keepsGivenUp_onModelPath h (holds_unseen.mp (Expr.holds_both.mp hholds).1)
  | template | equalities | predicates | heap => trivial

theorem keepsGivenUp_of_enumerate {d : Domain} {v v' : d.Value} {focus : Option Nat}
    {stats stats' : Statistics} {o p : σ} {b : Bool} (hroomy : d.Roomy v)
    (h : d.enumerate focus ((v, stats), o) = (.ok b, ((v', stats'), p))) : d.KeepsGivenUp v v' := by
  have hkeeps : d.KeepsGivenUp v (d.enumerate focus ((v, stats), o)).2.1.1 :=
    enumerate_keeps
      (fun hc heval hu => keepsGivenUp_edit hroomy hc (Model.holds_of_evalBool heval) hu)
      (keepsGivenUp_refl v)
  rwa [h] at hkeeps

end Domain

/-- Two loops that set the same positive number to zero. -/
def RankingDomain.resets : RankingDomain :=
  let reset (id back head : Nat) : RankedLoop :=
    ⟨⟨id, back, head, .exceeds (.intVar "x") (.int 0), .bool true, [], [], .empty⟩,
      [(.intVar "x", .int 0)]⟩
  ⟨[reset 0 2 1, reset 1 4 3], 1, 5⟩

def Domain.resets (conds : List Expr) : Domain := .paths (.ranking .resets) conds

namespace RankingRow

def unseen : RankingRow := ⟨.unknown, [], []⟩

/-- One turn was seen, but no function. -/
def givenUp : RankingRow := ⟨.gaveUp, [], [[1]]⟩

def ranked (turns : List (List Int)) : RankingRow := ⟨.found [.intVar "x"], [[1]], turns⟩

end RankingRow

/-- A round from one path, on which the first loop is given up. -/
def Method.resetsRound :
    Except Error Bool × ((List (List Bool × List RankingRow) × Statistics) × BitSolver) :=
  (Method.enumeration (.resets [.boolVar "c"])).round none
    (([([false], [.givenUp, .unseen])], .zero), BitSolver.fresh 2 1000)

namespace Domain

section crowded

variable {d : Domain} {conds : List Expr} {focus : Option Nat} {ps : List (List Bool × d.Value)}

/-- If only the last path has rows to improve and there is no place for another path, the numbers of
these rows go beyond the places. -/
theorem conditions_last {n : Nat} (hps : ∀ p ∈ ps, d.conditions p.2 focus = [])
    (hlength : ps.length = n) (hn : newPath ≤ n) (path : List Bool) (v : d.Value) :
    (paths d conds).conditions (ps ++ [(path, v)] : List (List Bool × d.Value)) focus =
      (d.conditions v focus).map fun (r, c) =>
        (r * stride + n, Expr.conj [pathExpr conds path, c]) := by
  subst hlength
  have hnone : ∀ p ∈ ps.zipIdx, (d.conditions p.1.2 focus).map (fun (r, c) =>
      (r * stride + p.2, Expr.conj [pathExpr conds p.1.1, c])) = [] := by
    intro p hp
    rw [hps p.1 (List.fst_mem_of_mem_zipIdx hp), List.map_nil]
  have hfull : ¬(ps ++ [(path, v)]).length < newPath := by
    rw [List.length_append]
    omega
  simp only [conditions, hfull, if_false, List.append_nil, List.zipIdx_append, List.flatMap_append,
    List.flatMap_eq_nil_iff.mpr hnone]
  simp

theorem pre_paths_ranking {d : RankingDomain} (ps : List (List Bool × List RankingRow)) :
    (paths (.ranking d) conds).pre ps = .bool true := by
  cases ps <;> rfl

end crowded

/-- The path that takes the branches whose bits are set. -/
def branches (k : Nat) : List Bool := (List.range 17).map k.testBit

def branchNames : List String := (List.range 17).map fun k => "c" ++ toString k

/-- Many paths on which both loops are given up, and one on which the first is not. -/
def crowded (n : Nat) : List (List Bool × List RankingRow) :=
  (List.range n).map (fun k => (branches k, [.givenUp, .givenUp])) ++
    [(branches n, [.unseen, .givenUp])]

theorem nodup_crowded {n : Nat} (hn : n < 2 ^ 17) : ((crowded n).map (·.1)).Nodup := by
  have hpaths : (crowded n).map (·.1) = (List.range (n + 1)).map branches := by
    rw [crowded, List.map_append, List.map_map, List.range_succ, List.map_append]
    rfl
  rw [hpaths]
  refine List.Nodup.map_on ?_ List.nodup_range
  intro j hj k hk hjk
  have hbit := List.map_inj_left.mp hjk
  have hj := List.mem_range.mp hj
  have hk := List.mem_range.mp hk
  refine Nat.eq_of_testBit_eq fun i => ?_
  by_cases hi : i < 17
  · exact hbit i (List.mem_range.mpr hi)
  · have hpow : 2 ^ 17 ≤ 2 ^ i := Nat.pow_le_pow_right (by decide) (by omega)
    rw [Nat.testBit_lt_two_pow (by omega), Nat.testBit_lt_two_pow (by omega)]

theorem getElem?_crowded {n : Nat} (hn : 0 < n) :
    (crowded n)[0]? = some (branches 0, [.givenUp, .givenUp]) := by
  rw [crowded, List.getElem?_append_left (by simpa using hn), List.getElem?_map,
    List.getElem?_range hn]
  rfl

/-- The condition that the first loop makes a turn on the last path. -/
def lastTurn : Expr :=
  .conj [pathExpr (branchNames.map .boolVar) (branches 65536), .exceeds (.intVar "x") (.int 0)]

theorem conditions_crowded :
    (resets (branchNames.map .boolVar)).conditions (crowded 65536) none = [(65536, lastTurn)] := by
  have hturn : (ranking .resets).conditions [.unseen, .givenUp] none =
      [(0, .exceeds (.intVar "x") (.int 0))] := rfl
  refine (conditions_last (n := 65536) ?_ ?_ (by decide) _ _).trans (congrArg (List.map _) hturn)
  · intro p hp
    obtain ⟨k, -, rfl⟩ := List.mem_map.mp hp
    rfl
  · exact (List.length_map ..).trans List.length_range

/-- Whatever the oracle, the number of the last path's row is read as one of the first path's rows. -/
theorem enumerate_crowded {σ : Type} [Oracle σ] {o : σ} {stats t : Statistics} {m : Model}
    {r : RankingRow} {s : Except Error Answer × ((List (List Bool × List RankingRow) × Statistics) × σ)}
    (hs : Search.query (.bool true) (.disj [lastTurn]) ((crowded 65536, stats), Oracle.push o) = s)
    (hsat : s.1 = .ok .sat) (hm : Oracle.model? s.2.2 = some m) (heval : m.evalBool lastTurn = some true)
    (hedit : RankingDomain.resets.edit s.2.2 1 m ([.givenUp, .givenUp], s.2.1.2) =
      (.ok true, ([.givenUp, r], t))) :
    (resets (branchNames.map .boolVar)).enumerate none ((crowded 65536, stats), o) =
      (.ok true, (((crowded 65536).set 0 (branches 0, [.givenUp, r]), t),
        Oracle.release (Oracle.depth (Oracle.push o)) s.2.2)) := by
  have hnumber : (resets (branchNames.map .boolVar)).edit s.2.2 m 65536 =
      Edit.onPath 0 ((ranking .resets).edit s.2.2 m 1) := edit_along (k := 0) (by decide) 1
  have hrow : (resets (branchNames.map .boolVar)).edit s.2.2 m 65536 (crowded 65536, s.2.1.2) =
      (.ok true, ((crowded 65536).set 0 (branches 0, [.givenUp, r]), t)) := by
    rw [hnumber]
    exact Edit.onPath_eq (getElem?_crowded (by decide)) hedit
  have hpre : (resets (branchNames.map .boolVar)).pre (crowded 65536) = .bool true :=
    pre_paths_ranking _
  refine enumerate_of_sat conditions_crowded (List.cons_ne_nil _ _) ?_ hsat hm
    (improveAll_cons_ok heval hrow)
  rw [hpre]
  exact hs

def branching : BitSolver :=
  -- the last condition is tested first, so each one that is asserted goes on top of those before it
  ((BitSolver.fresh 2 1000).execute [.declare (branchNames.reverse.map (·, .bool))]).1

def crowdedAnswer :
    Except Error Answer × ((List (List Bool × List RankingRow) × Statistics) × BitSolver) :=
  Search.query (.bool true) (.disj [lastTurn]) ((crowded 65536, .zero), Oracle.push branching)

def crowdedModel : Model := (Oracle.model? crowdedAnswer.2.2 : Option Model).getD .empty

def crowdedEdit : Except Error Bool × (List RankingRow × Statistics) :=
  RankingDomain.resets.edit crowdedAnswer.2.2 1 crowdedModel ([.givenUp, .givenUp], crowdedAnswer.2.1.2)

theorem crowded_run :
    crowdedAnswer.1 = .ok .sat ∧ (Oracle.model? crowdedAnswer.2.2 : Option Model).isSome = true ∧
      crowdedModel.evalBool lastTurn = some true ∧
      crowdedEdit = (.ok true, ([.givenUp, .ranked [[1], [1]]], ⟨1, 2⟩)) := by
  decide +kernel

end Domain

end InvariantSynthesis
