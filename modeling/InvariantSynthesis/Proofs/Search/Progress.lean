import InvariantSynthesis.Proofs.Search.Round

namespace InvariantSynthesis

namespace Domain

section paths

variable {d : Domain} {conds : List Expr} {m : Model} {ps us us' : List (List Bool × d.Value)}
  {row : Nat} {e : Expr} {focus : Option Nat}

/-- The paths of a value that is being improved with a model: those from before, and the path of the
model if there was room for it. -/
def Visited (conds : List Expr) (m : Model) (ps us : List (List Bool × d.Value)) : Prop :=
  us.map (·.1) = ps.map (·.1) ∨
    ps.length < newPath ∧ ∃ path, pathOf conds m = .ok path ∧ us.map (·.1) = ps.map (·.1) ++ [path]

theorem Visited.length_le (h : Visited conds m ps us) (hps : ps.length ≤ newPath) :
    us.length ≤ newPath := by
  have hlength : us.length = (us.map (·.1)).length := (List.length_map _).symm
  rw [hlength]
  rcases h with hkeys | ⟨hroom, path, -, hkeys⟩
  · rw [hkeys, List.length_map]
    exact hps
  · rw [hkeys, List.length_append, List.length_map, List.length_singleton]
    exact hroom

theorem room_of_mem_conditions (hps : ps.length ≤ newPath)
    (hmem : (row, e) ∈ (Domain.paths d conds).conditions ps focus) (hrow : row % stride = newPath) :
    ps.length < newPath := by
  obtain ⟨k, path, w, j, c, hk, -, rfl, -⟩ | ⟨hroom, -⟩ := mem_conditions_paths.mp hmem
  · have hlt := (List.getElem?_eq_some_iff.mp hk).1
    have hmod : (j * stride + k) % stride = k := by
      unfold newPath stride at *
      omega
    rw [hmod] at hrow
    omega
  · exact hroom

variable {σ : Type} [Oracle σ] {o p : σ} {b : Bool} {stats stats' : Statistics}

theorem Visited.edit (h : Visited conds m ps us) (hps : ps.length ≤ newPath)
    (hmem : (row, e) ∈ (Domain.paths d conds).conditions ps focus)
    (hedit : (Domain.paths d conds).edit o m row (us, stats) = (.ok b, (us', stats'))) :
    Visited conds m ps us' := by
  rw [Visited]
  by_cases hrow : row % stride = newPath
  · simp only [Domain.edit, hrow] at hedit
    obtain ⟨path, hpath, ⟨k, hrun, -⟩ | ⟨v', changed, hnew, -, rfl, -⟩⟩ := Edit.onModelPath_ok hedit
    · rw [Edit.onPath_keys hrun]
      exact h
    · rcases h with hkeys | ⟨-, path', hpath', hkeys⟩
      · refine .inr ⟨room_of_mem_conditions hps hmem hrow, path, hpath, ?_⟩
        rw [List.map_append, hkeys]
        rfl
      · -- The model has one path, and that was added before.
        cases hpath.symm.trans hpath'
        rw [hkeys] at hnew
        exact absurd (List.mem_append_right _ List.mem_cons_self) hnew
  · simp only [Domain.edit, hrow] at hedit
    rw [Edit.onPath_keys hedit]
    exact h

theorem improveAll_roomy (hd : ∀ v, d.Roomy v) (hps : (Domain.paths d conds).Roomy ps)
    (hrun : (Domain.paths d conds).improveAll m ((Domain.paths d conds).conditions ps focus)
      ((ps, stats), o) = (.ok b, ((us, stats'), p))) : (Domain.paths d conds).Roomy us := by
  have hvisited : Visited conds m ps us :=
    improveAll_invariant (d := .paths d conds) (P := Visited conds m ps)
      (fun hmem _ hu hedit => hu.edit hps.1 hmem hedit) (.inl rfl) hrun
  exact ⟨hvisited.length_le hps.1, fun q _ => hd q.2⟩

end paths

/-- No value of the domain runs out of numbers for rows, or paths are all that can be too many. -/
inductive Spacious : Domain → Prop
  | plain {d : Domain} : (∀ v, d.Roomy v) → Spacious d
  | paths {d : Domain} {conds : List Expr} : (∀ v, d.Roomy v) → Spacious (.paths d conds)

theorem Spacious.start {d : Domain} (h : d.Spacious) : d.Roomy d.start := by
  cases h with
  | plain hroomy => exact hroomy _
  | paths => exact ⟨Nat.zero_le _, fun _ hp => nomatch hp⟩

theorem enumerate_roomy {σ : Type} [Oracle σ] {range : Int × Int} {F : Faithful σ range} {c : Scopes}
    {Γ : Sorts} {d : Domain} {focus : Option Nat} {v : d.Value} {stats : Statistics}
    {s : d.Value × Statistics} {o p : σ} {b : Bool} (hd : d.Spacious) (h : F.Keeps o c Γ)
    (hv : d.Roomy v) (hrun : d.enumerate focus ((v, stats), o) = (.ok b, (s, p))) : d.Roomy s.1 := by
  cases hd with
  | plain hroomy => exact hroomy s.1
  | @paths d conds hroomy =>
    obtain ⟨-, hs, -, -⟩ | ⟨a, t, q, Δ, -, -, -, -, ⟨-, hs, -⟩ | ⟨-, m, -, hall⟩⟩ :=
      enumerate_ok h hrun
    · rw [hs]
      exact hv
    · rw [hs]
      exact hv
    · exact improveAll_roomy hroomy hv hall

end Domain

namespace Round

variable {σ : Type} [Oracle σ] {range : Int × Int} {F : Faithful σ range} {c : Scopes} {Γ : Sorts}

/-- What a round needs: the assertions are kept, and the value is one that improvement can reach. -/
structure Ready (F : Faithful σ range) (c : Scopes) (r : Round σ) : Prop where
  keeps : ∃ Γ, F.Keeps r.oracle c Γ
  descends : r.method.domain.Descends
  sane : r.method.domain.Sane r.value
  roomy : r.method.domain.Roomy r.value

/-- In the model of the answer some condition is true, and every condition that is true leaves 64 bits
when it is evaluated. -/
def Overlooked (r : Round σ) : Prop :=
  ∃ m, Oracle.model? r.question.2.2 = some m ∧
    (∃ e ∈ r.conditions, e.2.holds m.valuation = true) ∧
    ∀ e ∈ r.conditions, e.2.holds m.valuation = true → m.overflows e.2 = true

theorem overlooked_of_none {r : Round σ} {t : Statistics} {q : σ} {Δ : Sorts} {m : Model}
    (hask : r.question = (.ok .sat, ((r.value, t), q)))
    (hasked : F.Asked (Oracle.push r.oracle) c.opened Γ r.assumption
      (.disj (r.conditions.map (·.2))) .sat q Δ) (hm : Oracle.model? q = some m)
    (hnone : ∀ e ∈ r.conditions, m.evalBool e.2 ≠ some true) : r.Overlooked := by
  refine ⟨m, by rw [hask]; exact hm, ?_⟩
  exact Model.overflows_of_holds (hasked.fits _ List.mem_cons_self) (hasked.satisfies hm) hnone

theorem asked_of_ok {r : Round σ} {b : Bool} {s : r.method.domain.Value × Statistics} {p : σ}
    (h : F.Keeps r.oracle c Γ) (hasks : r.conditions ≠ []) (hrun : r.outcome = (.ok b, (s, p))) :
    ∃ a t q Δ, r.question = (.ok a, ((r.value, t), q)) ∧
      F.Asked (Oracle.push r.oracle) c.opened Γ r.assumption (.disj (r.conditions.map (·.2))) a q Δ ∧
      F.Later q p := by
  obtain ⟨method, focus, v, st, o⟩ := r
  cases method with
  | enumeration d =>
    obtain ⟨hnone, -⟩ | ⟨a, t, q, Δ, hask, hasked, -, hlater, -⟩ := Domain.enumerate_ok h hrun
    · exact absurd hnone hasks
    · exact ⟨a, t, q, Δ, hask, hasked, hlater⟩
  | bisection d =>
    obtain ⟨hnone, -⟩ | ⟨a, t, q, Δ, hask, hasked, -, hlater, -⟩ := TemplateDomain.bisect_ok h hrun
    · exact absurd hnone hasks
    · exact ⟨a, t, q, Δ, hask, hasked, hlater⟩

/-- A round that leaves the value as it is after a positive answer has overlooked the conditions that
are true. -/
theorem overlooked_of_unchanged {r : Round σ} {s : r.method.domain.Value × Statistics} {p : σ}
    (h : F.Keeps r.oracle c Γ) (hs : r.method.domain.Sane r.value)
    (hr : r.method.domain.Roomy r.value) (hasks : r.conditions ≠ [])
    (hsat : r.question.1 = .ok .sat) (hrun : r.outcome = (.ok false, (s, p))) : r.Overlooked := by
  obtain ⟨method, focus, v, st, o⟩ := r
  cases method with
  | enumeration d =>
    obtain ⟨hnone, -⟩ | ⟨a, t, q, Δ, hask, hasked, -, -, hrest⟩ := Domain.enumerate_ok h hrun
    · exact absurd hnone hasks
    have hask : (⟨.enumeration d, focus, v, st, o⟩ : Round σ).question = (.ok a, ((v, t), q)) := hask
    rw [hask] at hsat
    cases hsat
    obtain ⟨hne, -⟩ | ⟨-, m, hm, hall⟩ := hrest
    · exact absurd rfl hne
    refine overlooked_of_none hask hasked hm fun e he heval => ?_
    cases Domain.improveAll_changes hs hr (fun e he => he) ⟨e, he, heval⟩ hall
  | bisection d =>
    obtain ⟨hnone, -⟩ | ⟨a, t, q, Δ, hask, hasked, -, -, hrest⟩ := TemplateDomain.bisect_ok h hrun
    · exact absurd hnone hasks
    have hask : (⟨.bisection d, focus, v, st, o⟩ : Round σ).question = (.ok a, ((v, t), q)) := hask
    rw [hask] at hsat
    cases hsat
    obtain ⟨hne, -⟩ | ⟨-, m, hm, hfound⟩ := hrest
    · exact absurd rfl hne
    refine overlooked_of_none hask hasked hm fun e he heval => ?_
    split at hfound
    · rename_i hfind
      exact absurd heval (by simpa using List.find?_eq_none.mp hfind e he)
    · rename_i i c hfind
      obtain ⟨r, k, best, hr, hk, hle, -, hraise⟩ := hfound
      have htrue : m.evalBool c = some true := by simpa using List.find?_some hfind
      cases TemplateDomain.raise_changes (List.mem_of_find?_eq_some hfind)
        (Model.holds_of_evalBool htrue) hr (by rwa [Model.number_of_evalInt hk]) hraise

/-- What becomes of a positive answer: an error, a change of the value, or nothing, and then every true
condition was overlooked. -/
def Heeds (r : Round σ) : Prop :=
  match r.outcome with
  | (.error _, _) => True
  | (.ok true, ((v, _), _)) => v ≠ r.value
  | (.ok false, ((v, _), _)) => v = r.value ∧ r.Overlooked

theorem Heeds.overlooked {r : Round σ} (h : r.Heeds) (hrun : r.outcome.1 = .ok false) :
    r.Overlooked := by
  rw [Heeds] at h
  split at h
  · rename_i heq
    rw [heq] at hrun
    cases hrun
  · rename_i heq
    rw [heq] at hrun
    cases hrun
  · exact h.2

theorem Ready.heeds {r : Round σ} (h : r.Ready F c) (hasks : r.conditions ≠ [])
    (hsat : r.question.1 = .ok .sat) : r.Heeds := by
  obtain ⟨⟨Γ, hkeeps⟩, hd, hs, hr⟩ := h
  rw [Heeds]
  split
  · trivial
  · rename_i v stats p hrun
    have hlower := (outcome_ok hkeeps hd hs hrun).1.lower rfl
    intro heq
    rw [heq] at hlower
    exact Nat.lt_irrefl _ hlower
  · rename_i v stats p hrun
    exact ⟨(outcome_ok hkeeps hd hs hrun).1.same rfl,
      overlooked_of_unchanged hkeeps hs hr hasks hsat hrun⟩

end Round

end InvariantSynthesis
