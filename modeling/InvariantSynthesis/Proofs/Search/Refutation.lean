import InvariantSynthesis.Proofs.Search.Round

namespace InvariantSynthesis

/-- The candidate is about one of the loops, and what it says of the values that flow back is read
off the declared variables. -/
structure Candidate.Declared {α : Type} (c : Candidate α) (s : LoopSystem) : Prop where
  mem : c.loop ∈ s.loops
  reads : ∀ {ρ ρ' : Valuation}, (∀ n, (s.declared n).isSome = true → ρ n = ρ' n) →
    c.loop.postGuard.value ρ = c.loop.postGuard.value ρ' ∧ c.post.value ρ = c.post.value ρ'

theorem EqualityDomain.declared {ps : List Procedure} {d : EqualityDomain}
    (h : ofLoops (.ofProcedures ps) = .ok d) :
    ∀ c ∈ d.candidates, c.Declared (.ofProcedures ps) := by
  intro c hc
  rw [(CandidateDomain.checked_ok h).1] at hc
  obtain ⟨l, hl, hc⟩ := List.mem_flatMap.mp hc
  obtain ⟨⟨x, y⟩, hxy, rfl⟩ := List.mem_map.mp hc
  have hdeclared := LoopSystem.loop_declared hl
  refine ⟨hl, fun hsame => ⟨hdeclared.value_guard hsame, ?_⟩⟩
  have hx := hdeclared.value_post hsame (LoopTemplate.mem_of_mem_intVars (mem_pairs hxy).1)
  have hy := hdeclared.value_post hsame (LoopTemplate.mem_of_mem_intVars (mem_pairs hxy).2)
  rw [Expr.value, hx, hy, Expr.value]

theorem PredicateDomain.declared {ps : List Procedure} {d : PredicateDomain}
    (h : ofLoops (.ofProcedures ps) = .ok d) :
    ∀ c ∈ d.candidates, c.Declared (.ofProcedures ps) := by
  intro c hc
  rw [(CandidateDomain.checked_ok h).1] at hc
  obtain ⟨l, hl, hc⟩ := List.mem_flatMap.mp hc
  obtain ⟨e, he, rfl⟩ := List.mem_map.mp hc
  have hdeclared := LoopSystem.loop_declared hl
  have hover := over_inequalities (fun _ => LoopTemplate.mem_of_mem_intVars) he
  refine ⟨hl, fun hsame => ⟨hdeclared.value_guard hsame, ?_⟩⟩
  exact LoopTemplate.value_substitute_congr (fun p hp => (hover p hp).2)
    fun x hx => hdeclared.value_post hsame hx

namespace CandidateDomain

variable {α : Type} {d : CandidateDomain α} {u v w u' : List Bool} {i : Nat} {c : Candidate α}

/-- Every candidate of the first set is in the second. -/
structure Subset (v w : List Bool) : Prop where
  length : v.length = w.length
  mem : ∀ {i : Nat}, v[i]? = some true → w[i]? = some true

theorem Subset.antisymm (h : Subset v w) (h' : Subset w v) : v = w := by
  apply List.ext_getElem h.length
  intro i hv hw
  have hvi := List.getElem?_eq_getElem hv
  have hwi := List.getElem?_eq_getElem hw
  have hmem := h.mem (i := i)
  have hmem' := h'.mem (i := i)
  rw [hvi, hwi] at hmem hmem'
  cases hb : v[i] <;> cases hb' : w[i] <;> simp [hb, hb'] at hmem hmem' ⊢

theorem mem_alive_iff : c ∈ d.alive v ↔
    ∃ i : Nat, d.candidates[i]? = some c ∧ v[i]? = some true := by
  rw [mem_alive]
  constructor
  · intro h
    obtain ⟨i, hi⟩ := List.getElem?_of_mem h
    exact ⟨i, List.getElem?_zip_eq_some.mp hi⟩
  · rintro ⟨i, hi⟩
    exact List.mem_of_getElem? (List.getElem?_zip_eq_some.mpr hi)

theorem Subset.holds_pre {ρ : Valuation} (h : Subset v w) (hpre : (d.pre w).holds ρ = true) :
    (d.pre v).holds ρ = true := by
  rw [CandidateDomain.holds_pre] at hpre ⊢
  intro k hk
  obtain ⟨c, hc, rfl⟩ := List.mem_map.mp hk
  obtain ⟨i, hi, hv⟩ := mem_alive_iff.mp hc
  exact hpre _ (List.mem_map_of_mem (mem_alive_iff.mpr ⟨i, hi, h.mem hv⟩))

/-- Where the candidates of the set are assumed, they are true of what flows back. -/
structure Inductive (d : CandidateDomain α) (context : List Expr) (Γ : Sorts) (range : Int × Int)
    (v : List Bool) : Prop where
  length : v.length = d.candidates.length
  kept : ∀ {ρ : Valuation}, ρ.Typed Γ range → (∀ e ∈ context, e.holds ρ = true) →
    (d.pre v).holds ρ = true → ∀ c ∈ d.alive v, c.loop.postGuard.holds ρ = true →
      c.post.holds ρ = true

/-- The set contains every inductive set. -/
structure Ample (d : CandidateDomain α) (context : List Expr) (Γ : Sorts) (range : Int × Int)
    (v : List Bool) : Prop where
  length : v.length = d.candidates.length
  contains : ∀ {w}, d.Inductive context Γ range w → Subset w v

/-- The inductive set that contains every other. -/
structure Greatest (d : CandidateDomain α) (context : List Expr) (Γ : Sorts) (range : Int × Int)
    (v : List Bool) : Prop extends d.Inductive context Γ range v, d.Ample context Γ range v

variable {context es : List Expr} {s : LoopSystem} {Γ : Sorts} {range : Int × Int} {m : Model}

theorem Greatest.unique (h : d.Greatest context Γ range v) (h' : d.Greatest context Γ range w) :
    v = w :=
  (h'.contains h.toInductive).antisymm (h.contains h'.toInductive)

theorem ample_start : d.Ample context Γ range d.start := by
  refine ⟨List.length_map _, fun {w} hw => ⟨hw.length.trans (List.length_map _).symm, fun {i} hi => ?_⟩⟩
  have hlt : i < d.candidates.length := hw.length ▸ (List.getElem?_eq_some_iff.mp hi).1
  rw [start, List.getElem?_map, List.getElem?_eq_getElem hlt, Option.map_some]

theorem Inductive.not_refuted (hw : d.Inductive context s.declared range w) (hwv : Subset w v)
    (hdeclared : c.Declared s) (hΓ : s.declared.Extends Γ) (hzero : range.1 ≤ 0 ∧ 0 ≤ range.2)
    (hcontext : ∀ e ∈ context, e ∈ es) (hfits : ∀ x ∈ d.pre v :: es, Γ.Fits x)
    (hsat : m.Satisfies range Γ (d.pre v :: es)) (hc : d.candidates[i]? = some c)
    (heval : m.evalBool (refutation c) = some true) : w[i]? ≠ some true := by
  intro hwi
  have hholds : ∀ e ∈ d.pre v :: es, e.holds (m.typed s.declared) = true := fun e he =>
    (hsat.holds_typed (hfits e he)).trans (hsat.holds e he)
  obtain ⟨hguard, hpost⟩ := hdeclared.reads fun n hn => Model.typed_declared (m := m) hn
  have hrefuted := Expr.holds_both.mp (Model.holds_of_evalBool heval)
  rw [Expr.holds_negate, Bool.not_eq_true'] at hrefuted
  have hkept := hw.kept (hsat.typed hΓ hzero)
    (fun e he => hholds e (List.mem_cons_of_mem _ (hcontext e he)))
    (hwv.holds_pre (hholds _ List.mem_cons_self)) c (mem_alive_iff.mpr ⟨i, hc, hwi⟩)
    ((congrArg Value.truth hguard).trans hrefuted.1)
  rw [Expr.holds, hpost, ← Expr.holds, hrefuted.2] at hkept
  cases hkept

theorem Ample.edit {focus : Option Nat} {e : Expr} {b : Bool}
    (hv : d.Ample context s.declared range v) (hu : d.Ample context s.declared range u)
    (hdeclared : ∀ c ∈ d.candidates, c.Declared s) (hΓ : s.declared.Extends Γ)
    (hzero : range.1 ≤ 0 ∧ 0 ≤ range.2) (hcontext : ∀ e ∈ context, e ∈ es)
    (hfits : ∀ x ∈ d.pre v :: es, Γ.Fits x) (hsat : m.Satisfies range Γ (d.pre v :: es))
    (hmem : (i, e) ∈ d.conditions v focus) (heval : m.evalBool e = some true)
    (hedit : CandidateDomain.edit u i = .ok (b, u')) : d.Ample context s.declared range u' := by
  obtain ⟨-, rfl⟩ := edit_ok hedit
  obtain ⟨c, -, hc, -, -, he⟩ := mem_conditions.mp hmem
  obtain rfl : refutation c = e := Option.some.inj he
  refine ⟨by rw [List.length_set, hu.length], fun {w} hw => ?_⟩
  have hnot := hw.not_refuted (hv.contains hw) (hdeclared c (List.mem_of_getElem? hc)) hΓ hzero
    hcontext hfits hsat hc heval
  refine ⟨by rw [List.length_set, (hu.contains hw).length], fun {j} hj => ?_⟩
  by_cases hij : i = j
  · subst hij
    exact absurd hj hnot
  · rw [List.getElem?_set_ne hij]
    exact (hu.contains hw).mem hj

/-- An ample set about which nothing is left to ask is the greatest inductive set. -/
theorem Ample.greatest (h : d.Ample context s.declared range v)
    (hdeclared : ∀ c ∈ d.candidates, c.Declared s)
    (hclosed : ∀ l ∈ s.loops, ∃ focus, l.inFocus focus = true ∧
      ∀ ρ : Valuation, ρ.Typed s.declared range → (∀ e ∈ context, e.holds ρ = true) →
        (d.pre v).holds ρ = true → ∀ e ∈ d.conditions v focus, e.2.holds ρ = false) :
    d.Greatest context s.declared range v := by
  refine ⟨⟨h.length, fun {ρ} hρ hcontext hpre c hc => ?_⟩, h.contains⟩
  obtain ⟨i, hi, -⟩ := mem_alive_iff.mp hc
  obtain ⟨focus, hfocus, hclosed⟩ := hclosed c.loop (hdeclared c (List.mem_of_getElem? hi)).mem
  exact kept_of_conditions (hclosed ρ hρ hcontext hpre) c.clause (List.mem_map_of_mem hc) hfocus

end CandidateDomain

section rounds

variable {σ : Type} [Oracle σ] {range : Int × Int} {F : Faithful σ range} {c : Scopes} {Γ : Sorts}
  {o p : σ} {stats : Statistics} {focus : Option Nat} {v : List Bool} {b : Bool}
  {t : List Bool × Statistics} {s : LoopSystem} {context : List Expr}

theorem EqualityDomain.enumerate_ample {d : EqualityDomain}
    (hdeclared : ∀ c ∈ d.candidates, c.Declared s) (h : F.Keeps o c Γ)
    (hΓ : s.declared.Extends Γ) (hcontext : ∀ e ∈ context, e ∈ c.live)
    (hv : d.Ample context s.declared range v)
    (hrun : (Domain.equalities d).enumerate focus ((v, stats), o) = (.ok b, (t, p))) :
    d.Ample context s.declared range t.1 :=
  Domain.enumerate_invariant (d := .equalities d) (P := d.Ample context s.declared range) h
    (fun hΔ hfits hsat hmem heval hu hedit => hv.edit hu hdeclared (hΓ.trans hΔ) F.zero_mem hcontext
      hfits hsat hmem heval (Domain.Edit.pure_ok hedit)) hv hrun

theorem PredicateDomain.enumerate_ample {d : PredicateDomain}
    (hdeclared : ∀ c ∈ d.candidates, c.Declared s) (h : F.Keeps o c Γ)
    (hΓ : s.declared.Extends Γ) (hcontext : ∀ e ∈ context, e ∈ c.live)
    (hv : d.Ample context s.declared range v)
    (hrun : (Domain.predicates d).enumerate focus ((v, stats), o) = (.ok b, (t, p))) :
    d.Ample context s.declared range t.1 :=
  Domain.enumerate_invariant (d := .predicates d) (P := d.Ample context s.declared range) h
    (fun hΔ hfits hsat hmem heval hu hedit => hv.edit hu hdeclared (hΓ.trans hΔ) F.zero_mem hcontext
      hfits hsat hmem heval (Domain.Edit.pure_ok hedit)) hv hrun

end rounds

end InvariantSynthesis
