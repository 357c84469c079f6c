import InvariantSynthesis.Proofs.Analysis.Soundness
import InvariantSynthesis.Proofs.Search.Unreliable

namespace InvariantSynthesis

/-- A step is repeated as long as it reports a change. The number is that of the steps that did. -/
inductive Repeats {ε τ : Type} (step : ExceptT ε (StateM τ) Bool) :
    Nat → τ → Except ε Unit × τ → Prop
  | fails {s t : τ} {e : ε} : step s = (.error e, t) → Repeats step 0 s (.error e, t)
  | stops {s t : τ} : step s = (.ok false, t) → Repeats step 0 s (.ok (), t)
  | again {n : Nat} {s t : τ} {r : Except ε Unit × τ} : step s = (.ok true, t) →
      Repeats step n t r → Repeats step (n + 1) s r

theorem Repeats.exists_of_measure {ε τ : Type} (step : ExceptT ε (StateM τ) Bool) (P : τ → Prop)
    (measure : τ → Nat)
    (hstep : ∀ s t, P s → step s = (.ok true, t) → P t ∧ measure t < measure s) (s : τ) (hs : P s) :
    ∃ n r, n ≤ measure s ∧ Repeats step n s r := by
  induction hk : measure s using Nat.strongRecOn generalizing s with
  | ind k ih =>
    subst hk
    cases hrun : step s with
    | mk x t =>
      cases x with
      | error e => exact ⟨0, _, Nat.zero_le _, .fails hrun⟩
      | ok changed =>
        cases changed with
        | false => exact ⟨0, _, Nat.zero_le _, .stops hrun⟩
        | true =>
          obtain ⟨ht, hlower⟩ := hstep s t hs hrun
          obtain ⟨n, r, hn, hrepeats⟩ := ih _ hlower t ht rfl
          exact ⟨n + 1, r, by omega, .again hrun hrepeats⟩

theorem Session.nested_eq {S T σ α : Type} {body : Session T σ α} {t t' : T} {o p : σ}
    {x : Except Error α} (h : body (t, o) = (x, (t', p))) (s : S) :
    nested t body (s, o) = (.ok (x, t'), (s, p)) := by
  rw [nested, h]

section loops

variable {σ : Type} [Oracle σ] {m : Method} {n fuel : Nat}
  {r : Except Error Unit × ((m.domain.Value × Statistics) × σ)}

theorem Analyzer.climb_eq {s : m.domain.Value × Statistics} {o : σ}
    (h : Repeats (m.round none) n (s, o) r) (hfuel : n < fuel) (a : Analyzer) :
    climb m fuel s (a, o) =
      (r.1.map fun _ => r.2.1, ({ a with rounds := a.rounds + n }, r.2.2)) := by
  generalize hstart : (s, o) = start at h
  induction h generalizing fuel s o a with
  | @fails _ t e hrun | @stops _ t hrun =>
    subst hstart
    obtain ⟨t, p⟩ := t
    rcases fuel with _ | fuel
    · exact absurd hfuel (Nat.not_lt_zero _)
    rw [climb, Session.bind_ok (Session.nested_eq hrun a)]
    rfl
  | @again n _ t r hrun _ ih =>
    subst hstart
    obtain ⟨t, p⟩ := t
    rcases fuel with _ | fuel
    · exact absurd hfuel (Nat.not_lt_zero _)
    rw [climb, Session.bind_ok (Session.nested_eq hrun a), Nat.add_comm n, ← Nat.add_assoc]
    exact ih (Nat.lt_of_succ_lt_succ hfuel) { a with rounds := a.rounds + 1 } rfl

theorem Verifier.climb_eq {foci : List (Option Nat)} {s : m.domain.Value × Statistics} {o : σ}
    (h : Repeats (pass m foci) n (s, o) r) (hfuel : n < fuel) (v : Verifier) :
    climb m foci fuel s (v, o) =
      (r.1.map fun _ => r.2.1, ({ v with passes := v.passes + (n + 1) }, r.2.2)) := by
  have hupdate : ∀ (v : Verifier) (o : σ),
      Session.update (fun (v : Verifier) => { v with passes := v.passes + 1 }) (v, o) =
        (.ok (), ({ v with passes := v.passes + 1 }, o)) := fun _ _ => rfl
  generalize hstart : (s, o) = start at h
  induction h generalizing fuel s o v with
  | @fails _ t e hrun | @stops _ t hrun =>
    subst hstart
    obtain ⟨t, p⟩ := t
    rcases fuel with _ | fuel
    · exact absurd hfuel (Nat.not_lt_zero _)
    rw [climb, Session.bind_ok (hupdate v o), Session.bind_ok (Session.nested_eq hrun _)]
    rfl
  | @again n _ t r hrun _ ih =>
    subst hstart
    obtain ⟨t, p⟩ := t
    rcases fuel with _ | fuel
    · exact absurd hfuel (Nat.not_lt_zero _)
    rw [climb, Session.bind_ok (hupdate v o), Session.bind_ok (Session.nested_eq hrun _),
      Nat.add_comm (n + 1), ← Nat.add_assoc]
    exact ih (Nat.lt_of_succ_lt_succ hfuel) { v with passes := v.passes + 1 } rfl

end loops

namespace TemplateDomain

variable {σ : Type} [Oracle σ]

def narrow (r : TemplateRow) (assumption : Expr) (lower upper : Int) :
    Search (List RowValue) σ (Int × Int) := do
  let mid ← fitting (midpoint? lower upper)
  match ← reaches r assumption mid with
  | some v => return (max v mid, upper)
  | none => return (lower, ← fitting (Bounded.sub? mid 1))

/-- One step of a bisection, on the interval and the state of the search, and whether there was an
interval to shorten. -/
def halve (r : TemplateRow) (assumption : Expr) :
    ExceptT Error (StateM ((Int × Int) × ((List RowValue × Statistics) × σ))) Bool :=
  fun ((lower, upper), s) =>
    if lower < upper then
      match narrow r assumption lower upper s with
      | (.ok interval, s) => (.ok true, (interval, s))
      | (.error e, s) => (.error e, ((lower, upper), s))
    else (.ok false, ((lower, upper), s))

theorem settle_succ (r : TemplateRow) (assumption : Expr) (fuel : Nat) {lower upper : Int}
    (h : lower < upper) : (settle r assumption (fuel + 1) lower upper : Search _ σ Int) =
      narrow r assumption lower upper >>= fun interval =>
        settle r assumption fuel interval.1 interval.2 := by
  rw [settle, if_pos h, narrow, bind_assoc]
  congr 1
  funext mid
  rw [bind_assoc]
  congr 1
  funext reached
  cases reached with
  | some v => rw [pure_bind]
  | none => rw [bind_assoc]; simp only [pure_bind]

theorem settle_of_le (r : TemplateRow) (assumption : Expr) (fuel : Nat) {lower upper : Int}
    (h : ¬lower < upper) (s : (List RowValue × Statistics) × σ) :
    settle r assumption fuel lower upper s = (.ok lower, s) := by
  cases fuel with
  | zero => rfl
  | succ fuel =>
    rw [settle, if_neg h]
    rfl

theorem narrow_shorter {r : TemplateRow} {assumption : Expr} {lower upper : Int} {interval : Int × Int}
    {s t : List RowValue × Statistics} {o p : σ} (hlt : lower < upper)
    (hrun : narrow r assumption lower upper (s, o) = (.ok interval, (t, p))) :
    (interval.2 - interval.1).toNat < (upper - lower).toNat := by
  obtain ⟨mid, u, hfit, hrun₁⟩ := Session.ok_of_bind hrun
  obtain ⟨hmid, rfl⟩ := fitting_ok hfit
  obtain ⟨reached, u', -, hrun₂⟩ := Session.ok_of_bind hrun₁
  obtain ⟨hlower, hupper⟩ := midpoint?_mem hmid hlt
  cases reached with
  | some v =>
    cases hrun₂
    dsimp only
    omega
  | none =>
    obtain ⟨upper', u'', hfit', hrun₃⟩ := Session.ok_of_bind hrun₂
    obtain ⟨hsub, rfl⟩ := fitting_ok hfit'
    have hless : mid - 1 = upper' := (Bounded.check_eq_some.mp hsub).1
    cases hrun₃
    dsimp only
    omega

theorem halve_run {r : TemplateRow} {assumption : Expr} {lower upper : Int}
    {s : (List RowValue × Statistics) × σ} {x : Except Error Bool}
    {t : (Int × Int) × ((List RowValue × Statistics) × σ)}
    (hrun : halve r assumption ((lower, upper), s) = (x, t)) :
    match x with
    | .ok false => ¬lower < upper ∧ t = ((lower, upper), s)
    | .ok true => lower < upper ∧ narrow r assumption lower upper s = (.ok t.1, t.2)
    | .error e => lower < upper ∧ narrow r assumption lower upper s = (.error e, t.2) := by
  simp only [halve] at hrun
  split at hrun
  · rename_i hlt
    split at hrun
    · rename_i hnarrow
      cases hrun
      exact ⟨hlt, hnarrow⟩
    · rename_i hnarrow
      cases hrun
      exact ⟨hlt, hnarrow⟩
  · rename_i hle
    cases hrun
    exact ⟨hle, rfl⟩

theorem halve_shorter {r : TemplateRow} {assumption : Expr}
    {s t : (Int × Int) × ((List RowValue × Statistics) × σ)}
    (hrun : halve r assumption s = (.ok true, t)) :
    (t.1.2 - t.1.1).toNat < (s.1.2 - s.1.1).toNat := by
  obtain ⟨hlt, hnarrow⟩ := halve_run hrun
  exact narrow_shorter hlt hnarrow

theorem halving_ends (r : TemplateRow) (assumption : Expr) (lower upper : Int)
    (s : (List RowValue × Statistics) × σ) :
    ∃ n result, n ≤ (upper - lower).toNat ∧
      Repeats (halve r assumption) n ((lower, upper), s) result :=
  Repeats.exists_of_measure (halve r assumption) (fun _ => True) (fun s => (s.1.2 - s.1.1).toNat)
    (fun _ _ _ hrun => ⟨trivial, halve_shorter hrun⟩) ((lower, upper), s) trivial

theorem settle_eq {r : TemplateRow} {assumption : Expr} {n fuel : Nat} {lower upper : Int}
    {s : (List RowValue × Statistics) × σ}
    {result : Except Error Unit × ((Int × Int) × ((List RowValue × Statistics) × σ))}
    (h : Repeats (halve r assumption) n ((lower, upper), s) result)
    (hfuel : (upper - lower).toNat ≤ fuel) :
    settle r assumption fuel lower upper s = (result.1.map fun _ => result.2.1.1, result.2.2) := by
  generalize hstart : ((lower, upper), s) = start at h
  induction h generalizing fuel lower upper s with
  | stops hrun =>
    subst hstart
    obtain ⟨hle, rfl⟩ := halve_run hrun
    exact settle_of_le r assumption fuel hle s
  | fails hrun =>
    subst hstart
    obtain ⟨hlt, hnarrow⟩ := halve_run hrun
    obtain ⟨fuel, rfl⟩ : ∃ k, fuel = k + 1 := ⟨fuel - 1, by omega⟩
    rw [settle_succ r assumption fuel hlt, Session.bind_error hnarrow]
    rfl
  | again hrun _ ih =>
    subst hstart
    obtain ⟨hlt, hnarrow⟩ := halve_run hrun
    have hshorter := halve_shorter hrun
    obtain ⟨fuel, rfl⟩ : ∃ k, fuel = k + 1 := ⟨fuel - 1, by omega⟩
    rw [settle_succ r assumption fuel hlt, Session.bind_ok hnarrow]
    exact ih (by dsimp only at hshorter; omega) rfl

end TemplateDomain

section halting

variable {σ : Type} [Oracle σ] {Good : σ → Prop} (hgood : Oracle.Bounded Good) {m : Method}
  (hd : m.domain.Descends)

include hgood hd

theorem Method.passes_end (foci : List (Option Nat)) (stats : Statistics) {v : m.domain.Value} {o : σ}
    (ho : Good o) (hs : m.domain.Sane v) :
    ∃ n r, n ≤ m.domain.height v ∧ Repeats (Verifier.pass m foci) n ((v, stats), o) r := by
  refine Repeats.exists_of_measure (Verifier.pass m foci) (fun s => Good s.2 ∧ m.domain.Sane s.1.1)
    (fun s => m.domain.height s.1.1) ?_ ((v, stats), o) ⟨ho, hs⟩
  rintro ⟨⟨w, t⟩, p⟩ ⟨⟨w', t'⟩, p'⟩ ⟨hp, hw⟩ hrun
  have hstep := pass_step_good hgood hd hp hw hrun
  have hp' := (Verifier.pass_congr hgood.frame.congruence m foci).good hrun hp
  exact ⟨⟨hp', hstep.sane⟩, hstep.lower rfl⟩

theorem Method.rounds_end (focus : Option Nat) (stats : Statistics) {v : m.domain.Value} {o : σ}
    (ho : Good o) (hs : m.domain.Sane v) :
    ∃ n r, n ≤ m.domain.height v ∧ Repeats (m.round focus) n ((v, stats), o) r := by
  rw [← Verifier.pass_one]
  exact passes_end hgood hd [focus] stats ho hs

end halting

/-- Whatever an oracle answers, as long as its models hold numbers of 64 bits: the analyzer's rounds,
the verifier's passes and the steps of every bisection come to an end, and climbing and settling
compute where. -/
theorem loops_end {σ : Type} [Oracle σ] {Good : σ → Prop} (hgood : Oracle.Bounded Good)
    {config : Config} {s : LoopSystem} {range : Int × Int} {m : Method}
    (hm : Method.ofConfig config s range = .ok m) {o : σ} (ho : Good o) :
    (∃ n r, n ≤ m.domain.height m.domain.start ∧
      Repeats (m.round none) n ((m.domain.start, .zero), o) r ∧
      ∀ a, Analyzer.climb m (m.domain.height m.domain.start + 1) (m.domain.start, .zero) (a, o) =
        (r.1.map fun _ => r.2.1, ({ a with rounds := a.rounds + n }, r.2.2))) ∧
    (∀ foci, ∃ n r, n ≤ m.domain.height m.domain.start ∧
      Repeats (Verifier.pass m foci) n ((m.domain.start, .zero), o) r ∧
      ∀ v, Verifier.climb m foci (m.domain.height m.domain.start + 1) (m.domain.start, .zero) (v, o) =
        (r.1.map fun _ => r.2.1, ({ v with passes := v.passes + (n + 1) }, r.2.2))) ∧
    ∀ row assumption lower upper (t : (List RowValue × Statistics) × σ),
      ∃ n r, n ≤ (upper - lower).toNat ∧
        Repeats (TemplateDomain.halve row assumption) n ((lower, upper), t) r ∧
        TemplateDomain.settle row assumption (upper - lower).toNat lower upper t =
          (r.1.map fun _ => r.2.1.1, r.2.2) := by
  have hd : m.domain.Descends := Method.descends_of_config hm
  refine ⟨?_, fun foci => ?_, fun row assumption lower upper t => ?_⟩
  · obtain ⟨n, r, hn, hrepeats⟩ := Method.rounds_end hgood hd none .zero ho m.domain.sane_start
    exact ⟨n, r, hn, hrepeats, Analyzer.climb_eq hrepeats (Nat.lt_succ_of_le hn)⟩
  · obtain ⟨n, r, hn, hrepeats⟩ := Method.passes_end hgood hd foci .zero ho m.domain.sane_start
    exact ⟨n, r, hn, hrepeats, Verifier.climb_eq hrepeats (Nat.lt_succ_of_le hn)⟩
  · obtain ⟨n, r, hn, hrepeats⟩ := TemplateDomain.halving_ends row assumption lower upper t
    exact ⟨n, r, hn, hrepeats, TemplateDomain.settle_eq hrepeats (Nat.le_refl _)⟩

/-- A solver whose second check is answered wrongly, whose first scope cannot be closed, and whose
models do not show the counter. -/
def Scripted.misleading : Scripted BitSolver where
  inner := .fresh 2 1000
  script := { failing := some (2, .unsat), failingPop := some 1, hidden := ["x1"] }

/-- With this solver, the passes over the counter's loop and every bisection come to an end. -/
theorem loops_end_misleading :
    ∃ m, Method.ofConfig { domain := .template .intervals .bisection, width := 2 }
        (.ofProcedures [Verifier.counter]) (-2, 1) = .ok m ∧
      (∃ n r, n ≤ m.domain.height m.domain.start ∧
        Repeats (Verifier.pass m [some 0]) n ((m.domain.start, .zero), Scripted.misleading) r) ∧
      ∀ row assumption, ∃ n r, n ≤ 3 ∧
        Repeats (TemplateDomain.halve row assumption) n
          ((-2, 1), (([.bottom], .zero), Scripted.misleading)) r := by
  cases hm : Method.ofConfig { domain := .template .intervals .bisection, width := 2 }
      (.ofProcedures [Verifier.counter]) (-2, 1) with
  | error e =>
    have hok : (Method.ofConfig { domain := .template .intervals .bisection, width := 2 }
      (.ofProcedures [Verifier.counter]) (-2, 1)).isOk = true := by decide +kernel
    rw [hm] at hok
    cases hok
  | ok m =>
    have hgood := Scripted.bounded (BitSolver.bounded (Nat.le_refl 2) (by decide))
    obtain ⟨-, hpasses, hbisection⟩ := loops_end (o := Scripted.misleading) hgood hm
      ⟨rfl, .none, .fresh (by decide)⟩
    refine ⟨m, rfl, ?_, fun row assumption => ?_⟩
    · obtain ⟨n, r, hn, hrepeats, -⟩ := hpasses [some 0]
      exact ⟨n, r, hn, hrepeats⟩
    · obtain ⟨n, r, hn, hrepeats, -⟩ :=
        hbisection row assumption (-2) 1 (([.bottom], .zero), Scripted.misleading)
      exact ⟨n, r, hn, hrepeats⟩

end InvariantSynthesis
