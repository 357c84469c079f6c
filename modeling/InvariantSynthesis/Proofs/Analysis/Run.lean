import InvariantSynthesis.Proofs.Analysis.Climb

namespace InvariantSynthesis

namespace Scopes

def addAll (c : Scopes) (es : List Expr) : Scopes := es.foldl add c

theorem mem_live_addAll {c : Scopes} {es : List Expr} {e : Expr} :
    e ∈ (c.addAll es).live ↔ e ∈ c.live ∨ e ∈ es := by
  induction es generalizing c with
  | nil => simp [addAll]
  | cons x es ih =>
    rw [addAll, List.foldl_cons, ← addAll, ih, live_add, List.mem_cons, List.mem_cons]
    constructor
    · rintro ((h | h) | h)
      · exact .inr (.inl h)
      · exact .inl h
      · exact .inr (.inr h)
    · rintro (h | h | h)
      · exact .inl (.inr h)
      · exact .inl (.inl h)
      · exact .inr h

end Scopes

section session

variable {σ S : Type} [Oracle σ] {range : Int × Int} {F : Faithful σ range} {c : Scopes} {Γ : Sorts}
  {o p : σ} {s s' : S}

theorem Faithful.reaches_assertAll {es : List Expr} (h : F.Keeps o c Γ)
    (hrun : (es.forM Session.assert : Session S σ Unit) (s, o) = (.ok (), (s', p))) :
    s' = s ∧ ∃ Δ, F.Reaches o Γ p (c.addAll es) Δ := by
  induction es generalizing o c Γ with
  | nil =>
    cases hrun
    exact ⟨rfl, Γ, .refl h⟩
  | cons e es ih =>
    rw [List.forM_eq_forM, List.forM_cons] at hrun
    obtain ⟨⟨⟩, ⟨t, q⟩, hassert, hrest⟩ := Session.ok_of_bind hrun
    obtain ⟨rfl, Δ, hreaches⟩ := Faithful.reaches_assert h hassert
    obtain ⟨rfl, Θ, hreaches'⟩ := ih hreaches.keeps hrest
    exact ⟨rfl, Θ, hreaches.trans hreaches'⟩

omit [Oracle σ] in
theorem requireFeasible_ok {a : Answer} {t u : S × σ}
    (h : (requireFeasible a : Session S σ Unit) t = (.ok (), u)) : u = t := by
  cases a <;> cases h <;> rfl

end session

namespace Verifier

variable {σ : Type} [Oracle σ] {range : Int × Int} {F : Faithful σ range} {c : Scopes} {Γ : Sorts}
  {o p : σ} {v v' : Verifier}

def rounds (v : Verifier) (o : σ) : List (Round σ) :=
  match (prepare : Session Verifier σ Unit) (v.reset, Oracle.push o) with
  | (.ok (), (v, o)) =>
    match Method.ofConfig v.config v.loops (Oracle.range o) with
    | .ok m =>
      m.climbRounds v.foci (m.domain.height m.domain.start + 1) ((m.domain.start, .zero), o)
    | .error _ => []
  | (.error _, _) => []

theorem prepare_ok (h : F.Keeps o c Γ)
    (hrun : (prepare : Session Verifier σ Unit) (v, o) = (.ok (), (v', p))) :
    v' = { v with stats := v'.stats } ∧
      ∃ Δ, (∀ n s, v.symbols.lookup n = some s → Δ n = some s) ∧
        F.Reaches o Γ p (c.addAll v.assumptions) Δ := by
  obtain ⟨⟨⟩, t₁, h₁, hrun⟩ := Session.ok_of_bind hrun
  cases h₁
  obtain ⟨w, t₂, h₂, hrun⟩ := Session.ok_of_bind hrun
  cases h₂
  obtain ⟨⟨⟩, ⟨v₃, o₃⟩, h₃, hrun⟩ := Session.ok_of_bind hrun
  obtain ⟨rfl, hdeclare⟩ := Session.request_ok h₃
  obtain ⟨hlater, Δ, hsorts, hknown, hkeeps⟩ := F.declare h hdeclare
  obtain ⟨⟨⟩, ⟨v₄, o₄⟩, h₄, hrun⟩ := Session.ok_of_bind hrun
  obtain ⟨rfl, Θ, hreaches⟩ := Faithful.reaches_assertAll hkeeps h₄
  obtain ⟨⟨⟩, t₅, h₅, hrun⟩ := Session.ok_of_bind hrun
  cases h₅
  obtain ⟨a, ⟨v₆, o₆⟩, h₆, hrun⟩ := Session.ok_of_bind hrun
  obtain ⟨rfl, hcheck⟩ := Session.request_ok h₆
  cases requireFeasible_ok hrun
  refine ⟨rfl, Θ, fun n s hn => hreaches.sorts n s (hknown n s hn), ?_⟩
  exact (Faithful.Reaches.mk hlater hsorts hkeeps).trans
    (hreaches.trans (Faithful.reaches_check hreaches.keeps hcheck))

theorem climb_ok {m : Method} {foci : List (Option Nat)} {fuel : Nat}
    {s s' : m.domain.Value × Statistics}
    (hrun : climb m foci fuel s (v, o) = (.ok s', (v', p))) :
    v' = { v with passes := v'.passes } ∧ m.Climbs foci fuel (s, o) (s', p) := by
  induction fuel generalizing s v o with
  | zero =>
    cases hrun
    exact ⟨rfl, .exhausted _⟩
  | succ fuel ih =>
    obtain ⟨⟨⟩, t₁, h₁, hrun⟩ := Session.ok_of_bind hrun
    cases h₁
    obtain ⟨⟨outcome, s₁⟩, ⟨v₂, q⟩, h₂, hrun⟩ := Session.ok_of_bind hrun
    cases hpass : pass m foci (s, o) with
    | mk r t =>
      obtain ⟨t, q'⟩ := t
      simp only [Session.nested, hpass] at h₂
      cases h₂
      obtain ⟨changed, t₃, h₃, hrun⟩ := Session.ok_of_bind hrun
      obtain ⟨rfl, rfl⟩ := Session.ofExcept_ok h₃
      cases changed with
      | true =>
        obtain ⟨hv, hclimbs⟩ := ih hrun
        refine ⟨?_, .next hpass hclimbs⟩
        rw [hv]
      | false =>
        cases hrun
        exact ⟨rfl, .last hpass⟩

/-- A property that is found to hold was checked with a negative answer. -/
def Verified (F : Faithful σ range) (c : Scopes) (Γ : Sorts) (invariant : Expr) (o : σ)
    (q : Property) : Prop :=
  q.status = .holds → ∃ a p Δ, F.Later o a ∧ Γ.Extends Δ ∧
    F.Keeps a ((c.opened.add invariant).add (.negate q.condition)) Δ ∧
    (Oracle.check : Request σ Answer) a = (.ok .unsat, p)

/-- What an answer says about a property. A positive one comes with a model. -/
def Judges (a : Answer) (found : Option Model) (q q' : Property) : Prop :=
  match a with
  | .unsat => q' = { q with status := .holds }
  | .unknown _ => q' = { q with status := .unknown }
  | .sat => ∃ m, found = some m ∧
      q' = { q with status := .violated, countermodel := some (q.relevant m) }

theorem checkProperty_asked {invariant : Expr} {q q' : Property} (h : F.Keeps o c Γ)
    (hrun : checkProperty invariant q (v, o) = (.ok q', (v', p))) :
    v' = { v with stats := v'.stats } ∧ ∃ a o₁ o₂ Δ,
      F.Reaches o Γ o₁ ((c.opened.add invariant).add (.negate q.condition)) Δ ∧
      (Oracle.check : Request σ Answer) o₁ = (.ok a, o₂) ∧ F.Reaches o Γ p c Δ ∧
      Judges a (Oracle.model? o₂) q q' := by
  obtain ⟨q₀, hbody, rfl⟩ := Session.inScope_ok hrun
  have hpush := Faithful.reaches_push h
  obtain ⟨⟨⟩, ⟨v₁, o₁⟩, h₁, hbody₁⟩ := Session.ok_of_bind hbody
  obtain ⟨rfl, Δ₁, hr₁⟩ := Faithful.reaches_assert hpush.keeps h₁
  obtain ⟨⟨⟩, ⟨v₂, o₂⟩, h₂, hbody₂⟩ := Session.ok_of_bind hbody₁
  obtain ⟨rfl, Δ₂, hr₂⟩ := Faithful.reaches_assert hr₁.keeps h₂
  obtain ⟨⟨⟩, t₃, h₃, hbody₃⟩ := Session.ok_of_bind hbody₂
  cases h₃
  obtain ⟨a, ⟨v₄, o₄⟩, h₄, hbody₄⟩ := Session.ok_of_bind hbody₃
  obtain ⟨rfl, hcheck⟩ := Session.request_ok h₄
  have hasked := (hpush.trans hr₁).trans hr₂
  have hafter := hasked.trans (Faithful.reaches_check hasked.keeps hcheck)
  have hclosed := hafter.trans (Faithful.reaches_release h rfl rfl hafter.keeps)
  cases a with
  | unsat | unknown =>
    cases hbody₄
    exact ⟨rfl, _, o₂, _, Δ₂, hasked, hcheck, hclosed, rfl⟩
  | sat =>
    obtain ⟨m, t₅, h₅, hbody₅⟩ := Session.ok_of_bind hbody₄
    obtain ⟨hm, rfl⟩ := Session.requireModel_ok h₅
    cases hbody₅
    exact ⟨rfl, _, o₂, _, Δ₂, hasked, hcheck, hclosed, m, hm, rfl⟩

theorem checkProperty_ok {invariant : Expr} {q q' : Property} (h : F.Keeps o c Γ)
    (hrun : checkProperty invariant q (v, o) = (.ok q', (v', p))) :
    v' = { v with stats := v'.stats } ∧ (∃ Δ, F.Reaches o Γ p c Δ) ∧
      Verified F c Γ invariant o q' := by
  obtain ⟨hv, a, o₁, o₂, Δ, hasked, hcheck, hclosed, hjudges⟩ := checkProperty_asked h hrun
  refine ⟨hv, ⟨Δ, hclosed⟩, fun hholds => ?_⟩
  cases a with
  | unsat =>
    cases hjudges
    exact ⟨o₁, o₂, Δ, hasked.later, hasked.sorts, hasked.keeps, hcheck⟩
  | unknown reason =>
    cases hjudges
    cases hholds
  | sat =>
    obtain ⟨m, -, rfl⟩ := hjudges
    cases hholds

theorem Verified.mono {invariant : Expr} {q : Property} {Δ : Sorts}
    (h : Verified F c Δ invariant p q) (hΓ : Γ.Extends Δ) (hlater : F.Later o p) :
    Verified F c Γ invariant o q := by
  intro hq
  obtain ⟨a, r, Θ, ha, hΔ, hrest⟩ := h hq
  exact ⟨a, r, Θ, F.later_trans hlater ha, hΓ.trans hΔ, hrest⟩

theorem checkProperties_invariant {P : Property → Prop} {invariant : Expr} {i : Nat}
    {ps : List Property} {o₁ : σ} {Δ : Sorts} (h : F.Reaches o Γ o₁ c Δ)
    (hcheck : ∀ {q q' v v' o₁ p Δ}, q ∈ ps → F.Reaches o Γ o₁ c Δ →
      checkProperty invariant q (v, o₁) = (.ok q', (v', p)) → P q')
    (hv : ∀ q ∈ v.properties, P q)
    (hrun : checkProperties invariant i ps (v, o₁) = (.ok (), (v', p))) :
    (∃ Θ, F.Reaches o Γ p c Θ) ∧ ∀ q ∈ v'.properties, P q := by
  induction ps generalizing i v o₁ Δ with
  | nil =>
    cases hrun
    exact ⟨⟨Δ, h⟩, hv⟩
  | cons q ps ih =>
    obtain ⟨q', ⟨v₁, o₂⟩, hfirst, hrun₁⟩ := Session.ok_of_bind hrun
    obtain ⟨⟨⟩, t₂, h₂, hrest⟩ := Session.ok_of_bind hrun₁
    cases h₂
    obtain ⟨hv₁, ⟨Θ, hreaches⟩, -⟩ := checkProperty_ok h.keeps hfirst
    refine ih (h.trans hreaches) (fun hq => hcheck (List.mem_cons_of_mem _ hq)) (fun x hx => ?_) hrest
    rcases List.mem_or_eq_of_mem_set hx with hx | rfl
    · rw [hv₁] at hx
      exact hv x hx
    · exact hcheck List.mem_cons_self h hfirst

end Verifier

/-- A value was searched for, in rounds that are known, after assertions had been made and variables
had been declared. -/
structure Searched {σ : Type} [Oracle σ] {range : Int × Int} (F : Faithful σ range) (c : Scopes)
    (symbols : List TypedName) (foci : List (Option Nat)) (rounds : List (Round σ)) (m : Method)
    (value : m.domain.Value) (o p : σ) (Γ : Sorts) : Prop where
  declared : ∀ n s, symbols.lookup n = some s → Γ n = some s
  keeps : F.Keeps o c Γ
  climbs : ∃ stats, m.Climbs foci (m.domain.height m.domain.start + 1) ((m.domain.start, .zero), o)
    ((value, stats), p)
  rounds_eq : rounds = m.climbRounds foci (m.domain.height m.domain.start + 1)
    ((m.domain.start, .zero), o)

namespace Searched

variable {σ : Type} [Oracle σ] {range : Int × Int} {F : Faithful σ range} {c : Scopes}
  {symbols : List TypedName} {foci : List (Option Nat)} {rounds : List (Round σ)} {m : Method}
  {value : m.domain.Value} {o p : σ} {Γ : Sorts}

theorem rests (h : Searched F c symbols foci rounds m value o p Γ) (hd : m.domain.Descends) :
    m.domain.Sane value ∧ ∀ focus ∈ foci, m.Rests F c Γ value p rounds focus := by
  obtain ⟨stats, hclimbs⟩ := h.climbs
  rw [h.rounds_eq]
  exact hclimbs.rests hd (Nat.lt_succ_self _) h.keeps m.domain.sane_start

theorem denies (h : Searched F c symbols foci rounds m value o p Γ) (hd : m.domain.Descends)
    (hr : m.domain.Roomy value) (hover : ∀ r ∈ rounds, r.overflows = false) :
    m.domain.Sane value ∧ ∀ focus ∈ foci, m.Denies F c Γ value p rounds focus := by
  obtain ⟨hsane, hrests⟩ := h.rests hd
  exact ⟨hsane, fun focus hfocus => (hrests focus hfocus).denies hd hsane hr hover⟩

end Searched

namespace Verifier

variable {σ : Type} [Oracle σ] {range : Int × Int} {F : Faithful σ range} {c : Scopes} {Γ : Sorts}
  {o p : σ} {v v' : Verifier}

/-- What a run that ends without an error has gone through. It has searched for an invariant, and then
it has checked the properties, all of them open again, under the invariant. -/
theorem run_steps (h : F.Keeps o c Γ)
    (hrun : (run : Session Verifier σ Unit) (v, o) = (.ok (), (v', p))) :
    ∃ (m : Method) (value : m.domain.Value) (o₁ o₂ o₃ : σ) (Δ Θ : Sorts) (w w' : Verifier),
      Method.ofConfig v.config v.loops range = .ok m ∧ v'.invariant = some ⟨m, value⟩ ∧
      Γ.Extends Δ ∧
      Searched F (c.opened.addAll v.assumptions) v.symbols v.foci (v.rounds o) m value o₁ o₂ Δ ∧
      F.Reaches o₁ Δ o₂ (c.opened.addAll v.assumptions) Θ ∧
      w.properties = v.reset.properties ∧ v'.properties = w'.properties ∧
      checkProperties (m.domain.pre value) 0 v.reset.properties (w, o₂) = (.ok (), (w', o₃)) := by
  obtain ⟨⟨⟩, t₀, h₀, hrun₀⟩ := Session.ok_of_bind hrun
  cases h₀
  obtain ⟨q, hbody, -⟩ := Session.inScope_ok hrun₀
  obtain ⟨⟨⟩, ⟨v₁, o₁⟩, hprepare, hbody₁⟩ := Session.ok_of_bind hbody
  have hpush := Faithful.reaches_push h
  obtain ⟨hv₁, Δ, hdeclared, hreaches⟩ := prepare_ok hpush.keeps hprepare
  obtain ⟨st, rfl⟩ : ∃ st, v₁ = { v.reset with stats := st } := ⟨_, hv₁⟩
  obtain ⟨w, t₂, h₂, hbody₂⟩ := Session.ok_of_bind hbody₁
  cases h₂
  obtain ⟨range', t₃, h₃, hbody₃⟩ := Session.ok_of_bind hbody₂
  cases h₃
  obtain ⟨m, t₄, h₄, hbody₄⟩ := Session.ok_of_bind hbody₃
  obtain ⟨hm, rfl⟩ := Session.ofExcept_ok h₄
  obtain ⟨⟨value, stats⟩, ⟨v₅, o₂⟩, hclimb, hbody₅⟩ := Session.ok_of_bind hbody₄
  obtain ⟨hv₅, hclimbs⟩ := climb_ok hclimb
  obtain ⟨⟨⟩, t₆, h₆, hbody₆⟩ := Session.ok_of_bind hbody₅
  cases h₆
  obtain ⟨⟨⟩, ⟨v₇, o₃⟩, hcheck, hbody₇⟩ := Session.ok_of_bind hbody₆
  cases hbody₇
  obtain ⟨Θ, hclimbed⟩ := hclimbs.reaches hreaches.keeps
  have hrange : Oracle.range o₁ = range := F.range_eq hreaches.keeps
  refine ⟨m, value, o₁, o₂, _, Δ, Θ, { v₅ with stats := v₅.stats.merge stats }, v₇, ?_, rfl,
    hreaches.sorts, ⟨hdeclared, hreaches.keeps, ⟨stats, hclimbs⟩, ?_⟩, hclimbed, ?_, rfl, hcheck⟩
  · rw [← hrange]
    exact hm
  · simp only [rounds, hprepare, hm]
    rfl
  · rw [hv₅]

theorem run_ok (h : F.Keeps o c Γ)
    (hrun : (run : Session Verifier σ Unit) (v, o) = (.ok (), (v', p))) :
    ∃ (m : Method) (value : m.domain.Value) (o₁ o₂ : σ) (Δ Θ : Sorts),
      Method.ofConfig v.config v.loops range = .ok m ∧ v'.invariant = some ⟨m, value⟩ ∧
      Γ.Extends Δ ∧ Δ.Extends Θ ∧
      Searched F (c.opened.addAll v.assumptions) v.symbols v.foci (v.rounds o) m value o₁ o₂ Δ ∧
      ∀ q ∈ v'.properties,
        Verified F (c.opened.addAll v.assumptions) Θ (m.domain.pre value) o₂ q := by
  obtain ⟨m, value, o₁, o₂, o₃, Δ, Θ, w, w', hm, hinvariant, hΔ, hsearched, hclimbed, hw, hw', hcheck⟩ :=
    run_steps h hrun
  refine ⟨m, value, o₁, o₂, Δ, Θ, hm, hinvariant, hΔ, hclimbed.sorts, hsearched, ?_⟩
  rw [hw']
  refine (checkProperties_invariant (.refl hclimbed.keeps) (fun _ hreaches hrun => ?_)
    (fun q hq hstatus => ?_) hcheck).2
  · exact (checkProperty_ok hreaches.keeps hrun).2.2.mono hreaches.sorts hreaches.later
  · rw [hw] at hq
    obtain ⟨q₀, -, rfl⟩ := List.mem_map.mp hq
    cases hstatus

end Verifier

namespace Analyzer

variable {σ : Type} [Oracle σ] {range : Int × Int} {F : Faithful σ range} {c : Scopes} {Γ : Sorts}
  {o p : σ} {a a' : Analyzer} {f : Procedure} {pre : Expr}

/-- All that is assumed before the search, in the order in which it is asserted. -/
def assumptions (f : Procedure) (pre : Expr) : List Expr := [f.formula, f.enablingExpr, pre]

def searchRounds (a : Analyzer) (f : Procedure) (pre : Expr) (o : σ) : List (Round σ) :=
  match (prepare f pre : Session Analyzer σ Unit) (a.reset, Oracle.push o) with
  | (.ok (), (a, o)) =>
    match Method.ofConfig a.config (.ofProcedures [f]) (Oracle.range o) with
    | .ok m =>
      m.climbRounds [none] (m.domain.height m.domain.start + 1) ((m.domain.start, .zero), o)
    | .error _ => []
  | (.error _, _) => []

theorem prepare_ok (h : F.Keeps o c Γ)
    (hrun : (prepare f pre : Session Analyzer σ Unit) (a, o) = (.ok (), (a', p))) :
    a' = { a with stats := a'.stats } ∧
      ∃ Δ, (∀ n s, f.symbols.lookup n = some s → Δ n = some s) ∧
        F.Reaches o Γ p (c.addAll (assumptions f pre)) Δ := by
  obtain ⟨⟨⟩, t₁, h₁, hrun₁⟩ := Session.ok_of_bind hrun
  cases h₁
  obtain ⟨⟨⟩, ⟨a₂, o₂⟩, h₂, hrun₂⟩ := Session.ok_of_bind hrun₁
  obtain ⟨rfl, hdeclare⟩ := Session.request_ok h₂
  obtain ⟨hlater, Δ, hsorts, hknown, hkeeps⟩ := F.declare h hdeclare
  obtain ⟨⟨⟩, ⟨a₃, o₃⟩, h₃, hrun₃⟩ := Session.ok_of_bind hrun₂
  obtain ⟨rfl, Δ₁, hr₁⟩ := Faithful.reaches_assert hkeeps h₃
  obtain ⟨⟨⟩, ⟨a₄, o₄⟩, h₄, hrun₄⟩ := Session.ok_of_bind hrun₃
  obtain ⟨rfl, Δ₂, hr₂⟩ := Faithful.reaches_assert hr₁.keeps h₄
  obtain ⟨⟨⟩, ⟨a₅, o₅⟩, h₅, hrun₅⟩ := Session.ok_of_bind hrun₄
  obtain ⟨rfl, Δ₃, hr₃⟩ := Faithful.reaches_assert hr₂.keeps h₅
  obtain ⟨⟨⟩, t₆, h₆, hrun₆⟩ := Session.ok_of_bind hrun₅
  cases h₆
  obtain ⟨answer, ⟨a₇, o₇⟩, h₇, hrun₇⟩ := Session.ok_of_bind hrun₆
  obtain ⟨rfl, hcheck⟩ := Session.request_ok h₇
  cases requireFeasible_ok hrun₇
  have hasserted := (hr₁.trans hr₂).trans hr₃
  refine ⟨rfl, Δ₃, fun n s hn => hasserted.sorts n s (hknown n s hn), ?_⟩
  exact (Faithful.Reaches.mk hlater hsorts hkeeps).trans
    (hasserted.trans (Faithful.reaches_check hasserted.keeps hcheck))

theorem climb_ok {m : Method} {fuel : Nat} {s s' : m.domain.Value × Statistics}
    (hrun : climb m fuel s (a, o) = (.ok s', (a', p))) :
    a' = { a with rounds := a'.rounds } ∧ m.Climbs [none] fuel (s, o) (s', p) := by
  induction fuel generalizing s a o with
  | zero =>
    cases hrun
    exact ⟨rfl, .exhausted _⟩
  | succ fuel ih =>
    obtain ⟨⟨outcome, s₁⟩, ⟨a₂, q⟩, h₂, hrun₁⟩ := Session.ok_of_bind hrun
    cases hround : m.round none (s, o) with
    | mk r t =>
      obtain ⟨t, q'⟩ := t
      simp only [Session.nested, hround] at h₂
      cases h₂
      obtain ⟨changed, t₃, h₃, hrun₂⟩ := Session.ok_of_bind hrun₁
      obtain ⟨rfl, rfl⟩ := Session.ofExcept_ok h₃
      have hpass : Verifier.pass m [none] (s, o) = (.ok changed, (s₁, q)) := by
        rw [Verifier.pass_one, hround]
      cases changed with
      | true =>
        obtain ⟨⟨⟩, t₄, h₄, hrun₃⟩ := Session.ok_of_bind hrun₂
        cases h₄
        obtain ⟨ha, hclimbs⟩ := ih hrun₃
        refine ⟨?_, .next hpass hclimbs⟩
        rw [ha]
      | false =>
        cases hrun₂
        exact ⟨rfl, .last hpass⟩

theorem run_ok (h : F.Keeps o c Γ)
    (hrun : (run f pre : Session Analyzer σ Unit) (a, o) = (.ok (), (a', p))) :
    ∃ (m : Method) (value : m.domain.Value) (o₁ o₂ : σ) (Δ : Sorts),
      Method.ofConfig a.config (.ofProcedures [f]) range = .ok m ∧
      a'.invariant = some ⟨m, value⟩ ∧ Γ.Extends Δ ∧
      Searched F (c.opened.addAll (assumptions f pre)) f.symbols [none] (a.searchRounds f pre o) m
        value o₁ o₂ Δ := by
  obtain ⟨⟨⟩, t₀, h₀, hrun₀⟩ := Session.ok_of_bind hrun
  cases h₀
  obtain ⟨q, hbody, -⟩ := Session.inScope_ok hrun₀
  obtain ⟨⟨⟩, ⟨a₁, o₁⟩, hprepare, hbody₁⟩ := Session.ok_of_bind hbody
  have hpush := Faithful.reaches_push h
  obtain ⟨ha₁, Δ, hdeclared, hreaches⟩ := prepare_ok hpush.keeps hprepare
  obtain ⟨st, rfl⟩ : ∃ st, a₁ = { a.reset with stats := st } := ⟨_, ha₁⟩
  obtain ⟨w, t₂, h₂, hbody₂⟩ := Session.ok_of_bind hbody₁
  cases h₂
  obtain ⟨range', t₃, h₃, hbody₃⟩ := Session.ok_of_bind hbody₂
  cases h₃
  obtain ⟨m, t₄, h₄, hbody₄⟩ := Session.ok_of_bind hbody₃
  obtain ⟨hm, rfl⟩ := Session.ofExcept_ok h₄
  obtain ⟨⟨value, stats⟩, ⟨a₅, o₂⟩, hclimb, hbody₅⟩ := Session.ok_of_bind hbody₄
  obtain ⟨-, hclimbs⟩ := climb_ok hclimb
  cases hbody₅
  have hrange : Oracle.range o₁ = range := F.range_eq hreaches.keeps
  refine ⟨m, value, o₁, q, Δ, ?_, rfl, hreaches.sorts,
    ⟨hdeclared, hreaches.keeps, ⟨stats, hclimbs⟩, ?_⟩⟩
  · rw [← hrange]
    exact hm
  · simp only [searchRounds, hprepare, hm]

end Analyzer

end InvariantSynthesis
