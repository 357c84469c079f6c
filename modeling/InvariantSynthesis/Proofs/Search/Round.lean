import InvariantSynthesis.Proofs.Domain.Improvement
import InvariantSynthesis.Proofs.Oracle.Reach
import Mathlib.Data.List.TakeWhile

/-!
One round of improvement. A round asks one question about the current value: whether, under the
value's assumption, a condition can hold. It lowers the height of the value or leaves the value as
it is; and it leaves the value as it is only if there was nothing to ask or the answer was not
positive, unless a number left 64 bits when the model was read.
-/

namespace InvariantSynthesis

/-- A round that is about to start. -/
structure Round (σ : Type) where
  method : Method
  focus : Option Nat
  value : method.domain.Value
  stats : Statistics
  oracle : σ

/-- The conditions that are evaluated in a model until one is found to be true. -/
def Model.tried (m : Model) (conds : List (Nat × Expr)) : List Expr :=
  (conds.map (·.2)).takeWhile (fun c => m.evalBool c ≠ some true)

theorem Model.Satisfies.imp {m : Model} {range : Int × Int} {Γ : Sorts} {es es' : List Expr}
    (h : m.Satisfies range Γ es) (hes : ∀ e ∈ es', e ∈ es) : m.Satisfies range Γ es' :=
  ⟨h.within, h.known, fun e he => h.holds e (hes e he)⟩

namespace Round

variable {σ : Type} [Oracle σ]

def assumption (r : Round σ) : Expr := r.method.domain.pre r.value

def conditions (r : Round σ) : List (Nat × Expr) := r.method.domain.conditions r.value r.focus

/-- The question of the round, in a scope of its own. -/
def question (r : Round σ) :
    Except Error Answer × ((r.method.domain.Value × Statistics) × σ) :=
  Search.ask r.assumption r.conditions ((r.value, r.stats), Oracle.push r.oracle)

def outcome (r : Round σ) : Except Error Bool × ((r.method.domain.Value × Statistics) × σ) :=
  r.method.round r.focus ((r.value, r.stats), r.oracle)

/-- The oracle does not know the answer. -/
def unknown (r : Round σ) : Bool :=
  !r.conditions.isEmpty &&
    match r.question.1 with
    | .ok (.unknown _) => true
    | _ => false

/-- A number leaves 64 bits when a condition is evaluated in the model of a positive answer. -/
def overflows (r : Round σ) : Bool :=
  match r.question with
  | (.ok .sat, (_, o)) => (Oracle.model? o).any fun m => (m.tried r.conditions).any m.overflows
  | _ => false

end Round

section query

variable {σ α β : Type} [Oracle σ] {range : Int × Int} {F : Faithful σ range} {o p q : σ} {c : Scopes}
  {Γ : Sorts} {e e' : Expr} {a : Answer}

/-- Ask whether two expressions can hold together with what is asserted. -/
def Search.query (e e' : Expr) : Search α σ Answer := do
  Session.assert e
  Session.assert e'
  Search.check

/-- The answer is about the assertions that were there and two more. -/
structure Faithful.Asked (F : Faithful σ range) (o : σ) (c : Scopes) (Γ : Sorts) (e e' : Expr)
    (a : Answer) (q : σ) (Δ : Sorts) : Prop where
  reaches : F.Reaches o Γ q ((c.add e).add e') Δ
  answer : ∃ p, F.Later o p ∧ F.Keeps p ((c.add e).add e') Δ ∧
    (Oracle.check : Request σ Answer) p = (.ok a, q)

theorem Search.query_ok {v : α} {stats : Statistics} {s : α × Statistics} (h : F.Keeps o c Γ)
    (hrun : (Search.query e e' : Search α σ Answer) ((v, stats), o) = (.ok a, (s, q))) :
    s.1 = v ∧ ∃ Δ, F.Asked o c Γ e e' a q Δ := by
  obtain ⟨⟨⟩, ⟨s₁, o₁⟩, h₁, hrun⟩ := Session.ok_of_bind hrun
  obtain ⟨⟨⟩, ⟨s₂, o₂⟩, h₂, hrun⟩ := Session.ok_of_bind hrun
  obtain ⟨⟨⟩, ⟨s₃, o₃⟩, h₃, hrun⟩ := Session.ok_of_bind hrun
  cases h₃
  obtain ⟨rfl, Δ₁, hr₁⟩ := Faithful.reaches_assert h h₁
  obtain ⟨rfl, Δ₂, hr₂⟩ := Faithful.reaches_assert hr₁.keeps h₂
  obtain ⟨rfl, hcheck⟩ := Session.request_ok hrun
  have hr := hr₁.trans hr₂
  exact ⟨rfl, Δ₂, hr.trans (Faithful.reaches_check hr.keeps hcheck), o₂, hr.later, hr.keeps, hcheck⟩

theorem Session.inScope_query {v : α} {stats : Statistics} {s : α × Statistics}
    {f : Answer → Search α σ β} {b : β} (h : F.Keeps o c Γ)
    (hf : ∀ {a b s q t r}, f a (s, q) = (.ok b, (t, r)) → r = q)
    (hrun : Session.inScope (Search.query e e' >>= f) ((v, stats), o) = (.ok b, (s, p))) :
    ∃ a t q Δ, (Search.query e e' : Search α σ Answer) ((v, stats), Oracle.push o) =
        (.ok a, ((v, t), q)) ∧
      F.Asked (Oracle.push o) c.opened Γ e e' a q Δ ∧
      f a ((v, t), q) = (.ok b, (s, q)) ∧ F.Reaches o Γ p c Δ ∧ F.Later q p := by
  obtain ⟨q, hbody, rfl⟩ := Session.inScope_ok hrun
  obtain ⟨a, ⟨⟨u, t⟩, q'⟩, hask, hrest⟩ := Session.ok_of_bind hbody
  have hpush := Faithful.reaches_push h
  obtain ⟨hu, Δ, hasked⟩ := Search.query_ok hpush.keeps hask
  obtain rfl : u = v := hu
  obtain rfl : q = q' := hf hrest
  have hrelease := Faithful.reaches_release h rfl rfl hasked.reaches.keeps
  exact ⟨a, t, q, Δ, hask, hasked, hrest, (hpush.trans hasked.reaches).trans hrelease, hrelease.later⟩

theorem Faithful.Asked.satisfies {Δ : Sorts} {m : Model} (h : F.Asked o c Γ e e' .sat q Δ)
    (hm : Oracle.model? q = some m) : m.Satisfies range Δ (e' :: e :: c.live) := by
  obtain ⟨p, -, hkeeps, hcheck⟩ := h.answer
  exact F.sat hkeeps hcheck hm

theorem Faithful.Asked.fits {Δ : Sorts} (h : F.Asked o c Γ e e' a q Δ) :
    ∀ x ∈ e' :: e :: c.live, Δ.Fits x :=
  F.fits h.reaches.keeps

end query

namespace Domain

variable {σ : Type} [Oracle σ] {d : Domain} {m : Model} {o p : σ} {stats stats' : Statistics}
  {v v' : d.Value} {b : Bool}

theorem improve_ok {row : Nat}
    (h : d.improve m row ((v, stats), o) = (.ok b, ((v', stats'), p))) :
    d.edit o m row (v, stats) = (.ok b, (v', stats')) ∧ p = o := by
  cases hrun : d.edit o m row (v, stats) with
  | mk r s =>
    simp only [improve, hrun] at h
    cases h
    exact ⟨rfl, rfl⟩

theorem improveAll_oracle {conds : List (Nat × Expr)} {s t : d.Value × Statistics}
    (h : d.improveAll m conds (s, o) = (.ok b, (t, p))) : p = o := by
  induction conds generalizing s b o with
  | nil =>
    cases h
    rfl
  | cons rc rest ih =>
    rw [improveAll] at h
    split at h
    · obtain ⟨changed, ⟨⟨w, u⟩, q⟩, hrun, h⟩ := Session.ok_of_bind h
      obtain ⟨more, ⟨⟨w', u'⟩, q'⟩, hrest, h⟩ := Session.ok_of_bind h
      cases h
      rw [ih hrest, (improve_ok hrun).2]
    · exact ih h

theorem improveAll_step (hd : d.Unranked) (hm : m.Fits) {conds : List (Nat × Expr)} (hs : d.Sane v)
    (h : d.improveAll m conds ((v, stats), o) = (.ok b, ((v', stats'), p))) : d.Step v b v' := by
  induction conds generalizing v stats b o with
  | nil =>
    cases h
    exact .of_eq hs rfl
  | cons rc rest ih =>
    rw [improveAll] at h
    split at h
    · obtain ⟨changed, ⟨⟨w, t⟩, q⟩, hrun, h⟩ := Session.ok_of_bind h
      obtain ⟨more, ⟨⟨u, t'⟩, q'⟩, hrest, h⟩ := Session.ok_of_bind h
      cases h
      have hstep := edit_step hd hm hs (improve_ok hrun).1
      exact hstep.trans (ih hstep.sane hrest)
    · exact ih hs h

theorem improveAll_invariant {P : d.Value → Prop} {conds : List (Nat × Expr)}
    (hedit : ∀ {row c u u' t t' changed}, (row, c) ∈ conds → m.evalBool c = some true → P u →
      d.edit o m row (u, t) = (.ok changed, (u', t')) → P u')
    (hv : P v) (h : d.improveAll m conds ((v, stats), o) = (.ok b, ((v', stats'), p))) : P v' := by
  induction conds generalizing v stats b with
  | nil =>
    cases h
    exact hv
  | cons rc rest ih =>
    rw [improveAll] at h
    split at h
    · rename_i heval
      obtain ⟨changed, ⟨⟨w, t⟩, q⟩, hrun, h⟩ := Session.ok_of_bind h
      obtain ⟨more, ⟨⟨u, t'⟩, q'⟩, hmore, h⟩ := Session.ok_of_bind h
      cases h
      obtain ⟨hrun, rfl⟩ := improve_ok hrun
      exact ih (fun hmem => hedit (List.mem_cons_of_mem _ hmem))
        (hedit List.mem_cons_self heval hv hrun) hmore
    · exact ih (fun hmem => hedit (List.mem_cons_of_mem _ hmem)) hv h

/-- Improving a value by a model of its conditions lowers its height. -/
def Descends (d : Domain) : Prop :=
  ∀ {σ : Type} [Oracle σ] {m : Model} {focus : Option Nat} {v v' : d.Value}
    {stats stats' : Statistics} {b : Bool} {o p : σ}, m.Fits → d.Sane v →
    d.improveAll m (d.conditions v focus) ((v, stats), o) = (.ok b, ((v', stats'), p)) → d.Step v b v'

theorem Unranked.descends (hd : d.Unranked) : d.Descends :=
  fun hm hs h => improveAll_step hd hm hs h

theorem improveAll_changes {focus : Option Nat} {conds : List (Nat × Expr)} (hs : d.Sane v)
    (hr : d.Roomy v) (hconds : ∀ c ∈ conds, c ∈ d.conditions v focus)
    (htrue : ∃ c ∈ conds, m.evalBool c.2 = some true)
    (h : d.improveAll m conds ((v, stats), o) = (.ok b, ((v', stats'), p))) : b = true := by
  induction conds generalizing stats with
  | nil =>
    obtain ⟨c, hc, -⟩ := htrue
    cases hc
  | cons rc rest ih =>
    obtain ⟨row, c⟩ := rc
    rw [improveAll] at h
    split at h
    · rename_i heval
      obtain ⟨changed, ⟨⟨w, t⟩, q⟩, hrun, h⟩ := Session.ok_of_bind h
      obtain ⟨more, ⟨⟨u, t'⟩, q'⟩, hrest, h⟩ := Session.ok_of_bind h
      cases h
      have hedit := (improve_ok hrun).1
      rw [edit_changes hs hr (hconds _ List.mem_cons_self) heval hedit, Bool.or_true]
    · rename_i hfalse
      obtain ⟨e, he, heval⟩ := htrue
      rcases List.mem_cons.mp he with rfl | he
      · exact absurd heval hfalse
      · exact ih (fun x hx => hconds x (List.mem_cons_of_mem _ hx)) ⟨e, he, heval⟩ h

def improving (d : Domain) (conds : List (Nat × Expr)) : Answer → Search d.Value σ Bool
  | .unsat | .unknown _ => return false
  | .sat => do d.improveAll (← Session.requireModel) conds

theorem enumerate_eq (d : Domain) (focus : Option Nat) (v : d.Value) (stats : Statistics) (o : σ) :
    d.enumerate focus ((v, stats), o) =
      if (d.conditions v focus).isEmpty then (.ok false, ((v, stats), o))
      else Session.inScope (Search.query (d.pre v) (.disj ((d.conditions v focus).map (·.2))) >>=
        d.improving (d.conditions v focus)) ((v, stats), o) := by
  have hvalue : Search.value ((v, stats), o) = (.ok v, ((v, stats), o)) := rfl
  rw [enumerate, Session.bind_ok hvalue]
  split
  · rfl
  · congr 2

theorem improving_ok {conds : List (Nat × Expr)} {a : Answer} {s t : d.Value × Statistics}
    (h : d.improving conds a (s, o) = (.ok b, (t, p))) :
    p = o ∧ ((a ≠ .sat ∧ t = s ∧ b = false) ∨ a = .sat ∧ ∃ m, Oracle.model? o = some m ∧
      d.improveAll m conds (s, o) = (.ok b, (t, o))) := by
  cases a with
  | unsat | unknown =>
    cases h
    exact ⟨rfl, .inl ⟨by simp, rfl, rfl⟩⟩
  | sat =>
    obtain ⟨m, u, hmodel, h⟩ := Session.ok_of_bind h
    obtain ⟨hm, rfl⟩ := Session.requireModel_ok hmodel
    obtain rfl := improveAll_oracle h
    exact ⟨rfl, .inr ⟨rfl, m, hm, h⟩⟩

theorem enumerate_ok {range : Int × Int} {F : Faithful σ range} {c : Scopes} {Γ : Sorts}
    {focus : Option Nat} {s : d.Value × Statistics} (h : F.Keeps o c Γ)
    (hrun : d.enumerate focus ((v, stats), o) = (.ok b, (s, p))) :
    (d.conditions v focus = [] ∧ s.1 = v ∧ b = false ∧ p = o) ∨
    ∃ a t q Δ, (Search.ask (d.pre v) (d.conditions v focus) : Search d.Value σ Answer)
        ((v, stats), Oracle.push o) = (.ok a, ((v, t), q)) ∧
      F.Asked (Oracle.push o) c.opened Γ (d.pre v) (.disj ((d.conditions v focus).map (·.2))) a q Δ ∧
      F.Reaches o Γ p c Δ ∧ F.Later q p ∧
      ((a ≠ .sat ∧ s.1 = v ∧ b = false) ∨ a = .sat ∧ ∃ m, Oracle.model? q = some m ∧
        d.improveAll m (d.conditions v focus) ((v, t), q) = (.ok b, (s, q))) := by
  rw [enumerate_eq] at hrun
  split at hrun
  · rename_i hempty
    cases hrun
    exact .inl ⟨List.isEmpty_iff.mp hempty, rfl, rfl, rfl⟩
  · obtain ⟨a, t, q, Δ, hask, hasked, hrest, hreaches, hlater⟩ :=
      Session.inScope_query h (fun hf => (improving_ok hf).1) hrun
    refine .inr ⟨a, t, q, Δ, hask, hasked, hreaches, hlater, ?_⟩
    rcases (improving_ok hrest).2 with ⟨ha, rfl, rfl⟩ | hsat
    · exact .inl ⟨ha, rfl, rfl⟩
    · exact .inr hsat

theorem enumerate_invariant {range : Int × Int} {F : Faithful σ range} {c : Scopes} {Γ : Sorts}
    {focus : Option Nat} {s : d.Value × Statistics} {P : d.Value → Prop} (h : F.Keeps o c Γ)
    (hedit : ∀ {m Δ row e u u' t t' changed} {q : σ}, Γ.Extends Δ →
      (∀ x ∈ d.pre v :: c.live, Δ.Fits x) → m.Satisfies range Δ (d.pre v :: c.live) →
      (row, e) ∈ d.conditions v focus → m.evalBool e = some true → P u →
      d.edit q m row (u, t) = (.ok changed, (u', t')) → P u')
    (hv : P v) (hrun : d.enumerate focus ((v, stats), o) = (.ok b, (s, p))) : P s.1 := by
  obtain ⟨-, hs, -, -⟩ | ⟨a, t, q, Δ, -, hasked, -, -, hrest⟩ := enumerate_ok h hrun
  · rw [hs]
    exact hv
  obtain ⟨-, hs, -⟩ | ⟨rfl, m, hm, hall⟩ := hrest
  · rw [hs]
    exact hv
  · have hsat := (hasked.satisfies hm).imp fun e he => List.mem_cons_of_mem _ he
    have hfits := fun x hx => hasked.fits x (List.mem_cons_of_mem _ hx)
    exact improveAll_invariant (fun hmem heval hu hedited =>
      hedit hasked.reaches.sorts hfits hsat hmem heval hu hedited) hv hall

end Domain

section bisection

variable {σ : Type} {range : Int × Int} {o p : σ} {Γ Δ : Sorts} {stats : Statistics}

/-- A state in which the assertions hold ends the row's loop with this value. -/
def TemplateRow.Attains (r : TemplateRow) (range : Int × Int) (Γ : Sorts) (es : List Expr)
    (k : Int) : Prop :=
  ∃ m Δ, Γ.Extends Δ ∧ (∀ e ∈ es, Δ.Fits e) ∧ Model.Satisfies m range Δ es ∧
    r.loop.postGuard.holds m.valuation = true ∧ m.evalInt r.post = some k

theorem TemplateRow.Attains.extend {r : TemplateRow} {es : List Expr} {k : Int}
    (h : r.Attains range Δ es k) (hΓ : Γ.Extends Δ) : r.Attains range Γ es k := by
  obtain ⟨m, Θ, hΔ, hrest⟩ := h
  exact ⟨m, Θ, hΓ.trans hΔ, hrest⟩

theorem TemplateRow.guard_of_improvement {r : TemplateRow} {x : RowValue} {e : Expr} {ρ : Valuation}
    (he : r.improvement? x = some e) (h : e.holds ρ = true) : r.loop.postGuard.holds ρ = true := by
  cases x with
  | bottom =>
    cases he
    exact h
  | bound b =>
    cases he
    simp only [Expr.holds_conj, List.all_cons, Bool.and_eq_true] at h
    exact h.1
  | top => cases he

namespace TemplateDomain

theorem fitting_ok {S : Type} {x : Option Int} {k : Int} {s t : S × σ}
    (h : (fitting x : Session S σ Int) s = (.ok k, t)) : x = some k ∧ t = s := by
  cases x with
  | none => cases h
  | some j =>
    cases h
    exact ⟨rfl, rfl⟩

variable [Oracle σ] {F : Faithful σ range} {c : Scopes}

def reading (r : TemplateRow) : Answer → Search (List RowValue) σ (Option Int)
  | .sat => do return some (← Session.ofExcept (r.postValue (← Session.requireModel)))
  | .unsat | .unknown _ => return none

theorem reaches_eq (r : TemplateRow) (assumption : Expr) (bound : Int) :
    (reaches r assumption bound : Search (List RowValue) σ (Option Int)) =
      fitting (Bounded.sub? bound 1) >>= fun b =>
        Session.inScope (Search.query assumption (.conj [r.loop.postGuard, .exceeds r.post (.int b)])
          >>= reading r) := by
  simp only [reaches, TemplateRow.improvement?, Search.query, bind_assoc]
  rfl

theorem reading_ok {r : TemplateRow} {a : Answer} {result : Option Int}
    {s t : List RowValue × Statistics} (h : reading r a (s, o) = (.ok result, (t, p))) :
    p = o ∧ t = s ∧ ∀ k, result = some k →
      a = .sat ∧ ∃ m, Oracle.model? o = some m ∧ m.evalInt r.post = some k := by
  cases a with
  | unsat | unknown =>
    cases h
    exact ⟨rfl, rfl, nofun⟩
  | sat =>
    obtain ⟨m, u, hmodel, h⟩ := Session.ok_of_bind h
    obtain ⟨hm, rfl⟩ := Session.requireModel_ok hmodel
    obtain ⟨j, w, hread, h⟩ := Session.ok_of_bind h
    obtain ⟨hj, rfl⟩ := Session.ofExcept_ok hread
    cases h
    refine ⟨rfl, rfl, fun k hk => ?_⟩
    cases hk
    exact ⟨rfl, m, hm, Model.requireInt_ok hj⟩

theorem reaches_ok {r : TemplateRow} {assumption : Expr} {bound : Int} {result : Option Int}
    {v : List RowValue} {s : List RowValue × Statistics} (h : F.Keeps o c Γ)
    (hrun : reaches r assumption bound ((v, stats), o) = (.ok result, (s, p))) :
    s.1 = v ∧ (∃ Δ, F.Reaches o Γ p c Δ) ∧
      ∀ k, result = some k → bound ≤ k ∧ r.Attains range Γ (assumption :: c.live) k := by
  rw [reaches_eq] at hrun
  obtain ⟨b, t, hfit, hrun⟩ := Session.ok_of_bind hrun
  obtain ⟨hb, rfl⟩ := fitting_ok hfit
  obtain ⟨a, st, q, Δ, -, hasked, hrest, hreaches, -⟩ :=
    Session.inScope_query h (fun hf => (reading_ok hf).1) hrun
  obtain ⟨-, rfl, hread⟩ := reading_ok hrest
  refine ⟨rfl, ⟨Δ, hreaches⟩, fun k hk => ?_⟩
  obtain ⟨rfl, m, hm, hvalue⟩ := hread k hk
  have hsat := hasked.satisfies hm
  have himproves := Expr.holds_both.mp (hsat.holds _ List.mem_cons_self)
  rw [Expr.holds_exceeds, Model.number_of_evalInt hvalue, Expr.number_int] at himproves
  have hbound : bound - 1 = b := (Bounded.check_eq_some.mp hb).1
  refine ⟨by omega, m, Δ, hreaches.sorts, ?_, ?_, himproves.1, hvalue⟩
  · exact fun e he => hasked.fits e (List.mem_cons_of_mem _ he)
  · exact hsat.imp fun e he => List.mem_cons_of_mem _ he

theorem midpoint?_mem {lower upper mid : Int} (h : midpoint? lower upper = some mid)
    (hlt : lower < upper) : lower < mid ∧ mid ≤ upper := by
  simp only [midpoint?, Option.bind_eq_bind, Option.bind_eq_some_iff] at h
  obtain ⟨diff, hdiff, width, hwidth, hmid⟩ := h
  have h₁ := (Bounded.check_eq_some.mp hdiff).1
  have h₂ := (Bounded.check_eq_some.mp hwidth).1
  have h₃ := (Bounded.check_eq_some.mp hmid).1
  omega

theorem settle_ok {r : TemplateRow} {assumption : Expr} {fuel : Nat} {lower upper best : Int}
    {v : List RowValue} {s : List RowValue × Statistics} (h : F.Keeps o c Γ)
    (hrun : settle r assumption fuel lower upper ((v, stats), o) = (.ok best, (s, p))) :
    s.1 = v ∧ (∃ Δ, F.Reaches o Γ p c Δ) ∧ lower ≤ best ∧
      (best = lower ∨ r.Attains range Γ (assumption :: c.live) best) := by
  induction fuel generalizing o Γ stats lower upper with
  | zero =>
    cases hrun
    exact ⟨rfl, ⟨Γ, .refl h⟩, Int.le_refl _, .inl rfl⟩
  | succ fuel ih =>
    rw [settle] at hrun
    split at hrun
    · rename_i hlt
      obtain ⟨mid, t, hfit, hrun⟩ := Session.ok_of_bind hrun
      obtain ⟨hmid, rfl⟩ := fitting_ok hfit
      obtain ⟨result, ⟨⟨w, t⟩, q⟩, hreach, hrun⟩ := Session.ok_of_bind hrun
      obtain ⟨hw, ⟨Δ, hreaches⟩, hattains⟩ := reaches_ok h hreach
      obtain rfl : w = v := hw
      have hmem := midpoint?_mem hmid hlt
      cases result with
      | none =>
        obtain ⟨upper', t', hupper, hrun⟩ := Session.ok_of_bind hrun
        obtain ⟨-, rfl⟩ := fitting_ok hupper
        obtain ⟨hs, ⟨Θ, hreaches'⟩, hle, hbest⟩ := ih hreaches.keeps hrun
        refine ⟨hs, ⟨Θ, hreaches.trans hreaches'⟩, hle, ?_⟩
        exact hbest.imp_right fun hb => hb.extend hreaches.sorts
      | some k =>
        obtain ⟨hk, hattained⟩ := hattains k rfl
        obtain ⟨hs, ⟨Θ, hreaches'⟩, hle, hbest⟩ := ih hreaches.keeps hrun
        have hmax : max k mid = k := by omega
        rw [hmax] at hle hbest
        refine ⟨hs, ⟨Θ, hreaches.trans hreaches'⟩, by omega, .inr ?_⟩
        rcases hbest with rfl | hb
        · exact hattained
        · exact hb.extend hreaches.sorts
    · cases hrun
      exact ⟨rfl, ⟨Γ, .refl h⟩, Int.le_refl _, .inl rfl⟩

def picking (d : TemplateDomain) (conds : List (Nat × Expr)) :
    Answer → Search (List RowValue) σ (Option (Nat × Int))
  | .unsat | .unknown _ => return none
  | .sat => do
    let m ← Session.requireModel
    match conds.find? (fun (_, c) => m.evalBool c = some true) with
    | none => return none
    | some (i, _) => return some (i, ← Session.ofExcept (do (← d.row i).postValue m))

theorem witness_eq (d : TemplateDomain) (v : List RowValue) (conds : List (Nat × Expr)) :
    (d.witness v conds : Search (List RowValue) σ (Option (Nat × Int))) =
      Session.inScope (Search.query (d.pre v) (.disj (conds.map (·.2))) >>= d.picking conds) := by
  rw [witness]
  congr 2

theorem picking_ok {d : TemplateDomain} {conds : List (Nat × Expr)} {a : Answer}
    {result : Option (Nat × Int)} {s t : List RowValue × Statistics}
    (h : d.picking conds a (s, o) = (.ok result, (t, p))) :
    p = o ∧ t = s ∧ ((a ≠ .sat ∧ result = none) ∨ a = .sat ∧ ∃ m, Oracle.model? o = some m ∧
      match conds.find? (fun (_, c) => m.evalBool c = some true) with
      | none => result = none
      | some (i, _) => ∃ r k, d.rows[i]? = some r ∧ m.evalInt r.post = some k ∧
          result = some (i, k)) := by
  cases a with
  | unsat | unknown =>
    cases h
    exact ⟨rfl, rfl, .inl ⟨by simp, rfl⟩⟩
  | sat =>
    obtain ⟨m, u, hmodel, h⟩ := Session.ok_of_bind h
    obtain ⟨hm, rfl⟩ := Session.requireModel_ok hmodel
    cases hfind : conds.find? (fun (_, c) => m.evalBool c = some true) with
    | none =>
      simp only [hfind] at h
      cases h
      exact ⟨rfl, rfl, .inr ⟨rfl, m, hm, by rw [hfind]⟩⟩
    | some ic =>
      obtain ⟨i, e⟩ := ic
      simp only [hfind] at h
      obtain ⟨k, w, hread, h⟩ := Session.ok_of_bind h
      obtain ⟨hvalue, rfl⟩ := Session.ofExcept_ok hread
      obtain ⟨r, hr, hk⟩ := Except.exists_of_bind_ok hvalue
      cases h
      refine ⟨rfl, rfl, .inr ⟨rfl, m, hm, ?_⟩⟩
      rw [hfind]
      exact ⟨r, k, row_ok.mp hr, Model.requireInt_ok hk, rfl⟩

theorem bisect_eq (d : TemplateDomain) (focus : Option Nat) (v : List RowValue) (stats : Statistics)
    (o : σ) : d.bisect focus ((v, stats), o) =
      if (d.conditions v focus).isEmpty then (.ok false, ((v, stats), o))
      else (d.witness v (d.conditions v focus) >>= fun
        | none => pure false
        | some (i, lower) => do
          let r ← Session.ofExcept (d.row i)
          let best ← settle r (d.pre v) (d.rowMax r - lower).toNat lower (d.rowMax r)
          let (changed, value) ← Session.ofExcept (d.raise v i best)
          Session.update (fun (_, stats) => (value, stats))
          return changed) ((v, stats), o) := by
  rw [bisect, Session.bind_ok (show Search.value ((v, stats), o) = (.ok v, ((v, stats), o)) from rfl)]
  split
  · rfl
  · congr 1

theorem attains_of_asked {d : TemplateDomain} {focus : Option Nat} {v : List RowValue} {q : σ}
    {e' : Expr} {m : Model} {i : Nat} {e : Expr} {r : TemplateRow} {k : Int}
    (hasked : F.Asked o c.opened Γ (d.pre v) e' .sat q Δ) (hm : Oracle.model? q = some m)
    (hmem : (i, e) ∈ d.conditions v focus) (heval : m.evalBool e = some true)
    (hr : d.rows[i]? = some r) (hk : m.evalInt r.post = some k) :
    r.Attains range Γ (d.pre v :: c.live) k := by
  obtain ⟨r', x, hr', -, -, he⟩ := mem_conditions.mp hmem
  cases hr.symm.trans hr'
  refine ⟨m, Δ, hasked.reaches.sorts, fun e he => hasked.fits e (List.mem_cons_of_mem _ he),
    (hasked.satisfies hm).imp fun e he => List.mem_cons_of_mem _ he, ?_, hk⟩
  exact TemplateRow.guard_of_improvement he (Model.holds_of_evalBool heval)

/-- A round of bisection has no conditions or raises a row to a value that is attained. -/
theorem bisect_ok {d : TemplateDomain} {focus : Option Nat} {v : List RowValue} {b : Bool}
    {s : List RowValue × Statistics} (h : F.Keeps o c Γ)
    (hrun : d.bisect focus ((v, stats), o) = (.ok b, (s, p))) :
    (d.conditions v focus = [] ∧ s.1 = v ∧ b = false ∧ p = o) ∨
    ∃ a t q Δ, (Search.ask (d.pre v) (d.conditions v focus) : Search (List RowValue) σ Answer)
        ((v, stats), Oracle.push o) = (.ok a, ((v, t), q)) ∧
      F.Asked (Oracle.push o) c.opened Γ (d.pre v) (.disj ((d.conditions v focus).map (·.2))) a q Δ ∧
      (∃ Θ, F.Reaches o Γ p c Θ) ∧ F.Later q p ∧
      ((a ≠ .sat ∧ s.1 = v ∧ b = false) ∨ a = .sat ∧ ∃ m, Oracle.model? q = some m ∧
        match (d.conditions v focus).find? (fun (_, e) => m.evalBool e = some true) with
        | none => s.1 = v ∧ b = false
        | some (i, _) => ∃ r k best, d.rows[i]? = some r ∧ m.evalInt r.post = some k ∧ k ≤ best ∧
            r.Attains range Γ (d.pre v :: c.live) best ∧ d.raise v i best = .ok (b, s.1)) := by
  rw [bisect_eq] at hrun
  split at hrun
  · rename_i hempty
    cases hrun
    exact .inl ⟨List.isEmpty_iff.mp hempty, rfl, rfl, rfl⟩
  right
  obtain ⟨result, ⟨w, p₁⟩, hwitness, hrun⟩ := Session.ok_of_bind hrun
  rw [witness_eq] at hwitness
  obtain ⟨a, t, q, Δ, hask, hasked, hpick, hreaches, hlater⟩ :=
    Session.inScope_query h (fun hf => (picking_ok hf).1) hwitness
  obtain ⟨-, rfl, ⟨ha, rfl⟩ | ⟨rfl, m, hm, hfound⟩⟩ := picking_ok hpick
  · cases hrun
    exact ⟨a, t, q, Δ, hask, hasked, ⟨Δ, hreaches⟩, hlater, .inl ⟨ha, rfl, rfl⟩⟩
  cases hfind : (d.conditions v focus).find? (fun (_, e) => m.evalBool e = some true) with
  | none =>
    rw [hfind] at hfound
    subst hfound
    cases hrun
    refine ⟨.sat, t, q, Δ, hask, hasked, ⟨Δ, hreaches⟩, hlater, .inr ⟨rfl, m, hm, ?_⟩⟩
    rw [hfind]
    exact ⟨rfl, rfl⟩
  | some ie =>
    obtain ⟨i, e⟩ := ie
    rw [hfind] at hfound
    obtain ⟨r, k, hr, hk, rfl⟩ := hfound
    obtain ⟨r', w₁, hread, hrun⟩ := Session.ok_of_bind hrun
    obtain ⟨hrow, rfl⟩ := Session.ofExcept_ok hread
    obtain rfl : r = r' := Option.some.inj (hr.symm.trans (row_ok.mp hrow))
    obtain ⟨best, ⟨⟨v₁, t₁⟩, q₁⟩, hsettle, hrun⟩ := Session.ok_of_bind hrun
    obtain ⟨hv₁, ⟨Θ, hreaches'⟩, hle, hbest⟩ := settle_ok hreaches.keeps hsettle
    obtain rfl : v₁ = v := hv₁
    obtain ⟨⟨changed, v'⟩, w₂, hraise, hrun⟩ := Session.ok_of_bind hrun
    obtain ⟨hraised, rfl⟩ := Session.ofExcept_ok hraise
    cases hrun
    refine ⟨.sat, t, q, Δ, hask, hasked, ⟨Θ, hreaches.trans hreaches'⟩,
      F.later_trans hlater hreaches'.later, .inr ⟨rfl, m, hm, ?_⟩⟩
    rw [hfind]
    refine ⟨r, k, best, hr, hk, hle, ?_, hraised⟩
    -- Narrowing may end where it began, with the value that the model shows.
    rcases hbest with rfl | hattains
    · have heval : m.evalBool e = some true := by simpa using List.find?_some hfind
      exact attains_of_asked hasked hm (List.mem_of_find?_eq_some hfind) heval hr hk
    · exact hattains.extend hreaches.sorts

end TemplateDomain

end bisection

theorem Model.overflows_of_holds {m : Model} {range : Int × Int} {Δ : Sorts} {es : List Expr}
    {conds : List (Nat × Expr)} (hfits : Δ.Fits (.disj (conds.map (·.2))))
    (hsat : m.Satisfies range Δ (.disj (conds.map (·.2)) :: es))
    (hnone : ∀ c ∈ conds, m.evalBool c.2 ≠ some true) :
    (∃ c ∈ conds, c.2.holds m.valuation = true) ∧
      ∀ c ∈ conds, c.2.holds m.valuation = true → m.overflows c.2 = true := by
  have hholds := hsat.holds _ List.mem_cons_self
  rw [Expr.holds_disj, List.any_map, List.any_eq_true] at hholds
  refine ⟨hholds, fun c hc htrue => ?_⟩
  rcases Sorts.fits_of_disj hfits with hmem | hconds
  · obtain ⟨c', hc', heq⟩ := List.mem_map.mp hmem
    exact absurd (by rw [heq]; rfl) (hnone c' hc')
  · rcases hconds c.2 (List.mem_map_of_mem hc) with hfalse | hfit
    · rw [hfalse] at htrue
      cases htrue
    · apply Classical.byContradiction
      intro hover
      refine hnone c hc ?_
      rw [evalBool_isSome hfit.sort (fun p hp => hsat.known p.1 p.2 (hfit.known p hp))
        (by simpa using hover), htrue]

/-- A model of a disjunction makes a condition true when it is evaluated, unless a number leaves 64
bits before. -/
theorem Model.exists_true {m : Model} {range : Int × Int} {Δ : Sorts} {es : List Expr}
    {conds : List (Nat × Expr)} (hfits : Δ.Fits (.disj (conds.map (·.2))))
    (hsat : m.Satisfies range Δ (.disj (conds.map (·.2)) :: es))
    (hover : (m.tried conds).any m.overflows = false) :
    ∃ c ∈ conds, m.evalBool c.2 = some true := by
  apply Classical.byContradiction
  intro hnone
  have hall : ∀ c ∈ conds, m.evalBool c.2 ≠ some true := fun c hc heval => hnone ⟨c, hc, heval⟩
  have htried : m.tried conds = conds.map (·.2) := by
    refine List.takeWhile_eq_self_iff.mpr fun e he => ?_
    obtain ⟨c, hc, rfl⟩ := List.mem_map.mp he
    simpa using hall c hc
  rw [htried, List.any_eq_false] at hover
  obtain ⟨⟨c, hc, htrue⟩, hoverflows⟩ := overflows_of_holds hfits hsat hall
  exact hover c.2 (List.mem_map_of_mem hc) (hoverflows c hc htrue)

namespace Round

variable {σ : Type} [Oracle σ] {range : Int × Int} {F : Faithful σ range} {c : Scopes} {Γ : Sorts}

/-- The question of the round was answered, and not positively. -/
structure Denied (r : Round σ) (F : Faithful σ range) (c : Scopes) (Γ : Sorts) (a : Answer) (p : σ) :
    Prop where
  answer : r.question.1 = .ok a
  negative : a ≠ .sat
  asked : ∃ q Δ, F.Later q p ∧
    F.Asked (Oracle.push r.oracle) c.opened Γ r.assumption (.disj (r.conditions.map (·.2))) a q Δ

theorem Denied.of_ask {r : Round σ} {a : Answer} {t : Statistics} {q p : σ} {Δ : Sorts}
    (hask : r.question = (.ok a, ((r.value, t), q))) (ha : a ≠ .sat)
    (hasked : F.Asked (Oracle.push r.oracle) c.opened Γ r.assumption
      (.disj (r.conditions.map (·.2))) a q Δ) (hlater : F.Later q p) : r.Denied F c Γ a p :=
  ⟨by rw [hask], ha, q, Δ, hlater, hasked⟩

theorem exists_true {r : Round σ} {t : Statistics} {q : σ} {Δ : Sorts} {m : Model}
    (hask : r.question = (.ok .sat, ((r.value, t), q)))
    (hasked : F.Asked (Oracle.push r.oracle) c.opened Γ r.assumption
      (.disj (r.conditions.map (·.2))) .sat q Δ) (hm : Oracle.model? q = some m)
    (hover : r.overflows = false) : ∃ e ∈ r.conditions, m.evalBool e.2 = some true := by
  refine Model.exists_true (hasked.fits _ List.mem_cons_self) (hasked.satisfies hm) ?_
  simpa [overflows, hask, hm] using hover

theorem Faithful.Asked.model_fits {o q : σ} {Δ : Sorts} {e e' : Expr} {m : Model}
    (h : F.Asked o c Γ e e' .sat q Δ) (hm : Oracle.model? q = some m) : m.Fits :=
  (h.satisfies hm).fits F.bounded

theorem reaches_outcome {r : Round σ} {b : Bool} {s : r.method.domain.Value × Statistics} {p : σ}
    (h : F.Keeps r.oracle c Γ) (hrun : r.outcome = (.ok b, (s, p))) :
    ∃ Δ, F.Reaches r.oracle Γ p c Δ := by
  obtain ⟨method, focus, v, st, o⟩ := r
  cases method with
  | enumeration d =>
    obtain ⟨-, -, -, rfl⟩ | ⟨a, t, q, Δ, -, -, hreaches, -, -⟩ := Domain.enumerate_ok h hrun
    · exact ⟨Γ, .refl h⟩
    · exact ⟨Δ, hreaches⟩
  | bisection d =>
    obtain ⟨-, -, -, rfl⟩ | ⟨a, t, q, Δ, -, -, hreaches, -, -⟩ := TemplateDomain.bisect_ok h hrun
    · exact ⟨Γ, .refl h⟩
    · exact hreaches

/-- A round lowers the height, or it changes nothing. In this case it had nothing to ask or no
positive answer. -/
theorem outcome_ok {r : Round σ} {b : Bool} {v' : r.method.domain.Value} {stats : Statistics} {p : σ}
    (h : F.Keeps r.oracle c Γ) (hd : r.method.domain.Descends) (hs : r.method.domain.Sane r.value)
    (hrun : r.outcome = (.ok b, ((v', stats), p))) :
    r.method.domain.Step r.value b v' ∧
      (b = false → r.method.domain.Roomy r.value → r.overflows = false →
        r.conditions = [] ∨ ∃ a, r.Denied F c Γ a p) := by
  obtain ⟨method, focus, v, st, o⟩ := r
  cases method with
  | enumeration d =>
    obtain ⟨hnone, hv, rfl, -⟩ | ⟨a, t, q, Δ, hask, hasked, -, hlater, hrest⟩ :=
      Domain.enumerate_ok h hrun
    · exact ⟨.of_eq hs hv, fun _ _ _ => .inl hnone⟩
    obtain ⟨ha, hv, rfl⟩ | ⟨rfl, m, hm, hall⟩ := hrest
    · exact ⟨.of_eq hs hv, fun _ _ _ => .inr ⟨a, .of_ask hask ha hasked hlater⟩⟩
    · refine ⟨hd (Faithful.Asked.model_fits hasked hm) hs hall, ?_⟩
      intro hb hr hover
      have htrue := exists_true (r := ⟨.enumeration d, focus, v, st, o⟩) hask hasked hm hover
      rw [Domain.improveAll_changes hs hr (fun c hc => hc) htrue hall] at hb
      cases hb
  | bisection d =>
    obtain ⟨hnone, hv, rfl, -⟩ | ⟨a, t, q, Δ, hask, hasked, -, hlater, hrest⟩ :=
      TemplateDomain.bisect_ok h hrun
    · exact ⟨.of_eq hs hv, fun _ _ _ => .inl hnone⟩
    obtain ⟨ha, hv, rfl⟩ | ⟨rfl, m, hm, hfound⟩ := hrest
    · exact ⟨.of_eq hs hv, fun _ _ _ => .inr ⟨a, .of_ask hask ha hasked hlater⟩⟩
    have hfits := Faithful.Asked.model_fits hasked hm
    cases hfind : (d.conditions v focus).find? (fun (_, e) => m.evalBool e = some true) with
    | none =>
      rw [hfind] at hfound
      obtain ⟨hv, rfl⟩ := hfound
      refine ⟨.of_eq hs hv, fun _ _ hover => ?_⟩
      -- Where no evaluation overflows, some condition is true in the model.
      obtain ⟨e, he, heval⟩ := exists_true (r := ⟨.bisection d, focus, v, st, o⟩) hask hasked hm hover
      exact absurd heval (by simpa using List.find?_eq_none.mp hfind e he)
    | some ie =>
      obtain ⟨i, e⟩ := ie
      rw [hfind] at hfound
      obtain ⟨r, k, best, hr, hk, hle, -, hraise⟩ := hfound
      have hleast := Int.le_trans (Model.fits_of_evalInt hfits hk).1 hle
      refine ⟨TemplateDomain.raise_step hleast hraise, fun hb _ _ => ?_⟩
      have heval : m.evalBool e = some true := by simpa using List.find?_some hfind
      have hchanged := TemplateDomain.raise_changes (List.mem_of_find?_eq_some hfind)
        (Model.holds_of_evalBool heval) hr (by rwa [Model.number_of_evalInt hk]) hraise
      rw [hchanged] at hb
      cases hb

end Round

end InvariantSynthesis
