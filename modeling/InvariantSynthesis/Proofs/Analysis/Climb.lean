import InvariantSynthesis.Analysis.Verifier
import InvariantSynthesis.Proofs.Search.Round

namespace InvariantSynthesis

theorem Verifier.pass_one {σ : Type} [Oracle σ] (m : Method) (focus : Option Nat) :
    (pass m [focus] : Search m.domain.Value σ Bool) = m.round focus := by
  funext s
  rw [pass]
  cases hround : m.round focus s with
  | mk x t =>
    cases x with
    | ok changed => exact Session.bind_ok hround
    | error e => exact Session.bind_error hround

namespace Method

variable {σ : Type} [Oracle σ]

def rounds (m : Method) : List (Option Nat) → (m.domain.Value × Statistics) × σ → List (Round σ)
  | [], _ => []
  | focus :: rest, (s, o) =>
    ⟨m, focus, s.1, s.2, o⟩ ::
      match m.round focus (s, o) with
      | (.ok _, t) => rounds m rest t
      | (.error _, _) => []

def climbRounds (m : Method) (foci : List (Option Nat)) :
    Nat → (m.domain.Value × Statistics) × σ → List (Round σ)
  | 0, _ => []
  | fuel + 1, s =>
    m.rounds foci s ++
      match Verifier.pass m foci s with
      | (.ok true, t) => climbRounds m foci fuel t
      | _ => []

/-- Passes are repeated until one changes nothing or the fuel is used up. -/
inductive Climbs (m : Method) (foci : List (Option Nat)) :
    Nat → (m.domain.Value × Statistics) × σ → (m.domain.Value × Statistics) × σ → Prop
  | exhausted (s) : Climbs m foci 0 s s
  | last {fuel s t} : Verifier.pass m foci s = (.ok false, t) → Climbs m foci (fuel + 1) s t
  | next {fuel s t u} : Verifier.pass m foci s = (.ok true, t) → Climbs m foci fuel t u →
      Climbs m foci (fuel + 1) s u

variable {m : Method} {foci : List (Option Nat)} {range : Int × Int} {F : Faithful σ range}
  {c : Scopes} {Γ : Sorts} {o p : σ} {v v' : m.domain.Value} {stats stats' : Statistics} {b : Bool}

theorem reaches_pass {s s' : m.domain.Value × Statistics} (h : F.Keeps o c Γ)
    (hrun : Verifier.pass m foci (s, o) = (.ok b, (s', p))) : ∃ Δ, F.Reaches o Γ p c Δ := by
  induction foci generalizing o Γ s b with
  | nil =>
    cases hrun
    exact ⟨Γ, .refl h⟩
  | cons focus rest ih =>
    obtain ⟨changed, ⟨t, q⟩, hround, hrun⟩ := Session.ok_of_bind hrun
    obtain ⟨more, ⟨t', q'⟩, hrest, hrun⟩ := Session.ok_of_bind hrun
    cases hrun
    obtain ⟨Δ, hreaches⟩ := Round.reaches_outcome (r := ⟨m, focus, s.1, s.2, o⟩) h hround
    obtain ⟨Θ, hreaches'⟩ := ih hreaches.keeps hrest
    exact ⟨Θ, hreaches.trans hreaches'⟩

theorem Climbs.reaches {fuel : Nat} {s s' : (m.domain.Value × Statistics) × σ}
    (hclimbs : m.Climbs foci fuel s s') (h : F.Keeps s.2 c Γ) :
    ∃ Δ, F.Reaches s.2 Γ s'.2 c Δ := by
  induction hclimbs generalizing Γ with
  | exhausted => exact ⟨Γ, .refl h⟩
  | last hrun => exact reaches_pass h hrun
  | next hrun _ ih =>
    obtain ⟨Δ, hreaches⟩ := reaches_pass h hrun
    obtain ⟨Θ, hreaches'⟩ := ih hreaches.keeps
    exact ⟨Θ, hreaches.trans hreaches'⟩

theorem pass_invariant {P : m.domain.Value → Prop} {Δ : Sorts}
    (hround : ∀ {focus o Δ v stats b s p}, F.Keeps o c Δ → Γ.Extends Δ → P v →
      m.round focus ((v, stats), o) = (.ok b, (s, p)) → P s.1)
    (h : F.Keeps o c Δ) (hΓ : Γ.Extends Δ) (hv : P v)
    (hrun : Verifier.pass m foci ((v, stats), o) = (.ok b, ((v', stats'), p))) : P v' := by
  induction foci generalizing o Δ v stats b with
  | nil =>
    cases hrun
    exact hv
  | cons focus rest ih =>
    obtain ⟨changed, ⟨⟨w, t⟩, q⟩, hfirst, hrun⟩ := Session.ok_of_bind hrun
    obtain ⟨more, ⟨⟨w', t'⟩, q'⟩, hrest, hrun⟩ := Session.ok_of_bind hrun
    cases hrun
    obtain ⟨Θ, hreaches⟩ := Round.reaches_outcome (r := ⟨m, focus, v, stats, o⟩) h hfirst
    exact ih hreaches.keeps (hΓ.trans hreaches.sorts) (hround h hΓ hv hfirst) hrest

theorem Climbs.invariant {P : m.domain.Value → Prop} {Δ : Sorts} {fuel : Nat}
    {s s' : (m.domain.Value × Statistics) × σ} (hclimbs : m.Climbs foci fuel s s')
    (hround : ∀ {focus o Δ v stats b s p}, F.Keeps o c Δ → Γ.Extends Δ → P v →
      m.round focus ((v, stats), o) = (.ok b, (s, p)) → P s.1)
    (h : F.Keeps s.2 c Δ) (hΓ : Γ.Extends Δ) (hv : P s.1.1) : P s'.1.1 := by
  induction hclimbs generalizing Δ with
  | exhausted => exact hv
  | last hrun => exact pass_invariant hround h hΓ hv hrun
  | next hrun _ ih =>
    obtain ⟨Θ, hreaches⟩ := reaches_pass h hrun
    exact ih hreaches.keeps (hΓ.trans hreaches.sorts) (pass_invariant hround h hΓ hv hrun)

theorem pass_step (hd : m.domain.Descends) (h : F.Keeps o c Γ) (hs : m.domain.Sane v)
    (hrun : Verifier.pass m foci ((v, stats), o) = (.ok b, ((v', stats'), p))) :
    m.domain.Step v b v' := by
  induction foci generalizing o Γ v stats b with
  | nil =>
    cases hrun
    exact .of_eq hs rfl
  | cons focus rest ih =>
    obtain ⟨changed, ⟨⟨w, t⟩, q⟩, hround, hrun⟩ := Session.ok_of_bind hrun
    obtain ⟨more, ⟨⟨w', t'⟩, q'⟩, hrest, hrun⟩ := Session.ok_of_bind hrun
    cases hrun
    obtain ⟨Δ, hreaches⟩ := Round.reaches_outcome (r := ⟨m, focus, v, stats, o⟩) h hround
    have hstep := (Round.outcome_ok (r := ⟨m, focus, v, stats, o⟩) h hd hs hround).1
    exact hstep.trans (ih hreaches.keeps hstep.sane hrest)

/-- One of some rounds had a focus and left a value as it was. -/
def Rests (m : Method) (F : Faithful σ range) (c : Scopes) (Γ : Sorts) (v : m.domain.Value)
    (p : σ) (rounds : List (Round σ)) (focus : Option Nat) : Prop :=
  ∃ stats o s q Δ, Γ.Extends Δ ∧ F.Keeps o c Δ ∧ F.Later q p ∧ ⟨m, focus, v, stats, o⟩ ∈ rounds ∧
    m.round focus ((v, stats), o) = (.ok false, (s, q))

theorem Rests.mono {q : σ} {Δ : Sorts} {rounds rounds' : List (Round σ)} {focus : Option Nat}
    (h : m.Rests F c Δ v p rounds focus) (hΓ : Γ.Extends Δ) (hlater : F.Later p q)
    (hrounds : ∀ r ∈ rounds, r ∈ rounds') : m.Rests F c Γ v q rounds' focus := by
  obtain ⟨stats, o, s, q', Θ, hΔ, hkeeps, hq', hmem, hrun⟩ := h
  exact ⟨stats, o, s, q', Θ, hΓ.trans hΔ, hkeeps, F.later_trans hq' hlater, hrounds _ hmem, hrun⟩

theorem pass_rests (hd : m.domain.Descends) (h : F.Keeps o c Γ) (hs : m.domain.Sane v)
    (hrun : Verifier.pass m foci ((v, stats), o) = (.ok false, ((v', stats'), p))) :
    ∀ focus ∈ foci, m.Rests F c Γ v p (m.rounds foci ((v, stats), o)) focus := by
  induction foci generalizing o Γ stats with
  | nil =>
    intro focus hfocus
    cases hfocus
  | cons focus rest ih =>
    obtain ⟨changed, ⟨⟨w, t⟩, q⟩, hround, hrun⟩ := Session.ok_of_bind hrun
    obtain ⟨more, ⟨⟨w', t'⟩, q'⟩, hrest, hrun⟩ := Session.ok_of_bind hrun
    obtain ⟨hb, hstate⟩ := Prod.mk.inj hrun
    obtain ⟨hmore, hchanged⟩ := Bool.or_eq_false_iff.mp (Except.ok.inj hb)
    subst hmore hchanged
    cases hstate
    have hrounds : m.rounds (focus :: rest) ((v, stats), o) =
        ⟨m, focus, v, stats, o⟩ :: m.rounds rest ((w, t), q) := by
      rw [rounds, hround]
    rw [hrounds]
    obtain ⟨Δ, hreaches⟩ := Round.reaches_outcome (r := ⟨m, focus, v, stats, o⟩) h hround
    have hstep := (Round.outcome_ok (r := ⟨m, focus, v, stats, o⟩) h hd hs hround).1
    have hsame : w = v := hstep.same rfl
    subst hsame
    obtain ⟨Θ, hreaches'⟩ := reaches_pass hreaches.keeps hrest
    intro f hf
    rcases List.mem_cons.mp hf with rfl | hf
    · exact ⟨stats, o, _, q, Γ, .refl Γ, h, hreaches'.later, List.mem_cons_self, hround⟩
    · exact (ih hreaches.keeps hrest f hf).mono hreaches.sorts (F.later_refl _)
        fun r hr => List.mem_cons_of_mem _ hr

/-- The height bounds the number of passes, and the last one leaves the value as it is. -/
theorem Climbs.rests {fuel : Nat} (hd : m.domain.Descends)
    (hclimbs : m.Climbs foci fuel ((v, stats), o) ((v', stats'), p)) (hfuel : m.domain.height v < fuel)
    (h : F.Keeps o c Γ) (hs : m.domain.Sane v) :
    m.domain.Sane v' ∧
      ∀ focus ∈ foci, m.Rests F c Γ v' p (m.climbRounds foci fuel ((v, stats), o)) focus := by
  generalize hstart : ((v, stats), o) = start at *
  generalize hend : ((v', stats'), p) = final at *
  induction hclimbs generalizing v stats o Γ with
  | exhausted => exact absurd hfuel (Nat.not_lt_zero _)
  | @last fuel s t hrun =>
    subst hstart hend
    have hsame : v' = v := (pass_step hd h hs hrun).same rfl
    subst hsame
    refine ⟨hs, fun focus hfocus => ?_⟩
    exact (pass_rests hd h hs hrun focus hfocus).mono (.refl Γ) (F.later_refl p)
      fun r hr => List.mem_append_left _ hr
  | @next fuel s t u hrun hrest ih =>
    subst hstart hend
    obtain ⟨⟨w, t⟩, q⟩ := t
    obtain ⟨Δ, hreaches⟩ := reaches_pass h hrun
    have hstep := pass_step hd h hs hrun
    have hlower := hstep.lower rfl
    obtain ⟨hsane, hrests⟩ := ih (by omega) hreaches.keeps hstep.sane rfl rfl
    refine ⟨hsane, fun focus hfocus => ?_⟩
    refine (hrests focus hfocus).mono hreaches.sorts (F.later_refl p) fun r hr => ?_
    rw [climbRounds, hrun]
    exact List.mem_append_right _ hr

/-- What is asked about a value for a focus is denied, in one of some rounds. -/
def Denies (m : Method) (F : Faithful σ range) (c : Scopes) (Γ : Sorts) (v : m.domain.Value)
    (p : σ) (rounds : List (Round σ)) (focus : Option Nat) : Prop :=
  ∃ stats o Δ, Γ.Extends Δ ∧ ⟨m, focus, v, stats, o⟩ ∈ rounds ∧
    (m.domain.conditions v focus = [] ∨
      ∃ a q, F.Later q p ∧ Round.Denied ⟨m, focus, v, stats, o⟩ F c Δ a q)

theorem Rests.denies {rounds : List (Round σ)} {focus : Option Nat}
    (h : m.Rests F c Γ v p rounds focus) (hd : m.domain.Descends) (hs : m.domain.Sane v)
    (hr : m.domain.Roomy v) (hover : ∀ r ∈ rounds, r.overflows = false) :
    m.Denies F c Γ v p rounds focus := by
  obtain ⟨stats, o, s, q, Δ, hΓ, hkeeps, hq, hmem, hrun⟩ := h
  have hdenied := (Round.outcome_ok (r := ⟨m, focus, v, stats, o⟩) hkeeps hd hs hrun).2
  refine ⟨stats, o, Δ, hΓ, hmem, (hdenied rfl hr (hover _ hmem)).imp_right ?_⟩
  rintro ⟨a, ha⟩
  exact ⟨a, q, hq, ha⟩

end Method

namespace Domain

/-- No condition in focus can hold under the value's assumption. -/
def Closed (d : Domain) (v : d.Value) (focus : Option Nat) (context : List Expr) (Γ : Sorts)
    (range : Int × Int) : Prop :=
  ∀ ρ : Valuation, ρ.Typed Γ range → (∀ e ∈ context, e.holds ρ = true) →
    (d.pre v).holds ρ = true → ∀ e ∈ d.conditions v focus, e.2.holds ρ = false

end Domain

section closed

variable {σ : Type} [Oracle σ] {range : Int × Int} {F : Faithful σ range} {c : Scopes} {Γ Δ : Sorts}
  {p : σ}

theorem Round.Denied.closed {r : Round σ} (h : r.Denied F c Δ .unsat p) (hΓ : Γ.Extends Δ) :
    r.method.domain.Closed r.value r.focus c.live Γ range := by
  intro ρ hρ hcontext hpre e he
  obtain ⟨q, Θ, -, hasked⟩ := h.asked
  obtain ⟨p', -, hkeeps, hcheck⟩ := hasked.answer
  obtain ⟨x, hx, hfalse⟩ :=
    Faithful.unsat_typed hkeeps (hΓ.trans hasked.reaches.sorts) hcheck hρ
  rcases List.mem_cons.mp hx with rfl | hx
  · rw [Expr.holds_disj, List.any_eq_false] at hfalse
    simpa using hfalse e.2 (List.mem_map.mpr ⟨e, he, rfl⟩)
  · rcases List.mem_cons.mp hx with rfl | hx
    · exact absurd (hpre.symm.trans hfalse) (by simp)
    · exact absurd ((hcontext x hx).symm.trans hfalse) (by simp)

variable {m : Method} {v : m.domain.Value} {focus : Option Nat} {rounds : List (Round σ)}

theorem Method.Denies.closed (h : m.Denies F c Δ v p rounds focus) (hΓ : Γ.Extends Δ)
    (hknown : ∀ r ∈ rounds, r.unknown = false) :
    m.domain.Closed v focus c.live Γ range := by
  obtain ⟨stats, o, Θ, hΔ, hmem, hnone | ⟨a, q, -, hdenied⟩⟩ := h
  · intro ρ _ _ _ e he
    rw [hnone] at he
    cases he
  · cases a with
    | sat => exact absurd rfl hdenied.negative
    | unsat => exact hdenied.closed (hΓ.trans hΔ)
    | unknown reason =>
      intro ρ _ _ _ e he
      have hknown := hknown _ hmem
      simp only [Round.unknown, hdenied.answer, Bool.and_true, Bool.not_eq_eq_eq_not,
        Bool.not_false, List.isEmpty_iff] at hknown
      have he' : e ∈ (⟨m, focus, v, stats, o⟩ : Round σ).conditions := he
      rw [hknown] at he'
      cases he'

/-- If the oracle knows an answer later on, it has known them all. -/
theorem Method.Denies.closed_of_later (h : m.Denies F c Δ v p rounds focus) (hΓ : Γ.Extends Δ)
    (hsteady : F.Steady) {a a' : σ} {c' : Scopes} {Γ' : Sorts} (hlater : F.Later p a)
    (hkeeps : F.Keeps a c' Γ') (hcheck : (Oracle.check : Request σ Answer) a = (.ok .unsat, a')) :
    m.domain.Closed v focus c.live Γ range := by
  obtain ⟨stats, o, Θ, hΔ, -, hnone | ⟨answer, q, hq, hdenied⟩⟩ := h
  · intro ρ _ _ _ e he
    rw [hnone] at he
    cases he
  · cases answer with
    | sat => exact absurd rfl hdenied.negative
    | unsat => exact hdenied.closed (hΓ.trans hΔ)
    | unknown reason =>
      obtain ⟨q', Θ', hq', hasked⟩ := hdenied.asked
      obtain ⟨p', -, hkeeps', hcheck'⟩ := hasked.answer
      have hlater' : F.Later p' a := F.later_trans (F.check hkeeps' hcheck').1
        (F.later_trans hq' (F.later_trans hq hlater))
      obtain ⟨reason', hreason⟩ := hsteady hkeeps' hcheck' hlater' hkeeps hcheck
      cases hreason

end closed

end InvariantSynthesis
