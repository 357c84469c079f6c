import InvariantSynthesis.Oracle.Scripted
import InvariantSynthesis.Proofs.Analysis.Frame
import InvariantSynthesis.Proofs.BitSolver.Exact
import InvariantSynthesis.Proofs.Search.Ranking

/-!
Rounds with an oracle that cannot be relied on. Its answers may be wrong, its requests may fail and
its models may be models of nothing; only the numbers in them fit into 64 bits. A round that changes
the value lowers its height all the same, since this depends on the values that are read alone.
-/

namespace InvariantSynthesis

/-- From a good state on, an oracle shows no numbers outside 64 bits in the models of its positive
answers. Nothing is said about the answers. -/
structure Oracle.Bounded {σ : Type} [Oracle σ] (Good : σ → Prop) : Prop where
  declare : ∀ names {o}, Good o → Good ((Oracle.declare names : Request σ Unit) o).2
  assert : ∀ e {o}, Good o → Good ((Oracle.assert e : Request σ Unit) o).2
  push : ∀ {o}, Good o → Good (push o)
  pop : ∀ {o}, Good o → Good ((Oracle.pop : Request σ Unit) o).2
  check : ∀ {o}, Good o → Good ((Oracle.check : Request σ Answer) o).2
  fits : ∀ {o p m}, Good o → (Oracle.check : Request σ Answer) o = (.ok .sat, p) →
    model? p = some m → m.Fits

section frame

variable {σ : Type} [Oracle σ] {Good : σ → Prop} (hgood : Oracle.Bounded Good)

include hgood

theorem Oracle.Bounded.closeTo (level fuel : Nat) {o : σ} (ho : Good o) :
    Good (Oracle.closeTo level fuel o) := by
  induction fuel generalizing o with
  | zero => exact ho
  | succ fuel ih =>
    have hpop := hgood.pop ho
    rw [Oracle.closeTo]
    split
    · cases hrun : (Oracle.pop : Request σ Unit) o with
      | mk r p =>
        rw [hrun] at hpop
        cases r with
        | ok => exact ih hpop
        | error => exact hpop
    · exact ho

theorem Oracle.Bounded.frame : Oracle.Frame fun o p : σ => Good o → Good p where
  refl _ ho := ho
  trans h h' ho := h' (h ho)
  declare names _ ho := hgood.declare names ho
  assert e _ ho := hgood.assert e ho
  check _ ho := hgood.check ho
  scope h ho := hgood.closeTo _ _ (h (hgood.push ho))

omit [Oracle σ] hgood in
theorem Session.Respects.good {S α : Type} {body : Session S σ α}
    (h : body.Respects fun o p => Good o → Good p) {s s' : S} {o p : σ} {r : Except Error α}
    (hrun : body (s, o) = (r, (s', p))) (ho : Good o) : Good p := by
  have hp := h s o ho
  rw [hrun] at hp
  exact hp

variable {α β : Type} {e e' : Expr}

theorem Search.query_good {v : α} {stats : Statistics} {s : α × Statistics} {o q : σ} {a : Answer}
    (ho : Good o) (hrun : (Search.query e e' : Search α σ Answer) ((v, stats), o) = (.ok a, (s, q))) :
    s.1 = v ∧ ∃ p, Good p ∧ (Oracle.check : Request σ Answer) p = (.ok a, q) := by
  obtain ⟨⟨⟩, ⟨s₁, o₁⟩, h₁, hrun⟩ := Session.ok_of_bind hrun
  obtain ⟨⟨⟩, ⟨s₂, o₂⟩, h₂, hrun⟩ := Session.ok_of_bind hrun
  obtain ⟨⟨⟩, ⟨s₃, o₃⟩, h₃, hrun⟩ := Session.ok_of_bind hrun
  cases h₃
  have ho₁ := (Session.respects_assert hgood.frame e).good h₁ ho
  have ho₂ := (Session.respects_assert hgood.frame e').good h₂ ho₁
  obtain ⟨rfl, -⟩ := Session.request_ok h₁
  obtain ⟨rfl, -⟩ := Session.request_ok h₂
  obtain ⟨rfl, hcheck⟩ := Session.request_ok hrun
  exact ⟨rfl, o₂, ho₂, hcheck⟩

theorem Session.inScope_query_good {v : α} {stats : Statistics} {s : α × Statistics} {o p : σ}
    {f : Answer → Search α σ β} {b : β} (ho : Good o)
    (hrun : Session.inScope (Search.query e e' >>= f) ((v, stats), o) = (.ok b, (s, p))) :
    ∃ a t q q', f a ((v, t), q) = (.ok b, (s, q')) ∧
      (a = .sat → ∀ m, Oracle.model? q = some m → m.Fits) := by
  obtain ⟨q', hbody, -⟩ := Session.inScope_ok hrun
  obtain ⟨a, ⟨⟨u, t⟩, q⟩, hask, hrest⟩ := Session.ok_of_bind hbody
  obtain ⟨hu, r, hr, hcheck⟩ := Search.query_good hgood (hgood.push ho) hask
  obtain rfl : u = v := hu
  refine ⟨a, t, q, q', hrest, ?_⟩
  rintro rfl m hm
  exact hgood.fits hr hcheck hm

namespace Domain

theorem enumerate_step {d : Domain} (hd : d.Descends) {focus : Option Nat} {v v' : d.Value}
    {stats stats' : Statistics} {o p : σ} {b : Bool} (ho : Good o) (hs : d.Sane v)
    (hrun : d.enumerate focus ((v, stats), o) = (.ok b, ((v', stats'), p))) : d.Step v b v' := by
  rw [enumerate_eq] at hrun
  split at hrun
  · cases hrun
    exact .of_eq hs rfl
  · obtain ⟨a, t, q, q', hrest, hfits⟩ := Session.inScope_query_good hgood ho hrun
    obtain ⟨-, ⟨-, ht, rfl⟩ | ⟨ha, m, hm, hall⟩⟩ := improving_ok hrest
    · cases ht
      exact .of_eq hs rfl
    · exact hd (hfits ha m hm) hs hall

end Domain

namespace TemplateDomain

omit hgood in
theorem settle_ge {r : TemplateRow} {assumption : Expr} {fuel : Nat} {lower upper best : Int}
    {s t : List RowValue × Statistics} {o p : σ}
    (hrun : settle r assumption fuel lower upper (s, o) = (.ok best, (t, p))) : lower ≤ best := by
  induction fuel generalizing lower upper s o with
  | zero =>
    cases hrun
    exact Int.le_refl _
  | succ fuel ih =>
    rw [settle] at hrun
    split at hrun
    · rename_i hlt
      obtain ⟨mid, u, hfit, hrun⟩ := Session.ok_of_bind hrun
      obtain ⟨hmid, rfl⟩ := fitting_ok hfit
      obtain ⟨result, ⟨u, q⟩, hreach, hrun⟩ := Session.ok_of_bind hrun
      have hmem := midpoint?_mem hmid hlt
      cases result with
      | none =>
        obtain ⟨upper', u'', hupper, hrun⟩ := Session.ok_of_bind hrun
        exact ih hrun
      | some k =>
        have hbest := ih hrun
        omega
    · cases hrun
      exact Int.le_refl _

theorem witness_fits {d : TemplateDomain} {conds : List (Nat × Expr)} {v : List RowValue}
    {stats : Statistics} {s : List RowValue × Statistics} {o p : σ} {i : Nat} {k : Int} (ho : Good o)
    (hrun : d.witness v conds ((v, stats), o) = (.ok (some (i, k)), (s, p))) : Bounded.Fits k := by
  rw [witness_eq] at hrun
  obtain ⟨a, t, q, q', hrest, hfits⟩ := Session.inScope_query_good hgood ho hrun
  obtain ⟨-, -, ⟨-, hnone⟩ | ⟨ha, m, hm, hfound⟩⟩ := picking_ok hrest
  · cases hnone
  · split at hfound
    · cases hfound
    · obtain ⟨r, k', -, hk, hsome⟩ := hfound
      cases hsome
      exact Model.fits_of_evalInt (hfits ha m hm) hk

theorem bisect_step {d : TemplateDomain} {focus : Option Nat} {v v' : List RowValue}
    {stats stats' : Statistics} {o p : σ} {b : Bool} (ho : Good o)
    (hrun : d.bisect focus ((v, stats), o) = (.ok b, ((v', stats'), p))) :
    (Domain.template d).Step v b v' := by
  rw [bisect_eq] at hrun
  split at hrun
  · cases hrun
    exact .of_eq trivial rfl
  obtain ⟨result, ⟨s, q⟩, hwitness, hrun⟩ := Session.ok_of_bind hrun
  cases result with
  | none =>
    rw [witness_eq] at hwitness
    obtain ⟨a, t, q₀, q', hpick, -⟩ := Session.inScope_query_good hgood ho hwitness
    obtain ⟨-, rfl, -⟩ := picking_ok hpick
    cases hrun
    exact .of_eq trivial rfl
  | some found =>
    obtain ⟨i, lower⟩ := found
    have hlower := witness_fits hgood ho hwitness
    obtain ⟨r, t₁, -, hrun₁⟩ := Session.ok_of_bind hrun
    obtain ⟨best, t₂, hsettle, hrun₂⟩ := Session.ok_of_bind hrun₁
    obtain ⟨⟨changed, v₁⟩, t₃, hraise, hrun₃⟩ := Session.ok_of_bind hrun₂
    obtain ⟨hraised, rfl⟩ := Session.ofExcept_ok hraise
    cases hrun₃
    exact raise_step (Int.le_trans hlower.1 (settle_ge hsettle)) hraised

end TemplateDomain

namespace Method

variable {m : Method}

theorem round_step (hd : m.domain.Descends) {focus : Option Nat} {v v' : m.domain.Value}
    {stats stats' : Statistics} {o p : σ} {b : Bool} (ho : Good o) (hs : m.domain.Sane v)
    (hrun : m.round focus ((v, stats), o) = (.ok b, ((v', stats'), p))) : m.domain.Step v b v' := by
  cases m with
  | enumeration d => exact Domain.enumerate_step hgood hd ho hs hrun
  | bisection d => exact TemplateDomain.bisect_step hgood ho hrun

theorem pass_step_good (hd : m.domain.Descends) {foci : List (Option Nat)} {v v' : m.domain.Value}
    {stats stats' : Statistics} {o p : σ} {b : Bool} (ho : Good o) (hs : m.domain.Sane v)
    (hrun : Verifier.pass m foci ((v, stats), o) = (.ok b, ((v', stats'), p))) :
    m.domain.Step v b v' := by
  induction foci generalizing o v stats b with
  | nil =>
    cases hrun
    exact .of_eq hs rfl
  | cons focus rest ih =>
    obtain ⟨changed, ⟨⟨w, t⟩, q⟩, hround, hrun⟩ := Session.ok_of_bind hrun
    obtain ⟨more, ⟨⟨w', t'⟩, q'⟩, hrest, hrun⟩ := Session.ok_of_bind hrun
    cases hrun
    have hq := (m.round_congr hgood.frame.congruence focus).good hround ho
    have hstep := round_step hgood hd ho hs hround
    exact hstep.trans (ih hq hstep.sane hrest)

end Method

end frame

section oracles

theorem BitSolver.bounded {width : Nat} (hmin : 2 ≤ width) (hmax : width ≤ 32) :
    Oracle.Bounded fun s : BitSolver => s.width = width ∧ ∃ c, s.Keeps c where
  declare names := by
    rintro s ⟨hw, c, h⟩
    have hg := (declare_runs h.valid names).grows
    exact ⟨hg.width.trans hw, c, h.later hg⟩
  assert e := by
    rintro s ⟨hw, c, h⟩
    show (BitSolver.assert e s).2.width = width ∧ ∃ c, (BitSolver.assert e s).2.Keeps c
    rcases h.assert e with ⟨t, hrun, hk, ha⟩ | ⟨err, t, hrun, hk, ha⟩ <;> rw [hrun] <;>
      exact ⟨ha.width.trans hw, _, hk⟩
  push := by
    rintro s ⟨hw, c, h⟩
    exact ⟨hw, _, h.push⟩
  pop := by
    rintro s ⟨hw, c, h⟩
    show (BitSolver.pop s).2.width = width ∧ ∃ c, (BitSolver.pop s).2.Keeps c
    rcases h.pop with ⟨t, hrun, -, hk, ha, -⟩ | ⟨hrun, -⟩ <;> rw [hrun]
    · exact ⟨ha.width.trans hw, _, hk⟩
    · exact ⟨hw, c, h⟩
  check := by
    rintro s ⟨hw, c, h⟩
    obtain ⟨a, t, hrun, hk, ha, -⟩ := h.check
    show (BitSolver.check s).2.width = width ∧ ∃ c, (BitSolver.check s).2.Keeps c
    rw [hrun]
    exact ⟨ha.width.trans hw, c, hk⟩
  fits := by
    rintro s t m ⟨hw, c, h⟩ hrun hm
    exact ((faithful hmin hmax).sat ⟨h, rfl, hw⟩ hrun hm).fits (faithful hmin hmax).bounded

theorem Model.Fits.restrict {m : Model} (h : m.Fits) (keep : String → Bool) :
    (m.restrict keep).Fits := by
  intro n k hk
  rw [get?_restrict] at hk
  split at hk
  · exact h n k hk
  · cases hk

namespace Scripted

variable {σ : Type} [Oracle σ] {Good : σ → Prop}

theorem inner_ask (s : Scripted σ) :
    (ask s).2.inner = ((Oracle.check : Request σ Answer) s.inner).2 := by
  show (observe _).inner = _
  rw [observe]
  split <;> rfl

theorem check_eq (s : Scripted σ) :
    check s = (match s.script.failing with
      | some (k, d) => if s.checks + 1 = k then disrupt d else ask
      | none => ask : Request (Scripted σ) Answer)
        { s with model := none, checks := s.checks + 1 } :=
  rfl

theorem pop_eq (s : Scripted σ) :
    pop s = (if s.script.failingPop = some (s.pops + 1) then throw (.internal "scripted pop")
      else forget >>= fun _ => forward Oracle.pop : Request (Scripted σ) Unit)
        { s with pops := s.pops + 1 } :=
  rfl

theorem lowers (h : Oracle.Lowers σ) : Oracle.Lowers (Scripted σ) := by
  intro s t hpop
  have hpop : pop s = (.ok (), t) := hpop
  rw [pop_eq] at hpop
  split at hpop
  · cases hpop
  · have hpop : forward Oracle.pop { s with pops := s.pops + 1, model := none } = (.ok (), t) := hpop
    cases hinner : (Oracle.pop : Request σ Unit) s.inner with
    | mk a inner =>
      simp only [forward, hinner] at hpop
      cases hpop
      exact h s.inner inner hinner

theorem check_cases (s : Scripted σ) :
    (∃ d, check s = disrupt d { s with model := none, checks := s.checks + 1 }) ∨
      check s = ask { s with model := none, checks := s.checks + 1 } := by
  have hcheck := check_eq s
  cases hfailing : s.script.failing with
  | none =>
    rw [hfailing] at hcheck
    exact .inr hcheck
  | some failing =>
    rw [hfailing] at hcheck
    dsimp only at hcheck
    split at hcheck
    · exact .inl ⟨_, hcheck⟩
    · exact .inr hcheck

/-- Whatever the script, the models show numbers of the inner oracle's models only. -/
theorem bounded (hgood : Oracle.Bounded Good) :
    Oracle.Bounded fun s : Scripted σ => Good s.inner where
  declare names := by
    intro s hs
    show Good ((if s.script.silent = true then pure () else forward (Oracle.declare names) :
      Request (Scripted σ) Unit) s).2.inner
    split
    · exact hs
    · exact hgood.declare names hs
  assert e := by
    intro s hs
    exact hgood.assert e hs
  push := fun hs => hgood.push hs
  pop := by
    intro s hs
    show Good (pop s).2.inner
    rw [pop_eq]
    split
    · exact hs
    · exact hgood.pop hs
  check := by
    intro s hs
    show Good (check s).2.inner
    rcases check_cases s with ⟨d, hcheck⟩ | hcheck <;> rw [hcheck]
    · cases d <;> exact hs
    · rw [inner_ask]
      exact hgood.check hs
  fits := by
    intro s t m hs hrun hm
    have hrun : check s = (.ok .sat, t) := hrun
    have hm : t.model = some m := hm
    rcases check_cases s with ⟨d, hcheck⟩ | hcheck <;> rw [hcheck] at hrun
    · -- a check that goes wrong leaves no model
      cases d <;> cases hrun
      cases hm
    · cases hinner : (Oracle.check : Request σ Answer) s.inner with
      | mk a inner =>
        simp only [ask, forward, hinner] at hrun
        cases hrun
        rw [observe] at hm
        split at hm
        · rename_i m' hm'
          cases hm
          exact (hgood.fits hs hinner hm').restrict _
        · cases hm

end Scripted

end oracles

theorem Method.domain_of_config {config : Config} {s : LoopSystem} {range : Int × Int} {m : Method}
    (h : ofConfig config s range = .ok m) :
    m.domain.Relational ∨ (∃ d, m.domain = .ranking d) ∨
      ∃ d conds, m.domain = .paths d conds ∧ d.Relational := by
  rw [ofConfig] at h
  split at h
  · obtain ⟨d, -, h⟩ := Except.exists_of_bind_ok h
    cases h
    exact .inr (.inl ⟨d, rfl⟩)
  · obtain ⟨d, -, h⟩ := Except.exists_of_bind_ok h
    cases h
    exact .inl trivial
  · obtain ⟨d, -, h⟩ := Except.exists_of_bind_ok h
    cases h
    exact .inl trivial
  · cases h
    exact .inl trivial
  · rename_i shape paths hconfig
    obtain ⟨d, -, h⟩ := Except.exists_of_bind_ok h
    cases paths with
    | true =>
      cases h
      exact .inr (.inr ⟨_, _, rfl, trivial, trivial⟩)
    | false =>
      cases h
      exact .inl ⟨trivial, trivial⟩
  · obtain ⟨d, -, h⟩ := Except.exists_of_bind_ok h
    cases h
    exact .inl trivial
  · obtain ⟨d, -, h⟩ := Except.exists_of_bind_ok h
    cases h
    exact .inl trivial

/-- Whatever is configured, models lower the height of values. -/
theorem Method.descends_of_config {config : Config} {s : LoopSystem} {range : Int × Int} {m : Method}
    (h : ofConfig config s range = .ok m) : m.domain.Descends := by
  rcases domain_of_config h with hrelational | ⟨d, hd⟩ | ⟨d, conds, hd, hrelational⟩
  · exact @Domain.Unranked.descends _ hrelational.unranked
  · rw [hd]
    exact @RankingDomain.descends d
  · rw [hd]
    exact @Domain.Unranked.descends (.paths d conds) hrelational.unranked

end InvariantSynthesis
