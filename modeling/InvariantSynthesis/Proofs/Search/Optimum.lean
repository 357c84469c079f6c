import InvariantSynthesis.Proofs.Analysis.Morphism
import InvariantSynthesis.Proofs.BitSolver.Exact
import InvariantSynthesis.Proofs.Oracle.Recorded
import InvariantSynthesis.Proofs.Search.Round
import Mathlib.Data.Int.LeastGreatest
import Mathlib.Order.Bounds.Basic

namespace InvariantSynthesis

section models

variable {m : Model} {range : Int × Int} {Γ Δ : Sorts} {es : List Expr} {e : Expr}

/-- A model as a valuation that gives known variables values of their sorts. -/
def Model.completed (m : Model) (Γ : Sorts) : Valuation := fun n s =>
  (m.get? n).getD ((Γ n).getD s).default

theorem Model.reads_completed (m : Model) (Γ : Sorts) : m.Reads (m.completed Γ) := by
  intro n s v h
  rw [completed, h, Option.getD_some]

theorem Model.Satisfies.typed_completed (h : m.Satisfies range Δ es)
    (hzero : range.1 ≤ 0 ∧ 0 ≤ range.2) (hknown : ∀ n v, m.get? n = some v → Γ n = some v.sort) :
    (m.completed Γ).Typed Γ range := by
  intro n s
  cases hv : m.get? n with
  | none =>
    rw [completed, hv, Option.getD_none]
    exact ValueSort.default_within _ hzero
  | some v =>
    rw [m.reads_completed Γ n s v hv, hknown n v hv, Option.getD_some]
    exact h.within n v hv

theorem Model.Satisfies.holds_completed (h : m.Satisfies range Δ es) (he : Δ.Fits e) :
    e.holds (m.completed Γ) = e.holds m.valuation := by
  refine congrArg Value.truth (Expr.value_congr fun p hp => ?_)
  obtain ⟨v, hv, -⟩ := Option.map_eq_some_iff.mp (h.known p.1 p.2 (he.known p hp))
  rw [m.reads_completed Γ p.1 p.2 v hv, m.reads_valuation p.1 p.2 v hv]

/-- Models have values of known variables only. -/
structure Faithful.Modest {σ : Type} [Oracle σ] (F : Faithful σ range) : Prop where
  known : ∀ {o p c Γ m}, F.Keeps o c Γ → (Oracle.check : Request σ Answer) o = (.ok .sat, p) →
    Oracle.model? p = some m → ∀ n v, m.get? n = some v → Γ n = some v.sort

theorem Faithful.Modest.comap {τ σ : Type} [Oracle τ] [Oracle σ] {f : τ → σ}
    (hf : Oracle.Morphism f) {F : Faithful σ range} (h : F.Modest) : (F.comap hf).Modest := by
  refine ⟨fun {o p c Γ m} hkeeps hrun hm => ?_⟩
  have hrun' : (Oracle.check : Request σ Answer) (f o) = (.ok .sat, f p) := by
    rw [hf.check, hrun]
    rfl
  exact h.known hkeeps hrun' ((hf.model? p).trans hm)

theorem BitSolver.modest_faithful {width : Nat} (hmin : 2 ≤ width) (hmax : width ≤ 32) :
    (BitSolver.faithful hmin hmax).Modest := by
  refine ⟨fun {s t c Γ m} hkeeps hrun hm n v hv => ?_⟩
  obtain ⟨hs, rfl, -⟩ := hkeeps
  obtain ⟨path, hpath, ht⟩ : ∃ path, s.store.path? s.top = some path ∧
      t.model = some (s.symbols.map (s.valueOn path)) := by
    have hrun : BitSolver.check s = (.ok .sat, t) := hrun
    by_cases hlimit : s.nodeLimit < s.store.size
    · rw [check_eq_unknown hlimit] at hrun
      cases hrun
    · cases hpath : s.store.path? s.top with
      | none =>
        rw [check_eq_unsat hlimit hpath] at hrun
        cases hrun
      | some path =>
        rw [check_eq_sat hlimit hpath] at hrun
        cases hrun
        exact ⟨path, rfl, rfl⟩
  obtain rfl : s.symbols.map (s.valueOn path) = m := Option.some.inj (ht.symm.trans hm)
  have hsat := hs.satisfies hpath
  rw [Registry.get?_map] at hv
  obtain ⟨term, hterm, rfl⟩ := Option.map_eq_some_iff.mp hv
  have hsort : s.sorts n = some term.sort := by rw [sorts, hterm, Option.map_some]
  have hknown := hsat.known n term.sort hsort
  rw [Registry.get?_map, hterm, Option.map_some, Option.map_some] at hknown
  rw [hsort, ← hknown]

theorem exists_bound_total {Γ : Sorts} {range : Int × Int} {args : List Expr}
    (h : ∀ a ∈ args, ∃ B : Nat, ∀ ρ : Valuation, ρ.Typed Γ range → (a.number ρ).natAbs ≤ B) :
    ∃ B : Nat, ∀ ρ : Valuation, ρ.Typed Γ range → (Expr.total ρ args).natAbs ≤ B := by
  induction args with
  | nil => exact ⟨0, fun ρ _ => by simp [Expr.total]⟩
  | cons a args ih =>
    obtain ⟨A, hA⟩ := h a List.mem_cons_self
    obtain ⟨B, hB⟩ := ih fun b hb => h b (List.mem_cons_of_mem a hb)
    refine ⟨A + B, fun ρ hρ => ?_⟩
    rw [Expr.total]
    exact (Int.natAbs_add_le _ _).trans (Nat.add_le_add (hA ρ hρ) (hB ρ hρ))

theorem Expr.exists_bound (Γ : Sorts) (range : Int × Int) (e : Expr) :
    ∃ B : Nat, ∀ ρ : Valuation, ρ.Typed Γ range → (e.number ρ).natAbs ≤ B := by
  induction e with
  | bool | not | and | or | implies | eq | le | lt =>
    exact ⟨0, fun ρ _ => by simp [number, value]⟩
  | int k => exact ⟨k.natAbs, fun ρ _ => by simp⟩
  | var n s =>
    refine ⟨max range.1.natAbs range.2.natAbs, fun ρ hρ => ?_⟩
    have hwithin := hρ n s
    rw [number, value]
    cases hv : ρ n s with
    | bool b => simp
    | int k =>
      rw [hv] at hwithin
      have hlower := hwithin.2.1
      have hupper := hwithin.2.2
      rw [Value.number_int]
      omega
  | neg a ih =>
    obtain ⟨B, hB⟩ := ih
    refine ⟨B, fun ρ hρ => ?_⟩
    rw [number, value, Value.number_int, Int.natAbs_neg]
    exact hB ρ hρ
  | add args ih =>
    obtain ⟨B, hB⟩ := exists_bound_total ih
    refine ⟨B, fun ρ hρ => ?_⟩
    rw [number, value, Value.number_int]
    exact hB ρ hρ
  | sub a b iha ihb =>
    obtain ⟨A, hA⟩ := iha
    obtain ⟨B, hB⟩ := ihb
    refine ⟨A + B, fun ρ hρ => ?_⟩
    rw [number, value, Value.number_int]
    exact (Int.natAbs_sub_le _ _).trans (Nat.add_le_add (hA ρ hρ) (hB ρ hρ))
  | mul k a ih =>
    obtain ⟨B, hB⟩ := ih
    refine ⟨k.natAbs * B, fun ρ hρ => ?_⟩
    rw [number, value, Value.number_int, Int.natAbs_mul]
    exact Nat.mul_le_mul_left _ (hB ρ hρ)
  | ite c a b _ iha ihb =>
    obtain ⟨A, hA⟩ := iha
    obtain ⟨B, hB⟩ := ihb
    refine ⟨max A B, fun ρ hρ => ?_⟩
    rw [number, value]
    split
    · exact (hA ρ hρ).trans (le_max_left A B)
    · exact (hB ρ hρ).trans (le_max_right A B)

end models

namespace TemplateRow

variable {r : TemplateRow} {m : Model} {range : Int × Int} {Γ Δ : Sorts} {es : List Expr} {k : Int}

/-- The values that flow back from states in range in which some expressions hold. -/
def Returned (r : TemplateRow) (range : Int × Int) (Γ : Sorts) (es : List Expr) : Set Int :=
  { k | ∃ ρ : Valuation, ρ.Typed Γ range ∧ (∀ e ∈ es, e.holds ρ = true) ∧
    r.loop.postGuard.holds ρ = true ∧ r.post.number ρ = k }

theorem mem_returned_of_model (hsat : m.Satisfies range Δ es) (hfits : ∀ e ∈ es, Δ.Fits e)
    (hzero : range.1 ≤ 0 ∧ 0 ≤ range.2) (hknown : ∀ n v, m.get? n = some v → Γ n = some v.sort)
    (hguard : r.loop.postGuard.holds (m.completed Γ) = true) (hpost : m.evalInt r.post = some k) :
    k ∈ r.Returned range Γ es := by
  refine ⟨m.completed Γ, hsat.typed_completed hzero hknown, fun e he => ?_, hguard,
    (m.reads_completed Γ).number hpost⟩
  rw [hsat.holds_completed (hfits e he)]
  exact hsat.holds e he

theorem exists_greatest_returned (h : k ∈ r.Returned range Γ es) :
    ∃ best, IsGreatest (r.Returned range Γ es) best := by
  obtain ⟨B, hB⟩ := r.post.exists_bound Γ range
  have hbounded : ∃ b : Int, ∀ k, k ∈ r.Returned range Γ es → k ≤ b := by
    refine ⟨B, fun k hk => ?_⟩
    obtain ⟨ρ, hρ, -, -, rfl⟩ := hk
    have hle := hB ρ hρ
    omega
  obtain ⟨best, hmem, hle⟩ := Int.exists_greatest_of_bdd hbounded ⟨k, h⟩
  exact ⟨best, hmem, hle⟩

end TemplateRow

section asked

variable {σ : Type} [Oracle σ] {range : Int × Int} {F : Faithful σ range} {c : Scopes}
  {Γ Δ Θ : Sorts} {o q : σ} {e e' : Expr}

theorem Faithful.Asked.known {m : Model} (h : F.Asked o c Γ e e' .sat q Δ) (hF : F.Modest)
    (hm : Oracle.model? q = some m) : ∀ n v, m.get? n = some v → Δ n = some v.sort := by
  obtain ⟨p, -, hkeeps, hcheck⟩ := h.answer
  exact hF.known hkeeps hcheck hm

theorem Faithful.Asked.denies (h : F.Asked o c Γ e e' .unsat q Δ) (hΔ : Δ.Extends Θ)
    {ρ : Valuation} (hρ : ρ.Typed Θ range) (hlive : ∀ x ∈ e :: c.live, x.holds ρ = true) :
    e'.holds ρ = false := by
  obtain ⟨p, -, hkeeps, hcheck⟩ := h.answer
  obtain ⟨x, hx, hfalse⟩ := F.unsat hkeeps hcheck ρ.sorted (hρ.inRange_sorted F.zero_mem)
  rw [hρ.holds_sorted (.refl Θ) ((F.fits hkeeps x hx).extend hΔ)] at hfalse
  rcases List.mem_cons.mp hx with rfl | hx
  · exact hfalse
  · rw [hlive x hx] at hfalse
    cases hfalse

end asked

namespace Recorded

variable {σ : Type} [Oracle σ] {range : Int × Int} {F : Faithful (Recorded σ) range} {c : Scopes}
  {Γ : Sorts} {o p : Recorded σ} {stats : Statistics}

omit [Oracle σ] in
theorem prefix_of_run {S α : Type} {body : Session S (Recorded σ) α} {t t' : S}
    {x : Except Error α} (h : body.Respects fun r r' => r.answers <+: r'.answers)
    (hrun : body (t, o) = (x, (t', p))) : o.answers <+: p.answers := by
  have hgrown := h t o
  rwa [hrun] at hgrown

theorem inScope_query {α β : Type} {v : α} {s : α × Statistics} {e e' : Expr} {b : β}
    {f : Answer → Search α (Recorded σ) β} (h : F.Keeps o c Γ)
    (hf : ∀ {a b s q t r}, f a (s, q) = (.ok b, (t, r)) → r = q)
    (hrun : Session.inScope (Search.query e e' >>= f) ((v, stats), o) = (.ok b, (s, p))) :
    ∃ a t q Δ, F.Asked (Oracle.push o) c.opened Γ e e' a q Δ ∧
      f a ((v, t), q) = (.ok b, (s, q)) ∧ F.Reaches o Γ p c Δ ∧ a ∈ p.answers := by
  obtain ⟨a, t, q, Δ, hask, hasked, hrest, hreaches, -⟩ := Session.inScope_query h hf hrun
  obtain ⟨q', hbody, rfl⟩ := Session.inScope_ok hrun
  rw [Session.bind_ok hask] at hbody
  obtain rfl : q' = q := hf hbody
  obtain ⟨p', -, -, hcheck⟩ := hasked.answer
  refine ⟨a, t, q', Δ, hasked, hrest, hreaches, ?_⟩
  rw [Oracle.release, Recorded.answers_closeTo]
  exact Recorded.mem_answers_check hcheck

end Recorded

namespace TemplateDomain

section recorded

variable {σ : Type} [Oracle σ] {range : Int × Int} {F : Faithful (Recorded σ) range} {c : Scopes}
  {Γ : Sorts} {o p : Recorded σ} {r : TemplateRow} {assumption : Expr} {v : List RowValue}
  {stats : Statistics} {s : List RowValue × Statistics}

omit [Oracle σ] in
theorem reading_none {τ : Type} [Oracle τ] {a : Answer} {o p : τ} {t : List RowValue × Statistics}
    (h : reading r a (s, o) = (.ok none, (t, p))) : a ≠ .sat := by
  rintro rfl
  obtain ⟨m, u, -, h⟩ := Session.ok_of_bind h
  obtain ⟨k, w, -, h⟩ := Session.ok_of_bind h
  cases h

theorem reaches_decides {bound : Int} {result : Option Int} (hF : F.Modest) (h : F.Keeps o c Γ)
    (hrun : reaches r assumption bound ((v, stats), o) = (.ok result, (s, p)))
    (hknown : ∀ reason, .unknown reason ∉ p.answers) :
    s.1 = v ∧ ∃ Δ, F.Reaches o Γ p c Δ ∧ ∀ Θ, Δ.Extends Θ →
      (∀ k, result = some k → bound ≤ k ∧ k ∈ r.Returned range Θ (assumption :: c.live)) ∧
      (result = none → ∀ k ∈ r.Returned range Θ (assumption :: c.live), k < bound) := by
  have hvalue : s.1 = v := (reaches_ok h hrun).1
  rw [reaches_eq] at hrun
  obtain ⟨b, t, hfit, hrun⟩ := Session.ok_of_bind hrun
  obtain ⟨hb, rfl⟩ := fitting_ok hfit
  have hbound : bound - 1 = b := (Bounded.check_eq_some.mp hb).1
  obtain ⟨a, st, q, Δ, hasked, hrest, hreaches, hmem⟩ :=
    Recorded.inScope_query h (fun hf => (reading_ok hf).1) hrun
  refine ⟨hvalue, Δ, hreaches, fun Θ hΘ => ⟨fun k hk => ?_, fun hnone k hk => ?_⟩⟩
  · obtain ⟨-, -, hread⟩ := reading_ok hrest
    obtain ⟨rfl, m, hm, hpost⟩ := hread k hk
    have hsat := hasked.satisfies hm
    have htrue := Expr.holds_both.mp
      ((hsat.holds_completed (Γ := Θ) (hasked.fits _ List.mem_cons_self)).trans
        (hsat.holds _ List.mem_cons_self))
    rw [Expr.holds_exceeds, (m.reads_completed Θ).number hpost, Expr.number_int] at htrue
    refine ⟨by omega, TemplateRow.mem_returned_of_model
      (hsat.imp fun e he => List.mem_cons_of_mem _ he)
      (fun e he => hasked.fits e (List.mem_cons_of_mem _ he)) F.zero_mem
      (fun n w hw => hΘ n w.sort (hasked.known hF hm n w hw)) htrue.1 hpost⟩
  · subst hnone
    cases a with
    | sat => exact absurd rfl (reading_none hrest)
    | unknown reason => exact absurd hmem (hknown reason)
    | unsat =>
      obtain ⟨ρ, hρ, hlive, hguard, rfl⟩ := hk
      have hfalse := hasked.denies hΘ hρ hlive
      simp only [Expr.holds_conj, Expr.exceeds, List.all_cons, List.all_nil, Expr.holds_lt,
        Expr.number_int, hguard, Bool.and_true, Bool.true_and, decide_eq_false_iff_not] at hfalse
      omega

/-- Narrowing ends with a value that flows back; if it is short of the upper end, it is the largest
one. -/
theorem settle_optimal {fuel : Nat} {lower upper best : Int} (hF : F.Modest) (h : F.Keeps o c Γ)
    (hfuel : (upper - lower).toNat ≤ fuel)
    (hrun : settle r assumption fuel lower upper ((v, stats), o) = (.ok best, (s, p)))
    (hknown : ∀ reason, .unknown reason ∉ p.answers) :
    s.1 = v ∧ ∃ Δ, F.Reaches o Γ p c Δ ∧ ∀ Θ, Δ.Extends Θ →
      lower ∈ r.Returned range Θ (assumption :: c.live) →
        best ∈ r.Returned range Θ (assumption :: c.live) ∧
        (best < upper → IsGreatest (r.Returned range Θ (assumption :: c.live)) best) := by
  induction fuel generalizing o Γ stats lower upper with
  | zero =>
    cases hrun
    exact ⟨rfl, Γ, .refl h, fun Θ _ hlower => ⟨hlower, fun hlt => by omega⟩⟩
  | succ fuel ih =>
    rw [settle] at hrun
    split at hrun
    · rename_i hlt
      obtain ⟨mid, t, hfit, hrun⟩ := Session.ok_of_bind hrun
      obtain ⟨hmid, rfl⟩ := fitting_ok hfit
      obtain ⟨hlow, hhigh⟩ := midpoint?_mem hmid hlt
      obtain ⟨result, ⟨⟨w, t⟩, q⟩, hreach, hrun⟩ := Session.ok_of_bind hrun
      -- The answers so far are among those at the end.
      have hgrown : q.answers <+: p.answers := by
        cases result with
        | some k => exact Recorded.prefix_of_run (settle_congr Recorded.frame_answers.congruence _ _ _ _ _) hrun
        | none =>
          obtain ⟨upper', t', hfit', hrun⟩ := Session.ok_of_bind hrun
          obtain ⟨-, rfl⟩ := fitting_ok hfit'
          exact Recorded.prefix_of_run (settle_congr Recorded.frame_answers.congruence _ _ _ _ _) hrun
      obtain ⟨hw, Δ, hreaches, hdecides⟩ := reaches_decides hF h hreach
        fun reason hmem => hknown reason (hgrown.subset hmem)
      obtain rfl : w = v := hw
      cases result with
      | some k =>
        obtain ⟨hs, Δ', hreaches', hoptimal⟩ := ih hreaches.keeps (by omega) hrun
        refine ⟨hs, Δ', hreaches.trans hreaches', fun Θ hΘ _ => ?_⟩
        obtain ⟨hk, hreturned⟩ := (hdecides Θ (hreaches'.sorts.trans hΘ)).1 k rfl
        apply hoptimal Θ hΘ
        rwa [max_eq_left hk]
      | none =>
        obtain ⟨upper', t', hfit', hrun⟩ := Session.ok_of_bind hrun
        obtain ⟨hless, rfl⟩ := fitting_ok hfit'
        have hupper : mid - 1 = upper' := (Bounded.check_eq_some.mp hless).1
        obtain ⟨hs, Δ', hreaches', hoptimal⟩ := ih hreaches.keeps (by omega) hrun
        refine ⟨hs, Δ', hreaches.trans hreaches', fun Θ hΘ hlower => ?_⟩
        have hbelow := (hdecides Θ (hreaches'.sorts.trans hΘ)).2 rfl
        obtain ⟨hbest, hgreatest⟩ := hoptimal Θ hΘ hlower
        refine ⟨hbest, fun _ => ?_⟩
        by_cases hshort : best < upper'
        · exact hgreatest hshort
        · refine ⟨hbest, fun k hk => ?_⟩
          have hlt := hbelow k hk
          omega
    · cases hrun
      exact ⟨rfl, Γ, .refl h, fun Θ _ hlower => ⟨hlower, fun hlt => by omega⟩⟩

/-- A round that changes the value raises one row to a value that flows back; if it is short of the
largest value of the row, it is the largest one that does. -/
theorem bisect_settles {d : TemplateDomain} {focus : Option Nat} (hF : F.Modest) (h : F.Keeps o c Γ)
    (hrun : d.bisect focus ((v, stats), o) = (.ok true, (s, p)))
    (hknown : ∀ reason, .unknown reason ∉ p.answers) :
    ∃ i r x best Θ, d.rows[i]? = some r ∧ v[i]? = some x ∧ F.Reaches o Γ p c Θ ∧
      best ∈ r.Returned range Θ (d.pre v :: c.live) ∧
      (best < d.rowMax r → IsGreatest (r.Returned range Θ (d.pre v :: c.live)) best) ∧
      join (d.rowMax r) best x ≠ x ∧ s.1 = v.set i (join (d.rowMax r) best x) := by
  rw [bisect_eq] at hrun
  split at hrun
  · cases hrun
  obtain ⟨result, ⟨w, p₁⟩, hwitness, hrun⟩ := Session.ok_of_bind hrun
  cases result with
  | none => cases hrun
  | some found =>
    obtain ⟨i, lower⟩ := found
    obtain ⟨r, w₁, hread, hrun⟩ := Session.ok_of_bind hrun
    obtain ⟨hrow, rfl⟩ := Session.ofExcept_ok hread
    obtain ⟨best, ⟨w₂, p₂⟩, hsettle, hrun⟩ := Session.ok_of_bind hrun
    obtain ⟨⟨changed, v'⟩, w₃, hraise, hrun⟩ := Session.ok_of_bind hrun
    obtain ⟨hraised, rfl⟩ := Session.ofExcept_ok hraise
    cases hrun
    obtain ⟨r', x, hr', hx, rfl, hchanged⟩ := raise_ok hraised
    obtain rfl : r' = r := Option.some.inj (hr'.symm.trans (row_ok.mp hrow))
    -- The row and the lower end come from the model of the first answer.
    rw [witness_eq] at hwitness
    obtain ⟨a, t, q, Δ, hasked, hpick, hreaches, -⟩ :=
      Recorded.inScope_query h (fun hf => (picking_ok hf).1) hwitness
    obtain ⟨-, rfl, ⟨-, hnone⟩ | ⟨rfl, m, hm, hfound⟩⟩ := picking_ok hpick
    · cases hnone
    split at hfound
    next => cases hfound
    next j e hfind =>
      obtain ⟨r'', k, hr'', hk, heq⟩ := hfound
      cases heq
      obtain rfl : r'' = r' := Option.some.inj (hr''.symm.trans hr')
      obtain ⟨-, Θ, hreaches', hoptimal⟩ := settle_optimal hF hreaches.keeps le_rfl hsettle hknown
      have hlower : lower ∈ r''.Returned range Θ (d.pre v :: c.live) := by
        obtain ⟨r₁, x₁, hr₁, -, -, he⟩ := mem_conditions.mp (List.mem_of_find?_eq_some hfind)
        obtain rfl : r₁ = r'' := Option.some.inj (hr₁.symm.trans hr')
        have heval : m.evalBool e = some true := by simpa using List.find?_some hfind
        have hholds := (m.reads_completed Θ).holds heval
        refine TemplateRow.mem_returned_of_model
          ((hasked.satisfies hm).imp fun e he => List.mem_cons_of_mem _ he)
          (fun e he => hasked.fits e (List.mem_cons_of_mem _ he)) F.zero_mem
          (fun n u hu => hreaches'.sorts n u.sort (hasked.known hF hm n u hu))
          (TemplateRow.guard_of_improvement he hholds) hk
      obtain ⟨hbest, hgreatest⟩ := hoptimal Θ (.refl Θ) hlower
      exact ⟨i, r'', x, best, Θ, hr', hx, hreaches.trans hreaches', hbest, hgreatest,
        of_decide_eq_true hchanged.symm, rfl⟩

end recorded

def answers {σ : Type} [Oracle σ] (d : TemplateDomain) (focus : Option Nat)
    (s : List RowValue × Statistics) (o : σ) : List Answer :=
  (d.bisect focus (s, ({ inner := o } : Recorded σ))).2.2.answers

/-- A round of bisection with a bit-level solver that changes the value, and whose checks were all
answered, changes one row. The row gets the largest value that flows back under the assertions and
the old value, or it says nothing any more if this is not short of the row's largest value. -/
theorem bisect_optimal {width limit : Nat} {s₀ : BitSolver}
    (hcreate : BitSolver.create width limit = .ok s₀) (commands : List BitSolver.Command)
    {d : TemplateDomain} {focus : Option Nat} {v v' : List RowValue} {stats stats' : Statistics}
    {p : BitSolver}
    (hrun : d.bisect focus ((v, stats), (s₀.execute commands).1) = (.ok true, ((v', stats'), p)))
    (hknown : ∀ reason, .unknown reason ∉ d.answers focus (v, stats) (s₀.execute commands).1) :
    ∃ i r x best, d.rows[i]? = some r ∧ v[i]? = some x ∧
      IsGreatest (r.Returned (-(2 ^ (width - 1)), 2 ^ (width - 1) - 1) p.sorts
        (d.pre v :: (s₀.execute commands).2.live)) best ∧
      (if best < d.rowMax r then .bound best else .top) ≠ x ∧
      v' = v.set i (if best < d.rowMax r then .bound best else .top) := by
  obtain ⟨hmin, hmax, hkeeps⟩ := BitSolver.keeps_of_create hcreate commands
  -- The round with a recorded solver is the same.
  have hmirror := bisect_congr Recorded.morphism_inner.congruence d focus (v, stats)
    { inner := (s₀.execute commands).1 }
  rw [answers] at hknown
  rw [hrun] at hmirror
  cases hrecorded : d.bisect focus
      ((v, stats), ({ inner := (s₀.execute commands).1 } : Recorded BitSolver)) with
  | mk x t =>
    obtain ⟨⟨w, st⟩, q⟩ := t
    rw [hrecorded] at hmirror hknown
    cases hmirror
    let F := (BitSolver.faithful hmin hmax).comap Recorded.morphism_inner
    have hmodest : F.Modest := (BitSolver.modest_faithful hmin hmax).comap Recorded.morphism_inner
    have hkeeps : F.Keeps { inner := (s₀.execute commands).1 } _ _ := hkeeps
    obtain ⟨i, r, x, k, Θ, hr, hx, hreaches, hk, hgreatest, hne, rfl⟩ :=
      bisect_settles hmodest hkeeps hrecorded hknown
    obtain ⟨-, rfl, -⟩ := hreaches.keeps
    have hjoin := join_eq_of_ne hne
    rw [hjoin] at hne ⊢
    by_cases hshort : k < d.rowMax r
    · exact ⟨i, r, x, k, hr, hx, hgreatest hshort, hne, rfl⟩
    · obtain ⟨best, hbest⟩ := TemplateRow.exists_greatest_returned hk
      have hle : k ≤ best := hbest.2 hk
      rw [if_neg hshort] at hne ⊢
      refine ⟨i, r, x, best, hr, hx, hbest, ?_⟩
      rw [if_neg (by omega)]
      exact ⟨hne, rfl⟩

/-- One row, for a variable `x` that becomes `y` with a turn. -/
def following : TemplateDomain where
  rows := [⟨⟨0, 2, 1, .boolVar "g", .boolVar "h", [], [], .empty⟩, .intVar "x", .intVar "y",
    ⟨.ofList [("x", 1)], 0⟩⟩]
  lower := -2
  upper := 1

def followingSolver : BitSolver × Scopes :=
  (BitSolver.fresh 2 1000).execute [.assert (.lt (.intVar "y") (.int 1))]

/-- The row rises to 0, by a value that is reached and one that is not. -/
theorem bisect_optimal_following : ∃ v' stats p,
    following.bisect none (([.bound (-2)], .zero), followingSolver.1) = (.ok true, ((v', stats), p)) ∧
    v' = [.bound 0] ∧ ∃ i r x best, following.rows[i]? = some r ∧ [RowValue.bound (-2)][i]? = some x ∧
      IsGreatest (r.Returned (-(2 ^ (2 - 1)), 2 ^ (2 - 1) - 1) p.sorts
        (following.pre [.bound (-2)] :: followingSolver.2.live)) best ∧
      (if best < following.rowMax r then .bound best else .top) ≠ x ∧
      v' = [.bound (-2)].set i (if best < following.rowMax r then .bound best else .top) := by
  have hok : (following.bisect none (([.bound (-2)], .zero), followingSolver.1)).1 = .ok true := by
    decide +kernel
  have hvalue : (following.bisect none (([.bound (-2)], .zero), followingSolver.1)).2.1.1 =
      [.bound 0] := by
    decide +kernel
  have hanswers : following.answers none ([.bound (-2)], .zero) followingSolver.1 =
      [.sat, .sat, .unsat] := by
    decide +kernel
  have hknown : ∀ reason, .unknown reason ∉
      following.answers none ([.bound (-2)], .zero) followingSolver.1 := by
    simp [hanswers]
  cases hrun : following.bisect none (([.bound (-2)], .zero), followingSolver.1) with
  | mk x t =>
    obtain ⟨⟨v', stats⟩, p⟩ := t
    rw [hrun] at hok hvalue
    obtain rfl : x = .ok true := hok
    exact ⟨v', stats, p, rfl, hvalue,
      bisect_optimal (BitSolver.create_eq 1000 (by decide) (by decide)) _ hrun hknown⟩

end TemplateDomain

end InvariantSynthesis
