import InvariantSynthesis.Proofs.Analysis.Soundness

namespace InvariantSynthesis

/-- A run has ended with an invariant of some loops under assertions, with every question of its
search answered and no number out of 64 bits. The verifier puts one loop after the other in focus,
the analyzer all loops together. -/
inductive Concluded (config : Config) (s : LoopSystem) (context : List Expr) (range : Int × Int)
    (i : Invariant) : Prop
  | verifier {σ : Type} [Oracle σ] {F : Faithful σ range} {c : Scopes} {Γ : Sorts} {o : σ}
      {f : Procedure} {old : Option Procedure} {pre : Expr} (keeps : F.Keeps o c Γ)
      (loops : s = (Verifier.create config f old pre).loops)
      (assumed : ∀ e, e ∈ context ↔ e ∈ c.live ++ (Verifier.create config f old pre).assumptions)
      (run : (Verifier.run (.create config f old pre, o)).1 = .ok ())
      (rounds : ∀ r ∈ (Verifier.create config f old pre).rounds o,
        r.unknown = false ∧ r.overflows = false)
      (found : (Verifier.run (.create config f old pre, o)).2.1.invariant = some i) :
      Concluded config s context range i
  | analyzer {σ : Type} [Oracle σ] {F : Faithful σ range} {c : Scopes} {Γ : Sorts} {o : σ}
      {f : Procedure} {pre : Expr} {a : Analyzer} (keeps : F.Keeps o c Γ)
      (loops : s = .ofProcedures [f])
      (assumed : ∀ e, e ∈ context ↔ e ∈ c.live ++ Analyzer.assumptions f pre)
      (selected : a.config = config)
      (run : (Analyzer.run f pre (a, o)).1 = .ok ())
      (rounds : ∀ r ∈ a.searchRounds f pre o, r.unknown = false ∧ r.overflows = false)
      (found : (Analyzer.run f pre (a, o)).2.1.invariant = some i) :
      Concluded config s context range i

/-- A search in passes over some foci has ended with an invariant. Every loop is in one of the foci,
every question was answered and no number was out of 64 bits. -/
inductive Settled (config : Config) (s : LoopSystem) (context : List Expr) (range : Int × Int)
    (foci : List (Option Nat)) (i : Invariant) : Prop
  | intro {σ : Type} [Oracle σ] {F : Faithful σ range} {c : Scopes} {symbols : List TypedName}
      {asked : List (Round σ)} {o p : σ} {Γ : Sorts} {ps : List Procedure}
      (loops : s = .ofProcedures ps)
      (selected : Method.ofConfig config s range = .ok i.method)
      (searched : Searched F c symbols foci asked i.method i.value o p Γ)
      (declared : s.declared.Extends Γ)
      (covered : ∀ l ∈ s.loops, ∃ focus ∈ foci, l.inFocus focus = true)
      (assumed : ∀ e, e ∈ context ↔ e ∈ c.live)
      (rounds : ∀ r ∈ asked, r.unknown = false ∧ r.overflows = false) :
      Settled config s context range foci i

variable {config : Config} {s : LoopSystem} {context : List Expr} {range : Int × Int}
  {foci : List (Option Nat)} {i : Invariant}

/-- A search in passes over some foci has ended with an invariant after some rounds. Every loop is in
one of the foci. -/
structure Sought {σ : Type} [Oracle σ] (F : Faithful σ range) (config : Config) (s : LoopSystem)
    (context : List Expr) (foci : List (Option Nat)) (asked : List (Round σ)) (i : Invariant) :
    Prop where
  loops : ∃ ps, s = .ofProcedures ps
  selected : Method.ofConfig config s range = .ok i.method
  searched : ∃ c symbols o p Γ, Searched F c symbols foci asked i.method i.value o p Γ ∧
    s.declared.Extends Γ ∧ ∀ e, e ∈ context ↔ e ∈ c.live
  covered : ∀ l ∈ s.loops, ∃ focus ∈ foci, l.inFocus focus = true

section run

variable {σ : Type} [Oracle σ] {F : Faithful σ range} {c : Scopes} {Γ : Sorts} {o : σ}
  {f : Procedure} {old : Option Procedure} {pre : Expr}

theorem mem_live_opened {es : List Expr} (h : ∀ e, e ∈ context ↔ e ∈ c.live ++ es) (e : Expr) :
    e ∈ context ↔ e ∈ (c.opened.addAll es).live := by
  rw [h, List.mem_append, Scopes.mem_live_addAll, Scopes.live_opened]

theorem Verifier.sought (keeps : F.Keeps o c Γ)
    (assumed : ∀ e, e ∈ context ↔ e ∈ c.live ++ (create config f old pre).assumptions)
    (hrun : (run (create config f old pre, o)).1 = .ok ())
    (hfound : (run (create config f old pre, o)).2.1.invariant = some i) :
    Sought F config (create config f old pre).loops context (create config f old pre).foci
      ((create config f old pre).rounds o) i := by
  obtain ⟨m, value, o₁, o₂, Δ, Θ, hm, hinvariant, -, -, hsearched, -⟩ :=
    run_ok keeps (Prod.ext hrun rfl)
  cases hinvariant.symm.trans hfound
  refine ⟨⟨_, rfl⟩, hm, ⟨_, _, _, _, Δ, hsearched, fun n t hn => ?_, mem_live_opened assumed⟩,
    fun l hl => (create config f old pre).exists_focus hl⟩
  exact hsearched.declared n t ((symbols_create config f old pre n).symm.trans hn)

theorem Analyzer.sought {a : Analyzer} (keeps : F.Keeps o c Γ)
    (assumed : ∀ e, e ∈ context ↔ e ∈ c.live ++ assumptions f pre)
    (hrun : (run f pre (a, o)).1 = .ok ()) (hfound : (run f pre (a, o)).2.1.invariant = some i) :
    Sought F a.config (.ofProcedures [f]) context [none] (a.searchRounds f pre o) i := by
  obtain ⟨m, value, o₁, o₂, Δ, hm, hinvariant, -, hsearched⟩ := run_ok keeps (Prod.ext hrun rfl)
  cases hinvariant.symm.trans hfound
  refine ⟨⟨_, rfl⟩, hm, ⟨_, _, _, _, Δ, hsearched, fun n t hn => ?_, mem_live_opened assumed⟩,
    fun l hl => ⟨none, List.mem_singleton.mpr rfl, rfl⟩⟩
  refine hsearched.declared n t ?_
  rw [LoopSystem.declared_eq, List.flatMap_singleton] at hn
  exact hn

theorem Sought.settled {asked : List (Round σ)} (h : Sought F config s context foci asked i)
    (hrounds : ∀ r ∈ asked, r.unknown = false ∧ r.overflows = false) :
    Settled config s context range foci i := by
  obtain ⟨⟨ps, hs⟩, hm, ⟨c, symbols, o, p, Γ, hsearched, hΓ, hcontext⟩, hcovered⟩ := h
  exact .intro hs hm hsearched hΓ hcovered hcontext hrounds

theorem Sought.invariant {asked : List (Round σ)} (h : Sought F config s context foci asked i)
    {P : i.method.domain.Value → Prop} (hstart : P i.method.domain.start)
    (hround : ∀ {c Γ focus v stats b t} {o p : σ},
      F.Keeps o c Γ → s.declared.Extends Γ → (∀ e ∈ context, e ∈ c.live) → P v →
      i.method.round focus ((v, stats), o) = (.ok b, (t, p)) → P t.1) : P i.value := by
  obtain ⟨c, symbols, o, p, Γ, hsearched, hΓ, hcontext⟩ := h.searched
  obtain ⟨stats, hclimbs⟩ := hsearched.climbs
  exact hclimbs.invariant (fun hkeeps hΔ hv hrun =>
    hround hkeeps hΔ (fun e he => (hcontext e).mp he) hv hrun) hsearched.keeps hΓ hstart

end run

theorem Concluded.settled (h : Concluded config s context range i) :
    ∃ foci, Settled config s context range foci i := by
  cases h with
  | verifier keeps loops assumed run rounds found =>
    subst loops
    exact ⟨_, (Verifier.sought keeps assumed run found).settled rounds⟩
  | analyzer keeps loops assumed selected run rounds found =>
    subst loops selected
    exact ⟨_, (Analyzer.sought keeps assumed run found).settled rounds⟩

section solver

variable {width limit : Nat} (hmin : 2 ≤ width) (hmax : width ≤ 32) {f : Procedure} {pre : Expr}
include hmin hmax

theorem BitSolver.keeps_fresh : (BitSolver.faithful hmin hmax).Keeps
    ((BitSolver.fresh width limit).execute []).1 .none
    ((BitSolver.fresh width limit).execute []).1.sorts :=
  ⟨.fresh (BitSolver.widthAllowed_iff.mpr ⟨hmin, hmax⟩), rfl, rfl⟩

theorem Concluded.of_verifier
    (hrun : (Verifier.run (.create config f none pre,
      ((BitSolver.fresh width limit).execute []).1)).1 = .ok ())
    (hrounds : ∀ r ∈ (Verifier.create config f none pre).rounds
      ((BitSolver.fresh width limit).execute []).1, r.unknown = false ∧ r.overflows = false)
    (hfound : (Verifier.run (.create config f none pre,
      ((BitSolver.fresh width limit).execute []).1)).2.1.invariant = some i) :
    Concluded config (.ofProcedures [f]) (Analyzer.assumptions f pre)
      (-(2 ^ (width - 1)), 2 ^ (width - 1) - 1) i := by
  have hloops : .ofProcedures [f] = (Verifier.create config f none pre).loops := rfl
  exact .verifier (BitSolver.keeps_fresh hmin hmax) hloops (fun _ => Iff.rfl) hrun hrounds hfound

theorem Concluded.of_analyzer {a : Analyzer} (hselected : a.config = config)
    (hrun : (Analyzer.run f pre (a, ((BitSolver.fresh width limit).execute []).1)).1 = .ok ())
    (hrounds : ∀ r ∈ a.searchRounds f pre ((BitSolver.fresh width limit).execute []).1,
      r.unknown = false ∧ r.overflows = false)
    (hfound : (Analyzer.run f pre
      (a, ((BitSolver.fresh width limit).execute []).1)).2.1.invariant = some i) :
    Concluded config (.ofProcedures [f]) (Analyzer.assumptions f pre)
      (-(2 ^ (width - 1)), 2 ^ (width - 1) - 1) i :=
  .analyzer (BitSolver.keeps_fresh hmin hmax) rfl (fun _ => Iff.rfl) hselected hrun hrounds hfound

end solver

theorem Domain.Closed.of_context {d : Domain} {v : d.Value} {focus : Option Nat} {es : List Expr}
    {Γ : Sorts} (h : d.Closed v focus es Γ range) (hes : ∀ e ∈ es, e ∈ context) :
    d.Closed v focus context Γ range :=
  fun ρ hρ hcontext => h ρ hρ fun e he => hcontext e (hes e he)

namespace Settled

theorem loops (h : Settled config s context range foci i) : ∃ ps, s = .ofProcedures ps := by
  obtain ⟨hs, -⟩ := h
  exact ⟨_, hs⟩

theorem selected (h : Settled config s context range foci i) :
    Method.ofConfig config s range = .ok i.method := by
  obtain ⟨-, hm⟩ := h
  exact hm

theorem invariant (h : Settled config s context range foci i) {P : i.method.domain.Value → Prop}
    (hstart : P i.method.domain.start)
    (hround : ∀ {σ : Type} [Oracle σ] {F : Faithful σ range} {c Γ focus v stats b t} {o p : σ},
      F.Keeps o c Γ → s.declared.Extends Γ → (∀ e ∈ context, e ∈ c.live) → P v →
      i.method.round focus ((v, stats), o) = (.ok b, (t, p)) → P t.1) : P i.value := by
  obtain ⟨hs, hm, hsearched, hΓ, hcovered, hcontext, -⟩ := h
  exact (Sought.mk ⟨_, hs⟩ hm ⟨_, _, _, _, _, hsearched, hΓ, hcontext⟩ hcovered).invariant hstart
    hround

/-- Nothing is left to ask about any loop. -/
theorem closed (h : Settled config s context range foci i) (hd : i.method.domain.Descends)
    (hr : i.method.domain.Roomy i.value) {l : LoopTemplate} (hl : l ∈ s.loops) :
    ∃ focus, l.inFocus focus = true ∧
      i.method.domain.Closed i.value focus context s.declared range := by
  obtain ⟨-, -, hsearched, hΓ, hcovered, hcontext, hrounds⟩ := h
  obtain ⟨focus, hfocus, hin⟩ := hcovered l hl
  obtain ⟨-, hdenies⟩ := hsearched.denies hd hr fun r hr => (hrounds r hr).2
  have hclosed := (hdenies focus hfocus).closed hΓ fun r hr => (hrounds r hr).1
  exact ⟨focus, hin, hclosed.of_context fun e he => (hcontext e).mpr he⟩

end Settled

end InvariantSynthesis
