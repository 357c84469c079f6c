import InvariantSynthesis.Proofs.Analysis.Climb
import InvariantSynthesis.Proofs.Analysis.Frame
import InvariantSynthesis.Proofs.Search.Work

/-!
How the work of a search gets into statistics. A search keeps a count of its own, which is added to
the statistics of a session when the search has ended. If a round fails, the count is lost.
-/

namespace InvariantSynthesis

open Session

namespace Statistics

theorem zero_merge (a : Statistics) : zero.merge a = a := by
  rw [merge, zero, Nat.zero_add, Nat.zero_add]

theorem ext {a b : Statistics} (hinstances : a.instances = b.instances) (hcalls : a.calls = b.calls) :
    a = b := by
  cases a
  cases b
  cases hinstances
  cases hcalls
  rfl

theorem merge_zero (a : Statistics) : a.merge zero = a := rfl

theorem merge_comm (a b : Statistics) : a.merge b = b.merge a := by
  rw [merge, merge, Nat.add_comm, Nat.add_comm a.calls]

theorem merge_assoc (a b c : Statistics) : (a.merge b).merge c = a.merge (b.merge c) := by
  rw [merge, merge, merge, merge, Nat.add_assoc, Nat.add_assoc]

def along {A T : Type} (step : A → T → A) (f : A → T → Statistics) : A → List T → Statistics
  | _, [] => zero
  | a, t :: ts => (f a t).merge (along step f (step a t) ts)

theorem along_merge {A T : Type} {step : A → T → A} {stats : A → Statistics}
    {lost work : A → T → Statistics}
    (h : ∀ a t, (stats (step a t)).merge (lost a t) = (stats a).merge (work a t))
    (a : A) (ts : List T) :
    (stats (ts.foldl step a)).merge (along step lost a ts) =
      (stats a).merge (along step work a ts) := by
  induction ts generalizing a with
  | nil => rfl
  | cons t ts ih =>
    rw [List.foldl_cons, along, along]
    calc (stats (ts.foldl step (step a t))).merge ((lost a t).merge (along step lost (step a t) ts))
      _ = ((stats (ts.foldl step (step a t))).merge (along step lost (step a t) ts)).merge
            (lost a t) := by rw [merge_comm (lost a t), merge_assoc]
      _ = ((stats (step a t)).merge (lost a t)).merge (along step work (step a t) ts) := by
          rw [ih, merge_assoc, merge_comm _ (lost a t), merge_assoc]
      _ = (stats a).merge ((work a t).merge (along step work (step a t) ts)) := by
          rw [h, merge_assoc]

end Statistics

theorem Tallied.frame_checks {σ : Type} [Oracle σ] :
    Oracle.Frame fun o p : Tallied σ => o.checks ≤ p.checks where
  refl o := Nat.le_refl _
  trans h h' := Nat.le_trans h h'
  declare names o := Nat.le_refl _
  assert e o := Nat.le_refl _
  check o := Nat.le_succ _
  scope {o q} h := by
    rw [Tallied.checks_release]
    exact h

namespace Round

variable {σ : Type} [Oracle σ]

def fails (r : Round σ) : Bool := !r.outcome.1.isOk

/-- The oracles that a round makes, and the checks that it asks for. -/
def work (r : Round (Tallied σ)) : Statistics :=
  ⟨r.spawned.length, r.outcome.2.2.checks - r.oracle.checks + Tallied.total r.spawned⟩

def totalWork : List (Round (Tallied σ)) → Statistics
  | [] => .zero
  | r :: rs => r.work.merge (totalWork rs)

theorem totalWork_append (rs rs' : List (Round (Tallied σ))) :
    totalWork (rs ++ rs') = (totalWork rs).merge (totalWork rs') := by
  induction rs with
  | nil => rw [List.nil_append, totalWork, Statistics.zero_merge]
  | cons r rs ih => rw [List.cons_append, totalWork, ih, totalWork, Statistics.merge_assoc]

/-- The work that is in no statistics: that of a search in which a round failed. -/
def unreported (rs : List (Round (Tallied σ))) : Statistics :=
  if rs.any fails then totalWork rs else .zero

theorem stats_outcome (r : Round (Tallied σ)) : r.outcome.2.1.2 = r.stats.merge r.work := by
  have hle : r.oracle.checks ≤ r.outcome.2.2.checks :=
    r.method.round_congr Tallied.frame_checks.congruence r.focus (r.value, r.stats) r.oracle
  have hcalls : r.outcome.2.1.2.calls + r.oracle.checks =
      r.stats.calls + r.outcome.2.2.checks + Tallied.total r.spawned :=
    r.balanced.calls
  apply Statistics.ext
  · exact r.balanced.instances
  · show _ = r.stats.calls + (r.outcome.2.2.checks - r.oracle.checks + Tallied.total r.spawned)
    omega

end Round

/-- Between two states of a session all work was counted, except for some that was lost. -/
structure Settles {S σ : Type} (stats : S → Statistics) (lost : Statistics)
    (others : List (Tallied σ)) (s t : S × Tallied σ) : Prop where
  instances : (stats t.1).instances + lost.instances = (stats s.1).instances + others.length
  calls : (stats t.1).calls + lost.calls + s.2.checks =
    (stats s.1).calls + t.2.checks + Tallied.total others

namespace Settles

variable {S σ : Type} {stats : S → Statistics} {lost lost' : Statistics} {os ps : List (Tallied σ)}
  {s t u : S × Tallied σ}

theorem of_balanced (h : Balanced stats os s t) : Settles stats .zero os s t := ⟨h.instances, h.calls⟩

theorem trans (h : Settles stats lost os s t) (h' : Settles stats lost' ps t u) :
    Settles stats (lost.merge lost') (os ++ ps) s u := by
  obtain ⟨hi, hc⟩ := h
  obtain ⟨hi', hc'⟩ := h'
  constructor
  · rw [Statistics.merge, List.length_append]
    dsimp only
    omega
  · rw [Statistics.merge, Tallied.total_append]
    dsimp only
    omega

theorem after (h : Balanced stats [] s t) (h' : Settles stats lost ps t u) :
    Settles stats lost ps s u := by
  rw [← Statistics.zero_merge lost]
  exact (of_balanced h).trans h'

theorem before (h : Settles stats lost os s t) (h' : Balanced stats [] t u) :
    Settles stats lost os s u := by
  rw [← List.append_nil os]
  exact h.trans (of_balanced h')

end Settles

/-- A search goes through some rounds. It counts all of their work, and it fails if one of them does. -/
structure Accounts {σ α β : Type} [Oracle σ] (rs : List (Round (Tallied σ)))
    (s : (α × Statistics) × Tallied σ) (outcome : Except Error β × ((α × Statistics) × Tallied σ)) :
    Prop where
  balanced : Balanced Prod.snd (rs.flatMap Round.spawned) s outcome.2
  stats : outcome.2.1.2 = s.1.2.merge (Round.totalWork rs)
  fails : rs.any Round.fails = !outcome.1.isOk

namespace Accounts

variable {σ α β γ : Type} [Oracle σ] {rs rs' : List (Round (Tallied σ))}
  {s t u : (α × Statistics) × Tallied σ} {x : Except Error β} {y : Except Error γ}

theorem refl (s : (α × Statistics) × Tallied σ) (b : β) : Accounts [] s (.ok b, s) :=
  ⟨.refl s, rfl, rfl⟩

theorem single (r : Round (Tallied σ)) :
    Accounts [r] ((r.value, r.stats), r.oracle) r.outcome := by
  constructor
  · rw [List.flatMap_singleton]
    exact r.balanced
  · exact r.stats_outcome
  · rw [List.any_cons, List.any_nil, Bool.or_false, Round.fails]

theorem settles {S : Type} {stats : S → Statistics} {a b : S} {x₀ : α} {lost : Statistics}
    {o : Tallied σ} (h : Accounts rs ((x₀, .zero), o) (x, t))
    (hb : (stats b).merge lost = (stats a).merge t.1.2) :
    Settles stats lost (rs.flatMap Round.spawned) (a, o) (b, t.2) := by
  obtain ⟨hinstances, hcalls⟩ := h.balanced
  have hinstances : t.1.2.instances = 0 + (rs.flatMap Round.spawned).length := hinstances
  have hcalls : t.1.2.calls + o.checks =
    0 + t.2.checks + Tallied.total (rs.flatMap Round.spawned) := hcalls
  constructor
  · have hb := congrArg Statistics.instances hb
    exact hb.trans (by rw [Statistics.merge, hinstances, Nat.zero_add])
  · have hb : (stats b).calls + lost.calls = (stats a).calls + t.1.2.calls :=
      congrArg Statistics.calls hb
    dsimp only
    omega

theorem congr (h : Accounts rs s (x, t)) (hxy : x.isOk = y.isOk) : Accounts rs s (y, t) :=
  ⟨h.balanced, h.stats, h.fails.trans (by rw [hxy])⟩

theorem trans {b : β} (h : Accounts rs s (.ok b, t)) (h' : Accounts rs' t (y, u)) :
    Accounts (rs ++ rs') s (y, u) := by
  constructor
  · rw [List.flatMap_append]
    exact h.balanced.trans h'.balanced
  · rw [Round.totalWork_append, ← Statistics.merge_assoc, ← h.stats]
    exact h'.stats
  · rw [List.any_append, h.fails, h'.fails]
    rfl

end Accounts

namespace Method

variable {σ : Type} [Oracle σ]

theorem accounts_pass (m : Method) (foci : List (Option Nat))
    (s : (m.domain.Value × Statistics) × Tallied σ) :
    Accounts (m.rounds foci s) s (Verifier.pass m foci s) := by
  induction foci generalizing s with
  | nil => exact .refl s false
  | cons focus rest ih =>
    obtain ⟨⟨value, stats⟩, o⟩ := s
    have hfirst := Accounts.single ⟨m, focus, value, stats, o⟩
    rw [rounds, Verifier.pass]
    cases hround : m.round focus ((value, stats), o) with
    | mk x t =>
      rw [Round.outcome, hround] at hfirst
      cases x with
      | error e =>
        rw [bind_error hround]
        exact hfirst.congr rfl
      | ok changed =>
        rw [bind_ok hround]
        have hrest := ih t
        cases hpass : Verifier.pass m rest t with
        | mk y u =>
          rw [hpass] at hrest
          have hboth := hfirst.trans hrest
          cases y with
          | error e =>
            rw [bind_error hpass]
            exact hboth
          | ok more =>
            rw [bind_ok hpass]
            exact hboth.congr rfl

end Method

/-- A session that goes through the rounds of a search counts all work, unless a round fails. Then the
session fails, and the work of the search is lost. -/
structure Reports {S σ : Type} [Oracle σ] (stats : S → Statistics) (rs : List (Round (Tallied σ)))
    (s : S × Tallied σ) (outcome : Except Error Unit × (S × Tallied σ)) : Prop where
  settles : Settles stats (Round.unreported rs) (rs.flatMap Round.spawned) s outcome.2
  complete : outcome.1 = .ok () → Round.unreported rs = .zero

/-- A session that searches from a state on and leaves its own statistics as they are. -/
structure Climbing {S σ α : Type} [Oracle σ] (stats : S → Statistics)
    (rs : List (Round (Tallied σ))) (s : α × Statistics) (a : S) (o : Tallied σ)
    (outcome : Except Error (α × Statistics) × (S × Tallied σ)) : Prop where
  stats_eq : stats outcome.2.1 = stats a
  accounts : ∃ t, (∀ u, outcome.1 = .ok u → u = t) ∧
    Accounts rs (s, o) (outcome.1, (t, outcome.2.2))

namespace Climbing

variable {S σ α : Type} [Oracle σ] {stats : S → Statistics} {rs rs' : List (Round (Tallied σ))}
  {s t : α × Statistics} {a b : S} {o p : Tallied σ}

theorem done {β : Type} {x : Except Error β} (h : Accounts rs (s, o) (x, (t, p)))
    (hb : stats b = stats a) : Climbing stats rs s a o (x.map fun _ => t, (b, p)) := by
  refine ⟨hb, t, fun u hu => ?_, h.congr ?_⟩
  · cases x with
    | error e => cases hu
    | ok y => exact (Except.ok.inj hu).symm
  · cases x <;> rfl

theorem next {β : Type} {y : β} {outcome : Except Error (α × Statistics) × (S × Tallied σ)}
    (h : Accounts rs (s, o) (.ok y, (t, p))) (hb : stats b = stats a)
    (hrest : Climbing stats rs' t b p outcome) : Climbing stats (rs ++ rs') s a o outcome := by
  obtain ⟨hstats, u, hu, haccounts⟩ := hrest
  exact ⟨hstats.trans hb, u, hu, h.trans haccounts⟩

/-- The count of a search is lost if the search fails, and is added to the statistics otherwise. -/
theorem reports {x : α} {body : Session S (Tallied σ) (α × Statistics)}
    {f : α × Statistics → Session S (Tallied σ) Unit}
    (h : Climbing stats rs (x, .zero) a o (body (a, o)))
    (hf : ∀ u b q, ∃ c, stats c = (stats b).merge u.2 ∧ Balanced stats [] (c, q) (f u (b, q)).2) :
    Reports stats rs (a, o) ((body >>= f) (a, o)) := by
  cases hrun : body (a, o) with
  | mk y t =>
    obtain ⟨b, q⟩ := t
    rw [hrun] at h
    obtain ⟨u, hu, haccounts⟩ := h.accounts
    have hstats : stats b = stats a := h.stats_eq
    cases y with
    | error e =>
      have hlost : Round.unreported rs = Round.totalWork rs := if_pos haccounts.fails
      have hwork : u.2 = Round.totalWork rs := haccounts.stats.trans (Statistics.zero_merge _)
      rw [bind_error hrun]
      constructor
      · apply haccounts.settles
        rw [hlost, hstats, hwork]
      · intro hok
        cases hok
    | ok w =>
      have hfails : rs.any Round.fails = false := haccounts.fails
      have hlost : Round.unreported rs = .zero := by
        rw [Round.unreported, hfails]
        rfl
      obtain ⟨c, hc, hbalanced⟩ := hf w b q
      rw [hu w rfl, hstats] at hc
      rw [bind_ok hrun]
      constructor
      · rw [hlost]
        apply Settles.before (t := (c, q)) _ hbalanced
        apply haccounts.settles
        rw [hc, Statistics.merge_zero]
      · intro _
        exact hlost

end Climbing

section run

variable {S σ : Type} [Oracle σ] {stats : S → Statistics} {rs : List (Round (Tallied σ))}
  {prepare conclude : Session S (Tallied σ) Unit} {s s' : S} {o : Tallied σ}

theorem Reports.of_balanced {s : S × Tallied σ} {outcome : Except Error Unit × (S × Tallied σ)}
    (h : Balanced stats [] s outcome.2) : Reports stats [] s outcome :=
  ⟨.of_balanced h, fun _ => rfl⟩

theorem Reports.inScope
    (hprepare : Balanced stats [] (s', Oracle.push o) (prepare (s, Oracle.push o)).2)
    (hfailed : ∀ e t, prepare (s, Oracle.push o) = (.error e, t) → rs = [])
    (hconclude : ∀ t, prepare (s, Oracle.push o) = (.ok (), t) → Reports stats rs t (conclude t)) :
    Reports stats rs (s', o) (Session.inScope (prepare >>= fun _ => conclude) (s, o)) := by
  have hbody : Reports stats rs (s', Oracle.push o)
      ((prepare >>= fun _ => conclude) (s, Oracle.push o)) := by
    cases hrun : prepare (s, Oracle.push o) with
    | mk x t =>
      rw [hrun] at hprepare
      cases x with
      | error e =>
        rw [hfailed e t hrun, bind_error hrun]
        exact .of_balanced hprepare
      | ok u =>
        rw [bind_ok hrun]
        obtain ⟨hsettles, hcomplete⟩ := hconclude t hrun
        exact ⟨.after hprepare hsettles, hcomplete⟩
  obtain ⟨hinstances, hcalls⟩ := hbody.settles.before (balanced_leave _ s o)
  exact ⟨⟨hinstances, hcalls⟩, hbody.complete⟩

omit [Oracle σ] in
theorem counts_requireFeasible (a : Answer) :
    Counts stats (requireFeasible a : Session S (Tallied σ) Unit) := by
  cases a with
  | unsat => exact counts_throw _
  | sat | unknown => exact counts_pure ()

end run

/-- The work of a run that is given an oracle and makes others. -/
def Tallied.work {σ : Type} (given : Tallied σ) (made : List (Tallied σ)) : Statistics :=
  ⟨1 + made.length, given.checks + Tallied.total made⟩

theorem Settles.merge_eq {S σ : Type} {stats : S → Statistics} {lost first : Statistics}
    {made : List (Tallied σ)} {s : S} {t : S × Tallied σ} {o : σ}
    (h : Settles stats lost made (s, ⟨o, 0⟩) t)
    (hs : stats s = { first with instances := first.instances + 1 }) :
    (stats t.1).merge lost = first.merge (t.2.work made) := by
  obtain ⟨hinstances, hcalls⟩ := h
  rw [hs] at hinstances hcalls
  apply Statistics.ext
  · exact hinstances.trans (Nat.add_assoc _ _ _)
  · exact hcalls.trans (Nat.add_assoc _ _ _)

end InvariantSynthesis
