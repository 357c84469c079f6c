import InvariantSynthesis.Proofs.Analysis.Release
import InvariantSynthesis.Proofs.BitSolver.Repeat
import InvariantSynthesis.Proofs.Domain.Names
import Mathlib.Data.List.Find

/-!
Sessions that are repeated with a solver that has gone on. If all that the first session came to is
still there, every request of the second one finds the result that it had in the first. So both go
the same way, and end with the same result. A model of the second one may have values of further
variables, but these are not looked up.
-/

namespace InvariantSynthesis

open BitSolver

theorem BitSolver.adds_release {s q : BitSolver} (hq : q.Valid)
    (houter : q.outer = s.top :: s.outer) :
    q.Adds (Oracle.release (Oracle.depth (Oracle.push s)) q) := by
  rw [show (Oracle.push s : BitSolver) = s.push from rfl, release_eq houter]
  exact hq.adds s.top s.outer none

namespace BitSolver.Twin

variable {last : BitSolver} {declared : String → Prop} {s t q r : BitSolver} {c : Scopes}

theorem push (h : Twin last declared s t) : Twin last declared s.push t.push := by
  obtain ⟨c, hc⟩ := h.keeps
  refine ⟨⟨c.opened, hc.push⟩, ?_, h.nodes, h.top, ?_, h.known⟩
  · exact h.later.trans (h.later.valid.adds t.top (t.top :: t.outer) t.model)
  · show t.top :: t.outer = s.top :: s.outer
    rw [h.top, h.outer]

/-- Closing a scope leads back to what was there before it was opened. -/
theorem release (h : Twin last declared s t) (hq : Twin last declared q r) (hs : s.Keeps c)
    (hinside : Inside s.push q c.opened) :
    Twin last declared (Oracle.release (Oracle.depth s.push) q)
      (Oracle.release (Oracle.depth t.push) r) := by
  have hkeeps := (hinside.released hs).keeps
  have houter : q.outer = s.top :: s.outer := hinside.outer
  have houter' : r.outer = t.top :: t.outer := by rw [hq.outer, houter, h.top, h.outer]
  rw [release_eq houter] at hkeeps ⊢
  rw [release_eq houter']
  refine ⟨⟨c, hkeeps⟩, ?_, hq.nodes, h.top, h.outer, hq.known⟩
  exact hq.later.trans (hq.later.valid.adds t.top t.outer none)

end BitSolver.Twin

namespace Session

variable {S T α β : Type}

/-- However often the session is repeated from states that are related, it has the result that it had
before, in a state that is related to the one before. -/
structure Retraces (last : BitSolver) (declared : String → Prop) (E : S → S → Prop)
    (body : Session S BitSolver α) : Prop where
  respects : body.Respects fun s t => ∀ c, s.Keeps c → Inside s t c
  again : ∀ {x y s t a x' s'}, E x y → Twin last declared s t → body (x, s) = (.ok a, (x', s')) →
    s'.Adds last → ∃ y' t', body (y, t) = (.ok a, (y', t')) ∧ E x' y' ∧ Twin last declared s' t'

variable {last : BitSolver} {declared : String → Prop} {E : S → S → Prop}

theorem Respects.adds {body : Session S BitSolver α} {x x' : S} {s s' : BitSolver} {a : α}
    (h : body.Respects fun s t => ∀ c, s.Keeps c → Inside s t c)
    (hrun : body (x, s) = (.ok a, (x', s'))) {c : Scopes} (hs : s.Keeps c) : Inside s s' c := by
  have hinside := h x s c hs
  rwa [hrun] at hinside

namespace Retraces

theorem of_idle {body : Session S BitSolver α} (hidle : ∀ x s, (body (x, s)).2.2 = s)
    (h : ∀ {x y s t a x'}, E x y → body (x, s) = (.ok a, (x', s)) →
      ∃ y', body (y, t) = (.ok a, (y', t)) ∧ E x' y') : Retraces last declared E body := by
  refine ⟨respects_of_eq frame_inside hidle, fun {x y s t a x' s'} hxy htwin hrun _ => ?_⟩
  have hs : (body (x, s)).2.2 = s := hidle x s
  rw [hrun] at hs
  obtain rfl : s' = s := hs
  obtain ⟨y', hrun', hxy'⟩ := h (t := t) hxy hrun
  exact ⟨y', t, hrun', hxy', htwin⟩

theorem ofExcept (r : Except Error α) : Retraces last declared E (ofExcept r) := by
  apply of_idle
  · exact fun _ _ => rfl
  · intro x y s t b x' hxy hrun
    cases hrun
    exact ⟨y, rfl, hxy⟩

theorem pure (a : α) : Retraces last declared E (Pure.pure a) := ofExcept (.ok a)

theorem ofExcept_bind {r : Except Error α} {f : α → Session S BitSolver β}
    (hf : ∀ a, r = .ok a → Retraces last declared E (f a)) :
    Retraces last declared E (Session.ofExcept r >>= f) := by
  cases r with
  | error e => exact ofExcept (.error e)
  | ok a => exact hf a rfl

theorem update {f : S → S} (hf : ∀ {x y}, E x y → E (f x) (f y)) :
    Retraces last declared E (update f) := by
  apply of_idle
  · exact fun _ _ => rfl
  · intro x y s t b x' hxy hrun
    cases hrun
    exact ⟨f y, rfl, hf hxy⟩

theorem bind {r : Session S BitSolver α} {f : α → Session S BitSolver β}
    (hr : Retraces last declared E r) (hf : ∀ a, Retraces last declared E (f a)) :
    Retraces last declared E (r >>= f) := by
  refine ⟨hr.respects.bind frame_inside fun a => (hf a).respects, ?_⟩
  intro x y s t b x' s' hxy htwin hrun hlast
  obtain ⟨a, ⟨x₁, s₁⟩, hfirst, hrest⟩ := ok_of_bind hrun
  obtain ⟨c, hc⟩ := htwin.keeps
  obtain ⟨es, hs₁⟩ := (hr.respects.adds hfirst hc).keeps
  -- What the first part came to is there at the end, since the second part only adds to it.
  have hadds := ((hf a).respects.adds hrest hs₁).adds.trans hlast
  obtain ⟨y₁, t₁, hfirst', hxy₁, htwin₁⟩ := hr.again hxy htwin hfirst hadds
  obtain ⟨y', t', hrest', hxy', htwin'⟩ := (hf a).again hxy₁ htwin₁ hrest hlast
  exact ⟨y', t', (bind_ok hfirst').trans hrest', hxy', htwin'⟩

theorem state_bind {f : S → Session S BitSolver β}
    (hrespects : (state >>= f).Respects fun s t => ∀ c, s.Keeps c → Inside s t c)
    (hf : ∀ {x y}, E x y → f y = f x ∧ Retraces last declared E (f x)) :
    Retraces last declared E (state >>= f) := by
  refine ⟨hrespects, ?_⟩
  intro x y s t b x' s' hxy htwin hrun hlast
  obtain ⟨heq, hretraces⟩ := hf hxy
  obtain ⟨y', t', hrun', hxy', htwin'⟩ := hretraces.again hxy htwin hrun hlast
  refine ⟨y', t', ?_, hxy', htwin'⟩
  rw [bind_ok (show state (y, t) = (.ok y, (y, t)) from rfl), heq]
  exact hrun'

theorem look_range : Retraces last declared E (look fun o : BitSolver => Oracle.range o) := by
  refine ⟨respects_look frame_inside _, ?_⟩
  intro x y s t b x' s' hxy htwin hrun hlast
  cases hrun
  have hwidth : t.width = s.width := (hlast.trans htwin.later).width
  have hrange : (Oracle.range t : Int × Int) = Oracle.range s := by
    show BitSolver.range t = BitSolver.range s
    rw [range_eq, range_eq, hwidth]
  refine ⟨y, t, ?_, hxy, htwin⟩
  rw [look, hrange]

theorem assert (e : Expr) : Retraces last declared E (assert e) := by
  refine ⟨respects_assert frame_inside e, ?_⟩
  intro x y s t a x' s' hxy htwin hrun hlast
  obtain ⟨rfl, hassert⟩ := request_ok hrun
  obtain ⟨t', hassert', htwin', -⟩ := htwin.assert hassert hlast
  exact ⟨y, t', request_eq hassert' y, hxy, htwin'⟩

theorem forM {f : α → Session S BitSolver Unit} (hf : ∀ a, Retraces last declared E (f a))
    (as : List α) : Retraces last declared E (as.forM f) := by
  induction as with
  | nil => exact pure ()
  | cons a as ih =>
    rw [List.forM_eq_forM, List.forM_cons]
    exact (hf a).bind fun _ => ih

theorem check (hroom : last.store.size ≤ last.nodeLimit) :
    Retraces last declared E (request Oracle.check : Session S BitSolver Answer) := by
  refine ⟨respects_request frame_inside.check, ?_⟩
  intro x y s t a x' s' hxy htwin hrun hlast
  obtain ⟨rfl, hcheck⟩ := request_ok hrun
  obtain ⟨t', hcheck', htwin', -⟩ := htwin.check hroom hcheck hlast
  exact ⟨y, t', request_eq hcheck' y, hxy, htwin'⟩

theorem inScope {body : Session S BitSolver α} (h : Retraces last declared E body) :
    Retraces last declared E (inScope body) := by
  refine ⟨h.respects.inScope frame_inside, ?_⟩
  intro x y s t a x' s' hxy htwin hrun hlast
  obtain ⟨q, hbody, rfl⟩ := inScope_ok hrun
  obtain ⟨c, hc⟩ := htwin.keeps
  have hinside := h.respects.adds hbody hc.push
  have hq : q.Adds last := by
    obtain ⟨es, hkeeps⟩ := hinside.keeps
    exact (adds_release hkeeps.valid hinside.outer).trans hlast
  obtain ⟨y', r, hbody', hxy', htwin'⟩ := h.again hxy htwin.push hbody hq
  refine ⟨y', Oracle.release (Oracle.depth t.push) r, ?_, hxy', htwin.release htwin' hc hinside⟩
  have hpush : (Oracle.push t : BitSolver) = t.push := rfl
  rw [Session.inScope, hpush, hbody']

theorem nested_bind {x₀ : T} {body : Session T BitSolver α} {f : α → T → Session S BitSolver β}
    (hbody : Retraces last declared Eq body) (hf : ∀ a x, Retraces last declared E (f a x)) :
    Retraces last declared E
      (nested x₀ body >>= fun (r, x) => Session.ofExcept r >>= fun a => f a x) := by
  refine ⟨hbody.respects.nested.bind frame_inside fun (r, x) => ?_, ?_⟩
  · exact (respects_ofExcept frame_inside r).bind frame_inside fun a => (hf a x).respects
  intro x y s t b x' s' hxy htwin hrun hlast
  obtain ⟨⟨r, x₁⟩, ⟨x₂, s₁⟩, hnested, hrun₁⟩ := ok_of_bind hrun
  obtain ⟨a, w, hresult, hrest⟩ := ok_of_bind hrun₁
  obtain ⟨rfl, rfl⟩ := ofExcept_ok hresult
  cases hrun : body (x₀, s) with
  | mk r' st =>
    obtain ⟨x₃, s₃⟩ := st
    rw [nested, hrun] at hnested
    cases hnested
    obtain ⟨c, hc⟩ := htwin.keeps
    obtain ⟨es, hs₁⟩ := (hbody.respects.adds hrun hc).keeps
    have hadds := ((hf a x₁).respects.adds hrest hs₁).adds.trans hlast
    obtain ⟨y₁, t₁, hrun', hy₁, htwin₁⟩ := hbody.again rfl htwin hrun hadds
    subst hy₁
    obtain ⟨y', t', hrest', hxy', htwin'⟩ := (hf a x₁).again hxy htwin₁ hrest hlast
    refine ⟨y', t', ?_, hxy', htwin'⟩
    have hnested' : (nested x₀ body : Session S BitSolver _) (y, t) = (.ok (.ok a, x₁), (y, t₁)) := by
      rw [nested, hrun']
    rw [bind_ok hnested']
    exact hrest'

end Retraces

def ask {σ : Type} [Oracle σ] (count : S → S) (e e' : Expr) : Session S σ Answer := do
  Session.assert e
  Session.assert e'
  Session.update count
  Session.request Oracle.check

namespace Retraces

variable {count : S → S} {e e' : Expr} {f : Answer → Session S BitSolver β}
  (hroom : last.store.size ≤ last.nodeLimit) (hcount : ∀ {x y}, E x y → E (count x) (count y))
  (hrespects : ∀ a, (f a).Respects fun s t => ∀ c, s.Keeps c → Inside s t c)
  (hsame : ∀ {a b x x' s s'}, f a (x, s) = (.ok b, (x', s')) → s' = s)
  (hf : ∀ {a b x y s t x'}, E x y → Twin last declared s t → Alike s t → s.sorts.Fits e' →
    f a (x, s) = (.ok b, (x', s)) → ∃ y', f a (y, t) = (.ok b, (y', t)) ∧ E x' y')
include hroom hcount hrespects hsame hf

theorem assert_check : Retraces last declared E (do
    Session.assert e'
    Session.update count
    f (← Session.request Oracle.check)) := by
  refine ⟨?_, ?_⟩
  · refine (respects_assert frame_inside e').bind frame_inside fun _ => ?_
    refine (respects_update frame_inside count).bind frame_inside fun _ => ?_
    exact (respects_request frame_inside.check).bind frame_inside hrespects
  intro x y s t b x' s' hxy htwin hrun hlast
  obtain ⟨⟨⟩, ⟨x₁, s₁⟩, h₁, hrun₁⟩ := ok_of_bind hrun
  obtain ⟨hx₁, hassert⟩ := request_ok h₁
  obtain rfl : x₁ = x := hx₁
  obtain ⟨⟨⟩, t₂, h₂, hrun₂⟩ := ok_of_bind hrun₁
  cases h₂
  obtain ⟨a, ⟨x₃, s₃⟩, h₃, hread⟩ := ok_of_bind hrun₂
  obtain ⟨hx₃, hcheck⟩ := request_ok h₃
  obtain rfl : x₃ = count x₁ := hx₃
  obtain rfl : s' = s₃ := hsame hread
  have hassert : BitSolver.assert e' s = (.ok (), s₁) := hassert
  have hcheck : BitSolver.check s₁ = (.ok a, s') := hcheck
  obtain ⟨c, hc⟩ := htwin.keeps
  obtain ⟨es, hs₁⟩ : ∃ es, s₁.Keeps (c.addAll es) := by
    have hinside := frame_inside.assert e' s c hc
    rw [show (Oracle.assert e' : Request BitSolver Unit) s = (.ok (), s₁) from hassert] at hinside
    exact hinside.keeps
  obtain ⟨hadds, hsorts⟩ := hs₁.of_check hcheck
  obtain ⟨t₁, hassert', htwin₁, hfits⟩ := htwin.assert hassert (hadds.trans hlast)
  obtain ⟨t', hcheck', htwin', halike⟩ := htwin₁.check hroom hcheck hlast
  rw [← hsorts] at hfits
  obtain ⟨y', hread', hxy'⟩ := hf (hcount hxy) htwin' halike hfits hread
  refine ⟨y', t', ?_, hxy', htwin'⟩
  have h₁ : (Session.assert e' : Session S BitSolver Unit) (y, t) = (.ok (), (y, t₁)) :=
    request_eq hassert' y
  have h₂ : (Session.update count : Session S BitSolver Unit) (y, t₁) = (.ok (), (count y, t₁)) := rfl
  have h₃ : (Session.request Oracle.check : Session S BitSolver Answer) (count y, t₁) =
      (.ok a, (count y, t')) :=
    request_eq hcheck' (count y)
  rw [bind_ok h₁, bind_ok h₂, bind_ok h₃]
  exact hread'

theorem ask : Retraces last declared E (ask count e e' >>= f) := by
  have heq : (Session.ask count e e' >>= f) = (do
      Session.assert e
      Session.assert e'
      Session.update count
      f (← Session.request Oracle.check)) := by
    simp only [Session.ask, bind_assoc]
  rw [heq]
  exact (assert e).bind fun _ => assert_check hroom hcount hrespects hsame hf

end Retraces

end Session

section rounds

open Session

variable {last : BitSolver} {declared : String → Prop} {s t : BitSolver}

theorem Model.Agrees.mono {names names' : String → Prop} {m m' : Model} (h : Agrees names m m')
    (hsub : ∀ n, names' n → names n) : Agrees names' m m' :=
  fun n hn => h n (hsub n hn)

theorem requireModel_again {S : Type} {x x' : S} {m : Model} {s' : BitSolver} (h : Alike s t)
    (hrun : (requireModel : Session S BitSolver Model) (x, s) = (.ok m, (x', s'))) (y : S) :
    ∃ m', (requireModel : Session S BitSolver Model) (y, t) = (.ok m', (y, t)) ∧
      m.Agrees s.Known m' := by
  obtain ⟨hm, -⟩ := requireModel_ok hrun
  obtain ⟨m', hm', hagrees⟩ := h.model m hm
  have hm' : (Oracle.model? t : Option Model) = some m' := hm'
  have hlook : (look (fun o : BitSolver => Oracle.model? o) : Session S BitSolver _) (y, t) =
      (.ok (some m'), (y, t)) := by
    rw [look, hm']
  refine ⟨m', ?_, hagrees⟩
  rw [requireModel, bind_ok hlook]
  rfl

/-- A question in a scope of its own, and what is made of the model if there is one. -/
theorem Search.retraces_query {α β : Type} {e e' : Expr} {f : Answer → Search α BitSolver β}
    {g : Model → Search α BitSolver β} {b : β} (hroom : last.store.size ≤ last.nodeLimit)
    (hsat : f .sat = requireModel >>= g) (hunsat : f .unsat = pure b)
    (hunknown : ∀ reason, f (.unknown reason) = pure b)
    (hrespects : ∀ m, (g m).Respects fun s t => ∀ c, s.Keeps c → Inside s t c)
    (hsame : ∀ {a b x x' s s'}, f a (x, s) = (.ok b, (x', s')) → s' = s)
    (hg : ∀ {m m' b x s t x'}, Twin last declared s t → Alike s t → m.Agrees s.Known m' →
      s.sorts.Fits e' → g m (x, s) = (.ok b, (x', s)) → g m' (x, t) = (.ok b, (x', t))) :
    Retraces last declared Eq (inScope (Search.query e e' >>= f)) := by
  have heq : (Search.query e e' : Search α BitSolver Answer) =
      Session.ask (fun x => (x.1, { x.2 with calls := x.2.calls + 1 })) e e' := rfl
  rw [heq]
  apply Retraces.inScope
  apply Retraces.ask hroom _ _ hsame
  · intro a b x y s t x' hxy htwin halike hfits hread
    subst hxy
    refine ⟨x', ?_, rfl⟩
    cases a with
    | sat =>
      rw [hsat] at hread ⊢
      obtain ⟨m, ⟨x₁, s₁⟩, hmodel, hread⟩ := ok_of_bind hread
      obtain ⟨-, hx⟩ := requireModel_ok hmodel
      cases hx
      obtain ⟨m', hmodel', hagrees⟩ := requireModel_again halike hmodel x
      rw [bind_ok hmodel']
      exact hg htwin halike hagrees hfits hread
    | unsat =>
      rw [hunsat] at hread ⊢
      cases hread
      rfl
    | unknown reason =>
      rw [hunknown] at hread ⊢
      cases hread
      rfl
  · intro x y hxy
    rw [hxy]
  · intro a
    cases a with
    | sat =>
      rw [hsat]
      exact (respects_requireModel frame_inside).bind frame_inside hrespects
    | unsat =>
      rw [hunsat]
      exact respects_pure frame_inside b
    | unknown reason =>
      rw [hunknown]
      exact respects_pure frame_inside b

namespace Domain

variable {d : Domain} {m m' : Model}

theorem Legible.known_conditions (hd : d.Legible declared) (hknown : ∀ n, declared n → s.Known n)
    {v : d.Value} {focus : Option Nat}
    (hfits : s.sorts.Fits (.disj ((d.conditions v focus).map (·.2)))) :
    ∀ p ∈ d.conditions v focus, p.2.Among s.Known := by
  intro p hp
  obtain hamong | hnot := hd.conditions v focus
  · exact (hamong p hp).mono hknown
  obtain htrue | hall := Sorts.fits_of_disj hfits
  · obtain ⟨q, hq, htrue⟩ := List.mem_map.mp htrue
    exact absurd htrue (hnot q hq)
  obtain hfalse | hfits := hall p.2 (List.mem_map_of_mem hp)
  · rw [hfalse]
    exact Expr.among_bool false
  · intro q hq
    rw [Known, hfits.known q hq]
    rfl

theorem improve_again (hd : d.Reads declared) (hm : m.Agrees declared m')
    (hspawn : (Oracle.spawn t : BitSolver) = Oracle.spawn s) {row : Nat} {b : Bool}
    {x x' : d.Value × Statistics} {s' : BitSolver}
    (h : d.improve m row (x, s) = (.ok b, (x', s'))) :
    s' = s ∧ d.improve m' row (x, t) = (.ok b, (x', t)) := by
  obtain ⟨v, stats⟩ := x
  obtain ⟨v', stats'⟩ := x'
  obtain ⟨hedit, rfl⟩ := improve_ok h
  rw [← edit_congr hm hd hspawn row] at hedit
  refine ⟨rfl, ?_⟩
  rw [improve, hedit]

theorem improveAll_again (hd : d.Reads declared) (hm : m.Agrees s.Known m')
    (hknown : ∀ n, declared n → s.Known n)
    (hspawn : (Oracle.spawn t : BitSolver) = Oracle.spawn s) {conds : List (Nat × Expr)}
    (hconds : ∀ p ∈ conds, p.2.Among s.Known) {b : Bool} {x x' : d.Value × Statistics}
    (h : d.improveAll m conds (x, s) = (.ok b, (x', s))) :
    d.improveAll m' conds (x, t) = (.ok b, (x', t)) := by
  induction conds generalizing x b with
  | nil =>
    cases h
    rfl
  | cons rc rest ih =>
    obtain ⟨row, c⟩ := rc
    obtain ⟨hc, hrest⟩ := List.forall_mem_cons.mp hconds
    rw [improveAll] at h ⊢
    rw [hm.evalBool hc]
    split at h
    · rename_i htrue
      rw [if_pos htrue]
      obtain ⟨changed, ⟨x₁, s₁⟩, himprove, h⟩ := ok_of_bind h
      obtain ⟨more, ⟨x₂, s₂⟩, hall, h⟩ := ok_of_bind h
      cases h
      obtain ⟨hs₁, himprove'⟩ := improve_again hd (hm.mono hknown) hspawn himprove
      obtain rfl : s = s₁ := hs₁.symm
      rw [bind_ok himprove', bind_ok (ih hrest hall)]
      rfl
    · rename_i hfalse
      rw [if_neg hfalse]
      exact ih hrest h

theorem retraces_enumerate (hd : d.Legible declared) (hroom : last.store.size ≤ last.nodeLimit)
    (focus : Option Nat) : Retraces last declared Eq (d.enumerate focus) := by
  refine ⟨d.enumerate_congr frame_inside.congruence focus, ?_⟩
  intro x y s t b x' s' hxy htwin hrun hlast
  subst hxy
  obtain ⟨v, stats⟩ := x
  rw [enumerate_eq] at hrun ⊢
  split at hrun
  · rename_i hempty
    cases hrun
    rw [if_pos hempty]
    exact ⟨_, t, rfl, rfl, htwin⟩
  · rename_i hempty
    rw [if_neg hempty]
    refine (Search.retraces_query (f := d.improving _) hroom rfl rfl (fun _ => rfl)
      (fun m => d.improveAll_congr frame_inside.congruence m _) (fun h => (improving_ok h).1) ?_).again rfl
      htwin hrun hlast
    intro m m' b x s t x' htwin halike hagrees hfits hall
    exact improveAll_again hd.reads hagrees htwin.known halike.spawn
      (hd.known_conditions htwin.known hfits) hall

end Domain

namespace TemplateDomain

variable {d : TemplateDomain} {r : TemplateRow}

theorem retraces_fitting {S : Type} {E : S → S → Prop} (x : Option Int) :
    Retraces last declared E (fitting x : Session S BitSolver Int) := by
  cases x with
  | some k => exact .pure k
  | none => exact .ofExcept (.error _)

theorem retraces_reaches (hr : r.post.Among declared) (hroom : last.store.size ≤ last.nodeLimit)
    (assumption : Expr) (bound : Int) :
    Retraces last declared Eq (reaches r assumption bound) := by
  rw [reaches_eq]
  refine (retraces_fitting _).bind fun k => ?_
  refine Search.retraces_query hroom rfl rfl (fun _ => rfl) ?_ (fun h => (reading_ok h).1) ?_
  · intro m
    exact (respects_ofExcept frame_inside _).bind frame_inside fun _ => respects_pure frame_inside _
  · intro m m' b x s t x' htwin halike hagrees _ hread
    have hpost : r.postValue m' = r.postValue m := (hagrees.mono htwin.known).requireInt hr
    rw [hpost]
    obtain ⟨k, u, hvalue, hresult⟩ := ok_of_bind hread
    obtain ⟨hk, rfl⟩ := ofExcept_ok hvalue
    cases hresult
    rw [hk]
    rfl

theorem retraces_settle (hr : r.post.Among declared) (hroom : last.store.size ≤ last.nodeLimit)
    (assumption : Expr) (fuel : Nat) (lower upper : Int) :
    Retraces last declared Eq (settle r assumption fuel lower upper) := by
  induction fuel generalizing lower upper with
  | zero => exact .pure lower
  | succ fuel ih =>
    rw [settle]
    split
    · refine (retraces_fitting _).bind fun mid => ?_
      refine (retraces_reaches hr hroom assumption mid).bind fun reached => ?_
      cases reached with
      | some v => exact ih _ _
      | none => exact (retraces_fitting _).bind fun _ => ih _ _
    · exact .pure lower

theorem postValue_again {i : Nat} {m m' : Model} (hd : d.Reads declared)
    (hm : m.Agrees declared m') :
    (do (← d.row i).postValue m' : Except Error Int) = (do (← d.row i).postValue m) := by
  cases hrow : d.row i with
  | error e => rfl
  | ok r => exact hm.requireInt (hd r (List.mem_of_getElem? (row_ok.mp hrow))).2

theorem find?_again {conds : List (Nat × Expr)} {names : String → Prop} {m m' : Model}
    (hm : m.Agrees names m') (hconds : ∀ p ∈ conds, p.2.Among names) :
    conds.find? (fun (_, c) => m'.evalBool c = some true) =
      conds.find? (fun (_, c) => m.evalBool c = some true) := by
  apply List.find?_congr
  rintro ⟨i, c⟩ hc
  dsimp only
  rw [hm.evalBool (hconds (i, c) hc)]

theorem retraces_witness (hd : (Domain.template d).Legible declared)
    (hroom : last.store.size ≤ last.nodeLimit) (v : List RowValue) (focus : Option Nat) :
    Retraces last declared Eq (d.witness v (d.conditions v focus)) := by
  rw [witness_eq]
  refine Search.retraces_query hroom rfl rfl (fun _ => rfl) ?_ (fun h => (picking_ok h).1) ?_
  · intro m
    split
    · exact respects_pure frame_inside none
    · refine (respects_ofExcept frame_inside _).bind frame_inside fun _ => ?_
      exact respects_pure frame_inside _
  · intro m m' b x s t x' htwin halike hagrees hfits hread
    have hknown : ∀ p ∈ d.conditions v focus, p.2.Among s.Known :=
      hd.known_conditions htwin.known hfits
    rw [find?_again hagrees hknown]
    cases hfind : (d.conditions v focus).find? (fun (_, c) => m.evalBool c = some true) with
    | none =>
      simp only [hfind] at hread
      cases hread
      rfl
    | some ic =>
      obtain ⟨i, c⟩ := ic
      simp only [hfind] at hread ⊢
      rw [postValue_again hd.reads (hagrees.mono htwin.known)]
      obtain ⟨k, u, hvalue, hresult⟩ := ok_of_bind hread
      obtain ⟨hk, rfl⟩ := ofExcept_ok hvalue
      cases hresult
      rw [hk]
      rfl

theorem retraces_bisect (hd : (Domain.template d).Legible declared)
    (hroom : last.store.size ≤ last.nodeLimit) (focus : Option Nat) :
    Retraces last declared Eq (d.bisect focus) := by
  refine ⟨d.bisect_congr frame_inside.congruence focus, ?_⟩
  intro x y s t b x' s' hxy htwin hrun hlast
  subst hxy
  obtain ⟨v, stats⟩ := x
  rw [bisect_eq] at hrun ⊢
  split at hrun
  · rename_i hempty
    cases hrun
    rw [if_pos hempty]
    exact ⟨_, t, rfl, rfl, htwin⟩
  · rename_i hempty
    rw [if_neg hempty]
    refine Retraces.again ((retraces_witness hd hroom v focus).bind fun found => ?_) rfl htwin hrun
      hlast
    cases found with
    | none => exact .pure false
    | some found =>
      obtain ⟨i, lower⟩ := found
      refine Retraces.ofExcept_bind fun r hrow => ?_
      have hr := (hd.reads r (List.mem_of_getElem? (row_ok.mp hrow))).2
      refine (retraces_settle hr hroom _ _ _ _).bind fun best => ?_
      refine (Retraces.ofExcept _).bind fun raised => ?_
      obtain ⟨changed, value⟩ := raised
      refine (Retraces.update fun hxy => ?_).bind fun _ => .pure changed
      rw [hxy]

end TemplateDomain

end rounds

end InvariantSynthesis
