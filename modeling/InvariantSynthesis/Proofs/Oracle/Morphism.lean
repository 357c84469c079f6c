import InvariantSynthesis.Proofs.Oracle.Contract

/-!
Oracles behind oracles. A function from the states of one oracle to the states of another one may
agree with all that an oracle is used for. Then a session with the first oracle is a session with the
second one: it has the same result, leaves the same state of its own, and the oracle that it leaves
corresponds to the other. So nothing depends on whether somebody listens to an oracle.
-/

namespace InvariantSynthesis

/-- A function between the states of two oracles that behave alike. -/
structure Oracle.Morphism {τ σ : Type} [Oracle τ] [Oracle σ] (f : τ → σ) : Prop where
  declare : ∀ names o, (Oracle.declare names : Request σ Unit) (f o) =
    Prod.map id f ((Oracle.declare names : Request τ Unit) o)
  assert : ∀ e o, (Oracle.assert e : Request σ Unit) (f o) =
    Prod.map id f ((Oracle.assert e : Request τ Unit) o)
  push : ∀ o, Oracle.push (f o) = f (Oracle.push o)
  pop : ∀ o, (Oracle.pop : Request σ Unit) (f o) =
    Prod.map id f ((Oracle.pop : Request τ Unit) o)
  depth : ∀ o, Oracle.depth (f o) = Oracle.depth o
  range : ∀ o, Oracle.range (f o) = Oracle.range o
  check : ∀ o, (Oracle.check : Request σ Answer) (f o) =
    Prod.map id f ((Oracle.check : Request τ Answer) o)
  model? : ∀ o, Oracle.model? (f o) = Oracle.model? o
  spawn : ∀ o, Oracle.spawn (f o) = f (Oracle.spawn o)

namespace Oracle.Morphism

variable {τ σ : Type} [Oracle τ] [Oracle σ] {f : τ → σ} (hf : Oracle.Morphism f)

include hf

theorem closeTo (level fuel : Nat) (o : τ) :
    Oracle.closeTo level fuel (f o) = f (Oracle.closeTo level fuel o) := by
  induction fuel generalizing o with
  | zero => rfl
  | succ fuel ih =>
    rw [Oracle.closeTo, Oracle.closeTo, hf.depth, hf.pop]
    by_cases hlevel : level ≤ Oracle.depth o
    · rw [if_pos hlevel, if_pos hlevel]
      cases (Oracle.pop : Request τ Unit) o with
      | mk x p =>
        cases x with
        | ok => exact ih p
        | error => rfl
    · rw [if_neg hlevel, if_neg hlevel]

theorem release (level : Nat) (o : τ) :
    Oracle.release level (f o) = f (Oracle.release level o) := by
  rw [Oracle.release, Oracle.release, hf.depth]
  exact hf.closeTo level _ o

end Oracle.Morphism

/-- An oracle can be relied on if the one that it corresponds to can. -/
def Faithful.comap {τ σ : Type} [Oracle τ] [Oracle σ] {f : τ → σ} (hf : Oracle.Morphism f)
    {range : Int × Int} (F : Faithful σ range) : Faithful τ range where
  Keeps o := F.Keeps (f o)
  Later o p := F.Later (f o) (f p)
  zero_mem := F.zero_mem
  bounded := F.bounded
  later_refl o := F.later_refl (f o)
  later_trans h h' := F.later_trans h h'
  range_eq {o _ _} h := (hf.range o).symm.trans (F.range_eq h)
  depth_eq {o _ _} h := (hf.depth o).symm.trans (F.depth_eq h)
  fits h := F.fits h
  declare {o _ _ names _} h hrun := F.declare h (by rw [hf.declare, hrun]; rfl)
  assert {o _ _ e _} h hrun := F.assert h (by rw [hf.assert, hrun]; rfl)
  push {o _ _} h := by
    rw [← hf.push]
    exact F.push h
  pop {o _ _} h houter := by
    obtain ⟨p, hpop, hlater, hkeeps⟩ := F.pop h houter
    rw [hf.pop] at hpop
    cases hrun : (Oracle.pop : Request τ Unit) o with
    | mk x q =>
      rw [hrun] at hpop
      cases hpop
      exact ⟨q, rfl, hlater, hkeeps⟩
  check {o _ _ _ _} h hrun := F.check h (by rw [hf.check, hrun]; rfl)
  unsat {o _ _ p} h hrun := F.unsat h (p := f p) (by rw [hf.check, hrun]; rfl)
  sat {o _ _ p _} h hrun hm :=
    F.sat h (p := f p) (by rw [hf.check, hrun]; rfl) ((hf.model? p).trans hm)

namespace Session

variable {S T τ σ α β : Type}

/-- The second session is the first one, with corresponding oracles. -/
def Mirrors (f : τ → σ) (a : Session S τ α) (b : Session S σ α) : Prop :=
  ∀ s o, b (s, f o) = Prod.map id (Prod.map id f) (a (s, o))

variable {f : τ → σ}

theorem mirrors_pure (x : α) : Mirrors f (pure x : Session S τ α) (pure x) := fun _ _ => rfl

theorem mirrors_throw (e : Error) : Mirrors f (throw e : Session S τ α) (throw e) := fun _ _ => rfl

theorem mirrors_ofExcept (r : Except Error α) : Mirrors f (ofExcept r : Session S τ α) (ofExcept r) :=
  fun _ _ => rfl

theorem mirrors_state : Mirrors f (state : Session S τ S) state := fun _ _ => rfl

theorem mirrors_update (g : S → S) : Mirrors f (update g : Session S τ Unit) (update g) :=
  fun _ _ => rfl

theorem mirrors_look {g : τ → α} {g' : σ → α} (h : ∀ o, g' (f o) = g o) :
    Mirrors f (look g : Session S τ α) (look g') := by
  intro s o
  rw [look, look, h]
  rfl

theorem mirrors_request {r : Request τ α} {r' : Request σ α}
    (h : ∀ o, r' (f o) = Prod.map id f (r o)) : Mirrors f (request r : Session S τ α) (request r') := by
  intro s o
  rw [request, request, h]
  cases r o with
  | mk x p => cases x <;> rfl

theorem Mirrors.bind {a : Session S τ α} {b : Session S σ α} {g : α → Session S τ β}
    {g' : α → Session S σ β} (h : Mirrors f a b) (hg : ∀ x, Mirrors f (g x) (g' x)) :
    Mirrors f (a >>= g) (b >>= g') := by
  intro s o
  have hb := h s o
  cases ha : a (s, o) with
  | mk x t =>
    obtain ⟨t, p⟩ := t
    rw [ha] at hb
    cases x with
    | ok x =>
      rw [bind_ok ha, bind_ok hb]
      exact hg x t p
    | error e =>
      rw [bind_error ha, bind_error hb]
      rfl

theorem mirrors_forM {g : α → Session S τ Unit} {g' : α → Session S σ Unit}
    (h : ∀ x, Mirrors f (g x) (g' x)) (xs : List α) : Mirrors f (xs.forM g) (xs.forM g') := by
  induction xs with
  | nil => exact mirrors_pure ()
  | cons x xs ih =>
    rw [List.forM_eq_forM, List.forM_cons, List.forM_eq_forM, List.forM_cons]
    exact (h x).bind fun _ => ih

theorem Mirrors.nested {t : T} {a : Session T τ α} {b : Session T σ α} (h : Mirrors f a b) :
    Mirrors f (nested t a : Session S τ _) (nested t b) := by
  intro s o
  rw [Session.nested, Session.nested, h t o]
  rfl

variable [Oracle τ] [Oracle σ] (hf : Oracle.Morphism f)

include hf

theorem mirrors_assert (e : Expr) : Mirrors f (assert e : Session S τ Unit) (assert e) :=
  mirrors_request (hf.assert e)

theorem Mirrors.inScope {a : Session S τ α} {b : Session S σ α} (h : Mirrors f a b) :
    Mirrors f (inScope a) (inScope b) := by
  intro s o
  rw [Session.inScope, Session.inScope, hf.push, h s (Oracle.push o)]
  show _ = Prod.map id (Prod.map id f) (_, _, _)
  rw [Prod.map_apply, Prod.map_apply, ← hf.release, hf.depth]
  rfl

end Session

end InvariantSynthesis
