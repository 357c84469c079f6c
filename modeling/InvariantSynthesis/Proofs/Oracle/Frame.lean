import InvariantSynthesis.Proofs.Oracle.Session

/-!
What sessions leave of an oracle. A relation between the states of an oracle that single requests
and closed scopes respect is respected by whole sessions, on every way out of them: a session is put
together by sequencing, and scopes are opened in no other way than around a session. In the same way
a part of the session's own state is left alone that no update touches.
-/

namespace InvariantSynthesis

/-- A relation between the states of an oracle that every request respects, also one that fails, and
every scope that is closed again. -/
structure Oracle.Frame {σ : Type} [Oracle σ] (R : σ → σ → Prop) : Prop where
  refl : ∀ o, R o o
  trans : ∀ {o p q}, R o p → R p q → R o q
  declare : ∀ names o, R o ((Oracle.declare names : Request σ Unit) o).2
  assert : ∀ e o, R o ((Oracle.assert e : Request σ Unit) o).2
  check : ∀ o, R o ((Oracle.check : Request σ Answer) o).2
  scope : ∀ {o q}, R (push o) q → R o (release (depth (push o)) q)

namespace Session

variable {S T σ α β : Type}

/-- However the session ends, the oracle that it leaves is related to the one that it was given. -/
def Respects (R : σ → σ → Prop) (body : Session S σ α) : Prop :=
  ∀ s o, R o (body (s, o)).2.2

variable [Oracle σ] {R : σ → σ → Prop} (hR : Oracle.Frame R)

include hR

theorem respects_of_eq {body : Session S σ α} (h : ∀ s o, (body (s, o)).2.2 = o) :
    body.Respects R := by
  intro s o
  rw [h]
  exact hR.refl o

theorem respects_pure (a : α) : Respects R (pure a : Session S σ α) :=
  respects_of_eq hR fun _ _ => rfl

theorem respects_ofExcept (r : Except Error α) : Respects R (ofExcept r : Session S σ α) :=
  respects_of_eq hR fun _ _ => rfl

theorem respects_look (f : σ → α) : Respects R (look f : Session S σ α) :=
  respects_of_eq hR fun _ _ => rfl

theorem respects_state : Respects R (state : Session S σ S) :=
  respects_of_eq hR fun _ _ => rfl

theorem respects_update (f : S → S) : Respects R (update f : Session S σ Unit) :=
  respects_of_eq hR fun _ _ => rfl

omit [Oracle σ] hR in
theorem respects_request {r : Request σ α} (h : ∀ o, R o (r o).2) :
    Respects R (request r : Session S σ α) := by
  intro s o
  have hstate : ((request r : Session S σ α) (s, o)).2.2 = (r o).2 := by
    rw [request]
    rcases r o with ⟨_ | _, _⟩ <;> rfl
  rw [hstate]
  exact h o

theorem respects_assert (e : Expr) : Respects R (assert e : Session S σ Unit) :=
  respects_request (hR.assert e)

theorem Respects.bind {r : Session S σ α} {f : α → Session S σ β} (hr : r.Respects R)
    (hf : ∀ a, (f a).Respects R) : (r >>= f).Respects R :=
  fun s o => bind_related (Q := fun t u => R t.2 u.2) (fun _ _ _ => hR.trans)
    (fun t => hr t.1 t.2) (fun a t => hf a t.1 t.2) (s, o)

theorem respects_requireModel : Respects R (requireModel : Session S σ Model) :=
  respects_of_eq hR fun s o => by rw [requireModel_snd (s, o)]

theorem respects_forM {f : α → Session S σ Unit} (h : ∀ a, (f a).Respects R) (as : List α) :
    Respects R (as.forM f) :=
  fun s o => forM_related (Q := fun t u => R t.2 u.2) (fun _ _ _ => hR.trans)
    (fun t => hR.refl t.2) (fun a t => h a t.1 t.2) as (s, o)

theorem Respects.inScope {body : Session S σ α} (h : body.Respects R) :
    (inScope body).Respects R :=
  fun s o => hR.scope (h s (Oracle.push o))

omit [Oracle σ] hR in
theorem Respects.nested {t : T} {body : Session T σ α} (h : body.Respects R) :
    Respects R (nested t body : Session S σ (Except Error α × T)) :=
  fun _ o => h t o

omit hR in
theorem Respects.scoped {f : S → S} {body : Session S σ α} (h : body.Respects R) (s : S) (o : σ) :
    ∃ q, R (Oracle.push o) q ∧ ((update f >>= fun _ => Session.inScope body) (s, o)).2.2 =
      Oracle.release (Oracle.depth (Oracle.push o)) q :=
  ⟨_, h (f s) (Oracle.push o), rfl⟩

end Session

namespace Session

variable {S σ α β γ : Type} {f : S → γ}

/-- However the session ends, a part of its state is the same. -/
def Leaves (f : S → γ) (body : Session S σ α) : Prop := ∀ s o, f (body (s, o)).2.1 = f s

theorem leaves_pure (a : α) : Leaves f (pure a : Session S σ α) := fun _ _ => rfl

theorem leaves_throw (e : Error) : Leaves f (throw e : Session S σ α) := fun _ _ => rfl

theorem leaves_state : Leaves f (state : Session S σ S) := fun _ _ => rfl

theorem leaves_update {g : S → S} (h : ∀ s, f (g s) = f s) :
    Leaves f (update g : Session S σ Unit) :=
  fun s _ => h s

theorem leaves_request (r : Request σ α) : Leaves f (request r : Session S σ α) := by
  intro s o
  rw [request]
  cases r o with
  | mk x p => cases x <;> rfl

theorem Leaves.bind {r : Session S σ α} {g : α → Session S σ β} (hr : r.Leaves f)
    (hg : ∀ a, (g a).Leaves f) : (r >>= g).Leaves f :=
  fun s o => bind_related (Q := fun t u : S × σ => f u.1 = f t.1) (fun _ _ _ h h' => h'.trans h)
    (fun t => hr t.1 t.2) (fun a t => hg a t.1 t.2) (s, o)

theorem leaves_forM {g : α → Session S σ Unit} (h : ∀ a, (g a).Leaves f) (as : List α) :
    Leaves f (as.forM g) :=
  fun s o => forM_related (Q := fun t u : S × σ => f u.1 = f t.1) (fun _ _ _ h h' => h'.trans h)
    (fun _ => rfl) (fun a t => h a t.1 t.2) as (s, o)

theorem Leaves.inScope [Oracle σ] {body : Session S σ α} (h : body.Leaves f) :
    (inScope body).Leaves f :=
  fun s o => h s (Oracle.push o)

theorem leaves_requireModel [Oracle σ] : Leaves f (requireModel : Session S σ Model) :=
  fun s o => by rw [requireModel_snd (s, o)]

end Session

end InvariantSynthesis
