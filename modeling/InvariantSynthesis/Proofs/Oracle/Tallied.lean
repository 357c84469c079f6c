import InvariantSynthesis.Proofs.Oracle.Morphism

namespace InvariantSynthesis

structure Tallied (σ : Type) where
  inner : σ
  /-- The checks so far. -/
  checks : Nat := 0

namespace Tallied

variable {σ α : Type} [Oracle σ]

def forward (r : Request σ α) : Request (Tallied σ) α := fun ⟨inner, checks⟩ =>
  let (a, inner) := r inner
  (a, ⟨inner, checks⟩)

def check : Request (Tallied σ) Answer := fun ⟨inner, checks⟩ =>
  let (a, inner) := (Oracle.check : Request σ Answer) inner
  (a, ⟨inner, checks + 1⟩)

end Tallied

instance {σ : Type} [Oracle σ] : Oracle (Tallied σ) where
  declare names := Tallied.forward (Oracle.declare names)
  assert e := Tallied.forward (Oracle.assert e)
  push s := { s with inner := Oracle.push s.inner }
  pop := Tallied.forward Oracle.pop
  depth s := Oracle.depth s.inner
  range s := Oracle.range s.inner
  check := Tallied.check
  model? s := Oracle.model? s.inner
  spawn s := { inner := Oracle.spawn s.inner }

namespace Tallied

variable {σ : Type} [Oracle σ]

theorem morphism_inner : Oracle.Morphism (inner : Tallied σ → σ) where
  declare _ _ := rfl
  assert _ _ := rfl
  push _ := rfl
  pop _ := rfl
  depth _ := rfl
  range _ := rfl
  check _ := rfl
  model? _ := rfl
  spawn _ := rfl

theorem checks_closeTo (level fuel : Nat) (o : Tallied σ) :
    (Oracle.closeTo level fuel o).checks = o.checks := by
  induction fuel generalizing o with
  | zero => rfl
  | succ fuel ih =>
    rw [Oracle.closeTo]
    by_cases hlevel : level ≤ Oracle.depth o
    · rw [if_pos hlevel]
      have hpop : ((Oracle.pop : Request (Tallied σ) Unit) o).2.checks = o.checks := rfl
      cases hrun : (Oracle.pop : Request (Tallied σ) Unit) o with
      | mk x p =>
        rw [hrun] at hpop
        cases x with
        | ok => exact (ih p).trans hpop
        | error => exact hpop
    · rw [if_neg hlevel]

theorem checks_release (level : Nat) (o : Tallied σ) :
    (Oracle.release level o).checks = o.checks :=
  checks_closeTo level _ o

def total : List (Tallied σ) → Nat
  | [] => 0
  | o :: os => o.checks + total os

omit [Oracle σ] in
@[simp]
theorem total_append (os ps : List (Tallied σ)) : total (os ++ ps) = total os + total ps := by
  induction os with
  | nil => rw [List.nil_append, total, Nat.zero_add]
  | cons o os ih => rw [List.cons_append, total, ih, total, Nat.add_assoc]

end Tallied

/-- Between two states of a session, as many checks were counted in its statistics as its oracle and
some others were asked, and as many instances as there are others. -/
structure Balanced {S σ : Type} (stats : S → Statistics) (others : List (Tallied σ))
    (s t : S × Tallied σ) : Prop where
  instances : (stats t.1).instances = (stats s.1).instances + others.length
  calls : (stats t.1).calls + s.2.checks =
    (stats s.1).calls + t.2.checks + Tallied.total others

namespace Balanced

variable {S σ : Type} {stats : S → Statistics} {os ps : List (Tallied σ)} {s t u : S × Tallied σ}

theorem refl (s : S × Tallied σ) : Balanced stats [] s s := ⟨rfl, rfl⟩

theorem of_eq (hstats : stats t.1 = stats s.1) (hchecks : t.2.checks = s.2.checks) :
    Balanced stats [] s t := by
  constructor
  · rw [hstats]
    rfl
  · rw [hstats, hchecks]
    rfl

theorem trans (h : Balanced stats os s t) (h' : Balanced stats ps t u) :
    Balanced stats (os ++ ps) s u := by
  obtain ⟨hi, hc⟩ := h
  obtain ⟨hi', hc'⟩ := h'
  constructor
  · rw [hi', hi, List.length_append]
    omega
  · rw [Tallied.total_append]
    omega

end Balanced

namespace Session

variable {S σ α β : Type} {stats : S → Statistics}

/-- However the session ends, it has counted the checks of its oracle, and there is no other. -/
def Counts (stats : S → Statistics) (body : Session S (Tallied σ) α) : Prop :=
  ∀ s o, Balanced stats [] (s, o) (body (s, o)).2

theorem counts_of_eq {body : Session S (Tallied σ) α}
    (hstats : ∀ s o, stats (body (s, o)).2.1 = stats s)
    (hchecks : ∀ s o, (body (s, o)).2.2.checks = o.checks) : body.Counts stats :=
  fun s o => .of_eq (hstats s o) (hchecks s o)

theorem counts_pure (a : α) : Counts stats (pure a : Session S (Tallied σ) α) :=
  fun s o => .refl (s, o)

theorem counts_throw (e : Error) : Counts stats (throw e : Session S (Tallied σ) α) :=
  fun s o => .refl (s, o)

theorem counts_ofExcept (r : Except Error α) :
    Counts stats (ofExcept r : Session S (Tallied σ) α) :=
  fun s o => .refl (s, o)

theorem counts_look (f : Tallied σ → α) : Counts stats (look f : Session S (Tallied σ) α) :=
  fun s o => .refl (s, o)

theorem counts_state : Counts stats (state : Session S (Tallied σ) S) := fun s o => .refl (s, o)

theorem counts_update {f : S → S} (h : ∀ s, stats (f s) = stats s) :
    Counts stats (update f : Session S (Tallied σ) Unit) :=
  counts_of_eq (fun s _ => h s) fun _ _ => rfl

theorem counts_request {r : Request (Tallied σ) α} (h : ∀ o, (r o).2.checks = o.checks) :
    Counts stats (request r : Session S (Tallied σ) α) := by
  intro s o
  have hchecks := h o
  cases hrun : r o with
  | mk x p =>
    rw [hrun] at hchecks
    rw [request, hrun]
    cases x <;> exact .of_eq rfl hchecks

theorem Counts.bind {r : Session S (Tallied σ) α} {f : α → Session S (Tallied σ) β}
    (hr : r.Counts stats) (hf : ∀ a, (f a).Counts stats) : (r >>= f).Counts stats :=
  fun s o => bind_related (fun _ _ _ => Balanced.trans) (fun t => hr t.1 t.2)
    (fun a t => hf a t.1 t.2) (s, o)

theorem counts_forM {f : α → Session S (Tallied σ) Unit} (h : ∀ a, (f a).Counts stats)
    (as : List α) : Counts stats (as.forM f) :=
  fun s o => forM_related (fun _ _ _ => Balanced.trans) .refl (fun a t => h a t.1 t.2) as (s, o)

variable [Oracle σ]

theorem counts_declare (names : List TypedName) :
    Counts stats (request (Oracle.declare names) : Session S (Tallied σ) Unit) :=
  counts_request fun _ => rfl

theorem counts_assert (e : Expr) : Counts stats (assert e : Session S (Tallied σ) Unit) :=
  counts_request fun _ => rfl

theorem counts_check {f : S → S}
    (h : ∀ s, stats (f s) = ⟨(stats s).instances, (stats s).calls + 1⟩) :
    Counts stats (update f >>= fun _ => request Oracle.check : Session S (Tallied σ) Answer) := by
  intro s o
  have hupdate : (update f : Session S (Tallied σ) Unit) (s, o) = (.ok (), (f s, o)) := rfl
  have hchecks : ((Oracle.check : Request (Tallied σ) Answer) o).2.checks = o.checks + 1 := rfl
  rw [bind_ok hupdate]
  cases hrun : (Oracle.check : Request (Tallied σ) Answer) o with
  | mk x p =>
    rw [hrun] at hchecks
    rw [request, hrun]
    have hbalanced : Balanced stats [] (s, o) (f s, p) := by
      constructor
      · rw [h]
        rfl
      · rw [h, hchecks]
        show (stats s).calls + 1 + o.checks = (stats s).calls + (o.checks + 1) + 0
        omega
    cases x <;> exact hbalanced

theorem counts_requireModel : Counts stats (requireModel : Session S (Tallied σ) Model) := by
  intro s o
  rw [requireModel_snd (s, o)]
  exact .refl (s, o)

theorem balanced_leave (body : Session S (Tallied σ) α) (s : S) (o : Tallied σ) :
    Balanced stats [] (body (s, Oracle.push o)).2 (inScope body (s, o)).2 :=
  .of_eq rfl (Tallied.checks_release _ _)

theorem balanced_inScope {body : Session S (Tallied σ) α} {others : List (Tallied σ)} {s : S}
    {o : Tallied σ} (h : Balanced stats others (s, Oracle.push o) (body (s, Oracle.push o)).2) :
    Balanced stats others (s, o) (inScope body (s, o)).2 := by
  have hclosed := h.trans (balanced_leave body s o)
  rw [List.append_nil] at hclosed
  exact ⟨hclosed.instances, hclosed.calls⟩

theorem Counts.inScope {body : Session S (Tallied σ) α} (h : body.Counts stats) :
    (inScope body).Counts stats :=
  fun s o => balanced_inScope (h s (Oracle.push o))

end Session

end InvariantSynthesis
