import InvariantSynthesis.Domain.Template
import InvariantSynthesis.Proofs.Expr.Value

namespace InvariantSynthesis

namespace Expr

theorem occurrences_negate (e : Expr) : (negate e).occurrences = e.occurrences := by
  unfold negate
  split
  · rfl
  · rw [Expr.occurrences.eq_def (.not _)]
  · rw [Expr.occurrences.eq_def (.not _)]

theorem occurrences_minus (a b : Expr) :
    (minus a b).occurrences = a.occurrences ++ b.occurrences := by
  unfold minus
  split
  · split
    · exact (List.append_nil _).symm
    · rfl
  · rfl

def Mentions (e : Expr) (n : String) : Prop := ∃ sort, (n, sort) ∈ e.occurrences

def Among (names : String → Prop) (e : Expr) : Prop := ∀ p ∈ e.occurrences, names p.1

variable {names : String → Prop} {e : Expr}

theorem among_mentions (e : Expr) : e.Among e.Mentions := fun p hp => ⟨p.2, hp⟩

theorem Among.mono {names' : String → Prop} (h : e.Among names) (hsub : ∀ n, names n → names' n) :
    e.Among names' := fun p hp => hsub p.1 (h p hp)

theorem among_of_mentionsOnly {vars : NameSet} (h : e.mentionsOnly vars = true) :
    e.Among fun n => vars.contains n = true := fun p hp => List.all_eq_true.mp h p hp

theorem among_bool (b : Bool) : (Expr.bool b).Among names := fun p hp => by
  rw [occurrences] at hp
  cases hp

theorem among_int (k : Int) : (Expr.int k).Among names := fun p hp => by
  rw [occurrences] at hp
  cases hp

theorem among_operand {a : Expr} (h : a.Among names) (he : e.occurrences = a.occurrences) :
    e.Among names := fun p hp => h p (he ▸ hp)

theorem among_operands {a b : Expr} (ha : a.Among names) (hb : b.Among names)
    (he : e.occurrences = a.occurrences ++ b.occurrences) : e.Among names := by
  intro p hp
  rw [he] at hp
  exact (List.mem_append.mp hp).elim (ha p) (hb p)

theorem among_all_iff {args : List Expr} (he : e.occurrences = occurrencesAll args) :
    e.Among names ↔ ∀ a ∈ args, a.Among names := by
  rw [Among, he, occurrencesAll_eq]
  constructor
  · exact fun h a ha p hp => h p (List.mem_flatMap.mpr ⟨a, ha, hp⟩)
  · intro h p hp
    obtain ⟨a, ha, hp⟩ := List.mem_flatMap.mp hp
    exact h a ha p hp

theorem logical_among (names : String → Prop) : Logical (Among names) where
  bool := among_bool
  not_iff := .rfl
  and_iff := among_all_iff rfl
  or_iff := among_all_iff rfl
  implies ha hb := among_operands ha hb rfl

theorem arithmetical_among (names : String → Prop) : Arithmetical (Among names) where
  int := among_int
  neg_iff := .rfl
  add_iff := among_all_iff rfl
  sub ha hb := among_operands ha hb rfl
  mul _ h := h

theorem among_conj {items : List Expr} (h : ∀ e ∈ items, e.Among names) :
    (conj items).Among names :=
  (logical_among names).conj h

theorem among_disj {items : List Expr} (h : ∀ e ∈ items, e.Among names) :
    (disj items).Among names :=
  (logical_among names).disj h

theorem Among.negate (h : e.Among names) : (negate e).Among names := (logical_among names).negate h

theorem among_exceeds {k : Int} (h : e.Among names) : (exceeds e (.int k)).Among names :=
  among_operands (among_int k) h rfl

theorem among_eq_int {k : Int} (h : e.Among names) : (Expr.eq e (.int k)).Among names :=
  among_operands h (among_int k) rfl

theorem among_bind {f : String → ValueSort → Expr}
    (h : ∀ p ∈ e.occurrences, (f p.1 p.2).Among names) : (e.bind f).Among names := by
  induction e with
  | bool b => exact among_bool b
  | int k => exact among_int k
  | var n s => exact h (n, s) (by simp [occurrences])
  | not a ih | neg a ih | mul k a ih => exact ih h
  | and args ih | or args ih | add args ih =>
    rw [bind, bindAll_eq]
    refine (among_all_iff rfl).mpr fun x hx => ?_
    obtain ⟨a, ha, rfl⟩ := List.mem_map.mp hx
    rw [occurrences, occurrencesAll_eq] at h
    exact ih a ha fun p hp => h p (List.mem_flatMap.mpr ⟨a, ha, hp⟩)
  | implies a b iha ihb | sub a b iha ihb | eq a b iha ihb | le a b iha ihb | lt a b iha ihb =>
    rw [occurrences] at h
    refine among_operands (iha fun p hp => ?_) (ihb fun p hp => ?_) rfl
    · exact h p (List.mem_append_left _ hp)
    · exact h p (List.mem_append_right _ hp)
  | ite c a b ihc iha ihb =>
    rw [bind]
    intro p hp
    rw [occurrences, List.append_assoc] at hp h
    rcases List.mem_append.mp hp with hp | hp
    · exact ihc (fun q hq => h q (List.mem_append_left _ hq)) p hp
    rcases List.mem_append.mp hp with hp | hp
    · exact iha (fun q hq => h q (List.mem_append_right _ (List.mem_append_left _ hq))) p hp
    · exact ihb (fun q hq => h q (List.mem_append_right _ (List.mem_append_right _ hq))) p hp

end Expr

namespace Model

variable {m m' : Model} {e : Expr} {names : String → Prop}

theorem evalAll_bindAll {f : String → ValueSort → Expr} {args : List Expr}
    (h : ∀ a ∈ args, m.eval (a.bind f) = m'.eval a) :
    m.evalAll (Expr.bindAll f args) = m'.evalAll args := by
  induction args with
  | nil => rfl
  | cons a as ih =>
    rw [Expr.bindAll, evalAll, evalAll, h a List.mem_cons_self,
      ih fun b hb => h b (List.mem_cons_of_mem _ hb)]

theorem eval_bind {f : String → ValueSort → Expr}
    (h : ∀ p ∈ e.occurrences, m'.get? p.1 = m.eval (f p.1 p.2)) :
    m.eval (e.bind f) = m'.eval e := by
  induction e with
  | bool | int => rfl
  | var n s =>
    rw [Expr.bind, eval]
    exact (h (n, s) (by simp [Expr.occurrences])).symm
  | not a ih | neg a ih | mul k a ih =>
    rw [Expr.occurrences] at h
    rw [Expr.bind, eval, eval, ih h]
  | and args ih | or args ih | add args ih =>
    rw [Expr.occurrences, Expr.occurrencesAll_eq] at h
    rw [Expr.bind, eval, eval, evalAll_bindAll fun a ha =>
      ih a ha fun p hp => h p (List.mem_flatMap.mpr ⟨a, ha, hp⟩)]
  | implies a b iha ihb | sub a b iha ihb | eq a b iha ihb | le a b iha ihb | lt a b iha ihb =>
    rw [Expr.occurrences] at h
    rw [Expr.bind, eval, eval, iha fun p hp => h p (List.mem_append_left _ hp),
      ihb fun p hp => h p (List.mem_append_right _ hp)]
  | ite c a b ihc iha ihb =>
    rw [Expr.occurrences, List.append_assoc] at h
    rw [Expr.bind, eval, eval, ihc fun p hp => h p (List.mem_append_left _ hp),
      iha fun p hp => h p (List.mem_append_right _ (List.mem_append_left _ hp)),
      ihb fun p hp => h p (List.mem_append_right _ (List.mem_append_right _ hp))]

theorem eval_congr (h : ∀ p ∈ e.occurrences, m'.get? p.1 = m.get? p.1) : m'.eval e = m.eval e := by
  have hbind : m.eval (e.bind .var) = m'.eval e := eval_bind h
  rw [← hbind, Expr.bind_var]

/-- The second model gives the same values to variables with names of some kind. -/
def Agrees (names : String → Prop) (m m' : Model) : Prop := ∀ n, names n → m'.get? n = m.get? n

variable (h : Agrees names m m') (he : e.Among names)
include h he

theorem Agrees.evalBool : m'.evalBool e = m.evalBool e := by
  rw [Model.evalBool, Model.evalBool, eval_congr fun p hp => h p.1 (he p hp)]

theorem Agrees.requireInt : m'.requireInt e = m.requireInt e := by
  rw [Model.requireInt, Model.requireInt, evalInt, evalInt, eval_congr fun p hp => h p.1 (he p hp)]

end Model

end InvariantSynthesis
