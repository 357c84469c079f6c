import InvariantSynthesis.Proofs.Oracle.Frame
import InvariantSynthesis.Proofs.Search.Round

namespace InvariantSynthesis

section outcome

variable {α β σ : Type} [Oracle σ]

theorem Search.leaves_query (e e' : Expr) :
    Session.Leaves Prod.fst (query e e' : Search α σ Answer) := by
  refine (Session.leaves_request _).bind fun _ => (Session.leaves_request _).bind fun _ => ?_
  exact Session.Leaves.bind (Session.leaves_update fun _ => rfl) fun _ => Session.leaves_request _

theorem Session.inScope_state {S : Type} (body : Session S σ β) (s : S) (o : σ) :
    (inScope body (s, o)).1 = (body (s, Oracle.push o)).1 ∧
      (inScope body (s, o)).2.1 = (body (s, Oracle.push o)).2.1 :=
  ⟨rfl, rfl⟩

end outcome

namespace Domain

variable {σ : Type} [Oracle σ] {d : Domain} {focus : Option Nat} {v : d.Value} {stats : Statistics}
  {o : σ}

/-- However a round of enumeration ends, it leaves the value as it was or does what the improvements
with the model of a positive answer do. -/
theorem enumerate_cases (d : Domain) (focus : Option Nat) (v : d.Value) (stats : Statistics) (o : σ) :
    (d.enumerate focus ((v, stats), o)).2.1.1 = v ∧
        (d.enumerate focus ((v, stats), o)).1 ≠ .ok true ∨
      ∃ m t q, (Search.query (d.pre v) (.disj ((d.conditions v focus).map (·.2))) :
          Search d.Value σ Answer) ((v, stats), Oracle.push o) = (.ok .sat, ((v, t), q)) ∧
        (d.enumerate focus ((v, stats), o)).1 =
          (d.improveAll m (d.conditions v focus) ((v, t), q)).1 ∧
        (d.enumerate focus ((v, stats), o)).2.1 =
          (d.improveAll m (d.conditions v focus) ((v, t), q)).2.1 := by
  rw [enumerate_eq]
  split
  · exact .inl ⟨rfl, by simp⟩
  · rw [(Session.inScope_state _ _ _).1, (Session.inScope_state _ _ _).2]
    have hleaves := Search.leaves_query (d.pre v) (.disj ((d.conditions v focus).map (·.2)))
      (v, stats) (Oracle.push o)
    cases hask : (Search.query (d.pre v) (.disj ((d.conditions v focus).map (·.2))) :
        Search d.Value σ Answer) ((v, stats), Oracle.push o) with
    | mk x s =>
      obtain ⟨⟨u, t⟩, q⟩ := s
      rw [hask] at hleaves
      obtain rfl : u = v := hleaves
      cases x with
      | error e =>
        rw [Session.bind_error hask]
        exact .inl ⟨rfl, by simp⟩
      | ok a =>
        rw [Session.bind_ok hask]
        cases a with
        | unsat | unknown reason =>
          refine .inl ⟨rfl, fun h => ?_⟩
          cases h
        | sat =>
          cases hm : (Oracle.model? q : Option Model) with
          | none =>
            rw [improving, Session.bind_error (Session.requireModel_of_none hm _)]
            exact .inl ⟨rfl, by simp⟩
          | some m =>
            rw [improving, Session.bind_ok (Session.requireModel_of_some hm _)]
            exact .inr ⟨m, t, q, rfl, rfl, rfl⟩

theorem enumerate_of_sat {v' : d.Value} {stats' : Statistics} {p : σ} {m : Model} {b : Bool}
    {cs : List (Nat × Expr)} (hcs : d.conditions v focus = cs) (hne : cs ≠ [])
    {s : Except Error Answer × ((d.Value × Statistics) × σ)}
    (hs : Search.query (d.pre v) (.disj (cs.map (·.2))) ((v, stats), Oracle.push o) = s)
    (hsat : s.1 = .ok .sat) (hm : Oracle.model? s.2.2 = some m)
    (hall : d.improveAll m cs ((v, s.2.1.2), s.2.2) = (.ok b, ((v', stats'), p))) :
    d.enumerate focus ((v, stats), o) =
      (.ok b, ((v', stats'), Oracle.release (Oracle.depth (Oracle.push o)) p)) := by
  subst hcs
  obtain ⟨x, ⟨u, t⟩, q⟩ := s
  obtain rfl : x = .ok .sat := hsat
  have hleaves := Search.leaves_query (d.pre v) (.disj ((d.conditions v focus).map (·.2)))
    (v, stats) (Oracle.push o)
  rw [hs] at hleaves
  obtain rfl : u = v := hleaves
  have hbody : (Search.query (d.pre u) (.disj ((d.conditions u focus).map (·.2))) >>=
      d.improving (d.conditions u focus)) ((u, stats), Oracle.push o) = (.ok b, ((v', stats'), p)) := by
    rw [Session.bind_ok hs, improving, Session.bind_ok (Session.requireModel_of_some hm _)]
    exact hall
  rw [enumerate_eq, if_neg (by simpa using hne), Session.inScope, hbody]

section improvements

variable {m : Model} {row : Nat} {c : Expr} {rest : List (Nat × Expr)} {s : d.Value × Statistics}

theorem improveAll_cons_false (h : m.evalBool c ≠ some true) :
    d.improveAll m ((row, c) :: rest) (s, o) = d.improveAll m rest (s, o) := by
  rw [improveAll, if_neg h]

theorem improveAll_cons_error (h : m.evalBool c = some true) {e : Error} {s' : d.Value × Statistics}
    (hedit : d.edit o m row s = (.error e, s')) :
    d.improveAll m ((row, c) :: rest) (s, o) = (.error e, (s', o)) := by
  have himprove : d.improve m row (s, o) = (.error e, (s', o)) := by rw [improve, hedit]
  rw [improveAll, if_pos h, Session.bind_error himprove]

theorem improveAll_cons_ok (h : m.evalBool c = some true) {b : Bool} {s' : d.Value × Statistics}
    (hedit : d.edit o m row s = (.ok b, s')) :
    d.improveAll m ((row, c) :: rest) (s, o) =
      ((d.improveAll m rest (s', o)).1.map (· || b), (d.improveAll m rest (s', o)).2) := by
  have himprove : d.improve m row (s, o) = (.ok b, (s', o)) := by rw [improve, hedit]
  rw [improveAll, if_pos h, Session.bind_ok himprove]
  cases hrest : d.improveAll m rest (s', o) with
  | mk x t =>
    cases x with
    | ok more => rw [Session.bind_ok hrest]; rfl
    | error e => rw [Session.bind_error hrest]; rfl

theorem improveAll_keeps {P : d.Value → Prop} {conds : List (Nat × Expr)}
    (hedit : ∀ {row c u t}, (row, c) ∈ conds → m.evalBool c = some true → P u →
      P (d.edit o m row (u, t)).2.1)
    (hv : P v) : P (d.improveAll m conds ((v, stats), o)).2.1.1 := by
  induction conds generalizing v stats with
  | nil => exact hv
  | cons rc rest ih =>
    obtain ⟨row, c⟩ := rc
    have hrest : ∀ {u t}, P u → P (d.improveAll m rest ((u, t), o)).2.1.1 := fun hu =>
      ih (fun hmem => hedit (List.mem_cons_of_mem _ hmem)) hu
    by_cases heval : m.evalBool c = some true
    · have hfirst := hedit (t := stats) List.mem_cons_self heval hv
      cases hrun : d.edit o m row (v, stats) with
      | mk x s =>
        rw [hrun] at hfirst
        cases x with
        | ok b =>
          rw [improveAll_cons_ok heval hrun]
          exact hrest hfirst
        | error e =>
          rw [improveAll_cons_error heval hrun]
          exact hfirst
    · rw [improveAll_cons_false heval]
      exact hrest hv

end improvements

/-- What every improvement with a model keeps is kept by a round, however it ends. -/
theorem enumerate_keeps {P : d.Value → Prop}
    (hedit : ∀ {m row c u t} {q : σ}, (row, c) ∈ d.conditions v focus → m.evalBool c = some true →
      P u → P (d.edit q m row (u, t)).2.1)
    (hv : P v) : P (d.enumerate focus ((v, stats), o)).2.1.1 := by
  obtain ⟨hsame, -⟩ | ⟨m, t, q, -, -, hstate⟩ := enumerate_cases d focus v stats o
  · rw [hsame]
    exact hv
  · rw [hstate]
    exact improveAll_keeps (fun hmem heval hu => hedit hmem heval hu) hv

/-- The values that rounds with good oracles lead to from the start, however the rounds end. -/
inductive Reached (d : Domain) (Good : σ → Prop) : d.Value → Prop
  | start : Reached d Good d.start
  | round {v : d.Value} (focus : Option Nat) (stats : Statistics) {o : σ} :
    Reached d Good v → Good o → Reached d Good (d.enumerate focus ((v, stats), o)).2.1.1

theorem Reached.invariant {Good : σ → Prop} {P : d.Value → Prop} (hstart : P d.start)
    (hround : ∀ {v focus stats o}, Good o → P v → P (d.enumerate focus ((v, stats), o)).2.1.1)
    (h : d.Reached Good v) : P v := by
  induction h with
  | start => exact hstart
  | round focus stats _ ho ih => exact hround ho ih

end Domain

end InvariantSynthesis
