import InvariantSynthesis.Proofs.Analysis.Morphism
import InvariantSynthesis.Proofs.Oracle.Tallied
import InvariantSynthesis.Proofs.Search.Round

namespace InvariantSynthesis

open Session

namespace RankingDomain

variable {σ : Type} [Oracle σ]

/-- The oracles that a search for coefficients makes, as it leaves them. -/
def spawned (parent : σ) (vars : Nat) (turns : List (List Int)) : Nat → Nat → Statistics → List σ
  | 0, _, _ => []
  | attempts + 1, components, stats =>
    let outcome := attempt (coefficientNames components vars) turns
      ({ stats with instances := stats.instances + 1 }, Oracle.spawn parent)
    outcome.2.2 ::
      match outcome.1 with
      | .ok (.unsat, _) => spawned parent vars turns attempts (components + 1) outcome.2.1
      | _ => []

def editSpawned (d : RankingDomain) (parent : σ) (i : Nat) (m : Model) :
    List RankingRow × Statistics → List σ := fun (value, stats) =>
  match d.loops[i]?, value[i]? with
  | some l, some r =>
    match l.turnOf m with
    | .error _ => []
    | .ok turn =>
      let turns := r.turns ++ [turn]
      if d.maxRefinements < turns.length then []
      else
        let first := max r.coefficients.length 1
        spawned parent l.vars.length turns (d.maxComponents + 1 - first) first stats
  | _, _ => []

theorem counts_attempt (names : List (List String)) (turns : List (List Int)) :
    Counts id (attempt names turns : Session Statistics (Tallied σ) _) := by
  have hsolve : Counts id (solve names turns : Session Statistics (Tallied σ) Answer) := by
    refine (counts_declare _).bind fun _ => ?_
    refine (counts_forM (fun turn => counts_assert _) turns).bind fun _ => ?_
    exact counts_check fun _ => rfl
  refine hsolve.bind fun answer => ?_
  split
  · refine Counts.bind ((counts_look _).bind fun found => ?_) fun _ => counts_pure _
    cases found with
    | none => exact counts_throw _
    | some m => exact counts_pure _
  · exact counts_pure _

theorem balanced_search (parent : Tallied σ) (vars : Nat) (turns : List (List Int))
    (attempts components : Nat) (stats : Statistics) :
    Balanced id (spawned parent vars turns attempts components stats) (stats, parent)
      ((search parent vars turns attempts components stats).2, parent) := by
  induction attempts generalizing components stats with
  | zero => exact .refl _
  | succ attempts ih =>
    rw [search_succ, spawned]
    have hcounts := counts_attempt (coefficientNames components vars) turns
      { stats with instances := stats.instances + 1 } (Oracle.spawn parent)
    cases hrun : attempt (coefficientNames components vars) turns
        ({ stats with instances := stats.instances + 1 }, Oracle.spawn parent) with
    | mk x t =>
      obtain ⟨t, q⟩ := t
      rw [hrun] at hcounts
      -- The new oracle had no checks before.
      have hfirst : Balanced id [q] (stats, parent) (t, parent) := by
        obtain ⟨hinstances, hcalls⟩ := hcounts
        have hcalls : t.calls + 0 = stats.calls + q.checks + 0 := hcalls
        refine ⟨hinstances, ?_⟩
        show t.calls + parent.checks = stats.calls + parent.checks + (q.checks + 0)
        omega
      cases x with
      | error e => exact hfirst
      | ok found =>
        obtain ⟨answer, coefficients⟩ := found
        cases answer with
        | sat | unknown => exact hfirst
        | unsat => exact hfirst.trans (ih (components + 1) t)

theorem balanced_edit (d : RankingDomain) (parent : Tallied σ) (i : Nat) (m : Model)
    (s : List RankingRow × Statistics) :
    Balanced Prod.snd (d.editSpawned parent i m s) (s, parent) ((d.edit parent i m s).2, parent) := by
  obtain ⟨value, stats⟩ := s
  rw [editSpawned, edit]
  cases d.loops[i]? with
  | none => exact .refl _
  | some l =>
    cases value[i]? with
    | none => exact .refl _
    | some r =>
      dsimp only
      cases l.turnOf m with
      | error e => exact .refl _
      | ok turn =>
        have hsearch := balanced_search parent l.vars.length (r.turns ++ [turn])
          (d.maxComponents + 1 - max r.coefficients.length 1) (max r.coefficients.length 1) stats
        dsimp only
        split
        · exact .of_eq rfl rfl
        · cases hrun : (search parent l.vars.length (r.turns ++ [turn])
              (d.maxComponents + 1 - max r.coefficients.length 1) (max r.coefficients.length 1)).run
              stats with
          | mk x t =>
            have hstats : (search parent l.vars.length (r.turns ++ [turn])
                (d.maxComponents + 1 - max r.coefficients.length 1)
                (max r.coefficients.length 1) stats).2 = t := congrArg Prod.snd hrun
            rw [hstats] at hsearch
            cases x <;> exact ⟨hsearch.instances, hsearch.calls⟩

end RankingDomain

namespace Domain

variable {σ : Type} [Oracle σ]

/-- The value that is improved: that of the path that a row is about, or that a model takes. -/
def Edit.onPath? {α : Type} (conds : List Expr) (m : Model) (first : α) (row : Nat)
    (ps : List (List Bool × α)) : Option α :=
  if row % stride = newPath then
    match pathOf conds m with
    | .error _ => none
    | .ok path =>
      match ps.findIdx? (·.1 = path) with
      | some k => ps[k]?.map (·.2)
      | none => some first
  else ps[row % stride]?.map (·.2)

/-- The oracles that are made to improve a row, as they are left. -/
def spawned (parent : σ) (m : Model) : (d : Domain) → Nat → d.Value × Statistics → List σ
  | .template _, _, _ | .equalities _, _, _ | .predicates _, _, _ | .heap _, _, _ => []
  | .ranking d, i, s => d.editSpawned parent i m s
  | .product a b, i, ((v, w), stats) =>
    if i % 2 = 0 then a.spawned parent m (i / 2) (v, stats)
    else b.spawned parent m (i / 2) (w, stats)
  | .paths d conds, i, (ps, stats) =>
    (Edit.onPath? conds m d.start i ps).elim [] fun v => d.spawned parent m (i / stride) (v, stats)

def spawnedAll (d : Domain) (parent : σ) (m : Model) :
    List (Nat × Expr) → d.Value × Statistics → List σ
  | [], _ => []
  | (row, c) :: rest, s =>
    if m.evalBool c = some true then
      d.spawned parent m row s ++
        match d.edit parent m row s with
        | (.ok _, s) => d.spawnedAll parent m rest s
        | (.error _, _) => []
    else d.spawnedAll parent m rest s

omit [Oracle σ] in
theorem balanced_pure {α : Type} (f : α → Except Error (Bool × α)) (s : α × Statistics)
    (o : Tallied σ) : Balanced Prod.snd [] (s, o) ((Edit.pure f s).2, o) := by
  obtain ⟨v, stats⟩ := s
  rw [Edit.pure]
  cases f v with
  | ok result => exact .of_eq rfl rfl
  | error e => exact .of_eq rfl rfl

section path

variable {α : Type} {inner : Edit α} {stats : Statistics} {os : α → List (Tallied σ)} {o : Tallied σ}
  (h : ∀ v, Balanced Prod.snd (os v) ((v, stats), o) ((inner (v, stats)).2, o))

include h

omit [Oracle σ] in
theorem balanced_onPath (k : Nat) (ps : List (List Bool × α)) :
    Balanced Prod.snd ((ps[k]?.map (·.2)).elim [] os) ((ps, stats), o)
      ((Edit.onPath k inner (ps, stats)).2, o) := by
  rw [Edit.onPath]
  cases ps[k]? with
  | none => exact .refl _
  | some p => exact ⟨(h p.2).instances, (h p.2).calls⟩

omit [Oracle σ] in
theorem balanced_paths (conds : List Expr) (m : Model) (first : α) (row : Nat)
    (ps : List (List Bool × α)) :
    Balanced Prod.snd ((Edit.onPath? conds m first row ps).elim [] os) ((ps, stats), o)
      (((if row % stride = newPath then Edit.onModelPath conds m first inner
        else Edit.onPath (row % stride) inner) (ps, stats)).2, o) := by
  rw [Edit.onPath?]
  by_cases hnew : row % stride = newPath
  · rw [if_pos hnew, if_pos hnew, Edit.onModelPath]
    cases pathOf conds m with
    | error e => exact .refl _
    | ok path =>
      dsimp only
      cases List.findIdx? (fun p => decide (p.1 = path)) ps with
      | some k => exact balanced_onPath h k ps
      | none =>
        have hadded := balanced_onPath h ps.length (ps ++ [(path, first)])
        rw [List.getElem?_concat_length] at hadded
        exact ⟨hadded.instances, hadded.calls⟩
  · rw [if_neg hnew, if_neg hnew]
    exact balanced_onPath h (row % stride) ps

end path

theorem balanced_edit (parent : Tallied σ) (m : Model) (d : Domain) (row : Nat)
    (s : d.Value × Statistics) :
    Balanced Prod.snd (d.spawned parent m row s) (s, parent) ((d.edit parent m row s).2, parent) := by
  induction d generalizing row with
  | template | equalities | predicates | heap => exact balanced_pure _ s parent
  | ranking d => exact d.balanced_edit parent row m s
  | product a b iha ihb =>
    obtain ⟨⟨v, w⟩, stats⟩ := s
    rw [spawned, edit]
    split
    · have h := iha (row / 2) (v, stats)
      exact ⟨h.instances, h.calls⟩
    · have h := ihb (row / 2) (w, stats)
      exact ⟨h.instances, h.calls⟩
  | paths d conds ih =>
    obtain ⟨ps, stats⟩ := s
    exact balanced_paths (fun v => ih (row / stride) (v, stats)) conds m d.start row ps

theorem balanced_improveAll (d : Domain) (m : Model) (conds : List (Nat × Expr))
    (s : d.Value × Statistics) (o : Tallied σ) :
    Balanced Prod.snd (d.spawnedAll o m conds s) (s, o) (d.improveAll m conds (s, o)).2 := by
  induction conds generalizing s with
  | nil => exact .refl _
  | cons rc rest ih =>
    rw [spawnedAll, improveAll]
    split
    · have hedit := balanced_edit o m d rc.1 s
      cases hrun : d.edit o m rc.1 s with
      | mk x t =>
        rw [hrun] at hedit
        have himprove : (d.improve m rc.1 : Search d.Value (Tallied σ) Bool) (s, o) = (x, (t, o)) := by
          rw [improve, hrun]
        cases x with
        | error e =>
          rw [bind_error himprove, List.append_nil]
          exact hedit
        | ok changed =>
          have hrest := ih t
          rw [bind_ok himprove]
          cases hmore : d.improveAll m rest (t, o) with
          | mk y u =>
            rw [hmore] at hrest
            cases y with
            | ok more =>
              rw [bind_ok hmore]
              exact hedit.trans hrest
            | error e =>
              rw [bind_error hmore]
              exact hedit.trans hrest
    · exact ih s

end Domain

section rounds

variable {σ : Type} [Oracle σ]

theorem Search.counts_query {α : Type} (e e' : Expr) :
    Counts Prod.snd (Search.query e e' : Search α (Tallied σ) Answer) := by
  refine (counts_assert _).bind fun _ => (counts_assert _).bind fun _ => ?_
  exact counts_check fun _ => rfl

namespace TemplateDomain

omit [Oracle σ] in
theorem counts_fitting {S : Type} {stats : S → Statistics} (x : Option Int) :
    Counts stats (fitting x : Session S (Tallied σ) Int) := by
  cases x with
  | some k => exact counts_pure k
  | none => exact counts_throw _

theorem counts_reaches (r : TemplateRow) (assumption : Expr) (bound : Int) :
    Counts Prod.snd
      (reaches r assumption bound : Search (List RowValue) (Tallied σ) (Option Int)) := by
  rw [reaches_eq]
  refine (counts_fitting _).bind fun k => Counts.inScope ?_
  refine (Search.counts_query _ _).bind fun answer => ?_
  cases answer with
  | unsat | unknown => exact counts_pure none
  | sat =>
    refine counts_requireModel.bind fun m => ?_
    exact (counts_ofExcept _).bind fun _ => counts_pure _

theorem counts_settle (r : TemplateRow) (assumption : Expr) (fuel : Nat) (lower upper : Int) :
    Counts Prod.snd
      (settle r assumption fuel lower upper : Search (List RowValue) (Tallied σ) Int) := by
  induction fuel generalizing lower upper with
  | zero => exact counts_pure lower
  | succ fuel ih =>
    rw [settle]
    split
    · refine (counts_fitting _).bind fun mid => ?_
      refine (counts_reaches r assumption mid).bind fun reached => ?_
      cases reached with
      | some v => exact ih _ _
      | none => exact (counts_fitting _).bind fun _ => ih _ _
    · exact counts_pure lower

theorem counts_witness (d : TemplateDomain) (v : List RowValue) (conds : List (Nat × Expr)) :
    Counts Prod.snd
      (d.witness v conds : Search (List RowValue) (Tallied σ) (Option (Nat × Int))) := by
  rw [witness_eq]
  refine Counts.inScope ((Search.counts_query _ _).bind fun answer => ?_)
  cases answer with
  | unsat | unknown => exact counts_pure none
  | sat =>
    refine counts_requireModel.bind fun m => ?_
    dsimp only
    split
    · exact counts_pure none
    · exact (counts_ofExcept _).bind fun _ => counts_pure _

theorem counts_bisect (d : TemplateDomain) (focus : Option Nat) :
    Counts Prod.snd (d.bisect focus : Search (List RowValue) (Tallied σ) Bool) := by
  refine (counts_state.bind fun _ => counts_pure _).bind fun value => ?_
  dsimp only
  split
  · exact counts_pure false
  · refine (d.counts_witness _ _).bind fun found => ?_
    split
    · exact counts_pure false
    · refine (counts_ofExcept _).bind fun r => ?_
      refine (counts_settle r _ _ _ _).bind fun best => ?_
      refine (counts_ofExcept _).bind fun raised => ?_
      exact Counts.bind (counts_of_eq (fun _ _ => rfl) fun _ _ => rfl) fun _ => counts_pure _

end TemplateDomain

namespace Domain

def enumerateSpawned (d : Domain) (focus : Option Nat) (v : d.Value) (stats : Statistics) (o : σ) :
    List σ :=
  if (d.conditions v focus).isEmpty then []
  else
    match Search.query (d.pre v) (.disj ((d.conditions v focus).map (·.2)))
        ((v, stats), Oracle.push o) with
    | (.ok .sat, (s, q)) =>
      match Oracle.model? q with
      | some m => d.spawnedAll q m (d.conditions v focus) s
      | none => []
    | _ => []

theorem balanced_enumerate (d : Domain) (focus : Option Nat) (v : d.Value) (stats : Statistics)
    (o : Tallied σ) : Balanced Prod.snd (d.enumerateSpawned focus v stats o) ((v, stats), o)
      (d.enumerate focus ((v, stats), o)).2 := by
  rw [enumerate_eq, enumerateSpawned]
  split
  · exact .refl _
  · apply balanced_inScope
    have hquery := Search.counts_query (d.pre v) (.disj ((d.conditions v focus).map (·.2)))
      (v, stats) (Oracle.push o)
    cases hrun : Search.query (d.pre v) (.disj ((d.conditions v focus).map (·.2)))
        ((v, stats), Oracle.push o) with
    | mk x t =>
      obtain ⟨s, q⟩ := t
      rw [hrun] at hquery
      cases x with
      | error e =>
        rw [bind_error hrun]
        exact hquery
      | ok a =>
        rw [bind_ok hrun]
        cases a with
        | unsat | unknown => exact hquery
        | sat =>
          rw [improving]
          dsimp only
          cases hm : (Oracle.model? q : Option Model) with
          | none =>
            rw [bind_error (requireModel_of_none hm s)]
            exact hquery
          | some m =>
            rw [bind_ok (requireModel_of_some hm s)]
            exact hquery.trans (d.balanced_improveAll m (d.conditions v focus) s q)

end Domain

namespace Round

/-- The oracles that a round makes, as it leaves them. -/
def spawned : Round σ → List σ
  | ⟨.enumeration d, focus, v, stats, o⟩ => d.enumerateSpawned focus v stats o
  | ⟨.bisection _, _, _, _, _⟩ => []

/-- All checks of a round are counted, those of its oracle and of the oracles that it makes. -/
theorem balanced (r : Round (Tallied σ)) :
    Balanced Prod.snd r.spawned ((r.value, r.stats), r.oracle) r.outcome.2 := by
  obtain ⟨method, focus, v, stats, o⟩ := r
  cases method with
  | bisection d => exact d.counts_bisect focus (v, stats) o
  | enumeration d => exact d.balanced_enumerate focus v stats o

end Round

end rounds

end InvariantSynthesis
