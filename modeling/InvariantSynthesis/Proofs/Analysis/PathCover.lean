import InvariantSynthesis.Proofs.Analysis.Conclusion
import InvariantSynthesis.Proofs.Analysis.Paths
import InvariantSynthesis.Proofs.Search.Order

/-!
What the value of a path covers. When nothing is left to ask, a state under the invariant from which
something flows back takes one of the paths that were found, and the value of this path admits what
flows back. The paths are valuations of the branch conditions, each found once.
-/

namespace InvariantSynthesis

/-- The pointer flows back without an improvement. -/
def PointsTo.Admits : PointsTo → Value → Prop
  | .targets ts, x => ∃ t ∈ ts, x = .int t
  | .top, _ => True

namespace HeapDomain

variable {d : HeapDomain} {ρ : Valuation}

/-- Where a loop is left, its pointers have targets that the value knows. -/
def Admits (d : HeapDomain) (v : List PointsTo) (ρ : Valuation) : Prop :=
  ∀ {k : Nat} {r : PointerRow}, d.rows[k]? = some r → r.loop.postGuard.holds ρ = true →
    ∃ x, v[k]? = some x ∧ x.Admits (r.post.value ρ)

theorem admits_of_conditions {v : List PointsTo} {k : Nat} {r : PointerRow} {x : PointsTo}
    {focus : Option Nat} (hr : d.rows[k]? = some r) (hx : v[k]? = some x)
    (hfocus : r.loop.inFocus focus = true) (h : ∀ e ∈ d.conditions v focus, e.2.holds ρ = false)
    (hguard : r.loop.postGuard.holds ρ = true) : x.Admits (r.post.value ρ) := by
  have hfalse : ∀ e, escape? r x = some e → e.holds ρ = false := fun e he =>
    h (k, e) (mem_conditions.mpr ⟨r, x, hr, hx, hfocus, he⟩)
  cases x with
  | top => trivial
  | targets ts =>
    have hpoints : (pointsTo r.post ts).holds ρ = true := by simpa [hguard] using hfalse _ rfl
    rw [pointsTo, Expr.holds_disj, List.any_map, List.any_eq_true] at hpoints
    obtain ⟨t, ht, heq⟩ := hpoints
    simp only [Function.comp_apply, Expr.holds_eq, Expr.value] at heq
    exact ⟨t, ht, of_decide_eq_true heq⟩

end HeapDomain

/-- Where a loop is left, its rows are within the bounds of the value. -/
def TemplateDomain.Admits (d : TemplateDomain) (v : List RowValue) (ρ : Valuation) : Prop :=
  ∀ {k : Nat} {r : TemplateRow}, d.rows[k]? = some r → r.loop.postGuard.holds ρ = true →
    ∃ x, v[k]? = some x ∧ x.Admits (r.post.number ρ)

namespace Domain

section conditions

variable {s : LoopSystem}

theorem distinct_foldl (es acc : List Expr) (h : acc.Nodup) :
    (es.foldl (fun cs c => if c ∈ cs then cs else cs ++ [c]) acc).Nodup ∧
      ∀ e, e ∈ es.foldl (fun cs c => if c ∈ cs then cs else cs ++ [c]) acc ↔ e ∈ acc ∨ e ∈ es := by
  induction es generalizing acc with
  | nil => exact ⟨h, fun e => by simp⟩
  | cons c es ih =>
    rw [List.foldl_cons]
    by_cases hc : c ∈ acc
    · rw [if_pos hc]
      refine ⟨(ih acc h).1, fun e => ?_⟩
      rw [(ih acc h).2, List.mem_cons]
      constructor
      · rintro (he | he)
        · exact .inl he
        · exact .inr (.inr he)
      · rintro (he | rfl | he)
        · exact .inl he
        · exact .inl hc
        · exact .inr he
    · rw [if_neg hc]
      have hnodup : (acc ++ [c]).Nodup := by
        rw [← List.concat_eq_append]
        exact h.concat hc
      refine ⟨(ih _ hnodup).1, fun e => ?_⟩
      rw [(ih _ hnodup).2, List.mem_append, List.mem_singleton, List.mem_cons, or_assoc]

theorem nodup_branchConditions (s : LoopSystem) : (branchConditions s).Nodup :=
  (distinct_foldl _ [] List.nodup_nil).1

theorem mem_branchConditions {e : Expr} :
    e ∈ branchConditions s ↔ ∃ l ∈ s.loops, e ∈ l.pathConds := by
  rw [branchConditions, (distinct_foldl _ [] List.nodup_nil).2, List.mem_flatMap]
  simp

end conditions

section paths

variable {d : Domain} {conds : List Expr} {ps : List (List Bool × d.Value)} {k : Nat}
  {path : List Bool} {v w : d.Value}

/-- The paths are different, and each decides every branch condition. -/
structure Discerns {α : Type} (conds : List Expr) (ps : List (List Bool × α)) : Prop where
  nodup : (ps.map (·.1)).Nodup
  length : ∀ p ∈ ps, p.1.length = conds.length

/-- The paths are different and lead to values above the first one. -/
structure Traced (d : Domain) (conds : List Expr) (ps : List (List Bool × d.Value)) : Prop
    extends Discerns conds ps where
  le : ∀ p ∈ ps, d.start ≤ p.2

theorem traced_start (d : Domain) (conds : List Expr) : d.Traced conds [] :=
  ⟨⟨List.nodup_nil, by simp⟩, by simp⟩

theorem Traced.set (h : d.Traced conds ps) (hk : ps[k]? = some (path, v)) (hvw : v ≤ w) :
    d.Traced conds (ps.set k (path, w)) := by
  have hold := List.mem_of_getElem? hk
  have hkeys : (ps.set k (path, w)).map (·.1) = ps.map (·.1) := by
    rw [List.map_set]
    exact set_of_getElem? (by rw [List.getElem?_map, hk]; rfl)
  refine ⟨⟨hkeys ▸ h.nodup, fun p hp => ?_⟩, fun p hp => ?_⟩
  · obtain hp | rfl := List.mem_or_eq_of_mem_set hp
    · exact h.length p hp
    · exact h.length (path, v) hold
  · obtain hp | rfl := List.mem_or_eq_of_mem_set hp
    · exact h.le p hp
    · exact (h.le _ hold).trans hvw

theorem Traced.append (h : d.Traced conds ps) (hpath : path.length = conds.length)
    (hnew : path ∉ ps.map (·.1)) (hw : d.start ≤ w) : d.Traced conds (ps ++ [(path, w)]) := by
  refine ⟨⟨?_, fun p hp => ?_⟩, fun p hp => ?_⟩
  · rw [List.map_append, List.map_singleton, ← List.concat_eq_append]
    exact h.nodup.concat hnew
  · obtain hp | hp := List.mem_append.mp hp
    · exact h.length p hp
    · rw [List.mem_singleton.mp hp]
      exact hpath
  · obtain hp | hp := List.mem_append.mp hp
    · exact h.le p hp
    · rw [List.mem_singleton.mp hp]
      exact hw

variable {σ : Type} [Oracle σ] {o : σ} {m : Model} {i : Nat} {stats : Statistics} {focus : Option Nat}

theorem Traced.edit (h : d.Traced conds ps) :
    d.Traced conds ((Domain.paths d conds).edit o m i (ps, stats)).2.1 := by
  have hinner := d.le_edit o m (i / stride)
  by_cases hi : i % stride = newPath
  · have hedit : (Domain.paths d conds).edit o m i (ps, stats) =
        Edit.onModelPath conds m d.start (d.edit o m (i / stride)) (ps, stats) := by
      simp only [Domain.edit, hi]
      rfl
    rw [hedit]
    obtain hsame | ⟨path, hpath, ⟨k, v, hk, hset⟩ | ⟨hnew, hadd⟩⟩ :=
      Edit.onModelPath_state conds m d.start (d.edit o m (i / stride)) ps stats
    · rwa [hsame]
    · rw [hset]
      exact h.set hk (hinner v stats)
    · rw [hadd]
      have hlength : path.length = conds.length := by rw [pathOf_ok hpath, List.length_map]
      exact h.append hlength hnew (hinner d.start stats)
  · have hedit : (Domain.paths d conds).edit o m i (ps, stats) =
        Edit.onPath (i % stride) (d.edit o m (i / stride)) (ps, stats) := by
      simp only [Domain.edit, hi]
      rfl
    rw [hedit]
    obtain hsame | ⟨path, v, hk, hset⟩ :=
      Edit.onPath_state (i % stride) (d.edit o m (i / stride)) ps stats
    · rwa [hsame]
    · rw [hset]
      exact h.set hk (hinner v stats)

theorem Traced.enumerate (h : d.Traced conds ps) (focus : Option Nat) (stats : Statistics) (o : σ) :
    d.Traced conds ((Domain.paths d conds).enumerate focus ((ps, stats), o)).2.1.1 :=
  enumerate_keeps (d := .paths d conds) (P := d.Traced conds) (fun _ _ hu => hu.edit) h

/-- With any oracle and however the rounds end, the values are traced. -/
theorem Reached.traced {Good : σ → Prop} (h : (Domain.paths d conds).Reached Good ps) :
    d.Traced conds ps :=
  Reached.invariant (d := .paths d conds) (P := d.Traced conds) (traced_start d conds)
    (fun _ hv => hv.enumerate _ _ _) h

theorem Traced.exists_path {ρ : Valuation} (h : d.Traced conds ps) (hroom : ps.length < newPath)
    (hfalse : ∀ e ∈ (Domain.paths d conds).conditions ps focus, e.2.holds ρ = false)
    (hstart : ¬∀ e ∈ d.conditions d.start focus, e.2.holds ρ = false) :
    ∃ w, (conds.map (Expr.holds ρ), w) ∈ ps := by
  by_contra hnone
  refine hstart (false_unseen hroom (fun p hp => ?_) hfalse)
  rw [Bool.eq_false_iff]
  intro hpath
  rw [holds_pathExpr (h.length p hp)] at hpath
  exact hnone ⟨p.2, hpath ▸ hp⟩

theorem Traced.false_on_path {ρ : Valuation} (h : d.Traced conds ps)
    (hw : (conds.map (Expr.holds ρ), w) ∈ ps)
    (hfalse : ∀ e ∈ (Domain.paths d conds).conditions ps focus, e.2.holds ρ = false) :
    ∀ e ∈ d.conditions w focus, e.2.holds ρ = false :=
  false_along hw ((holds_pathExpr (h.length _ hw)).mpr rfl) hfalse

end paths

/-- Pointers and polyhedra, split by the branch conditions of some loops. -/
abbrev split (s : LoopSystem) (heap : HeapDomain) (template : TemplateDomain) : Domain :=
  .paths (.product (.heap heap) (.template template)) (branchConditions s)

abbrev SplitValue := List (List Bool × List PointsTo × List RowValue)

theorem false_product {a b : Domain} {v : a.Value} {w : b.Value} {focus : Option Nat} {ρ : Valuation}
    (h : ∀ e ∈ (Domain.product a b).conditions (v, w) focus, e.2.holds ρ = false) :
    (∀ e ∈ a.conditions v focus, e.2.holds ρ = false) ∧
      ∀ e ∈ b.conditions w focus, e.2.holds ρ = false :=
  ⟨fun e he => h (2 * e.1, e.2) (List.mem_append_left _ (List.mem_map.mpr ⟨e, he, rfl⟩)),
    fun e he => h (2 * e.1 + 1, e.2) (List.mem_append_right _ (List.mem_map.mpr ⟨e, he, rfl⟩))⟩

section cover

variable {s : LoopSystem} {heap : HeapDomain} {template : TemplateDomain} {ρ : Valuation}
  {ps : SplitValue} {focus : Option Nat}

theorem not_false_start
    (h : (∃ r ∈ heap.rows, r.loop.inFocus focus = true ∧ r.loop.postGuard.holds ρ = true) ∨
      ∃ r ∈ template.rows, r.loop.inFocus focus = true ∧ r.loop.postGuard.holds ρ = true) :
    ¬∀ e ∈ (Domain.product (.heap heap) (.template template)).conditions
      (Domain.product (.heap heap) (.template template)).start focus, e.2.holds ρ = false := by
  intro hfalse
  obtain ⟨hheap, htemplate⟩ := false_product hfalse
  obtain ⟨r, hr, hfocus, hguard⟩ | ⟨r, hr, hfocus, hguard⟩ := h
  · obtain ⟨k, hk⟩ := List.getElem?_of_mem hr
    have hstart : heap.start[k]? = some (.targets []) := by
      rw [HeapDomain.start, List.getElem?_map, hk]
      rfl
    obtain ⟨t, ht, -⟩ := HeapDomain.admits_of_conditions hk hstart hfocus hheap hguard
    cases ht
  · obtain ⟨k, hk⟩ := List.getElem?_of_mem hr
    have hstart : template.start[k]? = some .bottom := by
      rw [TemplateDomain.start, List.getElem?_map, hk]
      rfl
    exact TemplateDomain.admits_of_conditions hk hstart hfocus htemplate hguard

/-- With no condition satisfied, a state that leaves a loop with a row is on a path that was found, and
the value of the path admits what flows back. -/
theorem Traced.covers
    (h : (Domain.product (.heap heap) (.template template)).Traced (branchConditions s) ps)
    (hroom : ps.length < newPath)
    (hheap : ∀ r ∈ heap.rows, r.loop ∈ s.loops) (htemplate : ∀ r ∈ template.rows, r.loop ∈ s.loops)
    (hfalse : ∀ l ∈ s.loops, ∃ focus, l.inFocus focus = true ∧
      ∀ e ∈ (split s heap template).conditions ps focus, e.2.holds ρ = false)
    (hleft : (∃ r ∈ heap.rows, r.loop.postGuard.holds ρ = true) ∨
      ∃ r ∈ template.rows, r.loop.postGuard.holds ρ = true) :
    ∃ pointers bounds, ((branchConditions s).map (Expr.holds ρ), pointers, bounds) ∈ ps ∧
      heap.Admits pointers ρ ∧ template.Admits bounds ρ := by
  have hseen : ∃ w, ((branchConditions s).map (Expr.holds ρ), w) ∈ ps := by
    obtain ⟨r, hr, hguard⟩ | ⟨r, hr, hguard⟩ := hleft
    · obtain ⟨focus, hfocus, hfalse⟩ := hfalse r.loop (hheap r hr)
      exact h.exists_path hroom hfalse (not_false_start (.inl ⟨r, hr, hfocus, hguard⟩))
    · obtain ⟨focus, hfocus, hfalse⟩ := hfalse r.loop (htemplate r hr)
      exact h.exists_path hroom hfalse (not_false_start (.inr ⟨r, hr, hfocus, hguard⟩))
  obtain ⟨⟨pointers, bounds⟩, hw⟩ := hseen
  obtain ⟨hpointers, hbounds⟩ := h.le _ hw
  have hpointers : pointers.length = heap.rows.length := hpointers.length.trans (List.length_map _)
  have hbounds : bounds.length = template.rows.length := hbounds.length.trans (List.length_map _)
  refine ⟨pointers, bounds, hw, fun {k r} hr hguard => ?_, fun {k r} hr hguard => ?_⟩
  · obtain ⟨focus, hfocus, hfalse⟩ := hfalse r.loop (hheap r (List.mem_of_getElem? hr))
    have hk : k < pointers.length := hpointers ▸ (List.getElem?_eq_some_iff.mp hr).1
    have hx := List.getElem?_eq_getElem hk
    exact ⟨_, hx, HeapDomain.admits_of_conditions hr hx hfocus
      (false_product (h.false_on_path hw hfalse)).1 hguard⟩
  · obtain ⟨focus, hfocus, hfalse⟩ := hfalse r.loop (htemplate r (List.mem_of_getElem? hr))
    have hk : k < bounds.length := hbounds ▸ (List.getElem?_eq_some_iff.mp hr).1
    have hx := List.getElem?_eq_getElem hk
    exact ⟨_, hx, TemplateDomain.admits_of_conditions hr hx hfocus
      (false_product (h.false_on_path hw hfalse)).2 hguard⟩

end cover

end Domain

theorem Method.split_of_config {config : Config} {s : LoopSystem} {range : Int × Int} {m : Method}
    {shape : TemplateShape} (h : ofConfig config s range = .ok m)
    (hpaths : config.domain = .heapTemplate shape true) :
    ∃ template, TemplateDomain.ofLoops s shape config.withheld range = .ok template ∧
      m = .enumeration (.split s (.ofLoops s config.maxTargets) template) := by
  rw [ofConfig, hpaths] at h
  obtain ⟨template, htemplate, h⟩ := Except.exists_of_bind_ok h
  cases h
  exact ⟨template, htemplate, rfl⟩

theorem HeapDomain.mem_loops {s : LoopSystem} {maxTargets : Nat} :
    ∀ r ∈ (ofLoops s maxTargets).rows, r.loop ∈ s.loops := fun r hr => (over_loops r hr).1

theorem TemplateDomain.mem_loops {ps : List Procedure} {shape : TemplateShape} {withheld : NameSet}
    {range : Int × Int} {d : TemplateDomain}
    (h : ofLoops (.ofProcedures ps) shape withheld range = .ok d) :
    ∀ r ∈ d.rows, r.loop ∈ (LoopSystem.ofProcedures ps).loops := fun r hr => (over_loops h r hr).1

/-- Symbolic paths cover what they admit. In every value that rounds lead to, with any oracle, the paths
are different and decide each of the branch conditions once. When the search has come to an end with
every question answered, no number out of 64 bits and room for another path, each state that the
assumptions and the invariant admit and that leaves a loop with a row takes a path that was found.
The value of this path admits what flows back in all loops that are left. -/
theorem paths_inductive {config : Config} {s : LoopSystem} {context : List Expr} {range : Int × Int}
    {i : Invariant} {shape : TemplateShape} (hpaths : config.domain = .heapTemplate shape true)
    (h : Concluded config s context range i) (hroom : i.pathCount < Domain.newPath) :
    (Domain.branchConditions s).Nodup ∧
      (∀ e, e ∈ Domain.branchConditions s ↔ ∃ l ∈ s.loops, e ∈ l.pathConds) ∧
      ∃ (template : TemplateDomain) (ps : Domain.SplitValue),
        TemplateDomain.ofLoops s shape config.withheld range = .ok template ∧
        i = ⟨.enumeration (.split s (.ofLoops s config.maxTargets) template), ps⟩ ∧
        Domain.Discerns (Domain.branchConditions s) ps ∧
        (∀ {σ : Type} [Oracle σ] {Good : σ → Prop} {qs : Domain.SplitValue},
          (Domain.split s (.ofLoops s config.maxTargets) template).Reached Good qs →
            Domain.Discerns (Domain.branchConditions s) qs) ∧
        ∀ ρ : Valuation, ρ.Typed s.declared range → (∀ e ∈ context, e.holds ρ = true) →
          i.expr.holds ρ = true →
          ((∃ r ∈ (HeapDomain.ofLoops s config.maxTargets).rows, r.loop.postGuard.holds ρ = true) ∨
            ∃ r ∈ template.rows, r.loop.postGuard.holds ρ = true) →
          ∃ pointers bounds,
            ((Domain.branchConditions s).map (Expr.holds ρ), pointers, bounds) ∈ ps ∧
              (HeapDomain.ofLoops s config.maxTargets).Admits pointers ρ ∧
              template.Admits bounds ρ := by
  refine ⟨Domain.nodup_branchConditions s, fun e => Domain.mem_branchConditions, ?_⟩
  obtain ⟨foci, hsettled⟩ := h.settled
  obtain ⟨procedures, hs⟩ := hsettled.loops
  obtain ⟨m, ps⟩ := i
  obtain ⟨template, htemplate, hm⟩ := Method.split_of_config hsettled.selected hpaths
  obtain rfl : m = .enumeration (.split s (.ofLoops s config.maxTargets) template) := hm
  have htraced : (Domain.product (.heap (.ofLoops s config.maxTargets)) (.template template)).Traced
      (Domain.branchConditions s) ps := by
    refine hsettled.invariant (P := Domain.Traced _ _) (Domain.traced_start _ _) ?_
    intro σ _ F c Γ focus v stats b t o p _ _ _ hv hrun
    have henumerate := hv.enumerate focus stats o
    have hrun : (Domain.split s (.ofLoops s config.maxTargets) template).enumerate focus
      ((v, stats), o) = (.ok b, (t, p)) := hrun
    rwa [hrun] at henumerate
  refine ⟨template, ps, htemplate, rfl, htraced.toDiscerns, fun hreached => ?_,
    fun ρ hρ hcontext hpre hleft => ?_⟩
  · exact (Domain.Reached.traced hreached).toDiscerns
  · have hlength : List.length (α := List Bool × List PointsTo × List RowValue) ps < Domain.newPath :=
      lt_of_eq_of_lt (List.length_map _).symm hroom
    subst hs
    refine htraced.covers hlength HeapDomain.mem_loops (TemplateDomain.mem_loops htemplate)
      (fun l hl => ?_) hleft
    obtain ⟨focus, hfocus, hclosed⟩ := hsettled.closed
      (Domain.Unranked.descends (d := .split _ _ template) ⟨trivial, trivial⟩)
      ⟨Nat.le_of_lt hlength, fun _ _ => ⟨trivial, trivial⟩⟩ hl
    exact ⟨focus, hfocus, hclosed ρ hρ hcontext hpre⟩

namespace Verifier

theorem bounded_turns : ∃ template,
    TemplateDomain.ofLoops (.ofProcedures [turns]) .intervals splitting.withheld
        (-(2 ^ (2 - 1)), 2 ^ (2 - 1) - 1) = .ok template ∧
      ∃ r ∈ template.rows, r.loop.postGuard.holds (turnsState true false false).valuation = true :=
  ⟨_, rfl, by decide +kernel⟩

/-- Before the first turn the condition holds, and the number that flows back is within the bounds of
this path. -/
theorem paths_inductive_turns : ∃ i,
    (run (create splitting turns none (.bool true),
        ((BitSolver.fresh 2 1000).execute []).1)).2.1.invariant = some i ∧
      i.expr.holds (turnsState true false false).valuation = true ∧
      ∃ (template : TemplateDomain) (ps : Domain.SplitValue) (pointers : List PointsTo)
          (bounds : List RowValue),
        i = ⟨.enumeration (.split (.ofProcedures [turns])
          (.ofLoops (.ofProcedures [turns]) splitting.maxTargets) template), ps⟩ ∧
        Domain.Discerns [.boolVar "c"] ps ∧ ([true], pointers, bounds) ∈ ps ∧
        template.Admits bounds (turnsState true false false).valuation := by
  obtain ⟨x, hx⟩ : ∃ x, run (create splitting turns none (.bool true),
    ((BitSolver.fresh 2 1000).execute []).1) = x := ⟨_, rfl⟩
  obtain ⟨hok, hinvariant, -⟩ := run_turns
  have hconcluded := fun i => Concluded.of_verifier (i := i) (by decide) (by decide) hok
    fun r hr => ⟨(rounds_turns r hr).2, (rounds_turns r hr).1⟩
  rw [hx] at hok hinvariant hconcluded ⊢
  obtain ⟨r, v, p⟩ := x
  obtain rfl : r = .ok () := hok
  obtain ⟨i, hi, hholds⟩ := holds_of_paths_run (F := BitSolver.faithful (by decide) (by decide))
    (BitSolver.keeps_fresh (by decide) (by decide)) rfl hx (fun r hr => (rounds_turns r hr).1)
    (fun r hr => (rounds_turns r hr).2) (fun i hi => (hinvariant i hi).1)
  have hpre := (hholds _ coherent_start).1
  obtain ⟨-, -, template, ps, htemplate, hvalue, hdiscerns, -, hcovers⟩ :=
    paths_inductive rfl (hconcluded i hi) (hinvariant i hi).1
  obtain ⟨template', htemplate', hleft⟩ := bounded_turns
  cases htemplate.symm.trans htemplate'
  obtain ⟨pointers, bounds, hmem, -, hbounds⟩ := hcovers _ (typed_turnsState true false false)
    (assumed_turnsState true false false) hpre (.inr hleft)
  exact ⟨i, hi, hpre, template, ps, pointers, bounds, hvalue, hdiscerns, hmem, hbounds⟩

end Verifier

end InvariantSynthesis
