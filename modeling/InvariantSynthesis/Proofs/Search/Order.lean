import InvariantSynthesis.Proofs.Domain.Ranking
import InvariantSynthesis.Proofs.Search.Ranking
import InvariantSynthesis.Proofs.Search.Reached
import InvariantSynthesis.Proofs.Search.Rise

namespace InvariantSynthesis

section entries

variable {α : Type} {R : α → α → Prop} {u v w : List α} {i : Nat} {x y : α}

/-- Every entry of the first list is related to the entry at its place in the second. -/
def Entrywise (R : α → α → Prop) (v w : List α) : Prop :=
  ∀ ⦃i : Nat⦄ ⦃x : α⦄, v[i]? = some x → ∃ y, w[i]? = some y ∧ R x y

namespace Entrywise

theorem refl (hR : ∀ x, R x x) (v : List α) : Entrywise R v v := fun _ x hx => ⟨x, hx, hR x⟩

theorem trans (hR : ∀ {x y z}, R x y → R y z → R x z) (h : Entrywise R u v) (h' : Entrywise R v w) :
    Entrywise R u w := by
  intro i x hx
  obtain ⟨y, hy, hxy⟩ := h hx
  obtain ⟨z, hz, hyz⟩ := h' hy
  exact ⟨z, hz, hR hxy hyz⟩

theorem antisymm (hR : ∀ {x y}, R x y → R y x → x = y) (h : Entrywise R v w) (h' : Entrywise R w v) :
    v = w := by
  apply List.ext_getElem?
  intro i
  cases hx : v[i]? with
  | some x =>
    obtain ⟨y, hy, hxy⟩ := h hx
    obtain ⟨x', hx', hyx⟩ := h' hy
    cases hx.symm.trans hx'
    rw [hy, hR hxy hyx]
  | none =>
    cases hy : w[i]? with
    | none => rfl
    | some y =>
      obtain ⟨x, hx', -⟩ := h' hy
      cases hx.symm.trans hx'

theorem set (h : Entrywise R v w) (hy : ∀ x, v[i]? = some x → R x y) : Entrywise R v (w.set i y) := by
  intro j x hx
  obtain ⟨z, hz, hxz⟩ := h hx
  by_cases hij : i = j
  · subst hij
    refine ⟨y, ?_, hy x hx⟩
    rw [List.getElem?_set_self', hz]
    rfl
  · exact ⟨z, by rwa [List.getElem?_set_ne hij], hxz⟩

theorem append (h : Entrywise R v w) (us : List α) : Entrywise R v (w ++ us) := by
  intro i x hx
  obtain ⟨y, hy, hxy⟩ := h hx
  exact ⟨y, by rwa [List.getElem?_append_left (List.getElem?_eq_some_iff.mp hy).1], hxy⟩

end Entrywise

/-- There are as many entries as before, and each is related to the one at its place. -/
structure Rowwise (R : α → α → Prop) (v w : List α) : Prop where
  length : w.length = v.length
  entries : Entrywise R v w

namespace Rowwise

theorem refl (hR : ∀ x, R x x) (v : List α) : Rowwise R v v := ⟨rfl, .refl hR v⟩

theorem trans (hR : ∀ {x y z}, R x y → R y z → R x z) (h : Rowwise R u v) (h' : Rowwise R v w) :
    Rowwise R u w :=
  ⟨h'.length.trans h.length, h.entries.trans hR h'.entries⟩

theorem set (hR : ∀ x, R x x) (hx : v[i]? = some x) (hxy : R x y) : Rowwise R v (v.set i y) := by
  refine ⟨List.length_set, (Entrywise.refl hR v).set fun x' hx' => ?_⟩
  cases hx.symm.trans hx'
  exact hxy

end Rowwise

/-- Paths stay at their places, each with a related value. -/
def Pathwise (R : α → α → Prop) (ps qs : List (List Bool × α)) : Prop :=
  Entrywise (fun p q => p.1 = q.1 ∧ R p.2 q.2) ps qs

namespace Pathwise

variable {ps : List (List Bool × α)} {path : List Bool}

theorem refl (hR : ∀ x, R x x) (ps : List (List Bool × α)) : Pathwise R ps ps :=
  Entrywise.refl (fun p => ⟨rfl, hR p.2⟩) ps

theorem set (hR : ∀ x, R x x) (hx : ps[i]? = some (path, x)) (hxy : R x y) :
    Pathwise R ps (ps.set i (path, y)) := by
  refine Entrywise.set (refl hR ps) fun p hp => ?_
  cases hx.symm.trans hp
  exact ⟨rfl, hxy⟩

theorem append (hR : ∀ x, R x x) (qs : List (List Bool × α)) : Pathwise R ps (ps ++ qs) :=
  Entrywise.append (refl hR ps) qs

end Pathwise

theorem set_eq_self_iff (hx : v[i]? = some x) : v.set i y = v ↔ y = x := by
  constructor
  · intro h
    have hy : (v.set i y)[i]? = some y := by
      rw [List.getElem?_set_self', hx]
      rfl
    rw [h, hx] at hy
    exact (Option.some.inj hy).symm
  · rintro rfl
    exact set_of_getElem? hx

end entries

namespace PointsTo

/-- More targets, or all of them. -/
protected def Le : PointsTo → PointsTo → Prop
  | .targets ts, .targets us => ts.Sublist us
  | .top, .targets _ => False
  | _, .top => True

instance : PartialOrder PointsTo where
  le := PointsTo.Le
  le_refl x := by
    cases x with
    | targets ts => exact List.Sublist.refl ts
    | top => trivial
  le_trans x y z hxy hyz := by
    cases z with
    | top => cases x <;> trivial
    | targets us =>
      cases y with
      | top => exact hyz.elim
      | targets ts =>
        cases x with
        | top => exact hxy.elim
        | targets => exact List.Sublist.trans hxy hyz
  le_antisymm x y hxy hyx := by
    cases x with
    | targets ts =>
      cases y with
      | targets us => exact congrArg _ (List.Sublist.antisymm hxy hyx)
      | top => exact hyx.elim
    | top =>
      cases y with
      | targets us => exact hxy.elim
      | top => rfl

end PointsTo

/-- Turns are recorded at the end, and the components do not become fewer. Without another turn the
row is the same. -/
structure RankingRow.Extends (r r' : RankingRow) : Prop where
  turns : r.turns <+: r'.turns
  components : r.coefficients.length ≤ r'.coefficients.length
  same : r'.turns = r.turns → r' = r

namespace RankingRow.Extends

variable {r r' r'' : RankingRow}

theorem refl (r : RankingRow) : r.Extends r := ⟨List.prefix_rfl, Nat.le_refl _, fun _ => rfl⟩

theorem antisymm (h : r.Extends r') (h' : r'.Extends r) : r = r' :=
  h'.same (h.turns.eq_of_length (Nat.le_antisymm h.turns.length_le h'.turns.length_le))

theorem trans (h : r.Extends r') (h' : r'.Extends r'') : r.Extends r'' := by
  refine ⟨h.turns.trans h'.turns, Nat.le_trans h.components h'.components, fun hturns => ?_⟩
  have hback := h'.turns
  rw [hturns] at hback
  have hsame : r'.turns = r.turns :=
    hback.eq_of_length (Nat.le_antisymm hback.length_le h.turns.length_le)
  rw [h'.same (hturns.trans hsame.symm), h.same hsame]

theorem of_turn {turn : List Int} (hturns : r'.turns = r.turns ++ [turn])
    (hcomponents : r.coefficients.length ≤ r'.coefficients.length) : r.Extends r' := by
  refine ⟨hturns ▸ List.prefix_append _ _, hcomponents, fun h => ?_⟩
  rw [hturns] at h
  simp at h

end RankingRow.Extends

namespace Domain

/-- The second value is the first one or above it. -/
protected def Le : (d : Domain) → d.Value → d.Value → Prop
  | .template _, (v : List RowValue), (w : List RowValue) => Rowwise (· ≤ ·) v w
  | .equalities _, (v : List Bool), (w : List Bool) => Rowwise (fun a b => b ≤ a) v w
  | .predicates _, (v : List Bool), (w : List Bool) => Rowwise (fun a b => b ≤ a) v w
  | .ranking _, (v : List RankingRow), (w : List RankingRow) => Rowwise RankingRow.Extends v w
  | .heap _, (v : List PointsTo), (w : List PointsTo) => Rowwise (· ≤ ·) v w
  | .product a b, (v, w), (v', w') => a.Le v v' ∧ b.Le w w'
  | .paths d _, (ps : List (List Bool × d.Value)), (qs : List (List Bool × d.Value)) =>
    Pathwise d.Le ps qs

instance (d : Domain) : PartialOrder d.Value where
  le := d.Le
  le_refl v := by
    induction d with
    | template | heap => exact .refl le_refl v
    | equalities | predicates => exact .refl (R := fun a b => b ≤ a) le_refl v
    | ranking => exact .refl RankingRow.Extends.refl v
    | product a b iha ihb => exact ⟨iha v.1, ihb v.2⟩
    | paths d conds ih => exact .refl ih v
  le_trans u v w huv hvw := by
    induction d with
    | template | heap => exact huv.trans le_trans hvw
    | equalities | predicates => exact huv.trans (fun h h' => le_trans h' h) hvw
    | ranking => exact huv.trans .trans hvw
    | product a b iha ihb => exact ⟨iha _ _ _ huv.1 hvw.1, ihb _ _ _ huv.2 hvw.2⟩
    | paths d conds ih =>
      exact huv.trans (fun h h' => ⟨h.1.trans h'.1, ih _ _ _ h.2 h'.2⟩) hvw
  le_antisymm v w hvw hwv := by
    induction d with
    | template | heap => exact hvw.entries.antisymm le_antisymm hwv.entries
    | equalities | predicates =>
      exact hvw.entries.antisymm (fun h h' => le_antisymm h' h) hwv.entries
    | ranking => exact hvw.entries.antisymm RankingRow.Extends.antisymm hwv.entries
    | product a b iha ihb => exact Prod.ext (iha _ _ hvw.1 hwv.1) (ihb _ _ hvw.2 hwv.2)
    | paths d conds ih =>
      exact hvw.antisymm (fun h h' => Prod.ext h.1 (ih _ _ h.2 h'.2)) hwv

end Domain

namespace TemplateDomain

variable {d : TemplateDomain} {v v' : List RowValue} {i : Nat} {k : Int} {b : Bool}

theorem le_join (limit k : Int) (x : RowValue) : x ≤ join limit k x := by
  cases x with
  | bottom => trivial
  | top => exact le_refl _
  | bound b =>
    rw [join]
    split
    · exact le_refl _
    · split
      · trivial
      · show b ≤ k
        omega

theorem le_raise (h : d.raise v i k = .ok (b, v')) : Rowwise (· ≤ ·) v v' := by
  obtain ⟨r, old, -, hold, rfl, -⟩ := raise_ok h
  exact .set le_refl hold (le_join _ _ _)

theorem raise_changed (h : d.raise v i k = .ok (b, v')) : b = false ↔ v' = v := by
  obtain ⟨r, old, -, hold, rfl, rfl⟩ := raise_ok h
  rw [decide_eq_false_iff_not, not_not]
  exact (set_eq_self_iff hold).symm

end TemplateDomain

theorem CandidateDomain.le_edit {v v' : List Bool} {i : Nat} {b : Bool}
    (h : edit v i = .ok (b, v')) : Rowwise (fun a b => b ≤ a) v v' := by
  obtain ⟨hold, rfl⟩ := edit_ok h
  exact .set (R := fun a b => b ≤ a) le_refl hold (Bool.false_le _)

namespace HeapDomain

theorem sublist_addTarget (t : Int) (ts : List Int) : ts.Sublist (addTarget t ts) := by
  induction ts with
  | nil => exact List.nil_sublist _
  | cons u us ih =>
    rw [addTarget]
    split
    · exact List.sublist_cons_self _ _
    · split
      · exact List.Sublist.refl _
      · exact ih.cons_cons u

theorem le_extend (d : HeapDomain) (t : Int) (x : PointsTo) : x ≤ d.extend t x := by
  cases x with
  | top => exact le_refl _
  | targets ts =>
    rw [extend]
    split
    · exact le_refl _
    · split
      · trivial
      · exact sublist_addTarget t ts

theorem le_edit {d : HeapDomain} {v v' : List PointsTo} {i : Nat} {m : Model} {b : Bool}
    (h : d.edit v i m = .ok (b, v')) : Rowwise (· ≤ ·) v v' := by
  obtain ⟨r, old, k, -, hold, -, rfl, -⟩ := edit_ok h
  exact .set le_refl hold (d.le_extend k old)

end HeapDomain

namespace RankingDomain

variable {σ : Type} [Oracle σ]

theorem attempt_length {names : List (List String)} {turns : List (List Int)} {cs : List (List Int)}
    {s t : Statistics × σ} (h : attempt names turns s = (.ok (.sat, cs), t)) :
    cs.length = names.length := by
  obtain ⟨answer, u, -, h⟩ := Session.ok_of_bind h
  split at h
  · obtain ⟨found, w, hread, h⟩ := Session.ok_of_bind h
    cases h
    obtain ⟨m?, w', -, hread⟩ := Session.ok_of_bind hread
    cases m? with
    | none => cases hread
    | some m =>
      cases hread
      exact List.length_map _
  · rename_i hne
    cases h
    exact absurd rfl hne

theorem search_length {parent : σ} {vars attempts components : Nat} {turns cs : List (List Int)}
    {stats stats' : Statistics}
    (h : search parent vars turns attempts components stats = (.ok (some cs), stats')) :
    components ≤ cs.length := by
  induction attempts generalizing components stats with
  | zero => cases h
  | succ attempts ih =>
    rw [search_succ] at h
    cases hrun : attempt (coefficientNames components vars) turns
        ({ stats with instances := stats.instances + 1 }, Oracle.spawn parent) with
    | mk r t =>
      simp only [hrun] at h
      obtain e | ⟨answer, found⟩ := r
      · cases h
      · cases answer with
        | sat =>
          cases h
          rw [attempt_length hrun, coefficientNames, List.length_map, List.length_range]
        | unsat => exact Nat.le_of_succ_le (ih h)
        | unknown => cases h

theorem edit_extends (d : RankingDomain) (parent : σ) (i : Nat) (m : Model) (v : List RankingRow)
    (stats : Statistics) :
    (d.edit parent i m (v, stats)).2.1 = v ∨ ∃ r r', v[i]? = some r ∧ r.Extends r' ∧
      (d.edit parent i m (v, stats)).2.1 = v.set i r' := by
  simp only [edit]
  split
  · rename_i l r hl hr
    split
    · exact .inl rfl
    · rename_i turn _
      split
      · exact .inr ⟨r, { r with function := .gaveUp, turns := r.turns ++ [turn] }, hr,
          .of_turn rfl (Nat.le_refl _), rfl⟩
      · split
        · rename_i found _ hsearch
          refine .inr ⟨r, _, hr, ?_, rfl⟩
          cases found with
          | none => exact .of_turn rfl (Nat.le_refl _)
          | some cs =>
            refine .of_turn rfl ?_
            have hlength := search_length hsearch
            exact Nat.le_trans (Nat.le_max_left _ _) hlength
        · exact .inr ⟨r, { r with turns := r.turns ++ [turn] }, hr, .of_turn rfl (Nat.le_refl _),
            rfl⟩
  · exact .inl rfl

theorem le_edit (d : RankingDomain) (parent : σ) (i : Nat) (m : Model) (v : List RankingRow)
    (stats : Statistics) : Rowwise RankingRow.Extends v (d.edit parent i m (v, stats)).2.1 := by
  obtain hsame | ⟨r, r', hr, hextends, hset⟩ := edit_extends d parent i m v stats
  · rw [hsame]
    exact .refl RankingRow.Extends.refl v
  · rw [hset]
    exact .set RankingRow.Extends.refl hr hextends

end RankingDomain

namespace Domain

section edits

variable {α : Type} {R : α → α → Prop} {f : α → Except Error (Bool × α)} {inner : Edit α}
  {conds : List Expr} {m : Model} {first v : α} {ps : List (List Bool × α)} {k : Nat}
  {stats : Statistics}

theorem Edit.pure_rises (hR : ∀ v, R v v) (hf : ∀ {b v'}, f v = .ok (b, v') → R v v') :
    R v (Edit.pure f (v, stats)).2.1 := by
  rw [Edit.pure]
  cases hrun : f v with
  | error e => exact hR v
  | ok r => exact hf hrun

theorem Edit.onPath_eq {k : Nat} {inner : Edit α} {path : List Bool} {v v' : α}
    {ps : List (List Bool × α)} {stats stats' : Statistics} {r : Except Error Bool}
    (hk : ps[k]? = some (path, v)) (hinner : inner (v, stats) = (r, (v', stats'))) :
    Edit.onPath k inner (ps, stats) = (r, (ps.set k (path, v'), stats')) := by
  simp only [Edit.onPath, hk, hinner]

theorem Edit.onPath_state (k : Nat) (inner : Edit α) (ps : List (List Bool × α)) (stats : Statistics) :
    (Edit.onPath k inner (ps, stats)).2.1 = ps ∨ ∃ path v, ps[k]? = some (path, v) ∧
      (Edit.onPath k inner (ps, stats)).2.1 = ps.set k (path, (inner (v, stats)).2.1) := by
  rw [Edit.onPath]
  cases hk : ps[k]? with
  | none => exact .inl rfl
  | some p => exact .inr ⟨p.1, p.2, rfl, rfl⟩

theorem Edit.onModelPath_state (conds : List Expr) (m : Model) (first : α) (inner : Edit α)
    (ps : List (List Bool × α)) (stats : Statistics) :
    (Edit.onModelPath conds m first inner (ps, stats)).2.1 = ps ∨
      ∃ path, pathOf conds m = .ok path ∧
        ((∃ k v, ps[k]? = some (path, v) ∧ (Edit.onModelPath conds m first inner (ps, stats)).2.1 =
            ps.set k (path, (inner (v, stats)).2.1)) ∨
          path ∉ ps.map (·.1) ∧ (Edit.onModelPath conds m first inner (ps, stats)).2.1 =
            ps ++ [(path, (inner (first, stats)).2.1)]) := by
  rw [Edit.onModelPath]
  cases hpath : pathOf conds m with
  | error e => exact .inl rfl
  | ok path =>
    dsimp only
    cases hfind : ps.findIdx? (·.1 = path) with
    | some k =>
      obtain ⟨hlt, hkey, -⟩ := List.findIdx?_eq_some_iff_getElem.mp hfind
      obtain hsame | ⟨path', v, hk, hset⟩ := Edit.onPath_state k inner ps stats
      · exact .inl hsame
      · have hpath' : path' = path := by
          rw [List.getElem?_eq_getElem hlt] at hk
          have hkey := of_decide_eq_true hkey
          rwa [Option.some.inj hk] at hkey
        subst hpath'
        exact .inr ⟨path', rfl, .inl ⟨k, v, hk, hset⟩⟩
    | none =>
      refine .inr ⟨path, rfl, .inr ⟨fun hmem => ?_, ?_⟩⟩
      · obtain ⟨p, hp, hkey⟩ := List.mem_map.mp hmem
        have := List.findIdx?_eq_none_iff.mp hfind p hp
        simp [hkey] at this
      · have hlast : (ps ++ [(path, first)])[ps.length]? = some (path, first) :=
          List.getElem?_concat_length
        have hset : ∀ w, (ps ++ [(path, first)]).set ps.length (path, w) = ps ++ [(path, w)] := by
          intro w
          rw [List.set_append_right _ _ (Nat.le_refl _), Nat.sub_self, List.set_cons_zero]
        simp only [Edit.onPath, hlast]
        exact hset _

theorem Edit.onPath_rises (hR : ∀ v, R v v) (hinner : ∀ v stats, R v (inner (v, stats)).2.1) :
    Pathwise R ps (Edit.onPath k inner (ps, stats)).2.1 := by
  obtain hsame | ⟨path, v, hk, hset⟩ := Edit.onPath_state k inner ps stats
  · rw [hsame]
    exact .refl hR ps
  · rw [hset]
    exact .set hR hk (hinner v stats)

theorem Edit.onModelPath_rises (hR : ∀ v, R v v) (hinner : ∀ v stats, R v (inner (v, stats)).2.1) :
    Pathwise R ps (Edit.onModelPath conds m first inner (ps, stats)).2.1 := by
  obtain hsame | ⟨path, -, ⟨k, v, hk, hset⟩ | ⟨-, hadd⟩⟩ :=
    Edit.onModelPath_state conds m first inner ps stats
  · rw [hsame]
    exact .refl hR ps
  · rw [hset]
    exact .set hR hk (hinner v stats)
  · rw [hadd]
    exact .append hR _

end edits

variable {σ : Type} [Oracle σ]

/-- Every improvement leads up, however it ends. -/
theorem le_edit (d : Domain) (parent : σ) (m : Model) (i : Nat) (v : d.Value) (stats : Statistics) :
    v ≤ (d.edit parent m i (v, stats)).2.1 := by
  induction d generalizing i stats with
  | template d =>
    exact Edit.pure_rises (le_refl (α := (template d).Value)) fun h => by
      obtain ⟨r, k, -, -, hraise⟩ := TemplateDomain.edit_ok h
      exact TemplateDomain.le_raise hraise
  | equalities d | predicates d => exact Edit.pure_rises le_refl fun h => CandidateDomain.le_edit h
  | heap d => exact Edit.pure_rises le_refl fun h => HeapDomain.le_edit h
  | ranking d => exact d.le_edit parent i m v stats
  | product a b iha ihb =>
    rw [edit]
    split
    · exact ⟨iha (i / 2) v.1 stats, le_refl v.2⟩
    · exact ⟨le_refl v.1, ihb (i / 2) v.2 stats⟩
  | paths d conds ih =>
    by_cases hi : i % stride = newPath
    · simp only [edit, hi]
      exact Edit.onModelPath_rises le_refl fun w => ih (i / stride) w
    · simp only [edit, hi]
      exact Edit.onPath_rises le_refl fun w => ih (i / stride) w

/-- An improvement that ends without an error reports whether the value changed. -/
theorem edit_changed {d : Domain} {parent : σ} {m : Model} {i : Nat} {v v' : d.Value}
    {stats stats' : Statistics} {b : Bool}
    (h : d.edit parent m i (v, stats) = (.ok b, (v', stats'))) : b = false ↔ v' = v := by
  induction d generalizing i stats stats' b with
  | template d =>
    obtain ⟨r, k, -, -, hraise⟩ := TemplateDomain.edit_ok (Edit.pure_ok h)
    exact TemplateDomain.raise_changed hraise
  | equalities d | predicates d =>
    obtain ⟨hold, rfl⟩ := CandidateDomain.edit_ok (Edit.pure_ok h)
    exact eq_comm.trans (set_eq_self_iff hold).symm
  | heap d =>
    obtain ⟨r, old, k, -, hold, -, rfl, rfl⟩ := HeapDomain.edit_ok (Edit.pure_ok h)
    rw [decide_eq_false_iff_not, not_not]
    exact (set_eq_self_iff hold).symm
  | ranking d =>
    -- a revision records a turn, so the row is never the same
    obtain ⟨rfl, l, r, r', -, hr, rfl, hrevised⟩ := RankingDomain.edit_ok h
    refine iff_of_false (by simp) fun hsame => ?_
    have hturns := hrevised.turns
    rw [(set_eq_self_iff hr).mp hsame] at hturns
    omega
  | product a c iha ihc =>
    obtain ⟨v, w⟩ := v
    obtain ⟨v', w'⟩ := v'
    obtain ⟨j, -, hrun, rfl⟩ | ⟨j, -, hrun, rfl⟩ := edit_product_ok h
    · exact (iha hrun).trans ⟨fun h => congrArg (·, w') h, fun h => congrArg Prod.fst h⟩
    · exact (ihc hrun).trans ⟨fun h => congrArg (v', ·) h, fun h => congrArg Prod.snd h⟩
  | paths d conds ih =>
    have hpath : ∀ {k}, Edit.onPath k (d.edit parent m (i / stride)) (v, stats) =
        (.ok b, (v', stats')) → (b = false ↔ v' = v) := by
      intro k hrun
      obtain ⟨path, w, w', hk, hinner, rfl⟩ := Edit.onPath_ok hrun
      refine (ih hinner).trans (Iff.trans ?_ (set_eq_self_iff hk).symm)
      exact ⟨fun h => congrArg (path, ·) h, fun h => congrArg Prod.snd h⟩
    by_cases hi : i % stride = newPath
    · simp only [edit, hi] at h
      obtain ⟨path, -, ⟨k, hrun, -⟩ | ⟨w, changed, -, -, rfl, rfl⟩⟩ := Edit.onModelPath_ok h
      · exact hpath hrun
      · refine iff_of_false (by simp) fun hsame => ?_
        exact List.cons_ne_nil _ _ (List.append_right_eq_self.mp hsame)
    · simp only [edit, hi] at h
      exact hpath h

end Domain

end InvariantSynthesis
