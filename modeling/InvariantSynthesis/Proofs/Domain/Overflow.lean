import InvariantSynthesis.Proofs.BitSolver.Synthesis
import InvariantSynthesis.Proofs.Domain.Improvement
import InvariantSynthesis.Proofs.Oracle.Session

namespace InvariantSynthesis

section lists

variable {ε α β : Type}

/-- Some element has the second property, and those before it have the first one. -/
def Until (P Q : α → Prop) : List α → Prop
  | [] => False
  | a :: as => Q a ∨ P a ∧ Until P Q as

theorem Until.exists_mem {P Q : α → Prop} {as : List α} (h : Until P Q as) : ∃ a ∈ as, Q a := by
  induction as with
  | nil => exact h.elim
  | cons a as ih =>
    obtain ha | ⟨-, h⟩ := h
    · exact ⟨a, List.mem_cons_self, ha⟩
    · obtain ⟨b, hb, hQ⟩ := ih h
      exact ⟨b, List.mem_cons_of_mem _ hb, hQ⟩

theorem until_iff_find {P Q : α → Prop} [DecidablePred P] {as : List α} :
    Until (fun a => ¬ P a) (fun a => P a ∧ Q a) as ↔ ∃ a, as.find? (fun a => P a) = some a ∧ Q a := by
  induction as with
  | nil => simp [Until]
  | cons a as ih =>
    rw [Until, ih, List.find?_cons]
    by_cases ha : P a <;> simp [ha]

theorem mapM_eq_error {f : α → Except ε β} {as : List α} {e : ε} : as.mapM f = .error e ↔
    Until (fun a => ∃ b, f a = .ok b) (fun a => f a = .error e) as := by
  induction as with
  | nil =>
    rw [List.mapM_nil]
    exact iff_of_false (fun h => by cases h) id
  | cons a as ih =>
    rw [List.mapM_cons, Except.bind_eq_error, Until, ← ih]
    apply or_congr_right
    constructor
    · rintro ⟨b, hb, h⟩
      obtain h | ⟨bs, -, h⟩ := Except.bind_eq_error.mp h
      · exact ⟨⟨b, hb⟩, h⟩
      · cases h
    · rintro ⟨⟨b, hb⟩, h⟩
      exact ⟨b, hb, Except.bind_eq_error.mpr (.inl h)⟩

end lists

namespace Session

/-- The computation ends because a number leaves 64 bits. -/
def Overflows {τ α : Type} (body : ExceptT Error (StateM τ) α) (s : τ) : Prop :=
  (body s).1 = .error (.fault .overflow)

section generic

variable {τ α β : Type} {body : ExceptT Error (StateM τ) α} {f : α → ExceptT Error (StateM τ) β} {s : τ}

theorem overflows_bind : Overflows (body >>= f) s ↔
    Overflows body s ∨ ∃ a t, body s = (.ok a, t) ∧ Overflows (f a) t := by
  unfold Overflows
  cases hrun : body s with
  | mk x t =>
    cases x with
    | ok a =>
      rw [bind_ok hrun]
      constructor
      · exact fun h => .inr ⟨a, t, rfl, h⟩
      · rintro (h | ⟨b, u, heq, h⟩)
        · cases h
        · cases heq
          exact h
    | error e =>
      rw [bind_error hrun]
      constructor
      · intro h
        cases h
        exact .inl rfl
      · rintro (h | ⟨b, u, heq, -⟩)
        · cases h
          rfl
        · cases heq

theorem overflows_bind_of_not (h : ¬ Overflows body s) : Overflows (body >>= f) s ↔
    ∃ a t, body s = (.ok a, t) ∧ Overflows (f a) t :=
  overflows_bind.trans (or_iff_right h)

theorem not_overflows_pure (a : α) (s : τ) :
    ¬ Overflows (pure a : ExceptT Error (StateM τ) α) s := fun h => by cases h

end generic

end Session

open Session

theorem Model.requireInt_ne_fault {m : Model} {e : Expr} {f : Fault} :
    m.requireInt e ≠ .error (.fault f) := by
  rw [requireInt]
  split <;> simp

theorem Model.requireInt_of_some {m : Model} {e : Expr} {k : Int} (h : m.evalInt e = some k) :
    m.requireInt e = .ok k := by
  rw [requireInt, h]

theorem Model.requireInt_of_none {m : Model} {e : Expr} (h : m.evalInt e = none) :
    m.requireInt e = .error (.missingModelValue e.text) := by
  rw [requireInt, h]

namespace TemplateDomain

variable {d : TemplateDomain} {v : List RowValue} {i : Nat} {m : Model} {k : Int}

theorem row_ne_overflow : d.row i ≠ .error (.fault .overflow) := by
  rw [row]
  split <;> simp

theorem raise_ne_overflow : d.raise v i k ≠ .error (.fault .overflow) := by
  intro h
  obtain h | ⟨r, -, h⟩ := Except.bind_eq_error.mp h
  · exact row_ne_overflow h
  · split at h <;> cases h

theorem postValue_ne_overflow :
    (do (← d.row i).postValue m) ≠ .error (.fault .overflow) := by
  intro h
  obtain h | ⟨r, -, h⟩ := Except.bind_eq_error.mp h
  · exact row_ne_overflow h
  · exact Model.requireInt_ne_fault h

theorem edit_ne_overflow : d.edit v i m ≠ .error (.fault .overflow) := by
  intro h
  obtain h | ⟨r, -, h⟩ := Except.bind_eq_error.mp h
  · exact row_ne_overflow h
  · obtain h | ⟨k, -, h⟩ := Except.bind_eq_error.mp h
    · exact Model.requireInt_ne_fault h
    · exact raise_ne_overflow h

end TemplateDomain

theorem CandidateDomain.edit_ne_overflow {v : List Bool} {i : Nat} :
    edit v i ≠ .error (.fault .overflow) := by
  rw [edit]
  split <;> simp

theorem HeapDomain.edit_ne_overflow {d : HeapDomain} {v : List PointsTo} {i : Nat} {m : Model} :
    d.edit v i m ≠ .error (.fault .overflow) := by
  intro h
  rw [edit] at h
  split at h
  · obtain h | ⟨k, -, h⟩ := Except.bind_eq_error.mp h
    · exact Model.requireInt_ne_fault h
    · cases h
  · cases h

namespace Domain

section edit

variable {α : Type} {inner : Edit α}

theorem Edit.overflows_pure {f : α → Except Error (Bool × α)} {s : α × Statistics} :
    Overflows (Edit.pure f) s ↔ f s.1 = .error (.fault .overflow) := by
  obtain ⟨v, stats⟩ := s
  rw [Overflows, Edit.pure]
  cases f v <;> simp

theorem Edit.not_overflows_onPath (h : ∀ s, ¬ Overflows inner s) (k : Nat)
    (s : List (List Bool × α) × Statistics) : ¬ Overflows (Edit.onPath k inner) s := by
  obtain ⟨ps, stats⟩ := s
  rw [Overflows, Edit.onPath]
  split
  · simp
  · exact h _

theorem Edit.not_overflows_onModelPath (h : ∀ s, ¬ Overflows inner s) (conds : List Expr) (m : Model)
    (first : α) (s : List (List Bool × α) × Statistics) :
    ¬ Overflows (Edit.onModelPath conds m first inner) s := by
  obtain ⟨ps, stats⟩ := s
  intro hover
  rw [Overflows, Edit.onModelPath] at hover
  split at hover
  · rename_i e hpath
    cases hover
    obtain ⟨c, -, hc⟩ := (mapM_eq_error.mp hpath).exists_mem
    split at hc <;> cases hc
  · split at hover
    · exact not_overflows_onPath h _ _ hover
    · have hmap : (onPath ps.length inner (ps ++ [(_, first)], stats)).1.map (fun _ => true) =
          .error (.fault .overflow) := hover
      exact not_overflows_onPath h _ _ (Except.map_eq_error.mp hmap)

end edit

variable {σ : Type} [Oracle σ] {d : Domain} {m : Model} {o : σ}

theorem not_overflows_edit (hd : d.Unranked) (i : Nat) (s : d.Value × Statistics) :
    ¬ Overflows (d.edit o m i) s := by
  induction d generalizing i with
  | template d => exact fun h => TemplateDomain.edit_ne_overflow (Edit.overflows_pure.mp h)
  | equalities d | predicates d =>
    exact fun h => CandidateDomain.edit_ne_overflow (Edit.overflows_pure.mp h)
  | heap d => exact fun h => HeapDomain.edit_ne_overflow (Edit.overflows_pure.mp h)
  | product a b iha ihb =>
    obtain ⟨⟨v, w⟩, stats⟩ := s
    rw [Overflows, edit]
    split
    · exact iha hd.1 _ _
    · exact ihb hd.2 _ _
  | paths d conds ih =>
    intro h
    by_cases hi : i % stride = newPath
    · simp only [Overflows, edit, hi] at h
      exact Edit.not_overflows_onModelPath (ih hd _) conds m d.start s h
    · simp only [Overflows, edit, hi] at h
      exact Edit.not_overflows_onPath (ih hd _) _ s h
  | ranking d => exact hd.elim

end Domain

namespace RankedLoop

/-- The decrease of a variable can be computed. -/
def Measures (m : Model) (x : Expr × Expr) : Prop :=
  ∃ a b, m.evalInt x.1 = some a ∧ m.evalInt x.2 = some b ∧ Bounded.Fits (a - b)

/-- The values of a variable are known, but their difference leaves 64 bits. -/
def Exceeds (m : Model) (x : Expr × Expr) : Prop :=
  ∃ a b, m.evalInt x.1 = some a ∧ m.evalInt x.2 = some b ∧ ¬ Bounded.Fits (a - b)

theorem Measures.not_exceeds {m : Model} {x : Expr × Expr} (h : Measures m x) : ¬ Exceeds m x := by
  obtain ⟨a, b, ha, hb, hfits⟩ := h
  rintro ⟨a', b', ha', hb', hnot⟩
  cases ha.symm.trans ha'
  cases hb.symm.trans hb'
  exact hnot hfits

def decrease? (m : Model) (x : Expr × Expr) : Except Error Int := do
  match Bounded.sub? (← m.requireInt x.1) (← m.requireInt x.2) with
  | some d => return d
  | none => throw (.fault .overflow)

variable {l : RankedLoop} {m : Model}

theorem turnOf_eq (l : RankedLoop) (m : Model) : l.turnOf m = l.vars.mapM (decrease? m) := rfl

theorem decrease?_cases (m : Model) (x : Expr × Expr) :
    (Measures m x ∧ ∃ k, decrease? m x = .ok k) ∨
      (Exceeds m x ∧ decrease? m x = .error (.fault .overflow)) ∨
      ((m.evalInt x.1 = none ∨ m.evalInt x.2 = none) ∧
        ∃ what, decrease? m x = .error (.missingModelValue what)) := by
  cases ha : m.evalInt x.1 with
  | none => exact .inr (.inr ⟨.inl rfl, _, by rw [decrease?, Model.requireInt_of_none ha]; rfl⟩)
  | some a =>
    cases hb : m.evalInt x.2 with
    | none =>
      refine .inr (.inr ⟨.inr rfl, x.2.text, ?_⟩)
      rw [decrease?, Model.requireInt_of_some ha, Model.requireInt_of_none hb]
      rfl
    | some b =>
      by_cases hfits : Bounded.Fits (a - b)
      · refine .inl ⟨⟨a, b, ha, hb, hfits⟩, a - b, ?_⟩
        have hsub : Bounded.sub? a b = some (a - b) := Bounded.check_eq_some.mpr ⟨rfl, hfits⟩
        simp only [decrease?, Model.requireInt_of_some ha, Model.requireInt_of_some hb, bind, Except.bind,
          hsub]
        rfl
      · refine .inr (.inl ⟨⟨a, b, ha, hb, hfits⟩, ?_⟩)
        have hsub : Bounded.sub? a b = none := if_neg hfits
        simp only [decrease?, Model.requireInt_of_some ha, Model.requireInt_of_some hb, bind, Except.bind,
          hsub]
        rfl

theorem decrease?_ok {x : Expr × Expr} : (∃ k, decrease? m x = .ok k) ↔ Measures m x := by
  obtain ⟨hx, hrun⟩ | ⟨hx, hrun⟩ | ⟨hnone, what, hrun⟩ := decrease?_cases m x
  · exact iff_of_true hrun hx
  · exact iff_of_false (by simp [hrun]) fun hmeasures => hmeasures.not_exceeds hx
  · refine iff_of_false (by simp [hrun]) ?_
    rintro ⟨a, b, ha, hb, -⟩
    simp [ha, hb] at hnone

theorem decrease?_overflow {x : Expr × Expr} :
    decrease? m x = .error (.fault .overflow) ↔ Exceeds m x := by
  obtain ⟨hx, k, hrun⟩ | ⟨hx, hrun⟩ | ⟨hnone, what, hrun⟩ := decrease?_cases m x
  · exact iff_of_false (by simp [hrun]) hx.not_exceeds
  · exact iff_of_true hrun hx
  · refine iff_of_false (by simp [hrun]) ?_
    rintro ⟨a, b, ha, hb, -⟩
    simp [ha, hb] at hnone

theorem turnOf_overflow :
    l.turnOf m = .error (.fault .overflow) ↔ Until (Measures m) (Exceeds m) l.vars := by
  simp only [turnOf_eq, mapM_eq_error, decrease?_ok, decrease?_overflow]

theorem turnOf_ok_iff : (∃ turn, l.turnOf m = .ok turn) ↔ ∀ x ∈ l.vars, Measures m x := by
  constructor
  · rintro ⟨turn, hturn⟩ x hx
    exact decrease?_ok.mp (exists_of_mapM_ok hturn x hx)
  · intro hall
    cases hturn : l.turnOf m with
    | ok turn => exact ⟨turn, rfl⟩
    | error e =>
      obtain ⟨x, hx, herror⟩ := (mapM_eq_error.mp hturn).exists_mem
      obtain ⟨k, hk⟩ := decrease?_ok.mpr (hall x hx)
      cases herror.symm.trans hk

end RankedLoop

namespace RankingDomain

variable {d : RankingDomain} {m : Model} {i : Nat} {v : List RankingRow} {stats : Statistics}

/-- The decrease of all variables of a loop can be computed. -/
def Measures (d : RankingDomain) (m : Model) (i : Nat) : Prop :=
  ∃ l, d.loops[i]? = some l ∧ ∀ x ∈ l.vars, RankedLoop.Measures m x

/-- The first decrease of a variable of a loop that cannot be computed leaves 64 bits. -/
def Exceeds (d : RankingDomain) (m : Model) (i : Nat) : Prop :=
  ∃ l, d.loops[i]? = some l ∧ Until (RankedLoop.Measures m) (RankedLoop.Exceeds m) l.vars

theorem Measures.not_exceeds (h : d.Measures m i) : ¬ d.Exceeds m i := by
  obtain ⟨l, hl, hall⟩ := h
  rintro ⟨l', hl', huntil⟩
  cases hl.symm.trans hl'
  obtain ⟨x, hx, hexceeds⟩ := huntil.exists_mem
  exact (hall x hx).not_exceeds hexceeds

/-- What the improvement of a row does is decided by the turn. -/
theorem edit_cases {o : BitSolver} (hw : BitSolver.widthAllowed o.width = true)
    (hi : i < d.loops.length) (hv : i < v.length) (stats : Statistics) :
    (d.Measures m i ∧ ∃ v' t, (Domain.ranking d).edit o m i (v, stats) = (.ok true, (v', t)) ∧
        List.length v' = v.length) ∨
      ¬ d.Measures m i ∧ ∃ e, (Domain.ranking d).edit o m i (v, stats) = (.error e, (v, stats)) ∧
        (e = .fault .overflow ↔ d.Exceeds m i) := by
  have hl := List.getElem?_eq_getElem hi
  have hr := List.getElem?_eq_getElem hv
  cases hturn : d.loops[i].turnOf m with
  | ok turn =>
    refine .inl ⟨⟨_, hl, RankedLoop.turnOf_ok_iff.mp ⟨turn, hturn⟩⟩, ?_⟩
    simp only [Domain.edit, edit, hl, hr, hturn]
    -- The turn is recorded; the search for a function that follows has no way to fail here.
    split
    · exact ⟨_, _, rfl, List.length_set⟩
    · obtain ⟨found, t, hsearch, -⟩ := search_solves hw d.loops[i].vars.length
        (v[i].turns ++ [turn]) (d.maxComponents + 1 - max v[i].coefficients.length 1)
        (max v[i].coefficients.length 1) stats
      rw [hsearch]
      exact ⟨_, _, rfl, List.length_set⟩
  | error e =>
    refine .inr ⟨?_, e, by simp only [Domain.edit, edit, hl, hr, hturn]; rfl, ?_⟩
    · rintro ⟨l, hl', hall⟩
      cases hl.symm.trans hl'
      obtain ⟨turn, hok⟩ := RankedLoop.turnOf_ok_iff.mpr hall
      cases hturn.symm.trans hok
    · constructor
      · rintro rfl
        exact ⟨_, hl, RankedLoop.turnOf_overflow.mp hturn⟩
      · rintro ⟨l, hl', huntil⟩
        cases hl.symm.trans hl'
        exact Except.error.inj (hturn.symm.trans (RankedLoop.turnOf_overflow.mpr huntil))

end RankingDomain

end InvariantSynthesis
