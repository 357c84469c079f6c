import InvariantSynthesis.Proofs.Oracle.Contract

namespace InvariantSynthesis

namespace Oracle

variable {σ : Type} [Oracle σ] {level n : Nat} {o p q : σ}

/-- Scopes are popped, without a limit, while `level` or more are open and no pop fails. The number is
that of the pops that succeed. -/
inductive Closes (level : Nat) : Nat → σ → σ → Prop
  | done {o : σ} : depth o < level → Closes level 0 o o
  | refused {o p : σ} {e : OracleError} : level ≤ depth o →
      (pop : Request σ Unit) o = (.error e, p) → Closes level 0 o p
  | next {n : Nat} {o p q : σ} : level ≤ depth o → (pop : Request σ Unit) o = (.ok (), p) →
      Closes level n p q → Closes level (n + 1) o q

variable (σ) in
/-- Every pop that succeeds closes a scope. -/
def Lowers : Prop := ∀ o p : σ, (pop : Request σ Unit) o = (.ok (), p) → depth p < depth o

namespace Closes

theorem closeTo_eq (h : Closes level n o q) {fuel : Nat} (hfuel : n < fuel) :
    closeTo level fuel o = q := by
  induction h generalizing fuel with
  | done hlevel =>
    obtain ⟨fuel, rfl⟩ := Nat.exists_eq_add_one.mpr hfuel
    rw [closeTo, if_neg (Nat.not_le.mpr hlevel)]
  | refused hlevel hpop =>
    obtain ⟨fuel, rfl⟩ := Nat.exists_eq_add_one.mpr hfuel
    rw [closeTo, if_pos hlevel, hpop]
  | next hlevel hpop _ ih =>
    obtain ⟨fuel, rfl⟩ := Nat.exists_eq_add_one.mpr (Nat.zero_lt_of_lt hfuel)
    rw [closeTo, if_pos hlevel, hpop]
    exact ih (Nat.lt_of_succ_lt_succ hfuel)

theorem release_eq (h : Closes level n o q) (hn : n ≤ depth o) : release level o = q :=
  h.closeTo_eq (Nat.lt_succ_of_le hn)

theorem le_depth (hlowers : Lowers σ) (h : Closes level n o q) : n ≤ depth o := by
  induction h with
  | done _ => exact Nat.zero_le _
  | refused _ _ => exact Nat.zero_le _
  | next _ hpop _ ih => exact Nat.lt_of_le_of_lt ih (hlowers _ _ hpop)

theorem exists_of_lowers (hlowers : Lowers σ) (level : Nat) (o : σ) : ∃ n q, Closes level n o q := by
  induction hk : depth o using Nat.strongRecOn generalizing o with
  | ind k ih =>
    by_cases hlevel : level ≤ depth o
    · cases hpop : (pop : Request σ Unit) o with
      | mk x p =>
        cases x with
        | error e => exact ⟨0, p, .refused hlevel hpop⟩
        | ok _ =>
          obtain ⟨n, q, h⟩ := ih _ (hk ▸ hlowers o p hpop) p rfl
          exact ⟨n + 1, q, .next hlevel hpop h⟩
    · exact ⟨0, o, .done (Nat.lt_of_not_le hlevel)⟩

end Closes

/-- Where pops close scopes, a release is what popping without a limit leaves. -/
theorem release_eq_iff (hlowers : Lowers σ) : release level o = q ↔ ∃ n, Closes level n o q := by
  constructor
  · rintro rfl
    obtain ⟨n, q, h⟩ := Closes.exists_of_lowers hlowers level o
    rw [h.release_eq (h.le_depth hlowers)]
    exact ⟨n, h⟩
  · rintro ⟨n, h⟩
    exact h.release_eq (h.le_depth hlowers)

end Oracle

namespace Session

variable {S σ α : Type} {s s' : S} {o p : σ} {a : α}

theorem request_ok {r : Request σ α} (h : (request r : Session S σ α) (s, o) = (.ok a, (s', p))) :
    s' = s ∧ r o = (.ok a, p) := by
  cases hr : r o with
  | mk x q =>
    cases x with
    | ok b =>
      simp only [request, hr] at h
      cases h
      exact ⟨rfl, rfl⟩
    | error e =>
      simp only [request, hr] at h
      cases h

theorem request_eq {r : Request σ α} (h : r o = (.ok a, p)) (s : S) :
    (request r : Session S σ α) (s, o) = (.ok a, (s, p)) := by
  rw [request, h]

theorem request_error {r : Request σ α} {e : OracleError} (h : r o = (.error e, p)) (s : S) :
    (request r : Session S σ α) (s, o) = (.error (.oracle e), (s, p)) := by
  rw [request, h]

theorem ofExcept_ok {r : Except Error α} {so t : S × σ}
    (h : (ofExcept r : Session S σ α) so = (.ok a, t)) : r = .ok a ∧ t = so := by
  cases h
  exact ⟨rfl, rfl⟩

theorem requireModel_ok [Oracle σ] {m : Model} {t : S × σ}
    (h : (requireModel : Session S σ Model) (s, o) = (.ok m, t)) :
    Oracle.model? o = some m ∧ t = (s, o) := by
  obtain ⟨found, t', hlook, h⟩ := ok_of_bind h
  cases hlook
  cases hm : (Oracle.model? o : Option Model) with
  | none =>
    simp only [hm] at h
    cases h
  | some m' =>
    simp only [hm] at h
    cases h
    exact ⟨rfl, rfl⟩

theorem requireModel_of_some [Oracle σ] {m : Model} (h : Oracle.model? o = some m) (s : S) :
    (requireModel : Session S σ Model) (s, o) = (.ok m, (s, o)) := by
  have hlook : (look (fun o : σ => Oracle.model? o) : Session S σ (Option Model)) (s, o) =
      (.ok (some m), (s, o)) := by rw [← h]; rfl
  exact bind_ok hlook

theorem requireModel_of_none [Oracle σ] (h : (Oracle.model? o : Option Model) = none) (s : S) :
    (requireModel : Session S σ Model) (s, o) =
      (.error (.oracle (.internal "satisfiable check without a model")), (s, o)) := by
  have hlook : (look (fun o : σ => Oracle.model? o) : Session S σ (Option Model)) (s, o) =
      (.ok none, (s, o)) := by rw [← h]; rfl
  exact bind_ok hlook

theorem inScope_ok [Oracle σ] {body : Session S σ α} (h : inScope body (s, o) = (.ok a, (s', p))) :
    ∃ q, body (s, Oracle.push o) = (.ok a, (s', q)) ∧
      p = Oracle.release (Oracle.depth (Oracle.push o)) q := by
  cases hbody : body (s, Oracle.push o) with
  | mk r t =>
    obtain ⟨t, q⟩ := t
    simp only [inScope, hbody] at h
    cases h
    exact ⟨q, rfl, rfl⟩

end Session

namespace Expr

theorem of_disjuncts_eq_none {items : List Expr} (h : disjuncts items = none) :
    .bool true ∈ items := by
  fun_induction disjuncts items with
  | case1 => cases h
  | case3 => exact List.mem_cons_self
  | case2 rest ih => exact List.mem_cons_of_mem _ (ih h)
  | case4 inner rest ih | case5 e rest _ _ _ ih =>
    exact List.mem_cons_of_mem _ (ih (Option.map_eq_none_iff.mp h))

theorem of_disjuncts_eq_some {items args : List Expr} (h : disjuncts items = some args) :
    ∀ c ∈ items, c = .bool false ∨ c ∈ args ∨ ∃ inner, c = .or inner ∧ ∀ a ∈ inner, a ∈ args := by
  fun_induction disjuncts items generalizing args with
  | case1 =>
    intro c hc
    cases hc
  | case3 => cases h
  | case2 rest ih =>
    intro c hc
    rcases List.mem_cons.mp hc with rfl | hc
    · exact .inl rfl
    · exact ih h c hc
  | case4 inner rest ih =>
    obtain ⟨args', hargs, rfl⟩ := Option.map_eq_some_iff.mp h
    intro c hc
    rcases List.mem_cons.mp hc with rfl | hc
    · exact .inr (.inr ⟨inner, rfl, fun a ha => List.mem_append_left _ ha⟩)
    · rcases ih hargs c hc with hc | hc | ⟨is, rfl, his⟩
      · exact .inl hc
      · exact .inr (.inl (List.mem_append_right _ hc))
      · exact .inr (.inr ⟨is, rfl, fun a ha => List.mem_append_right _ (his a ha)⟩)
  | case5 e rest _ _ _ ih =>
    obtain ⟨args', hargs, rfl⟩ := Option.map_eq_some_iff.mp h
    intro c hc
    rcases List.mem_cons.mp hc with rfl | hc
    · exact .inr (.inl List.mem_cons_self)
    · rcases ih hargs c hc with hc | hc | ⟨is, rfl, his⟩
      · exact .inl hc
      · exact .inr (.inl (List.mem_cons_of_mem _ hc))
      · exact .inr (.inr ⟨is, rfl, fun a ha => List.mem_cons_of_mem _ (his a ha)⟩)

end Expr

namespace Sorts

variable {Γ : Sorts}

theorem fits_or {args : List Expr} : Γ.Fits (.or args) ↔ ∀ a ∈ args, Γ.Fits a := by
  have hsort : (Expr.or args).sort? = some .bool ↔ ∀ a ∈ args, a.sort? = some .bool := by
    rw [Expr.sort?]
    simp [Expr.allOfSort_iff]
  constructor
  · intro h a ha
    refine ⟨hsort.mp h.sort a ha, fun p hp => h.known p ?_⟩
    rw [Expr.occurrences, Expr.occurrencesAll_eq]
    exact List.mem_flatMap.mpr ⟨a, ha, hp⟩
  · intro h
    refine ⟨hsort.mpr fun a ha => (h a ha).sort, fun p hp => ?_⟩
    rw [Expr.occurrences, Expr.occurrencesAll_eq] at hp
    obtain ⟨a, ha, hp⟩ := List.mem_flatMap.mp hp
    exact (h a ha).known p hp

theorem fits_of_disjuncts {items args : List Expr} (hd : Expr.disjuncts items = some args)
    (h : Γ.Fits (.disj items)) : ∀ a ∈ args, Γ.Fits a := by
  rw [Expr.disj, hd] at h
  cases args with
  | nil =>
    intro a ha
    cases ha
  | cons e rest =>
    cases rest with
    | nil => exact fun a ha => List.mem_singleton.mp ha ▸ h
    | cons e' rest => exact fits_or.mp h

theorem fits_of_disj {items : List Expr} (h : Γ.Fits (.disj items)) :
    .bool true ∈ items ∨ ∀ c ∈ items, c = .bool false ∨ Γ.Fits c := by
  cases hd : Expr.disjuncts items with
  | none => exact .inl (Expr.of_disjuncts_eq_none hd)
  | some args =>
    right
    intro c hc
    have hargs := fits_of_disjuncts hd h
    rcases Expr.of_disjuncts_eq_some hd c hc with hc | hc | ⟨inner, rfl, hinner⟩
    · exact .inl hc
    · exact .inr (hargs c hc)
    · exact .inr (fits_or.mpr fun a ha => hargs a (hinner a ha))

end Sorts

/-- Give every variable its value at the sort of that value only. -/
def Valuation.sorted (ρ : Valuation) : Valuation := fun n s =>
  if (ρ n s).sort = s then ρ n s else s.default

theorem Value.Within.at_sort {v : Value} {s t : ValueSort} {range : Int × Int}
    (h : v.Within s range) (ht : v.sort = t) : v.Within t range := by
  rw [← ht, h.sort_eq]
  exact h

namespace Valuation.Typed

variable {ρ : Valuation} {Γ Δ : Sorts} {range : Int × Int}

theorem inRange_sorted (h : ρ.Typed Γ range) (hzero : range.1 ≤ 0 ∧ 0 ≤ range.2) :
    ρ.sorted.InRange range := by
  intro n s
  rw [Valuation.sorted]
  split
  · rename_i hs
    exact (h n s).at_sort hs
  · exact s.default_within hzero

theorem sort_eq (h : ρ.Typed Γ range) (hΓ : Γ.Extends Δ) {p : TypedName}
    (hp : Δ p.1 = some p.2) : (ρ p.1 p.2).sort = p.2 := by
  have hsort := (h p.1 p.2).sort_eq
  cases hn : Γ p.1 with
  | none => rwa [hn] at hsort
  | some t =>
    have ht : t = p.2 := Option.some.inj ((hΓ _ _ hn).symm.trans hp)
    rw [hn, Option.getD_some] at hsort
    rw [hsort, ht]

theorem holds_sorted (h : ρ.Typed Γ range) (hΓ : Γ.Extends Δ) {e : Expr} (he : Δ.Fits e) :
    e.holds ρ.sorted = e.holds ρ := by
  refine congrArg Value.truth (Expr.value_congr fun p hp => ?_)
  rw [Valuation.sorted, if_pos (h.sort_eq hΓ (he.known p hp))]

end Valuation.Typed

/-- A model as a valuation in which a declared variable has its value at every sort. -/
def Model.typed (m : Model) (Γ : Sorts) : Valuation := fun n s =>
  if (Γ n).isSome then m.valuation n s else m.sortedValuation n s

theorem Model.typed_declared {m : Model} {Γ : Sorts} {n : String} (h : (Γ n).isSome = true) :
    m.typed Γ n = m.valuation n := by
  funext s
  rw [typed, if_pos h]

namespace Model.Satisfies

variable {m : Model} {range : Int × Int} {Γ Δ : Sorts} {es : List Expr}

theorem typed (h : m.Satisfies range Δ es) (hΓ : Γ.Extends Δ)
    (hzero : range.1 ≤ 0 ∧ 0 ≤ range.2) : (m.typed Γ).Typed Γ range := by
  intro n s
  rw [Model.typed]
  cases hn : Γ n with
  | none => exact h.inRange hzero n s
  | some t =>
    obtain ⟨v, hv, hsort⟩ := Option.map_eq_some_iff.mp (h.known n t (hΓ n t hn))
    rw [Option.isSome_some, if_pos rfl, Option.getD_some, Model.valuation, hv, Option.getD_some,
      ← hsort]
    exact h.within n v hv

theorem holds_typed (h : m.Satisfies range Δ es) {e : Expr} (he : Δ.Fits e) :
    e.holds (m.typed Γ) = e.holds m.valuation := by
  refine congrArg Value.truth (Expr.value_congr fun p hp => ?_)
  rw [Model.typed]
  split
  · rfl
  · have hknown := h.known p.1 p.2 (he.known p hp)
    refine sortedValuation_eq fun v hv => ?_
    rw [hv] at hknown
    exact Option.some.inj hknown

end Model.Satisfies

namespace Faithful

variable {σ : Type} [Oracle σ] {range : Int × Int} (F : Faithful σ range)

/-- What has become of an oracle after some requests. -/
structure Reaches (o : σ) (Γ : Sorts) (p : σ) (c : Scopes) (Δ : Sorts) : Prop where
  later : F.Later o p
  sorts : Γ.Extends Δ
  keeps : F.Keeps p c Δ

variable {F} {o p q : σ} {c c' : Scopes} {Γ Δ Θ : Sorts}

theorem Reaches.refl (h : F.Keeps o c Γ) : F.Reaches o Γ o c Γ :=
  ⟨F.later_refl o, .refl Γ, h⟩

theorem Reaches.trans (h : F.Reaches o Γ p c Δ) (h' : F.Reaches p Δ q c' Θ) :
    F.Reaches o Γ q c' Θ :=
  ⟨F.later_trans h.later h'.later, h.sorts.trans h'.sorts, h'.keeps⟩

theorem reaches_push (h : F.Keeps o c Γ) : F.Reaches o Γ (Oracle.push o) c.opened Γ :=
  ⟨(F.push h).1, .refl Γ, (F.push h).2⟩

theorem reaches_assert {S : Type} {s s' : S} {e : Expr} (h : F.Keeps o c Γ)
    (hrun : (Session.assert e : Session S σ Unit) (s, o) = (.ok (), (s', p))) :
    s' = s ∧ ∃ Δ, F.Reaches o Γ p (c.add e) Δ := by
  obtain ⟨rfl, hreq⟩ := Session.request_ok hrun
  obtain ⟨hlater, Δ, hsorts, hkeeps⟩ := F.assert h hreq
  exact ⟨rfl, Δ, hlater, hsorts, hkeeps⟩

theorem reaches_check {a : Answer} (h : F.Keeps o c Γ)
    (hrun : (Oracle.check : Request σ Answer) o = (.ok a, p)) : F.Reaches o Γ p c Γ :=
  ⟨(F.check h hrun).1, .refl Γ, (F.check h hrun).2⟩

theorem reaches_release (h : F.Keeps o c Γ) (hclosed : c'.closed = c)
    (hlength : c'.outer.length = c.outer.length + 1) (h' : F.Keeps q c' Δ) :
    F.Reaches q Δ (Oracle.release (Oracle.depth (Oracle.push o)) q) c Δ := by
  have hlevel : Oracle.depth (Oracle.push o) = c.outer.length + 1 :=
    F.depth_eq (F.push h).2
  obtain ⟨p, hpop, hlater, hkeeps⟩ := F.pop h' (by
    intro hnil
    rw [hnil] at hlength
    cases hlength)
  rw [hclosed] at hkeeps
  have hdepth : Oracle.depth p = c.outer.length := F.depth_eq hkeeps
  have hdepth' : Oracle.depth q = c.outer.length + 1 := (F.depth_eq h').trans hlength
  have hcloses : Oracle.Closes (Oracle.depth (Oracle.push o)) 1 q p :=
    .next (by omega) hpop (.done (by omega))
  rw [hcloses.release_eq (by omega)]
  exact ⟨hlater, .refl Δ, hkeeps⟩

/-- A negative answer speaks about all states that give declared variables their sorts. -/
theorem unsat_typed (h : F.Keeps p c Δ) (hΓ : Γ.Extends Δ)
    (hrun : (Oracle.check : Request σ Answer) p = (.ok .unsat, q)) {ρ : Valuation}
    (hρ : ρ.Typed Γ range) : ∃ e ∈ c.live, e.holds ρ = false := by
  obtain ⟨e, he, hfalse⟩ := F.unsat h hrun ρ.sorted (hρ.inRange_sorted F.zero_mem)
  exact ⟨e, he, (hρ.holds_sorted hΓ (F.fits h e he)).symm.trans hfalse⟩

end Faithful

end InvariantSynthesis
