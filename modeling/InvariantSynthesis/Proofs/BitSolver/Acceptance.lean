import InvariantSynthesis.Proofs.BitSolver.StoredModel
import InvariantSynthesis.Proofs.Expr.WellSorted

namespace InvariantSynthesis

/-- The errors about sorts. -/
def OracleError.AboutSorts : OracleError → Prop
  | .illSorted _ | .sortClash _ _ _ => True
  | .scopeUnderflow | .internal _ => False

/-- No variable has two sorts, in an expression or between the expression and what is known. -/
structure Sorts.Consistent (Γ : Sorts) (e : Expr) : Prop where
  one : ∀ n a b, (n, a) ∈ e.occurrences → (n, b) ∈ e.occurrences → a = b
  known : ∀ n a b, (n, a) ∈ e.occurrences → Γ n = some b → a = b

namespace BitSolver

open Diagram

variable {Γ : String → ValueSort} {s : BitSolver} {α β : Type} {a b c e : Expr}

/-- The variables of the solver have the sorts that were fixed for their names. -/
def Heeds (Γ : String → ValueSort) (s : BitSolver) : Prop :=
  ∀ n t, s.symbols.get? n = some t → t.sort = Γ n

/-- A request that is refused only because of sorts. It is not refused if some condition holds, and
then keeps the sorts of the variables and has a result with a property. -/
structure Screened (Γ : String → ValueSort) (r : Request BitSolver α) (ok : Prop) (Q : α → Prop) :
    Prop where
  refused : ∀ s err, (r s).1 = .error err → err.AboutSorts
  accepted : ok → ∀ s, s.Heeds Γ → ∃ x t, r s = (.ok x, t) ∧ t.Heeds Γ ∧ Q x

namespace Screened

variable {ok ok' : Prop} {Q : α → Prop} {R : β → Prop}

theorem pure {x : α} (h : ok → Q x) : Screened Γ (Pure.pure x) ok Q := by
  constructor
  · intro s err herr
    cases herr
  · exact fun hok s hs => ⟨x, s, rfl, hs, h hok⟩

theorem throw {err : OracleError} (h : err.AboutSorts) (hok : ¬ok) :
    Screened Γ (throw err : Request BitSolver α) ok Q := by
  constructor
  · intro s err' herr
    cases herr
    exact h
  · exact fun h => absurd h hok

theorem mono {r : Request BitSolver α} (h : Screened Γ r ok Q) (hok : ok' → ok) :
    Screened Γ r ok' Q :=
  ⟨h.refused, fun h' => h.accepted (hok h')⟩

theorem bind {r : Request BitSolver α} {f : α → Request BitSolver β} (hr : Screened Γ r ok Q)
    (hf : ∀ x, Screened Γ (f x) (ok ∧ Q x) R) : Screened Γ (r >>= f) ok R := by
  constructor
  · intro s err herr
    cases hrun : r s with
    | mk x t =>
      cases x with
      | ok x =>
        rw [Session.bind_ok hrun] at herr
        exact (hf x).refused t err herr
      | error err' =>
        rw [Session.bind_error hrun] at herr
        cases herr
        exact hr.refused s err (by rw [hrun])
  · intro hok s hs
    obtain ⟨x, t, hrun, ht, hx⟩ := hr.accepted hok s hs
    obtain ⟨y, u, hrun', hu, hy⟩ := (hf x).accepted ⟨hok, hx⟩ t ht
    exact ⟨y, u, (Session.bind_ok hrun).trans hrun', hu, hy⟩

theorem get {f : BitSolver → Request BitSolver β} (hf : ∀ s, Screened Γ (f s) (ok ∧ s.Heeds Γ) R) :
    Screened Γ (MonadState.get >>= f) ok R :=
  ⟨fun s => (hf s).refused s, fun hok s hs => (hf s).accepted ⟨hok, hs⟩ s hs⟩

end Screened

/-- A request that is never refused and leaves the variables alone. -/
def Free (r : Request BitSolver α) : Prop := ∀ s, ∃ x t, r s = (.ok x, t) ∧ t.symbols = s.symbols

theorem Free.bind {r : Request BitSolver α} {f : α → Request BitSolver β} (hr : Free r)
    (hf : ∀ x, Free (f x)) : Free (r >>= f) := by
  intro s
  obtain ⟨x, t, hrun, ht⟩ := hr s
  obtain ⟨y, u, hrun', hu⟩ := hf x t
  exact ⟨y, u, (Session.bind_ok hrun).trans hrun', hu.trans ht⟩

theorem Free.pure (x : α) : Free (Pure.pure x) := fun s => ⟨x, s, rfl, rfl⟩

theorem freshBit_free : Free freshBit := fun _ => ⟨_, _, rfl, rfl⟩

theorem freshBits_free (n : Nat) : Free (freshBits n) := by
  induction n with
  | zero => exact .pure []
  | succ n ih => exact freshBit_free.bind fun _ => ih.bind fun _ => .pure _

theorem freshPlaces_free (count places : Nat) : Free (freshPlaces count places) := by
  induction places with
  | zero => exact .pure []
  | succ places ih => exact (freshBits_free count).bind fun _ => ih.bind fun _ => .pure _

section parts

variable {ok : Prop} {R : β → Prop}

theorem Free.screened {r : Request BitSolver α} (hr : Free r) : Screened Γ r ok fun _ => True := by
  constructor
  · intro s err herr
    obtain ⟨x, t, hrun, -⟩ := hr s
    rw [hrun] at herr
    cases herr
  · intro _ s hs
    obtain ⟨x, t, hrun, ht⟩ := hr s
    exact ⟨x, t, hrun, fun n u hu => hs n u (ht ▸ hu), trivial⟩

theorem Free.andThen {r : Request BitSolver α} {f : α → Request BitSolver β} (hr : Free r)
    (hf : ∀ x, Screened Γ (f x) ok R) : Screened Γ (r >>= f) ok R :=
  hr.screened.bind fun x => (hf x).mono (·.1)

theorem Screened.build (b : Build α) {f : α → Request BitSolver β}
    (hf : ∀ x, Screened Γ (f x) ok R) : Screened Γ (BitSolver.build b >>= f) ok R :=
  Free.andThen (fun _ => ⟨_, _, rfl, rfl⟩) hf

theorem bindSymbol_screened {n : String} {t : Term} {f : Unit → Request BitSolver β}
    (h : ok → t.sort = Γ n) (hf : Screened Γ (f ()) ok R) :
    Screened Γ (bindSymbol n t >>= f) ok R := by
  apply Screened.bind (Q := fun _ => True)
  · constructor
    · intro s err herr
      cases herr
    · intro hok s hs
      refine ⟨(), _, rfl, fun m u hu => ?_, trivial⟩
      rw [Registry.get?_insert] at hu
      split at hu
      · rename_i hm
        cases hu
        rw [hm]
        exact h hok
      · exact hs m u hu
  · exact fun _ => hf.mono (·.1)

end parts

theorem symbol_screened (n : String) (sort : ValueSort) :
    Screened Γ (symbol n sort) (Γ n = sort) (Term.sort · = sort) := by
  apply Screened.get
  intro s
  cases hn : s.symbols.get? n with
  | some t =>
    dsimp only
    split
    · exact .pure fun _ => by assumption
    · rename_i hne
      exact .throw (by trivial) fun h => hne ((h.2 n t hn).trans h.1)
  | none =>
    have hbind : ∀ t : Term, t.sort = sort → Screened Γ (do bindSymbol n t; return t)
        (Γ n = sort ∧ s.Heeds Γ) (Term.sort · = sort) := fun t ht =>
      bindSymbol_screened (fun h => ht.trans h.1.symm) (.pure fun _ => ht)
    cases sort with
    | bool => exact freshBit_free.andThen fun e => hbind (.bool e) rfl
    | int =>
      refine Screened.get fun u => ?_
      exact (freshBits_free u.width).andThen fun bits => (hbind (.int ⟨bits⟩) rfl).mono (·.1)

theorem announce_screened (ints : List String) (names : List TypedName) :
    Screened Γ (announce ints names) ((∀ n ∈ ints, Γ n = .int) ∧ ∀ p ∈ names, Γ p.1 = p.2)
      fun ints => ∀ n ∈ ints, Γ n = .int := by
  induction names generalizing ints with
  | nil => exact .pure (·.1)
  | cons p rest ih =>
    obtain ⟨n, sort⟩ := p
    have hrest : ∀ ints', (∀ m ∈ ints', m ∈ ints ∨ m = n ∧ sort = .int) → Screened Γ
        (announce ints' rest) ((∀ m ∈ ints, Γ m = .int) ∧ ∀ p ∈ (n, sort) :: rest, Γ p.1 = p.2)
        fun ints => ∀ m ∈ ints, Γ m = .int := by
      intro ints' hints'
      refine (ih ints').mono fun h => ⟨fun m hm => ?_, fun p hp => h.2 p (List.mem_cons_of_mem _ hp)⟩
      rcases hints' m hm with hm | ⟨rfl, rfl⟩
      · exact h.1 m hm
      · exact h.2 _ List.mem_cons_self
    apply Screened.get
    intro s
    cases hn : s.symbols.get? n with
    | some t =>
      dsimp only
      split
      · exact (hrest ints fun m hm => .inl hm).mono (·.1)
      · rename_i hne
        refine .throw (by trivial) fun h => hne ?_
        exact (h.2 n t hn).trans (h.1.2 _ List.mem_cons_self)
    | none =>
      dsimp only
      split
      · exact (hrest ints fun m hm => .inl hm).mono (·.1)
      · cases sort with
        | bool =>
          refine ((symbol_screened n .bool).mono fun h => h.1.2 _ List.mem_cons_self).bind fun _ => ?_
          exact (hrest ints fun m hm => .inl hm).mono (·.1.1)
        | int =>
          refine (hrest (ints ++ [n]) fun m hm => ?_).mono (·.1)
          simpa using hm

theorem declare_screened (names : List TypedName) :
    Screened Γ (declare names) (∀ p ∈ names, Γ p.1 = p.2) fun _ => True := by
  have hbind : ∀ (rows : List (List Edge)) (i : Nat) (ints : List String),
      Screened Γ (bindColumns rows i ints) (∀ n ∈ ints, Γ n = .int) fun _ => True := by
    intro rows i ints
    induction ints generalizing i with
    | nil => exact .pure fun _ => trivial
    | cons n ints ih =>
      refine bindSymbol_screened (fun h => (h n List.mem_cons_self).symm) ?_
      exact (ih (i + 1)).mono fun h m hm => h m (List.mem_cons_of_mem _ hm)
  refine ((announce_screened [] names).mono fun h => ⟨by simp, h⟩).bind fun ints => ?_
  refine Screened.get fun s => (freshPlaces_free _ _).andThen fun rows => ?_
  exact (hbind rows 0 ints).mono (·.1.2)

/-- What is proved of every expression: only sorts keep it from being translated. -/
def Admitted (Γ : String → ValueSort) (e : Expr) : Prop :=
  ∀ sort, Screened Γ (blast e) (e.WellSorted Γ sort) (Term.sort · = sort)

section operands

variable {ok : Prop} {R : β → Prop}

theorem Admitted.bool {f : Edge → Request BitSolver β} (ha : Admitted Γ a)
    (hok : ok → a.WellSorted Γ .bool) (hf : ∀ x, Screened Γ (f x) ok R) :
    Screened Γ (do f (← expectBool a (← blast a))) ok R := by
  refine ((ha .bool).mono hok).bind fun t => ?_
  cases t with
  | bool x => exact (hf x).mono (·.1)
  | int w =>
    have hnot : ¬(ok ∧ (Term.int w).sort = .bool) := fun h => by cases h.2
    exact Screened.bind (Q := fun _ => True) (.throw (by trivial) hnot) fun x => (hf x).mono (·.1.1)

theorem Admitted.int {f : Word → Request BitSolver β} (ha : Admitted Γ a)
    (hok : ok → a.WellSorted Γ .int) (hf : ∀ w, Screened Γ (f w) ok R) :
    Screened Γ (do f (← expectInt a (← blast a))) ok R := by
  refine ((ha .int).mono hok).bind fun t => ?_
  cases t with
  | int w => exact (hf w).mono (·.1)
  | bool x =>
    have hnot : ¬(ok ∧ (Term.bool x).sort = .int) := fun h => by cases h.2
    exact Screened.bind (Q := fun _ => True) (.throw (by trivial) hnot) fun w => (hf w).mono (·.1.1)

theorem Admitted.same {f : Term → Term → Request BitSolver β} {sort : ValueSort} (ha : Admitted Γ a)
    (hb : Admitted Γ b) (hok : ok → a.WellSorted Γ sort ∧ b.WellSorted Γ sort)
    (hf : ∀ t u, Screened Γ (f t u) (ok ∧ t.sort = sort ∧ u.sort = sort) R) :
    Screened Γ (do f (← blast a) (← blast b)) ok R :=
  ((ha sort).mono fun h => (hok h).1).bind fun t =>
    ((hb sort).mono fun h => (hok h.1).2).bind fun u => (hf t u).mono fun h => ⟨h.1.1, h.1.2, h.2⟩

theorem blastFold_screened (combine : Edge → Edge → Build Edge) {args : List Expr}
    (hargs : ∀ a ∈ args, Admitted Γ a) (hok : ok → ∀ a ∈ args, a.WellSorted Γ .bool)
    (acc : Edge) : Screened Γ (blastFold combine acc args) ok fun _ => True := by
  induction args generalizing acc with
  | nil =>
    rw [blastFold]
    exact .pure fun _ => trivial
  | cons a args ih =>
    rw [blastFold]
    refine (hargs a List.mem_cons_self).bool (fun h => hok h a List.mem_cons_self) fun x =>
      .build _ fun acc => ih (fun b hb => ?_) (fun h b hb => ?_) acc
    · exact hargs b (List.mem_cons_of_mem _ hb)
    · exact hok h b (List.mem_cons_of_mem _ hb)

theorem blastSum_screened {args : List Expr} (hargs : ∀ a ∈ args, Admitted Γ a)
    (hok : ok → ∀ a ∈ args, a.WellSorted Γ .int) (acc : Word) :
    Screened Γ (blastSum acc args) ok fun _ => True := by
  induction args generalizing acc with
  | nil =>
    rw [blastSum]
    exact .pure fun _ => trivial
  | cons a args ih =>
    rw [blastSum]
    refine (hargs a List.mem_cons_self).int (fun h => hok h a List.mem_cons_self) fun x =>
      .build _ fun acc => ih (fun b hb => ?_) (fun h b hb => ?_) acc
    · exact hargs b (List.mem_cons_of_mem _ hb)
    · exact hok h b (List.mem_cons_of_mem _ hb)

end operands

theorem map_admitted {f : Word → Build Word} (ha : Admitted Γ a)
    (hblast : blast e = do
      let x ← expectInt a (← blast a)
      return .int (← build (f x)))
    (hocc : e.occurrences = a.occurrences)
    (hsort : e.sort? = if a.sort? = some .int then some .int else none) : Admitted Γ e := by
  intro sort
  rw [hblast]
  exact ha.int (fun h => (h.operand hocc hsort).1) fun x => .build _ fun w =>
    .pure fun h => (h.operand hocc hsort).2

theorem pair_admitted {f : Word → Word → Build α} {g : α → Term} {τ : ValueSort} (ha : Admitted Γ a)
    (hb : Admitted Γ b)
    (hblast : blast e = do
      let x ← expectInt a (← blast a)
      let y ← expectInt b (← blast b)
      return g (← build (f x y)))
    (hg : ∀ z, (g z).sort = τ) (hocc : e.occurrences = a.occurrences ++ b.occurrences)
    (hsort : e.sort? = if a.sort? = some .int ∧ b.sort? = some .int then some τ else none) :
    Admitted Γ e := by
  intro sort
  rw [hblast]
  refine ha.int (fun h => (h.operands hocc hsort).1.1) fun x =>
    hb.int (fun h => (h.operands hocc hsort).1.2) fun y => .build _ fun z => .pure fun h => ?_
  rw [hg, (h.operands hocc hsort).2]

theorem fold_admitted {combine : Edge → Edge → Build Edge} {acc : Edge} {args : List Expr}
    (hargs : ∀ a ∈ args, Admitted Γ a)
    (hblast : blast e = do return .bool (← blastFold combine acc args))
    (hocc : e.occurrences = Expr.occurrencesAll args)
    (hsort : e.sort? = if Expr.allOfSort .bool args then some .bool else none) : Admitted Γ e := by
  intro sort
  rw [hblast]
  exact (blastFold_screened _ hargs (fun h => (h.all hocc hsort).1) _).bind fun x =>
    .pure fun h => (h.1.all hocc hsort).2

theorem implies_admitted (ha : Admitted Γ a) (hb : Admitted Γ b) : Admitted Γ (.implies a b) := by
  intro sort
  rw [blast]
  have hocc : (Expr.implies a b).occurrences = a.occurrences ++ b.occurrences := rfl
  have hsort : (Expr.implies a b).sort? =
      if a.sort? = some .bool ∧ b.sort? = some .bool then some .bool else none := rfl
  exact ha.bool (fun h => (h.operands hocc hsort).1.1) fun x =>
    hb.bool (fun h => (h.operands hocc hsort).1.2) fun y => .build _ fun z =>
      .pure fun h => (h.operands hocc hsort).2

theorem eq_admitted (ha : Admitted Γ a) (hb : Admitted Γ b) : Admitted Γ (.eq a b) := by
  intro sort
  rw [blast]
  refine ha.same hb (fun h => h.sides.1) fun t u => ?_
  cases t with
  | bool x =>
    cases u with
    | bool y => exact .build _ fun z => .pure fun h => h.1.sides.2
    | int y => exact .throw (by trivial) fun h => by cases h.2.1.trans h.2.2.symm
  | int x =>
    cases u with
    | bool y => exact .throw (by trivial) fun h => by cases h.2.1.trans h.2.2.symm
    | int y => exact .build _ fun z => .pure fun h => h.1.sides.2

theorem ite_admitted (hc : Admitted Γ c) (ha : Admitted Γ a) (hb : Admitted Γ b) :
    Admitted Γ (.ite c a b) := by
  intro sort
  rw [blast]
  refine hc.bool (fun h => h.choice.1) fun r => ha.same hb (fun h => h.choice.2) fun t u => ?_
  cases t with
  | bool x =>
    cases u with
    | bool y => exact .build _ fun z => .pure fun h => h.2.1
    | int y => exact .throw (by trivial) fun h => by cases h.2.1.trans h.2.2.symm
  | int x =>
    cases u with
    | bool y => exact .throw (by trivial) fun h => by cases h.2.1.trans h.2.2.symm
    | int y => exact .build _ fun z => .pure fun h => h.2.1

theorem admitted (e : Expr) : Admitted Γ e := by
  induction e with
  | bool | int =>
    intro sort
    rw [blast]
    exact .pure fun h => Option.some.inj h.sort
  | var n sort' =>
    intro sort
    rw [blast]
    by_cases hsort : sort' = sort
    · subst hsort
      exact (symbol_screened n sort').mono fun h => h.known (n, sort') (by simp [Expr.occurrences])
    · refine ⟨(symbol_screened (Γ := Γ) n sort').refused, fun h => ?_⟩
      exact absurd (Option.some.inj h.sort) hsort
  | not a ih =>
    intro sort
    rw [blast]
    have hocc : (Expr.not a).occurrences = a.occurrences := rfl
    have hsort : (Expr.not a).sort? = if a.sort? = some .bool then some .bool else none := rfl
    exact ih.bool (fun h => (h.operand hocc hsort).1) fun x =>
      .pure fun h => (h.operand hocc hsort).2
  | and args ih | or args ih =>
    exact fold_admitted ih (by rw [blast]) rfl rfl
  | implies a b iha ihb => exact implies_admitted iha ihb
  | neg a ih | mul k a ih =>
    exact map_admitted ih (by rw [blast]) rfl rfl
  | add args ih =>
    intro sort
    rw [blast]
    have hocc : (Expr.add args).occurrences = Expr.occurrencesAll args := rfl
    have hsort : (Expr.add args).sort? = if Expr.allOfSort .int args then some .int else none := rfl
    exact (blastSum_screened ih (fun h => (h.all hocc hsort).1) _).bind fun x =>
      .pure fun h => (h.1.all hocc hsort).2
  | sub a b iha ihb =>
    exact pair_admitted (g := Term.int) iha ihb (by rw [blast]) (fun _ => rfl) rfl rfl
  | le a b iha ihb | lt a b iha ihb =>
    exact pair_admitted (g := Term.bool) iha ihb (by rw [blast]) (fun _ => rfl) rfl rfl
  | eq a b iha ihb => exact eq_admitted iha ihb
  | ite c a b ihc iha ihb => exact ite_admitted ihc iha ihb

theorem assert_screened (e : Expr) :
    Screened Γ (assert e) (e.WellSorted Γ .bool) fun _ => True := by
  have hmodify : ∀ f : BitSolver → BitSolver, (∀ s, (f s).symbols = s.symbols) →
      Free (modify f : Request BitSolver Unit) := fun f hf s => ⟨(), f s, rfl, hf s⟩
  apply Free.andThen
  · exact hmodify _ fun _ => rfl
  · refine fun _ => (admitted e).bool id fun r => .get fun s => .build _ fun top => ?_
    apply Free.screened
    exact hmodify _ fun _ => rfl

/-- A refused assertion leaves all diagrams of assertions as they were. -/
theorem assert_grows {c : Scopes} (h : Keeps s c) {err : OracleError} {t : BitSolver}
    (hrun : assert e s = (.error err, t)) : s.Grows t := by
  have hforget : s.Grows { s with model := none } := ⟨h.valid.adds s.top s.outer none, rfl, rfl⟩
  have hgrows := ((h.forget none).conjoined e).grows
  rw [assert_eq] at hrun
  cases hc : conjoined e { s with model := none } with
  | mk x u =>
    rw [hc] at hgrows
    cases x with
    | ok top =>
      rw [Session.bind_ok hc] at hrun
      cases hrun
    | error err' =>
      rw [Session.bind_error hc] at hrun
      cases hrun
      exact hforget.trans hgrows

theorem Stacked.has {es : List Edge} {cs : List (List Expr)} (h : Stacked s es cs) :
    ∀ e ∈ es, s.store.Has e := by
  induction es generalizing cs with
  | nil => simp
  | cons e es ih =>
    cases cs with
    | nil => exact h.elim
    | cons c cs => exact List.forall_mem_cons.mpr ⟨h.1.denotes.has, ih h.2⟩

def choose (s : BitSolver) (e : Expr) (n : String) : ValueSort :=
  if s.sorts n = some .int ∨ e.occurrences.contains (n, .int) = true then .int else .bool

theorem heeds_choose (h : s.sorts.Consistent e) : s.Heeds (s.choose e) := by
  intro n t ht
  have hsort : s.sorts n = some t.sort := by rw [sorts, ht, Option.map_some]
  unfold choose
  split
  · rename_i hint
    rcases hint with hint | hint
    · exact Option.some.inj (hsort.symm.trans hint)
    · exact (h.known n _ _ (List.contains_iff_mem.mp hint) hsort).symm
  · rename_i hint
    cases hsort' : t.sort with
    | bool => rfl
    | int => exact absurd (.inl (hsort.trans (congrArg some hsort'))) hint

theorem wellSorted_choose (hsort : e.sort? = some .bool) (h : s.sorts.Consistent e) :
    e.WellSorted (s.choose e) .bool := by
  refine ⟨fun p hp => ?_, hsort⟩
  obtain ⟨n, sort⟩ := p
  unfold choose
  split
  · rename_i hint
    rcases hint with hint | hint
    · exact (h.known n _ _ hp hint).symm
    · exact h.one n _ _ (List.contains_iff_mem.mp hint) hp
  · rename_i hint
    cases sort with
    | bool => rfl
    | int => exact absurd (.inr (List.contains_iff_mem.mpr hp)) hint

theorem assert_ok_iff {c : Scopes} (h : Keeps s c) :
    (assert e s).1 = .ok () ↔ e.sort? = some .bool ∧ s.sorts.Consistent e := by
  constructor
  · intro hok
    rcases h.assert e with ⟨t, hrun, hkeeps, hadds⟩ | ⟨err, t, hrun, -⟩
    · have hfits := hkeeps.fits e List.mem_cons_self
      refine ⟨hfits.sort, fun n a b ha hb => ?_, fun n a b ha hb => ?_⟩
      · exact Option.some.inj ((hfits.known _ ha).symm.trans (hfits.known _ hb))
      · exact Option.some.inj ((hfits.known _ ha).symm.trans (hadds.sorts n b hb))
    · rw [hrun] at hok
      cases hok
  · rintro ⟨hsort, hcons⟩
    obtain ⟨x, t, hrun, -⟩ := (assert_screened e).accepted (wellSorted_choose hsort hcons) s
      (heeds_choose hcons)
    rw [hrun]

/-- The solver accepts exactly the boolean expressions whose operands have the right sorts and that
use each variable at one sort, the one it is known to have if it is known. Any other expression is
refused with an error about sorts. A refused expression leaves the diagram of every scope as it was,
with the meaning it had; the model is gone either way. -/
theorem assert_accepts_iff {width limit : Nat} {s₀ : BitSolver} (hs₀ : create width limit = .ok s₀)
    (commands : List Command) (e : Expr) :
    let s := (s₀.execute commands).1
    let after := assert e s
    (after.1 = .ok () ↔ e.sort? = some .bool ∧ s.sorts.Consistent e) ∧
      (after.1 ≠ .ok () → ∃ err, after.1 = .error err ∧ err.AboutSorts ∧ after.2.top = s.top ∧
        after.2.outer = s.outer ∧ ∀ d ∈ s.top :: s.outer, ∀ α,
          after.2.store.truth α d = s.store.truth α d) ∧
      after.2.model = none := by
  obtain ⟨hmin, hmax, hkeeps, -⟩ := keeps_of_create hs₀ commands
  refine ⟨assert_ok_iff hkeeps, fun hne => ?_, assert_model e _⟩
  cases hrun : assert e (s₀.execute commands).1 with
  | mk x t =>
    cases x with
    | ok u => exact absurd (congrArg Prod.fst hrun) hne
    | error err =>
      have hgrows := assert_grows hkeeps hrun
      refine ⟨err, rfl, ?_, hgrows.top, hgrows.outer, fun d hd α => ?_⟩
      · exact (assert_screened (Γ := fun _ => .bool) e).refused _ err (congrArg Prod.fst hrun)
      · refine hgrows.store.truth hkeeps.valid.store α ?_
        rcases List.mem_cons.mp hd with rfl | hd
        · exact hkeeps.top.denotes.has
        · exact hkeeps.outer.has d hd

/-- With an integer in the table, a variable that is used at two sorts is refused inside an open
scope, and the expression is accepted once the second use is at the first sort. -/
theorem assert_accepts_iff_in_scope :
    ∃ s₀, create 2 100 = .ok s₀ ∧
      let s := (s₀.execute [.declare [("x", .int)], .assert (.lt (.int 0) (.intVar "x")), .push,
        .check]).1
      let clash := Expr.implies (.boolVar "y") (.le (.intVar "y") (.intVar "x"))
      let after := assert clash s
      s.model.isSome = true ∧ (assert (.le (.intVar "y") (.intVar "x")) s).1 = .ok () ∧
        after.1 = .error (.sortClash "y" .bool .int) ∧
        (after.1 = .ok () ↔ clash.sort? = some .bool ∧ s.sorts.Consistent clash) ∧
        (after.1 ≠ .ok () → ∃ err, after.1 = .error err ∧ err.AboutSorts ∧ after.2.top = s.top ∧
          after.2.outer = s.outer ∧ ∀ d ∈ s.top :: s.outer, ∀ α,
            after.2.store.truth α d = s.store.truth α d) ∧
        after.2.model = none := by
  have hcreate : create 2 100 = .ok (fresh 2 100) := rfl
  refine ⟨fresh 2 100, hcreate, ?_, ?_, ?_, assert_accepts_iff hcreate _ _⟩
  · decide +kernel
  · decide +kernel
  · decide +kernel

end BitSolver

end InvariantSynthesis
