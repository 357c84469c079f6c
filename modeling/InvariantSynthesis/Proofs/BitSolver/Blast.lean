import InvariantSynthesis.Proofs.BitSolver.Symbols

namespace InvariantSynthesis.BitSolver

open Diagram

variable {s s' : BitSolver} {a b e : Expr}

/-- A term has a meaning that depends on the valuation. -/
structure Tells (s : BitSolver) (t : Term) (p : Valuation → Value) : Prop where
  stored : t.Stored s.store
  value : ∀ α ρ, s.Reads α ρ → p ρ = t.value s.store α

theorem Tells.later {t : Term} {p : Valuation → Value} (h : Tells s t p) (hs : s.Valid)
    (hg : s.Adds s') : Tells s' t p :=
  ⟨h.stored.extend hg.store, fun α ρ hr => by
    rw [h.value α ρ (hg.reads hs hr), Term.value_extend hs.store hg.store h.stored]⟩

theorem Tells.congr {t : Term} {p q : Valuation → Value} (h : Tells s t p)
    (hpq : ∀ α ρ, s.Reads α ρ → p ρ = q ρ) : Tells s t q :=
  ⟨h.stored, fun α ρ hr => (hpq α ρ hr).symm.trans (h.value α ρ hr)⟩

theorem Tells.denotes {x : Edge} {p : Valuation → Value} (h : Tells s (.bool x) p) :
    Denotes s.store x fun α => s.store.truth α x :=
  ⟨h.stored.has x (by simp [Term.bits]), fun _ => rfl⟩

theorem Tells.represents {w : Word} {p : Valuation → Value} (h : Tells s (.int w) p) :
    Word.Represents s.store w fun α => Word.signedValue (w.bits.map (s.store.truth α)) :=
  ⟨h.stored.has, h.stored.nonempty, fun _ => rfl⟩

theorem Tells.truth {x : Edge} {p : Valuation → Value} (h : Tells s (.bool x) p) {α : Assignment}
    {ρ : Valuation} (hr : s.Reads α ρ) : s.store.truth α x = (p ρ).truth := by
  rw [h.value α ρ hr]
  rfl

theorem Tells.number {w : Word} {p : Valuation → Value} (h : Tells s (.int w) p) {α : Assignment}
    {ρ : Valuation} (hr : s.Reads α ρ) :
    Word.signedValue (w.bits.map (s.store.truth α)) = (p ρ).number := by
  rw [h.value α ρ hr]
  rfl

theorem tells_bool (hs : s.Valid) (c : Bool) : Tells s (.bool (.ofBool c)) fun _ => .bool c :=
  ⟨⟨by simpa [Term.bits] using hs.store.has_ofBool c, by simp [Term.bits]⟩,
    fun α _ _ => by rw [Term.value, Store.truth_ofBool]⟩

theorem tells_int (hs : s.Valid) (k : Int) : Tells s (.int (.constant k)) fun _ => .int k :=
  have h := Word.Represents.constant hs.store k
  ⟨⟨h.has, h.nonempty⟩, fun α _ _ => by rw [Term.value, h.value]⟩

theorem Tells.flip {x : Edge} {p : Valuation → Value} (h : Tells s (.bool x) p) :
    Tells s (.bool x.flip) fun ρ => .bool !(p ρ).truth :=
  ⟨⟨by simpa [Term.bits] using h.denotes.has.flip, by simp [Term.bits]⟩,
    fun α ρ hr => by rw [Term.value, Store.truth_flip, h.truth hr]⟩

/-- A construction of diagrams, as seen through valuations. -/
theorem buildBool_runs {c : Build Edge} {p : Valuation → Bool} {q : Assignment → Bool}
    (hs : s.Valid) (hc : Yields c s.store fun t x => Denotes t x q)
    (hq : ∀ α ρ, s.Reads α ρ → q α = p ρ) :
    Runs (build c) s fun t x => Tells t (.bool x) fun ρ => .bool (p ρ) := by
  refine (build_runs hs hc).imp fun x t hg hx => ⟨⟨?_, by simp [Term.bits]⟩, fun α ρ hr => ?_⟩
  · simpa [Term.bits] using hx.has
  · rw [Term.value, hx.truth, hq α ρ (hg.reads hs hr)]

theorem buildInt_runs {c : Build Word} {p : Valuation → Int} {q : Assignment → Int}
    (hs : s.Valid) (hc : Yields c s.store fun t w => Word.Represents t w q)
    (hq : ∀ α ρ, s.Reads α ρ → q α = p ρ) :
    Runs (build c) s fun t w => Tells t (.int w) fun ρ => .int (p ρ) := by
  refine (build_runs hs hc).imp fun w t hg hw => ⟨⟨hw.has, hw.nonempty⟩, fun α ρ hr => ?_⟩
  rw [Term.value, hw.value, hq α ρ (hg.reads hs hr)]

/-- Every variable of the expression has a term of the sort it is used at. -/
def Binds (s : BitSolver) (e : Expr) : Prop :=
  ∀ p ∈ e.occurrences, (s.symbols.get? p.1).map Term.sort = some p.2

theorem Binds.later (h : Binds s e) (hg : s.Grows s') : Binds s' e := by
  intro p hp
  obtain ⟨t, ht, hsort⟩ := Option.map_eq_some_iff.mp (h p hp)
  rw [hg.symbols _ _ ht, Option.map_some, hsort]

/-- A term is the translation of an expression. -/
structure Translates (s : BitSolver) (e : Expr) (t : Term) : Prop extends Tells s t (e.value ·) where
  binds : Binds s e
  sort : e.sort? = some t.sort

theorem Translates.later {t : Term} (h : Translates s e t) (hs : s.Valid) (hg : s.Grows s') :
    Translates s' e t :=
  ⟨h.toTells.later hs hg.toAdds, h.binds.later hg, h.sort⟩

/-- What is proved of every expression: it gets a translation or is refused. -/
def Blasts (e : Expr) : Prop :=
  ∀ s : BitSolver, s.Valid → Runs (blast e) s fun t u => Translates t e u

section operands

variable {α : Type} {R : BitSolver → α → Prop}

theorem Blasts.bool {f : Edge → Request BitSolver α} (ha : Blasts a) (hs : s.Valid)
    (hf : ∀ x t, s.Grows t → Translates t a (.bool x) → Runs (f x) t R) :
    Runs (do f (← expectBool a (← blast a))) s R := by
  refine (ha s hs).bind fun u t hg hu => ?_
  cases u with
  | bool x => exact hf x t hg hu
  | int w => exact Runs.bind (Q := fun _ _ => False) (.throw hg.valid) fun _ _ _ h => h.elim

theorem Blasts.int {f : Word → Request BitSolver α} (ha : Blasts a) (hs : s.Valid)
    (hf : ∀ w t, s.Grows t → Translates t a (.int w) → Runs (f w) t R) :
    Runs (do f (← expectInt a (← blast a))) s R := by
  refine (ha s hs).bind fun u t hg hu => ?_
  cases u with
  | int w => exact hf w t hg hu
  | bool x => exact Runs.bind (Q := fun _ _ => False) (.throw hg.valid) fun _ _ _ h => h.elim

theorem Blasts.ints {f : Word → Word → Request BitSolver α} (ha : Blasts a) (hb : Blasts b)
    (hs : s.Valid)
    (hf : ∀ x y t, s.Grows t → Translates t a (.int x) → Translates t b (.int y) →
      Runs (f x y) t R) :
    Runs (do
      let x ← expectInt a (← blast a)
      let y ← expectInt b (← blast b)
      f x y) s R := by
  refine ha.int hs fun x t hg hx => hb.int hg.valid fun y u hg' hy => ?_
  exact hf x y u (hg.trans hg') (hx.later hg.valid hg') hy

end operands

theorem Binds.of_eq (h : Binds s a) (he : e.occurrences = a.occurrences) : Binds s e := by
  unfold Binds
  rwa [he]

theorem Binds.append (ha : Binds s a) (hb : Binds s b)
    (he : e.occurrences = a.occurrences ++ b.occurrences) : Binds s e := by
  intro p hp
  rw [he] at hp
  exact (List.mem_append.mp hp).elim (ha p) (hb p)

/-- A connective on diagrams that computes a connective on truth values. -/
def Combines (combine : Edge → Edge → Build Edge) (op : Bool → Bool → Bool) : Prop :=
  ∀ {st : Store} {u v : Edge} {p q : Assignment → Bool}, st.WellFormed → Denotes st u p →
    Denotes st v q → Yields (combine u v) st fun t e => Denotes t e fun α => op (p α) (q α)

/-- All operands are translated to terms of one sort. -/
def AllOf (s : BitSolver) (sort : ValueSort) (args : List Expr) : Prop :=
  ∀ a ∈ args, Binds s a ∧ a.sort? = some sort

theorem AllOf.cons {sort : ValueSort} {args : List Expr} (ha : Binds s a ∧ a.sort? = some sort)
    (h : AllOf s sort args) : AllOf s sort (a :: args) :=
  List.forall_mem_cons.mpr ⟨ha, h⟩

theorem AllOf.binds {sort : ValueSort} {args : List Expr} (h : AllOf s sort args)
    (he : e.occurrences = Expr.occurrencesAll args) : Binds s e := by
  intro p hp
  rw [he, Expr.occurrencesAll_eq] at hp
  obtain ⟨a, ha, hpa⟩ := List.mem_flatMap.mp hp
  exact (h a ha).1 p hpa

theorem AllOf.allOfSort {sort : ValueSort} {args : List Expr} (h : AllOf s sort args) :
    Expr.allOfSort sort args = true :=
  (Expr.allOfSort_iff sort args).mpr fun a ha => (h a ha).2

theorem blastFold_runs {combine : Edge → Edge → Build Edge} {o : Bool → Bool → Bool}
    (hop : Combines combine o) {args : List Expr} (hargs : ∀ a ∈ args, Blasts a) (hs : s.Valid)
    {acc : Edge} {p : Valuation → Bool} (hacc : Tells s (.bool acc) fun ρ => .bool (p ρ)) :
    Runs (blastFold combine acc args) s fun t x =>
      Tells t (.bool x) (fun ρ => .bool (args.foldl (fun r a => o r (a.holds ρ)) (p ρ))) ∧
        AllOf t .bool args := by
  induction args generalizing s acc p with
  | nil =>
    rw [blastFold]
    exact .pure hs ⟨hacc, fun _ h => nomatch h⟩
  | cons a args ih =>
    rw [blastFold]
    refine (hargs a (by simp)).bool hs fun x t hg hx => ?_
    have hacc' := hacc.later hs hg.toAdds
    refine (buildBool_runs (p := fun ρ => o (p ρ) (a.holds ρ)) hg.valid
      (hop hg.valid.store hacc'.denotes hx.denotes) fun α ρ hr => ?_).bind fun r u hg' hr => ?_
    · rw [hacc'.truth hr, hx.truth hr, Expr.holds, Value.truth_bool]
    · refine (ih (fun b hb => hargs b (List.mem_cons_of_mem _ hb)) hg'.valid hr).imp
        fun y v hg'' hy => ⟨hy.1, ?_⟩
      exact .cons ⟨hx.binds.later (hg'.trans hg''), hx.sort⟩ hy.2

theorem blastSum_runs {args : List Expr} (hargs : ∀ a ∈ args, Blasts a) (hs : s.Valid) {acc : Word}
    {p : Valuation → Int} (hacc : Tells s (.int acc) fun ρ => .int (p ρ)) :
    Runs (blastSum acc args) s fun t w =>
      Tells t (.int w) (fun ρ => .int (p ρ + Expr.total ρ args)) ∧ AllOf t .int args := by
  induction args generalizing s acc p with
  | nil =>
    rw [blastSum]
    refine .pure hs ⟨?_, fun _ h => nomatch h⟩
    simpa [Expr.total] using hacc
  | cons a args ih =>
    rw [blastSum]
    refine (hargs a (by simp)).int hs fun x t hg hx => ?_
    have hacc' := hacc.later hs hg.toAdds
    refine (buildInt_runs (p := fun ρ => p ρ + a.number ρ) hg.valid
      ((Word.add_represents hg.valid.store hacc'.represents hx.represents).imp
        fun _ _ _ _ h => h.1) fun α ρ hr => ?_).bind fun r u hg' hr => ?_
    · rw [hacc'.number hr, hx.number hr, Expr.number, Value.number_int]
    · refine (ih (fun b hb => hargs b (List.mem_cons_of_mem _ hb)) hg'.valid hr).imp
        fun y v hg'' hy => ⟨?_, ?_⟩
      · simpa only [Expr.total, Expr.number, Int.add_assoc] using hy.1
      · exact .cons ⟨hx.binds.later (hg'.trans hg''), hx.sort⟩ hy.2

theorem foldl_and (b : Bool) (args : List Expr) (ρ : Valuation) :
    args.foldl (fun r a => r && a.holds ρ) b = (b && Expr.all ρ args) := by
  induction args generalizing b with
  | nil => simp [Expr.all]
  | cons a args ih => rw [List.foldl_cons, ih, Expr.all, Expr.holds, Bool.and_assoc]

theorem foldl_or (b : Bool) (args : List Expr) (ρ : Valuation) :
    args.foldl (fun r a => r || a.holds ρ) b = (b || Expr.any ρ args) := by
  induction args generalizing b with
  | nil => simp [Expr.any]
  | cons a args ih => rw [List.foldl_cons, ih, Expr.any, Expr.holds, Bool.or_assoc]

theorem compare_blasts {c : Word → Word → Build Edge} {r : Int → Int → Bool} (ha : Blasts a)
    (hb : Blasts b) (hblast : blast e = do
      let x ← expectInt a (← blast a)
      let y ← expectInt b (← blast b)
      return .bool (← build (c x y)))
    (hc : ∀ {st : Store} {x y : Word} {p q : Assignment → Int}, st.WellFormed →
      Word.Represents st x p → Word.Represents st y q →
      Yields (c x y) st fun t d => Denotes t d fun α => r (p α) (q α))
    (hvalue : ∀ ρ, e.value ρ = .bool (r (a.number ρ) (b.number ρ)))
    (hocc : e.occurrences = a.occurrences ++ b.occurrences)
    (hsort : a.sort? = some .int → b.sort? = some .int → e.sort? = some .bool) : Blasts e := by
  intro s hs
  rw [hblast]
  refine ha.ints hb hs fun x y t hg hx hy => ?_
  refine (buildBool_runs (p := fun ρ => r (a.number ρ) (b.number ρ)) hg.valid
    (hc hg.valid.store hx.represents hy.represents) fun α ρ hr => ?_).bind fun d u hg' hd =>
      .pure hg'.valid ⟨?_, ?_, ?_⟩
  · rw [hx.number hr, hy.number hr, Expr.number, Expr.number]
  · simpa only [hvalue] using hd
  · exact (hx.binds.later hg').append (hy.binds.later hg') hocc
  · exact hsort hx.sort hy.sort

theorem map_blasts {c : Word → Build Word} {f : Int → Int} (ha : Blasts a)
    (hblast : blast e = do
      let x ← expectInt a (← blast a)
      return .int (← build (c x)))
    (hc : ∀ {st : Store} {x : Word} {p : Assignment → Int}, st.WellFormed →
      Word.Represents st x p → Yields (c x) st fun t w => Word.Represents t w fun α => f (p α))
    (hvalue : ∀ ρ, e.value ρ = .int (f (a.number ρ))) (hocc : e.occurrences = a.occurrences)
    (hsort : a.sort? = some .int → e.sort? = some .int) : Blasts e := by
  intro s hs
  rw [hblast]
  refine ha.int hs fun x t hg hx => ?_
  refine (buildInt_runs (p := fun ρ => f (a.number ρ)) hg.valid (hc hg.valid.store hx.represents)
    fun α ρ hr => ?_).bind fun d u hg' hd => .pure hg'.valid ⟨?_, ?_, hsort hx.sort⟩
  · rw [hx.number hr, Expr.number]
  · simpa only [hvalue] using hd
  · exact (hx.binds.later hg').of_eq hocc

theorem fold_blasts {combine : Edge → Edge → Build Edge} {o : Bool → Bool → Bool} {z : Bool}
    {args : List Expr} (hop : Combines combine o) (hargs : ∀ a ∈ args, Blasts a)
    (hblast : blast e = do return .bool (← blastFold combine (.ofBool z) args))
    (hvalue : ∀ ρ, e.value ρ = .bool (args.foldl (fun r a => o r (a.holds ρ)) z))
    (hocc : e.occurrences = Expr.occurrencesAll args)
    (hsort : Expr.allOfSort .bool args = true → e.sort? = some .bool) : Blasts e := by
  intro s hs
  rw [hblast]
  refine (blastFold_runs hop hargs hs (tells_bool hs z)).bind fun x t hg hx =>
    .pure hg.valid ⟨?_, hx.2.binds hocc, hsort hx.2.allOfSort⟩
  simpa only [hvalue] using hx.1

theorem implies_blasts (ha : Blasts a) (hb : Blasts b) : Blasts (.implies a b) := by
  intro s hs
  rw [blast]
  refine ha.bool hs fun x t hg hx => hb.bool hg.valid fun y u hg' hy => ?_
  have hx' := hx.later hg.valid hg'
  refine (buildBool_runs (p := fun ρ => !a.holds ρ || b.holds ρ) hg'.valid
    (imply_denotes hg'.valid.store hx'.denotes hy.denotes) fun α ρ hr => ?_).bind fun d v hg'' hd =>
      .pure hg''.valid ⟨?_, ?_, ?_⟩
  · rw [hx'.truth hr, hy.truth hr, Expr.holds, Expr.holds]
  · simpa only [Expr.value, Expr.holds, Expr.number] using hd
  · exact (hx'.binds.later hg'').append (hy.binds.later hg'') (by rw [Expr.occurrences])
  · simp [Expr.sort?, hx.sort, hy.sort, Term.sort]

theorem sub_blasts (ha : Blasts a) (hb : Blasts b) : Blasts (.sub a b) := by
  intro s hs
  rw [blast]
  refine ha.ints hb hs fun x y t hg hx hy => ?_
  refine (buildInt_runs (p := fun ρ => a.number ρ - b.number ρ) hg.valid
    (Word.sub_represents hg.valid.store hx.represents hy.represents) fun α ρ hr => ?_).bind
      fun d u hg' hd => .pure hg'.valid ⟨?_, ?_, ?_⟩
  · rw [hx.number hr, hy.number hr, Expr.number, Expr.number]
  · simpa only [Expr.value, Expr.holds, Expr.number] using hd
  · exact (hx.binds.later hg').append (hy.binds.later hg') (by rw [Expr.occurrences])
  · simp [Expr.sort?, hx.sort, hy.sort, Term.sort]

theorem eq_blasts (ha : Blasts a) (hb : Blasts b) : Blasts (.eq a b) := by
  intro s hs
  rw [blast]
  refine (ha s hs).bind fun u t hg hu => (hb t hg.valid).bind fun v t' hg' hv => ?_
  have hu' := hu.later hg.valid hg'
  have done : ∀ {c : Build Edge} {q : Assignment → Bool}, u.sort = v.sort →
      (Yields c t'.store fun st x => Denotes st x q) →
      (∀ α ρ, t'.Reads α ρ → q α = decide (a.value ρ = b.value ρ)) →
      Runs (do return .bool (← build c)) t' fun w r => Translates w (.eq a b) r := by
    intro c q hsort hc hq
    refine (buildBool_runs hg'.valid hc hq).bind fun x w hg'' hx => .pure hg''.valid ⟨?_, ?_, ?_⟩
    · simpa only [Expr.value] using hx
    · exact (hu'.binds.later hg'').append (hv.binds.later hg'') (by rw [Expr.occurrences])
    · rw [Expr.sort?, hu.sort, hv.sort, hsort]
      simp [Term.sort]
  cases u with
  | bool x =>
    cases v with
    | bool y =>
      refine done rfl (eq_denotes hg'.valid.store hu'.denotes hv.denotes) fun α ρ hr => ?_
      rw [hu'.value α ρ hr, hv.value α ρ hr]
      simp [Term.value, Bool.beq_eq_decide_eq]
    | int y => exact .throw hg'.valid
  | int x =>
    cases v with
    | bool y => exact .throw hg'.valid
    | int y =>
      refine done rfl (Word.equal_denotes hg'.valid.store hu'.represents hv.represents)
        fun α ρ hr => ?_
      rw [hu'.value α ρ hr, hv.value α ρ hr]
      simp [Term.value]

theorem Translates.choose {c : Expr} {r : Edge} {u v x : Term} (hr : Translates s c (.bool r))
    (hu : Translates s a u) (hv : Translates s b v) (hsort : u.sort = v.sort)
    (hx : x.sort = v.sort) (htells : Tells s x fun ρ => if c.holds ρ then a.value ρ else b.value ρ) :
    Translates s (.ite c a b) x := by
  refine ⟨htells.congr fun α ρ _ => ?_, ?_, ?_⟩
  · rw [Expr.value]
    rfl
  · have hca : Binds s (.implies c a) := hr.binds.append hu.binds (by rw [Expr.occurrences])
    exact hca.append hv.binds (by rw [Expr.occurrences, Expr.occurrences])
  · have hc : c.sort? = some .bool := hr.sort
    simp [Expr.sort?, hu.sort, hv.sort, hc, hsort, hx]

theorem ite_blasts {c : Expr} (hc : Blasts c) (ha : Blasts a) (hb : Blasts b) :
    Blasts (.ite c a b) := by
  intro s hs
  rw [blast]
  refine hc.bool hs fun r t₀ hg₀ hr => ?_
  refine (ha t₀ hg₀.valid).bind fun u t₁ hg₁ hu => (hb t₁ hg₁.valid).bind fun v t hg₂ hv => ?_
  have hr' := hr.later hg₀.valid (hg₁.trans hg₂)
  have hu' := hu.later hg₁.valid hg₂
  cases u with
  | bool x =>
    cases v with
    | bool y =>
      refine (buildBool_runs (p := fun ρ => if c.holds ρ then a.holds ρ else b.holds ρ) hg₂.valid
        (ite_denotes hg₂.valid.store hr'.denotes hu'.denotes hv.denotes) fun α ρ hρ => ?_).bind
          fun z w hg hz => .pure hg.valid (.choose (hr'.later hg₂.valid hg) (hu'.later hg₂.valid hg)
            (hv.later hg₂.valid hg) rfl rfl ?_)
      · rw [hr'.truth hρ, hu'.truth hρ, hv.truth hρ]
        rfl
      · refine hz.congr fun α ρ hρ => ?_
        have hρ' := hg.reads hg₂.valid hρ
        simp only [Expr.holds, hu'.value α ρ hρ', hv.value α ρ hρ']
        split <;> rfl
    | int y => exact .throw hg₂.valid
  | int x =>
    cases v with
    | bool y => exact .throw hg₂.valid
    | int y =>
      refine (buildInt_runs (p := fun ρ => if c.holds ρ then a.number ρ else b.number ρ) hg₂.valid
        (Word.ite_represents hg₂.valid.store hr'.denotes hu'.represents hv.represents)
        fun α ρ hρ => ?_).bind fun z w hg hz => .pure hg.valid (.choose (hr'.later hg₂.valid hg)
          (hu'.later hg₂.valid hg) (hv.later hg₂.valid hg) rfl rfl ?_)
      · rw [hr'.truth hρ, hu'.number hρ, hv.number hρ]
        rfl
      · refine hz.congr fun α ρ hρ => ?_
        have hρ' := hg.reads hg₂.valid hρ
        simp only [Expr.number, hu'.value α ρ hρ', hv.value α ρ hρ']
        split <;> rfl

theorem blasts (e : Expr) : Blasts e := by
  induction e with
  | bool c =>
    intro s hs
    rw [blast]
    refine .pure hs ⟨?_, by simp [Binds, Expr.occurrences], rfl⟩
    simpa only [Expr.value] using tells_bool hs c
  | int k =>
    intro s hs
    rw [blast]
    refine .pure hs ⟨?_, by simp [Binds, Expr.occurrences], rfl⟩
    simpa only [Expr.value] using tells_int hs k
  | var n sort =>
    intro s hs
    rw [blast]
    refine (symbol_runs hs n sort).imp fun u t hg hu =>
      ⟨⟨hg.valid.stored hu.1, fun α ρ hr => ?_⟩, ?_, ?_⟩
    · rw [Expr.value, ← hr n u hu.1, hu.2.1]
    · simp [Binds, Expr.occurrences, hu.1, hu.2.1]
    · rw [Expr.sort?, hu.2.1]
  | not a ih =>
    intro s hs
    rw [blast]
    refine ih.bool hs fun x t hg hx =>
      .pure hg.valid ⟨?_, hx.binds.of_eq (by rw [Expr.occurrences]), ?_⟩
    · simpa only [Expr.value] using hx.flip
    · simp [Expr.sort?, hx.sort, Term.sort]
  | and args ih =>
    refine fold_blasts (o := fun x y => x && y) (z := true) and_denotes ih (by rw [blast]; rfl)
      (fun ρ => ?_) (by rw [Expr.occurrences]) fun h => by rw [Expr.sort?, if_pos h]
    rw [foldl_and, Bool.true_and, Expr.value]
  | or args ih =>
    refine fold_blasts (o := fun x y => x || y) (z := false) or_denotes ih (by rw [blast]; rfl)
      (fun ρ => ?_) (by rw [Expr.occurrences]) fun h => by rw [Expr.sort?, if_pos h]
    rw [foldl_or, Bool.false_or, Expr.value]
  | implies a b iha ihb => exact implies_blasts iha ihb
  | neg a ih =>
    exact map_blasts ih (by rw [blast]) Word.neg_represents (fun ρ => by rw [Expr.value]; rfl)
      (by rw [Expr.occurrences]) fun h => by simp [Expr.sort?, h]
  | add args ih =>
    intro s hs
    rw [blast]
    refine (blastSum_runs ih hs (tells_int hs 0)).bind fun w t hg hw =>
      .pure hg.valid ⟨?_, hw.2.binds (by rw [Expr.occurrences]), ?_⟩
    · simpa only [Int.zero_add, Expr.value] using hw.1
    · rw [Expr.sort?, if_pos hw.2.allOfSort]
      rfl
  | sub a b iha ihb => exact sub_blasts iha ihb
  | mul k a ih =>
    exact map_blasts ih (by rw [blast]) (fun hst hx => Word.scale_represents hst k hx)
      (fun ρ => by rw [Expr.value]; rfl) (by rw [Expr.occurrences]) fun h => by simp [Expr.sort?, h]
  | eq a b iha ihb => exact eq_blasts iha ihb
  | le a b iha ihb =>
    refine compare_blasts (r := fun x y => decide (x ≤ y)) iha ihb (by rw [blast])
      Word.atMost_denotes (fun ρ => ?_) (by rw [Expr.occurrences]) fun ha hb => ?_
    · rw [Expr.value]
      rfl
    · rw [Expr.sort?, if_pos ⟨ha, hb⟩]
  | lt a b iha ihb =>
    refine compare_blasts (r := fun x y => decide (x < y)) iha ihb (by rw [blast])
      Word.less_denotes (fun ρ => ?_) (by rw [Expr.occurrences]) fun ha hb => ?_
    · rw [Expr.value]
      rfl
    · rw [Expr.sort?, if_pos ⟨ha, hb⟩]
  | ite c a b ihc iha ihb => exact ite_blasts ihc iha ihb

end InvariantSynthesis.BitSolver
