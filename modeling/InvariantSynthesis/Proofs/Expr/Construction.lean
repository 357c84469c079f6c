import InvariantSynthesis.Proofs.Expr.Eval

namespace InvariantSynthesis

/-- Every variable has a value of the sort it is used at. -/
def Valuation.Proper (ρ : Valuation) : Prop := ∀ n s, (ρ n s).sort = s

namespace Expr

section sorts

variable {a b c e : Expr} {args items : List Expr} {s : ValueSort} {k : Int}

theorem sort?_not_iff : (Expr.not a).sort? = some s ↔ a.sort? = some .bool ∧ .bool = s := by
  rw [sort?, Option.ite_none_right_eq_some, Option.some_inj]

theorem sort?_and_iff :
    (Expr.and args).sort? = some s ↔ (∀ a ∈ args, a.sort? = some .bool) ∧ .bool = s := by
  rw [sort?, Option.ite_none_right_eq_some, Option.some_inj, allOfSort_iff]

theorem sort?_or_iff :
    (Expr.or args).sort? = some s ↔ (∀ a ∈ args, a.sort? = some .bool) ∧ .bool = s := by
  rw [sort?, Option.ite_none_right_eq_some, Option.some_inj, allOfSort_iff]

theorem sort?_implies_iff : (Expr.implies a b).sort? = some s ↔
    (a.sort? = some .bool ∧ b.sort? = some .bool) ∧ .bool = s := by
  rw [sort?, Option.ite_none_right_eq_some, Option.some_inj]

theorem sort?_neg_iff : (Expr.neg a).sort? = some s ↔ a.sort? = some .int ∧ .int = s := by
  rw [sort?, Option.ite_none_right_eq_some, Option.some_inj]

theorem sort?_mul_iff : (Expr.mul k a).sort? = some s ↔ a.sort? = some .int ∧ .int = s := by
  rw [sort?, Option.ite_none_right_eq_some, Option.some_inj]

theorem sort?_add_iff :
    (Expr.add args).sort? = some s ↔ (∀ a ∈ args, a.sort? = some .int) ∧ .int = s := by
  rw [sort?, Option.ite_none_right_eq_some, Option.some_inj, allOfSort_iff]

theorem sort?_sub_iff : (Expr.sub a b).sort? = some s ↔
    (a.sort? = some .int ∧ b.sort? = some .int) ∧ .int = s := by
  rw [sort?, Option.ite_none_right_eq_some, Option.some_inj]

theorem sort?_le_iff : (Expr.le a b).sort? = some s ↔
    (a.sort? = some .int ∧ b.sort? = some .int) ∧ .bool = s := by
  rw [sort?, Option.ite_none_right_eq_some, Option.some_inj]

theorem sort?_lt_iff : (Expr.lt a b).sort? = some s ↔
    (a.sort? = some .int ∧ b.sort? = some .int) ∧ .bool = s := by
  rw [sort?, Option.ite_none_right_eq_some, Option.some_inj]

theorem sort?_eq_iff : (Expr.eq a b).sort? = some s ↔
    (∃ t, a.sort? = some t ∧ b.sort? = some t) ∧ .bool = s := by
  rw [sort?]
  cases a.sort? with
  | none => simp
  | some t =>
    cases b.sort? with
    | none => simp
    | some u => simp [eq_comm]

theorem sort?_ite_iff : (Expr.ite c a b).sort? = some s ↔
    c.sort? = some .bool ∧ a.sort? = some s ∧ b.sort? = some s := by
  rw [sort?]
  cases a.sort? with
  | none => simp
  | some t =>
    simp only [Option.ite_none_right_eq_some, Option.some_inj]
    constructor
    · rintro ⟨⟨hc, hb⟩, rfl⟩
      exact ⟨hc, rfl, hb⟩
    · rintro ⟨hc, rfl, hb⟩
      exact ⟨⟨hc, hb⟩, rfl⟩

theorem logical_sort? : Logical (sort? · = some .bool) where
  bool _ := rfl
  not_iff := by simp [sort?_not_iff]
  and_iff := by simp [sort?_and_iff]
  or_iff := by simp [sort?_or_iff]
  implies ha hb := sort?_implies_iff.mpr ⟨⟨ha, hb⟩, rfl⟩

theorem arithmetical_sort? : Arithmetical (sort? · = some .int) where
  int _ := rfl
  neg_iff := by simp [sort?_neg_iff]
  add_iff := by simp [sort?_add_iff]
  sub ha hb := sort?_sub_iff.mpr ⟨⟨ha, hb⟩, rfl⟩
  mul _ h := sort?_mul_iff.mpr ⟨h, rfl⟩

theorem sort?_choose (hc : c.sort? = some .bool) (ha : a.sort? = some s) (hb : b.sort? = some s) :
    (choose c a b).sort? = some s := by
  unfold choose
  split
  · exact ha
  · exact hb
  · exact sort?_ite_iff.mpr ⟨hc, ha, hb⟩

end sorts

section values

variable (ρ : Valuation) (a b c : Expr)

theorem number_neg : number ρ (.neg a) = -number ρ a := by
  rw [number, value]
  rfl

theorem number_add (args : List Expr) : number ρ (.add args) = total ρ args := by
  rw [number, value]
  rfl

theorem number_sub : number ρ (.sub a b) = number ρ a - number ρ b := by
  rw [number, value]
  rfl

theorem number_mul (k : Int) : number ρ (.mul k a) = k * number ρ a := by
  rw [number, value]
  rfl

theorem value_ite : (Expr.ite c a b).value ρ = if c.holds ρ then a.value ρ else b.value ρ := by
  rw [value]
  rfl

theorem value_choose : (choose c a b).value ρ = if c.holds ρ then a.value ρ else b.value ρ := by
  unfold choose
  split
  · rw [holds_bool, if_pos rfl]
  · rw [holds_bool, if_neg (by simp)]
  · exact value_ite ρ a b _

end values

/-- The first expression can stand in the place of the second one, if this has a sort: it has the
same sort, and the same value where variables have values of their sorts. -/
structure Stands (e plain : Expr) : Prop where
  sort : ∀ {s}, plain.sort? = some s → e.sort? = some s
  value : ∀ {s ρ}, plain.sort? = some s → Valuation.Proper ρ → e.value ρ = plain.value ρ

namespace Stands

variable {a a' b b' c c' e plain : Expr} {items : List (Expr × Expr)} {ρ : Valuation} {s : ValueSort}

theorem refl (e : Expr) : Stands e e := ⟨fun h => h, fun _ _ => rfl⟩

theorem holds (h : Stands a a') (hsort : a'.sort? = some s) (hρ : ρ.Proper) :
    a.holds ρ = a'.holds ρ :=
  congrArg Value.truth (h.value hsort hρ)

theorem number (h : Stands a a') (hsort : a'.sort? = some s) (hρ : ρ.Proper) :
    a.number ρ = a'.number ρ :=
  congrArg Value.number (h.value hsort hρ)

theorem of_holds (hbool : ∀ {s}, plain.sort? = some s → s = .bool)
    (hsort : plain.sort? = some .bool → e.sort? = some .bool)
    (hholds : ∀ {ρ}, plain.sort? = some .bool → Valuation.Proper ρ → e.holds ρ = plain.holds ρ) :
    Stands e plain := by
  refine ⟨fun h => ?_, fun h hρ => ?_⟩
  · obtain rfl := hbool h
    exact hsort h
  · obtain rfl := hbool h
    have he := sort_value (hsort h) fun p _ => hρ p.1 p.2
    have hplain := sort_value h fun p _ => hρ p.1 p.2
    have htruth : (e.value _).truth = (plain.value _).truth := hholds h hρ
    revert he hplain htruth
    cases e.value _ <;> cases plain.value _ <;> simp [Value.sort]

theorem of_number (hint : ∀ {s}, plain.sort? = some s → s = .int)
    (hsort : plain.sort? = some .int → e.sort? = some .int)
    (hnumber : ∀ {ρ}, plain.sort? = some .int → Valuation.Proper ρ → e.number ρ = plain.number ρ) :
    Stands e plain := by
  refine ⟨fun h => ?_, fun h hρ => ?_⟩
  · obtain rfl := hint h
    exact hsort h
  · obtain rfl := hint h
    have he := sort_value (hsort h) fun p _ => hρ p.1 p.2
    have hplain := sort_value h fun p _ => hρ p.1 p.2
    have hvalue : (e.value _).number = (plain.value _).number := hnumber h hρ
    revert he hplain hvalue
    cases e.value _ <;> cases plain.value _ <;> simp [Value.sort]

theorem sorts (h : ∀ p ∈ items, Stands p.1 p.2) (hs : ∀ a ∈ items.map (·.2), a.sort? = some s) :
    ∀ a ∈ items.map (·.1), a.sort? = some s := by
  intro a ha
  obtain ⟨p, hp, rfl⟩ := List.mem_map.mp ha
  exact (h p hp).sort (hs p.2 (List.mem_map_of_mem hp))

/-- Lists whose entries stand for one another mean the same. -/
theorem lists (h : ∀ p ∈ items, Stands p.1 p.2) (hs : ∀ a ∈ items.map (·.2), a.sort? = some s)
    (hρ : ρ.Proper) :
    (items.map (·.1)).all (Expr.holds ρ) = (items.map (·.2)).all (Expr.holds ρ) ∧
    (items.map (·.1)).any (Expr.holds ρ) = (items.map (·.2)).any (Expr.holds ρ) ∧
    total ρ (items.map (·.1)) = total ρ (items.map (·.2)) := by
  induction items with
  | nil => exact ⟨rfl, rfl, rfl⟩
  | cons p rest ih =>
    obtain ⟨hall, hany, htotal⟩ := ih (fun q hq => h q (List.mem_cons_of_mem _ hq))
      fun a ha => hs a (List.mem_cons_of_mem _ ha)
    have hvalue := (h p List.mem_cons_self).value (hs p.2 List.mem_cons_self) hρ
    have hholds : p.1.holds ρ = p.2.holds ρ := congrArg Value.truth hvalue
    rw [List.map_cons, List.map_cons]
    refine ⟨?_, ?_, ?_⟩
    · rw [List.all_cons, List.all_cons, hholds, hall]
    · rw [List.any_cons, List.any_cons, hholds, hany]
    · rw [total, total, hvalue, htotal]

theorem negate (h : Stands a a') : Stands (negate a) (.not a') := by
  refine of_holds (fun hs => (sort?_not_iff.mp hs).2.symm) (fun hs => ?_) (fun hs hρ => ?_)
  · exact logical_sort?.negate (h.sort (sort?_not_iff.mp hs).1)
  · rw [holds_negate, holds_not, h.holds (sort?_not_iff.mp hs).1 hρ]

theorem conj (items : List (Expr × Expr)) (h : ∀ p ∈ items, Stands p.1 p.2) :
    Stands (conj (items.map (·.1))) (.and (items.map (·.2))) := by
  refine of_holds (fun hs => (sort?_and_iff.mp hs).2.symm) (fun hs => ?_) (fun hs hρ => ?_)
  · exact logical_sort?.conj (sorts h (sort?_and_iff.mp hs).1)
  · rw [holds_conj, holds_and, (lists h (sort?_and_iff.mp hs).1 hρ).1]

theorem disj (items : List (Expr × Expr)) (h : ∀ p ∈ items, Stands p.1 p.2) :
    Stands (disj (items.map (·.1))) (.or (items.map (·.2))) := by
  refine of_holds (fun hs => (sort?_or_iff.mp hs).2.symm) (fun hs => ?_) (fun hs hρ => ?_)
  · exact logical_sort?.disj (sorts h (sort?_or_iff.mp hs).1)
  · rw [holds_disj, holds_or, (lists h (sort?_or_iff.mp hs).1 hρ).2.1]

theorem imply (ha : Stands a a') (hb : Stands b b') : Stands (imply a b) (.implies a' b') := by
  refine of_holds (fun hs => (sort?_implies_iff.mp hs).2.symm) (fun hs => ?_) (fun hs hρ => ?_)
  · obtain ⟨⟨hsa, hsb⟩, -⟩ := sort?_implies_iff.mp hs
    exact logical_sort?.imply (ha.sort hsa) (hb.sort hsb)
  · obtain ⟨⟨hsa, hsb⟩, -⟩ := sort?_implies_iff.mp hs
    rw [holds_imply, holds_implies, ha.holds hsa hρ, hb.holds hsb hρ]

theorem opposite (h : Stands a a') : Stands (opposite a) (.neg a') := by
  refine of_number (fun hs => (sort?_neg_iff.mp hs).2.symm) (fun hs => ?_) (fun hs hρ => ?_)
  · exact arithmetical_sort?.opposite (h.sort (sort?_neg_iff.mp hs).1)
  · rw [number_opposite, h.number (sort?_neg_iff.mp hs).1 hρ, number_neg]

theorem sum (items : List (Expr × Expr)) (h : ∀ p ∈ items, Stands p.1 p.2) :
    Stands (sum (items.map (·.1))) (.add (items.map (·.2))) := by
  refine of_number (fun hs => (sort?_add_iff.mp hs).2.symm) (fun hs => ?_) (fun hs hρ => ?_)
  · exact arithmetical_sort?.sum (sorts h (sort?_add_iff.mp hs).1)
  · rw [number_sum, number_add, (lists h (sort?_add_iff.mp hs).1 hρ).2.2]

theorem plus (ha : Stands a a') (hb : Stands b b') : Stands (plus a b) (.add [a', b']) :=
  sum [(a, a'), (b, b')] (by simp [ha, hb])

theorem minus (ha : Stands a a') (hb : Stands b b') : Stands (minus a b) (.sub a' b') := by
  refine of_number (fun hs => (sort?_sub_iff.mp hs).2.symm) (fun hs => ?_) (fun hs hρ => ?_)
  · obtain ⟨⟨hsa, hsb⟩, -⟩ := sort?_sub_iff.mp hs
    exact arithmetical_sort?.minus (ha.sort hsa) (hb.sort hsb)
  · obtain ⟨⟨hsa, hsb⟩, -⟩ := sort?_sub_iff.mp hs
    rw [number_minus, number_sub, ha.number hsa hρ, hb.number hsb hρ]

theorem scale (k : Int) (h : Stands a a') : Stands (scale k a) (.mul k a') := by
  refine of_number (fun hs => (sort?_mul_iff.mp hs).2.symm) (fun hs => ?_) (fun hs hρ => ?_)
  · exact arithmetical_sort?.scale k (h.sort (sort?_mul_iff.mp hs).1)
  · rw [number_scale, h.number (sort?_mul_iff.mp hs).1 hρ, number_mul]

theorem eq (ha : Stands a a') (hb : Stands b b') : Stands (.eq a b) (.eq a' b') := by
  refine of_holds (fun hs => (sort?_eq_iff.mp hs).2.symm) (fun hs => ?_) (fun hs hρ => ?_)
  · obtain ⟨⟨t, hsa, hsb⟩, -⟩ := sort?_eq_iff.mp hs
    exact sort?_eq_iff.mpr ⟨⟨t, ha.sort hsa, hb.sort hsb⟩, rfl⟩
  · obtain ⟨⟨t, hsa, hsb⟩, -⟩ := sort?_eq_iff.mp hs
    rw [holds_eq, holds_eq, ha.value hsa hρ, hb.value hsb hρ]

theorem le (ha : Stands a a') (hb : Stands b b') : Stands (.le a b) (.le a' b') := by
  refine of_holds (fun hs => (sort?_le_iff.mp hs).2.symm) (fun hs => ?_) (fun hs hρ => ?_)
  · obtain ⟨⟨hsa, hsb⟩, -⟩ := sort?_le_iff.mp hs
    exact sort?_le_iff.mpr ⟨⟨ha.sort hsa, hb.sort hsb⟩, rfl⟩
  · obtain ⟨⟨hsa, hsb⟩, -⟩ := sort?_le_iff.mp hs
    rw [holds_le, holds_le, ha.number hsa hρ, hb.number hsb hρ]

theorem lt (ha : Stands a a') (hb : Stands b b') : Stands (.lt a b) (.lt a' b') := by
  refine of_holds (fun hs => (sort?_lt_iff.mp hs).2.symm) (fun hs => ?_) (fun hs hρ => ?_)
  · obtain ⟨⟨hsa, hsb⟩, -⟩ := sort?_lt_iff.mp hs
    exact sort?_lt_iff.mpr ⟨⟨ha.sort hsa, hb.sort hsb⟩, rfl⟩
  · obtain ⟨⟨hsa, hsb⟩, -⟩ := sort?_lt_iff.mp hs
    rw [holds_lt, holds_lt, ha.number hsa hρ, hb.number hsb hρ]

theorem choose (hc : Stands c c') (ha : Stands a a') (hb : Stands b b') :
    Stands (choose c a b) (.ite c' a' b') := by
  refine ⟨fun hs => ?_, fun {s ρ} hs hρ => ?_⟩
  · obtain ⟨hsc, hsa, hsb⟩ := sort?_ite_iff.mp hs
    exact sort?_choose (hc.sort hsc) (ha.sort hsa) (hb.sort hsb)
  · obtain ⟨hsc, hsa, hsb⟩ := sort?_ite_iff.mp hs
    rw [value_choose, value_ite, hc.holds hsc hρ, ha.value hsa hρ, hb.value hsb hρ]

end Stands

/-- The first expression is put together by constructions where the second one has the plain operators.
Any expression may be a part. -/
inductive Built : Expr → Expr → Prop
  | part (e : Expr) : Built e e
  | negate {a a' : Expr} : Built a a' → Built (negate a) (.not a')
  | conj (items : List (Expr × Expr)) : (∀ p ∈ items, Built p.1 p.2) →
    Built (conj (items.map (·.1))) (.and (items.map (·.2)))
  | disj (items : List (Expr × Expr)) : (∀ p ∈ items, Built p.1 p.2) →
    Built (disj (items.map (·.1))) (.or (items.map (·.2)))
  | imply {a a' b b' : Expr} : Built a a' → Built b b' → Built (imply a b) (.implies a' b')
  | opposite {a a' : Expr} : Built a a' → Built (opposite a) (.neg a')
  | sum (items : List (Expr × Expr)) : (∀ p ∈ items, Built p.1 p.2) →
    Built (sum (items.map (·.1))) (.add (items.map (·.2)))
  | plus {a a' b b' : Expr} : Built a a' → Built b b' → Built (plus a b) (.add [a', b'])
  | minus {a a' b b' : Expr} : Built a a' → Built b b' → Built (minus a b) (.sub a' b')
  | scale (k : Int) {a a' : Expr} : Built a a' → Built (scale k a) (.mul k a')
  | eq {a a' b b' : Expr} : Built a a' → Built b b' → Built (.eq a b) (.eq a' b')
  | le {a a' b b' : Expr} : Built a a' → Built b b' → Built (.le a b) (.le a' b')
  | lt {a a' b b' : Expr} : Built a a' → Built b b' → Built (.lt a b) (.lt a' b')
  | differ {a a' b b' : Expr} : Built a a' → Built b b' → Built (differ a b) (.not (.eq a' b'))
  | atLeast {a a' b b' : Expr} : Built a a' → Built b b' → Built (atLeast a b) (.le b' a')
  | exceeds {a a' b b' : Expr} : Built a a' → Built b b' → Built (exceeds a b) (.lt b' a')
  | choose {a a' b b' c c' : Expr} : Built c c' → Built a a' → Built b b' →
    Built (choose c a b) (.ite c' a' b')

theorem Built.stands {e plain : Expr} (h : Built e plain) : Stands e plain := by
  induction h with
  | part e => exact .refl e
  | negate _ ih => exact ih.negate
  | conj items _ ih => exact .conj items ih
  | disj items _ ih => exact .disj items ih
  | imply _ _ iha ihb => exact iha.imply ihb
  | opposite _ ih => exact ih.opposite
  | sum items _ ih => exact .sum items ih
  | plus _ _ iha ihb => exact iha.plus ihb
  | minus _ _ iha ihb => exact iha.minus ihb
  | scale k _ ih => exact ih.scale k
  | eq _ _ iha ihb => exact iha.eq ihb
  | le _ _ iha ihb => exact iha.le ihb
  | lt _ _ iha ihb => exact iha.lt ihb
  | differ _ _ iha ihb => exact (iha.eq ihb).negate
  | atLeast _ _ iha ihb => exact ihb.le iha
  | exceeds _ _ iha ihb => exact ihb.lt iha
  | choose _ _ _ ihc iha ihb => exact ihc.choose iha ihb

/-- Constructions keep sort and meaning. What is put together by them, from any parts and nested in any
way, has the sort of the expression with the plain operators, provided that this has one, and in every
valuation its value. -/
theorem constructions_keep_meaning {e plain : Expr} (h : Built e plain) {s : ValueSort}
    (hsort : plain.sort? = some s) :
    e.sort? = some s ∧ ∀ ρ : Valuation, ρ.Proper → e.value ρ = plain.value ρ :=
  ⟨h.stands.sort hsort, fun _ hρ => h.stands.value hsort hρ⟩

/-- Operators one inside the other, with constants whose product and opposite 64 bits do not hold. -/
def nested : Expr :=
  .and [.and [.boolVar "a", .not (.not (.boolVar "b"))],
    .lt (.neg (.int Bounded.least)) (.mul 3 (.int Bounded.greatest))]

def flattened : Expr :=
  .and [.boolVar "a", .boolVar "b",
    .lt (.neg (.int Bounded.least)) (.mul 3 (.int Bounded.greatest))]

def fives : Valuation := fun _ s => if s = .bool then .bool true else .int 5

theorem Built.both {a a' b b' : Expr} (ha : Built a a') (hb : Built b b') :
    Built (Expr.conj [a, b]) (.and [a', b']) :=
  .conj [(a, a'), (b, b')] (by simp [ha, hb])

theorem built_flattened : Built flattened nested := by
  have hboth : Built (conj [.boolVar "a", negate (negate (.boolVar "b"))])
      (.and [.boolVar "a", .not (.not (.boolVar "b"))]) :=
    .both (.part _) (.negate (.negate (.part _)))
  have hless : Built (exceeds (scale 3 (.int Bounded.greatest)) (opposite (.int Bounded.least)))
      (.lt (.neg (.int Bounded.least)) (.mul 3 (.int Bounded.greatest))) :=
    .exceeds (.scale 3 (.part _)) (.opposite (.part _))
  exact hboth.both hless

/-- Flattening and the constants that are not folded leave the value as it was. -/
theorem constructions_keep_meaning_nested : Built flattened nested ∧ nested.sort? = some .bool ∧
    fives.Proper ∧ flattened.sort? = some .bool ∧ flattened.value fives = nested.value fives ∧
    nested.value fives = .bool true := by
  have hsort : nested.sort? = some .bool := by decide
  have hproper : fives.Proper := by
    intro n s
    cases s <;> rfl
  obtain ⟨hflat, hvalue⟩ := constructions_keep_meaning built_flattened hsort
  exact ⟨built_flattened, hsort, hproper, hflat, hvalue fives hproper, by decide⟩

end Expr

end InvariantSynthesis
