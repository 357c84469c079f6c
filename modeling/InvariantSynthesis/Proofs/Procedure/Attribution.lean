import InvariantSynthesis.Imprecision
import InvariantSynthesis.Proofs.SsaName.Reading

namespace InvariantSynthesis

/-- The block defines a variable of the given pretty name. -/
def Block.Defines (b : Block) (pretty : String) : Prop :=
  ∃ e ∈ b.equalities, SsaName.prettyName e.lhs = pretty

namespace Procedure

variable {p : Procedure} {back : Location}

/-- The block with a number is the first one at its location. -/
def FirstAt (p : Procedure) (l : Location) (i : Nat) (b : Block) : Prop :=
  p.blocks[i]? = some b ∧ b.location = l ∧ ∀ k c, k < i → p.blocks[k]? = some c → c.location ≠ l

/-- The block is the last one with a property strictly inside the loop that ends at a location. -/
def LastInLoop (p : Procedure) (back : Location) (P : Block → Prop) (b : Block) : Prop :=
  ∃ i stop head j, p.FirstAt back i stop ∧ stop.head = some head ∧ head < j ∧ j < i ∧
    p.blocks[j]? = some b ∧ P b ∧ ∀ k c, j < k → k < i → p.blocks[k]? = some c → ¬ P c

theorem indexOf?_eq_some_iff {l : Location} {i : Nat} :
    p.indexOf? l = some i ↔ ∃ b, p.FirstAt l i b := by
  rw [indexOf?, List.findIdx?_eq_some_iff_getElem]
  constructor
  · rintro ⟨hi, hat, hbefore⟩
    refine ⟨p.blocks[i], List.getElem?_eq_getElem hi, of_decide_eq_true hat, ?_⟩
    intro k c hk hc heq
    obtain ⟨hlt, rfl⟩ := List.getElem?_eq_some_iff.mp hc
    exact hbefore k hk (decide_eq_true heq)
  · rintro ⟨b, hb, hat, hbefore⟩
    obtain ⟨hi, rfl⟩ := List.getElem?_eq_some_iff.mp hb
    refine ⟨hi, decide_eq_true hat, ?_⟩
    intro k hk heq
    exact hbefore k _ hk (List.getElem?_eq_getElem (Nat.lt_trans hk hi)) (of_decide_eq_true heq)

theorem getLast?_filter_iff {α : Type} {l : List α} {q : α → Bool} {a : α} :
    (l.filter q).getLast? = some a ↔
      ∃ m : Nat, l[m]? = some a ∧ q a = true ∧ ∀ k c, m < k → l[k]? = some c → q c = false := by
  rw [List.getLast?_filter, List.find?_eq_some_iff_append]
  constructor
  · rintro ⟨ha, later, earlier, hreverse, hlater⟩
    have hl : l = earlier.reverse ++ a :: later.reverse := by
      rw [← List.reverse_reverse l, hreverse]
      simp
    refine ⟨earlier.length, by simp [hl], ha, ?_⟩
    intro k c hk hc
    obtain ⟨d, rfl⟩ : ∃ d, k = earlier.reverse.length + (d + 1) :=
      ⟨k - earlier.length - 1, by rw [List.length_reverse]; omega⟩
    rw [hl, List.getElem?_append_right (Nat.le_add_right _ _), Nat.add_sub_cancel_left,
      List.getElem?_cons_succ] at hc
    simpa using hlater c (List.mem_reverse.mp (List.mem_of_getElem? hc))
  · rintro ⟨m, hm, ha, hlater⟩
    obtain ⟨hlt, rfl⟩ := List.getElem?_eq_some_iff.mp hm
    refine ⟨ha, (l.drop (m + 1)).reverse, (l.take m).reverse, ?_, ?_⟩
    · have hl : l = l.take m ++ l[m] :: l.drop (m + 1) := by
        rw [← List.drop_eq_getElem_cons hlt, List.take_append_drop]
      calc l.reverse = (l.take m ++ l[m] :: l.drop (m + 1)).reverse := congrArg List.reverse hl
        _ = (l.drop (m + 1)).reverse ++ l[m] :: (l.take m).reverse := by simp
    · intro c hc
      obtain ⟨k, hk⟩ := List.getElem?_of_mem (List.mem_reverse.mp hc)
      rw [List.getElem?_drop] at hk
      rw [hlater _ c (by omega) hk]
      rfl

theorem getLast?_filter_between {α : Type} {l : List α} {q : α → Bool} {low high : Nat} {a : α} :
    (((l.take high).drop (low + 1)).filter q).getLast? = some a ↔
      ∃ j, low < j ∧ j < high ∧ l[j]? = some a ∧ q a = true ∧
        ∀ k c, j < k → k < high → l[k]? = some c → q c = false := by
  have hbetween : ∀ k c, ((l.take high).drop (low + 1))[k]? = some c ↔
      low + 1 + k < high ∧ l[low + 1 + k]? = some c := by
    intro k c
    rw [List.getElem?_drop, List.getElem?_take, Option.ite_none_right_eq_some]
  rw [getLast?_filter_iff]
  constructor
  · rintro ⟨m, hm, ha, hlater⟩
    obtain ⟨hhigh, hat⟩ := (hbetween m a).mp hm
    refine ⟨low + 1 + m, by omega, hhigh, hat, ha, ?_⟩
    intro k c hk hkhigh hc
    obtain ⟨d, rfl⟩ : ∃ d, k = low + 1 + d := ⟨k - (low + 1), by omega⟩
    exact hlater d c (by omega) ((hbetween d c).mpr ⟨hkhigh, hc⟩)
  · rintro ⟨j, hlow, hhigh, hat, ha, hlater⟩
    obtain ⟨m, rfl⟩ : ∃ m, j = low + 1 + m := ⟨j - (low + 1), by omega⟩
    refine ⟨m, (hbetween m a).mpr ⟨hhigh, hat⟩, ha, ?_⟩
    intro k c hk hc
    obtain ⟨hkhigh, hc⟩ := (hbetween k c).mp hc
    exact hlater _ c (by omega) hkhigh hc

/-- The source of the last block of some kind strictly inside the loop that ends at a location. -/
def lastSource? (p : Procedure) (back : Location) (q : Block → Bool) : Option Source := do
  let index ← p.indexOf? back
  let head ← (← p.blocks[index]?).head
  return (← (((p.blocks.take index).drop (head + 1)).filter q).getLast?).source

theorem lastSource?_eq_some_iff {q : Block → Bool} {s : Source} :
    p.lastSource? back q = some s ↔ ∃ b, p.LastInLoop back (q · = true) b ∧ b.source = s := by
  simp only [lastSource?, Option.bind_eq_bind, Option.bind_eq_some_iff, indexOf?_eq_some_iff,
    getLast?_filter_between, Option.pure_def, Option.some.injEq, ← Bool.not_eq_true]
  constructor
  · rintro ⟨i, ⟨stop, hfirst⟩, stop', hstop, head, hhead, b, hlast, hsource⟩
    obtain rfl := Option.some.inj (hfirst.1.symm.trans hstop)
    obtain ⟨j, hlow, hhigh, hat, hb, hlater⟩ := hlast
    exact ⟨b, ⟨i, stop, head, j, hfirst, hhead, hlow, hhigh, hat, hb, hlater⟩, hsource⟩
  · rintro ⟨b, ⟨i, stop, head, j, hfirst, hhead, hlast⟩, hsource⟩
    exact ⟨i, ⟨stop, hfirst⟩, stop, hfirst.1, head, hhead, b, ⟨j, hlast⟩, hsource⟩

theorem lastSource?_congr {q r : Block → Bool} (h : ∀ b ∈ p.blocks, q b = r b) :
    p.lastSource? back q = p.lastSource? back r := by
  have hfilter : ∀ index head, ((p.blocks.take index).drop (head + 1)).filter q =
      ((p.blocks.take index).drop (head + 1)).filter r := by
    intro index head
    apply List.filter_congr
    intro b hb
    exact h b (List.mem_of_mem_take (List.mem_of_mem_drop hb))
  simp only [lastSource?, hfilter]

/-- The source that is reported is that of the last block inside the loop that defines the
variable. -/
theorem loopHeader?_eq_some_iff {pretty : String} {s : Source} :
    p.loopHeader? back pretty = some s ↔
      ∃ b, p.LastInLoop back (·.Defines pretty) b ∧ b.source = s := by
  have hdefines : (fun b : Block =>
        (b.equalities.any fun e => decide (SsaName.prettyName e.lhs = pretty)) = true) =
      (·.Defines pretty) := by
    funext b
    simp [Block.Defines]
  rw [← hdefines]
  exact lastSource?_eq_some_iff

theorem attribution?_reserved {name : String} {l : Option Location}
    (h : SsaName.isReserved name = true) : p.attribution? l name = none := by
  simp [attribution?, SsaName.parse?, h]

theorem attribution?_eq {name : String} (l : Option Location)
    (h : SsaName.isReserved name = false) : p.attribution? l name = some {
      ssaName := name
      prettyName := SsaName.prettyName name
      loopHeader := ((SsaName.loopBack? name).or l).bind
        (fun back => p.loopHeader? back (SsaName.prettyName name))
      dynamic :=
        if SsaName.isDynamic name then
          some ⟨(SsaName.allocationSite? name).bind fun site => (p.find? site).map (·.source),
            SsaName.field? name⟩
        else none } := by
  by_cases hdynamic : SsaName.isDynamic name = true
  · have hsource : ∀ site, (do return (← p.find? site).source) = (p.find? site).map (·.source) :=
      fun site => by cases p.find? site <;> rfl
    simp [attribution?, SsaName.parse?, h, hdynamic, ← hsource]
  · simp [attribution?, SsaName.parse?, h, hdynamic]

end Procedure

namespace SsaName

/-- The last mark of a loop in the name is followed by a number. -/
def LastMark (name : String) (n : Location) : Prop :=
  ∃ before after, name.toList = before ++ loopBackMark ++ after ∧ ¬ loopBackMark <:+: after ∧
    leadingNumber? after = some n

theorem loopBack?_eq_some_iff {name : String} {n : Location} :
    loopBack? name = some n ↔ LastMark name n := by
  simp only [loopBack?, Option.bind_eq_bind, Option.bind_eq_some_iff, afterLast?_loopBackMark_iff]
  constructor
  · rintro ⟨after, ⟨before, hname, hlast⟩, hn⟩
    exact ⟨before, after, hname, hlast, hn⟩
  · rintro ⟨before, after, hname, hlast, hn⟩
    exact ⟨after, ⟨before, hname, hlast⟩, hn⟩

/-- Where the loop of a variable ends: at the last mark in its name, or else at a given place. -/
def LoopEnd (name : String) (given back : Location) : Prop :=
  LastMark name back ∨ (∀ n, ¬ LastMark name n) ∧ back = given

theorem loopBack?_or_eq_some_iff {name : String} {given back : Location} :
    (loopBack? name).or (some given) = some back ↔ LoopEnd name given back := by
  rw [LoopEnd, Option.or_eq_some_iff, Option.eq_none_iff_forall_ne_some, Option.some.injEq]
  simp only [ne_eq, loopBack?_eq_some_iff, @eq_comm _ given]

end SsaName

/-- The entry says what is to be said of a variable of a loop that ends at a given place. -/
structure ImpreciseVar.ComesFrom (e : ImpreciseVar) (p : Procedure) (given : Location) : Prop where
  pretty : e.prettyName = SsaName.prettyName e.ssaName
  header : ∀ s, e.loopHeader = some s ↔ ∃ back b, SsaName.LoopEnd e.ssaName given back ∧
    p.LastInLoop back (·.Defines e.prettyName) b ∧ b.source = s

namespace Procedure

variable {p : Procedure} {name : String} {e : ImpreciseVar}

theorem not_reserved_of_attribution? {l : Option Location} (h : p.attribution? l name = some e) :
    SsaName.isReserved name = false := by
  apply Bool.eq_false_iff.mpr
  intro hreserved
  rw [attribution?_reserved hreserved] at h
  cases h

theorem ssaName_attribution? {l : Option Location} (h : p.attribution? l name = some e) :
    e.ssaName = name := by
  rw [attribution?_eq l (not_reserved_of_attribution? h)] at h
  cases h
  rfl

theorem comesFrom_attribution? {given : Location} (h : p.attribution? (some given) name = some e) :
    e.ComesFrom p given := by
  rw [attribution?_eq _ (not_reserved_of_attribution? h)] at h
  cases h
  refine ⟨rfl, fun s => ?_⟩
  simp only [Option.bind_eq_some_iff, SsaName.loopBack?_or_eq_some_iff, loopHeader?_eq_some_iff]
  constructor
  · rintro ⟨back, hback, b, hb⟩
    exact ⟨back, b, hback, hb⟩
  · rintro ⟨back, b, hback, hb⟩
    exact ⟨back, hback, b, hb⟩

end Procedure

end InvariantSynthesis
