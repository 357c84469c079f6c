import InvariantSynthesis.Analysis.Verifier
import InvariantSynthesis.Proofs.Procedure.Attribution
import InvariantSynthesis.Proofs.Procedure.Renaming

/-!
Attribution of the variables of an old version. The tag of the version stands at the end of every
name, behind all that the searches for the other tags stop at. A name that goes on behind its pretty
name hides the tag; where the pretty name or the field is what the name ends with, the tag becomes a
part of it.
-/

namespace InvariantSynthesis

namespace SsaName

/-- A text that no search for a tag, a field or a number finds anything in or runs into. -/
structure Inert (t : String) : Prop where
  ne_empty : t ≠ ""
  hash : '#' ∉ t.toList
  dot : '.' ∉ t.toList
  digit : ∀ c ∈ t.toList.head?, c.isDigit = false
  reserved : ∀ c ∈ t.toList.head?, ∀ mark ∈ reservedMarks, c ∉ mark
  dynamic : ∀ c ∈ t.toList.head?, c ∉ dynamicMark
  loop : ∀ c ∈ t.toList.head?, c ∉ loopBackMark

theorem inert_oldTag : Inert oldTag where
  ne_empty := by decide
  hash := by decide
  dot := by decide
  digit := forall_head? rfl (by decide)
  reserved := forall_head? rfl (by decide)
  dynamic := forall_head? rfl (by decide)
  loop := forall_head? rfl (by decide)

/-- The name of an object ends with the field that is accessed. -/
def EndsInField (name field : String) : Prop :=
  ∃ before, name = "dynamic_object$" ++ (before ++ ("." ++ field)) ∧ '.' ∉ before.toList ∧
    '#' ∉ field.toList

section search

variable {q : Char → Bool} {mark cs t : List Char}

theorem not_mem_takeWhile_bne (x : Char) : x ∉ cs.takeWhile (· != x) := by
  intro hmem
  have hkept := List.mem_takeWhile_imp hmem
  simp at hkept

theorem takeWhile_append_all (ht : ∀ c ∈ t, q c = true) :
    (cs ++ t).takeWhile q = if cs.takeWhile q = cs then cs ++ t else cs.takeWhile q := by
  induction cs with
  | nil => exact List.takeWhile_eq_self_iff.mpr ht
  | cons c cs ih =>
    by_cases hc : q c = true
    · by_cases hcs : cs.takeWhile q = cs
      · simp [hc, ih, hcs]
      · simp [hc, ih, hcs]
    · simp [hc]

theorem ofList_takeWhile_append {start : List Char} {name t : String}
    (hname : name.toList = start ++ cs) (ht : ∀ c ∈ t.toList, q c = true) :
    String.ofList (start ++ (cs ++ t.toList).takeWhile q) =
      if String.ofList (start ++ cs.takeWhile q) = name then name ++ t
      else String.ofList (start ++ cs.takeWhile q) := by
  have hwhole : String.ofList (start ++ cs.takeWhile q) = name ↔ cs.takeWhile q = cs := by
    rw [← String.toList_inj, String.toList_ofList, hname, List.append_right_inj]
  rw [takeWhile_append_all ht]
  by_cases h : cs.takeWhile q = cs
  · rw [if_pos h, if_pos (hwhole.mpr h), ← List.append_assoc, ← hname, ← String.toList_append,
      String.ofList_toList]
  · rw [if_neg h, if_neg (mt hwhole.mp h)]

theorem afterLast?_append (hne : mark ≠ []) (hhead : ∀ c ∈ t.head?, c ∉ mark)
    (ht : afterLast? mark t = none) :
    afterLast? mark (cs ++ t) = (afterLast? mark cs).map (· ++ t) := by
  induction cs with
  | nil =>
    cases mark with
    | nil => exact absurd rfl hne
    | cons m mark => exact ht
  | cons c cs ih =>
    rw [List.cons_append, afterLast?, afterLast?, ih, ← List.cons_append, after?_append hhead,
      Option.map_or]

end search

section version

variable {t : String} (ht : Inert t) (name : String)
include ht

omit name in
theorem Inert.bne_hash : ∀ c ∈ t.toList, (c != '#') = true :=
  fun _ hc => bne_iff_ne.mpr fun h => ht.hash (h ▸ hc)

omit name in
theorem Inert.bne_dot : ∀ c ∈ t.toList, (c != '.') = true :=
  fun _ hc => bne_iff_ne.mpr fun h => ht.dot (h ▸ hc)

theorem Inert.after?_dynamicMark : after? dynamicMark (name ++ t).toList =
    (after? dynamicMark name.toList).map (· ++ t.toList) := by
  rw [String.toList_append, after?_append ht.dynamic]

theorem Inert.isReserved_append : isReserved (name ++ t) = isReserved name :=
  SsaName.isReserved_append ht.reserved

theorem Inert.isDynamic_append : isDynamic (name ++ t) = isDynamic name :=
  SsaName.isDynamic_append ht.dynamic

theorem Inert.loopBack?_append : loopBack? (name ++ t) = loopBack? name := by
  have hnone : afterLast? loopBackMark t.toList = none := by
    apply afterLast?_eq_none_iff.mpr
    intro hmark
    exact ht.hash (hmark.subset (by decide))
  rw [loopBack?, loopBack?, String.toList_append, afterLast?_append (by decide) ht.loop hnone]
  cases afterLast? loopBackMark name.toList with
  | none => rfl
  | some rest => exact leadingNumber?_append ht.digit

theorem Inert.allocationSite?_append : allocationSite? (name ++ t) = allocationSite? name := by
  rw [allocationSite?, allocationSite?, ht.after?_dynamicMark]
  cases after? dynamicMark name.toList with
  | none => rfl
  | some rest => exact leadingNumber?_append ht.digit

/-- A pretty name that ends before the name does stays, and one that is the whole name grows. -/
theorem Inert.prettyName_append :
    prettyName (name ++ t) = if prettyName name = name then name ++ t else prettyName name := by
  have hdot : ∀ c ∈ t.toList, (c != '.' && c != '#') = true := by
    intro c hc
    rw [ht.bne_dot c hc, ht.bne_hash c hc]
    rfl
  rw [prettyName, prettyName, ht.after?_dynamicMark]
  cases h : after? dynamicMark name.toList with
  | none =>
    rw [Option.map_none, String.toList_append]
    exact ofList_takeWhile_append (List.nil_append _).symm ht.bne_hash
  | some rest => exact ofList_takeWhile_append (after?_eq_some_iff.mp h) hdot

omit ht in
theorem endsInField_of_dropWhile {rest after : List Char} {c : Char}
    (hrest : after? dynamicMark name.toList = some rest)
    (hdrop : rest.dropWhile (· != '.') = c :: after) (hhash : '#' ∉ after) :
    EndsInField name (String.ofList after) := by
  have hc : c = '.' := by
    have hstop := List.head?_dropWhile_not (· != '.') rest
    rw [hdrop] at hstop
    simpa using hstop
  have hsplit : rest.takeWhile (· != '.') ++ '.' :: after = rest := by
    rw [hc] at hdrop
    rw [← hdrop, List.takeWhile_append_dropWhile]
  refine ⟨String.ofList (rest.takeWhile (· != '.')), ?_, ?_, ?_⟩
  · apply String.toList_injective
    rw [after?_eq_some_iff.mp hrest]
    simp only [String.toList_append, String.toList_ofList]
    exact congrArg (dynamicMark ++ ·) hsplit.symm
  · rw [String.toList_ofList]
    exact not_mem_takeWhile_bne '.'
  · rwa [String.toList_ofList]

theorem Inert.field?_append_of_endsInField {field : String} (h : EndsInField name field) :
    field? (name ++ t) = some (field ++ t) := by
  obtain ⟨before, rfl, hbefore, hfield⟩ := h
  have hhash : '#' ∉ (field ++ t).toList := by
    rw [String.toList_append, List.mem_append, not_or]
    exact ⟨hfield, ht.hash⟩
  have hne : field ++ t ≠ "" := fun h => ht.ne_empty (String.append_eq_empty_iff.mp h).2
  have hread : field? ("dynamic_object$" ++ (before ++ ("." ++ (field ++ t ++ "")))) =
      some (field ++ t) :=
    field?_dynamic hbefore hhash hne (by simp)
  simpa only [String.append_assoc, String.append_empty] using hread

theorem Inert.field?_append (h : ∀ field, ¬ EndsInField name field) :
    field? (name ++ t) = field? name := by
  rw [field?, field?, ht.after?_dynamicMark]
  cases hrest : after? dynamicMark name.toList with
  | none => rfl
  | some rest =>
    have hnodot : t.toList.dropWhile (· != '.') = [] := List.dropWhile_eq_nil_iff.mpr ht.bne_dot
    simp only [Option.map_some, Option.bind_eq_bind, Option.bind_some, List.dropWhile_append, hnodot]
    cases hdrop : rest.dropWhile (· != '.') with
    | nil => rfl
    | cons c after =>
      have hhash : '#' ∈ after := by
        apply Classical.byContradiction
        intro hmem
        exact h _ (endsInField_of_dropWhile name hrest hdrop hmem)
      have htake : (after ++ t.toList).takeWhile (· != '#') = after.takeWhile (· != '#') := by
        rw [takeWhile_append_all ht.bne_hash, if_neg]
        intro hall
        rw [← hall] at hhash
        exact not_mem_takeWhile_bne '#' hhash
      simp only [List.isEmpty_cons, Bool.false_eq_true, if_false, List.cons_append, htake]

end version

end SsaName

namespace Procedure

variable {p : Procedure} {tag : String} {back : Location}

theorem indexOf?_tagged (l : Location) : (p.tagged tag).indexOf? l = p.indexOf? l :=
  List.findIdx?_map

theorem find?_tagged (l : Location) : (p.tagged tag).find? l = (p.find? l).map (Block.tagged tag) := by
  rw [find?, find?, indexOf?_tagged]
  cases p.indexOf? l with
  | none => rfl
  | some i => exact p.getElem?_tagged tag i

theorem lastSource?_tagged (q : Block → Bool) : (p.tagged tag).lastSource? back q =
    p.lastSource? back (fun b => q (b.tagged tag)) := by
  have hlast : ∀ index head,
      ((((p.tagged tag).blocks.take index).drop (head + 1)).filter q).getLast? =
        ((((p.blocks.take index).drop (head + 1)).filter fun b => q (b.tagged tag)).getLast?).map
          (Block.tagged tag) := by
    intro index head
    rw [tagged, ← List.map_take, ← List.map_drop, List.filter_map, List.getLast?_map]
    rfl
  rw [lastSource?, lastSource?, indexOf?_tagged]
  cases p.indexOf? back with
  | none => rfl
  | some index =>
    simp only [Option.bind_eq_bind, Option.bind_some, p.getElem?_tagged, hlast]
    cases p.blocks[index]? with
    | none => rfl
    | some stop =>
      cases hhead : stop.head with
      | none => simp [Block.tagged, hhead]
      | some head =>
        simp only [Option.map_some, Option.bind_some, show (stop.tagged tag).head = stop.head from rfl,
          hhead]
        cases (((p.blocks.take index).drop (head + 1)).filter fun b => q (b.tagged tag)).getLast? <;> rfl

theorem loopHeader?_tagged (pretty : String) : (p.tagged tag).loopHeader? back pretty =
    p.lastSource? back (fun b =>
      b.equalities.any fun e => SsaName.prettyName (e.lhs ++ tag) = pretty) := by
  have hany : ∀ b : Block,
      ((b.tagged tag).equalities.any fun e => decide (SsaName.prettyName e.lhs = pretty)) =
        b.equalities.any fun e => decide (SsaName.prettyName (e.lhs ++ tag) = pretty) :=
    fun b => List.any_map
  calc (p.tagged tag).loopHeader? back pretty
    _ = p.lastSource? back (fun b =>
          (b.tagged tag).equalities.any fun e => SsaName.prettyName e.lhs = pretty) :=
      lastSource?_tagged _
    _ = _ := by simp only [hany]

end Procedure

theorem SsaName.Inert.prettyName_append_inj {t : String} (ht : Inert t) {m n : String}
    (h : prettyName m = m ↔ prettyName n = n) :
    prettyName (m ++ t) = prettyName (n ++ t) ↔ prettyName m = prettyName n := by
  rw [ht.prettyName_append, ht.prettyName_append]
  by_cases hn : prettyName n = n
  · rw [if_pos (h.mpr hn), if_pos hn, h.mpr hn, hn]
    exact (append_injective t).eq_iff
  · rw [if_neg (mt h.mp hn), if_neg hn]

namespace Procedure

variable {p : Procedure} {t : String} (ht : SsaName.Inert t) {back : Location} {name : String}

include ht

/-- The same block is found where the defined variables that matter end as the variable does. -/
theorem loopHeader?_tagged_of_alike (h : ∀ b ∈ p.blocks, ∀ e ∈ b.equalities,
      SsaName.prettyName e.lhs = SsaName.prettyName name ∨
        SsaName.prettyName (e.lhs ++ t) = SsaName.prettyName (name ++ t) →
      (SsaName.prettyName e.lhs = e.lhs ↔ SsaName.prettyName name = name)) :
    (p.tagged t).loopHeader? back (SsaName.prettyName (name ++ t)) =
      p.loopHeader? back (SsaName.prettyName name) := by
  rw [loopHeader?_tagged]
  apply lastSource?_congr
  intro b hb
  rw [Bool.eq_iff_iff, List.any_eq_true, List.any_eq_true]
  apply exists_congr
  intro e
  apply and_congr_right
  intro he
  rw [decide_eq_true_eq, decide_eq_true_eq]
  constructor
  · intro htag
    exact (ht.prettyName_append_inj (h b hb e he (.inr htag))).mp htag
  · intro hpretty
    exact (ht.prettyName_append_inj (h b hb e he (.inl hpretty))).mpr hpretty

end Procedure

/-- Attributing a variable of the old version, compared with attributing it in the procedure alone.
The place of allocation stays. The pretty name stays where the name goes on behind it, and the field
stays unless the name ends with it; otherwise they take the tag. The loop header is the last block of
the loop that defines the pretty name of the tagged variable. It stays if the defined variables of the
same pretty name, with the tag or without, go on behind their pretty names just as the variable
does. -/
theorem Procedure.version_attribution (p : Procedure) (location : Option Location) (name : String)
    (h : SsaName.isReserved name = false) :
    ∃ v w, p.attribution? location name = some v ∧
      (p.tagged oldTag).attribution? location (name ++ oldTag) = some w ∧
      w.prettyName = (if SsaName.prettyName name = name then v.prettyName ++ oldTag else v.prettyName) ∧
      w.dynamic.map (·.site) = v.dynamic.map (·.site) ∧
      (∀ field, SsaName.EndsInField name field →
        w.dynamic.map (·.field) = some (some (field ++ oldTag))) ∧
      ((∀ field, ¬ SsaName.EndsInField name field) →
        w.dynamic.map (·.field) = v.dynamic.map (·.field)) ∧
      (∀ s, w.loopHeader = some s ↔ ∃ back ∈ (SsaName.loopBack? name).or location, ∃ b,
        p.LastInLoop back (fun b => ∃ e ∈ b.equalities,
          SsaName.prettyName (e.lhs ++ oldTag) = SsaName.prettyName (name ++ oldTag)) b ∧
        b.source = s) ∧
      ((∀ b ∈ p.blocks, ∀ e ∈ b.equalities,
          SsaName.prettyName e.lhs = SsaName.prettyName name ∨
            SsaName.prettyName (e.lhs ++ oldTag) = SsaName.prettyName (name ++ oldTag) →
          (SsaName.prettyName e.lhs = e.lhs ↔ SsaName.prettyName name = name)) →
        w.loopHeader = v.loopHeader) := by
  have ht := SsaName.inert_oldTag
  have htagged : SsaName.isReserved (name ++ oldTag) = false := by rw [ht.isReserved_append, h]
  refine ⟨_, _, attribution?_eq location h, attribution?_eq location htagged, ?_, ?_, ?_, ?_, ?_, ?_⟩
  · rw [ht.prettyName_append]
    by_cases hname : SsaName.prettyName name = name
    · rw [if_pos hname, if_pos hname, hname]
    · rw [if_neg hname, if_neg hname]
  · simp only [ht.isDynamic_append, ht.allocationSite?_append, find?_tagged, Option.map_map]
    by_cases hdynamic : SsaName.isDynamic name = true
    · rw [if_pos hdynamic, if_pos hdynamic]
      rfl
    · rw [if_neg hdynamic, if_neg hdynamic]
  · intro field hfield
    have hdynamic : SsaName.isDynamic name = true := by
      obtain ⟨before, rfl, -⟩ := hfield
      exact SsaName.isDynamic_dynamic _
    simp only [ht.isDynamic_append, hdynamic, if_true, Option.map_some,
      ht.field?_append_of_endsInField name hfield]
  · intro hfield
    simp only [ht.isDynamic_append, ht.field?_append name hfield]
    by_cases hdynamic : SsaName.isDynamic name = true
    · rw [if_pos hdynamic, if_pos hdynamic]
      rfl
    · rw [if_neg hdynamic, if_neg hdynamic]
  · intro s
    simp only [ht.loopBack?_append, loopHeader?_tagged, Option.bind_eq_some_iff,
      lastSource?_eq_some_iff, List.any_eq_true, decide_eq_true_eq, Option.mem_def]
  · intro halike
    simp only [ht.loopBack?_append, loopHeader?_tagged_of_alike ht halike]

/-- A loop over three blocks. The one inside defines a single variable. -/
def aroundLoop (defined : String) : Procedure where
  name := "walk"
  blocks := [
    { location := 1, source := ⟨"t.c", 1⟩ },
    { location := 2, source := ⟨"t.c", 2⟩, equalities := [⟨defined, .intVar "n"⟩] },
    { location := 3, source := ⟨"t.c", 3⟩, head := some 0 }]

theorem version_attribution_next :
    SsaName.isReserved "dynamic_object$1.next#lb3" = false ∧
    ∃ v w,
      (aroundLoop "dynamic_object$1.next#2").attribution? none "dynamic_object$1.next#lb3" = some v ∧
      ((aroundLoop "dynamic_object$1.next#2").tagged oldTag).attribution? none
        ("dynamic_object$1.next#lb3" ++ oldTag) = some w ∧
      w.prettyName = v.prettyName ∧ w.loopHeader = v.loopHeader ∧
      w.dynamic.map (·.site) = v.dynamic.map (·.site) := by
  refine ⟨by decide +kernel, ?_⟩
  obtain ⟨v, w, hv, hw, hpretty, hsite, -, -, -, hheader⟩ := Procedure.version_attribution
    (aroundLoop "dynamic_object$1.next#2") none "dynamic_object$1.next#lb3" (by decide +kernel)
  refine ⟨v, w, hv, hw, ?_, hheader (by decide +kernel), hsite⟩
  rw [hpretty, if_neg (by decide +kernel)]

/-- A name that ends with its pretty name or with its field takes the tag into it, and a loop header is
lost where the variable goes on behind its pretty name and the defined one does not. -/
theorem tag_enters_attribution :
    ((aroundLoop "x").attribution? none "k" = some ⟨"k", "k", none, none⟩ ∧
      ((aroundLoop "x").tagged oldTag).attribution? none ("k" ++ oldTag) =
        some ⟨"k@old", "k@old", none, none⟩) ∧
    ((aroundLoop "x").attribution? none "x#lb3" = some ⟨"x#lb3", "x", some ⟨"t.c", 2⟩, none⟩ ∧
      ((aroundLoop "x").tagged oldTag).attribution? none ("x#lb3" ++ oldTag) =
        some ⟨"x#lb3@old", "x", none, none⟩) ∧
    ((aroundLoop "x").attribution? none "dynamic_object$1#lb3.next" =
        some ⟨"dynamic_object$1#lb3.next", "dynamic_object$1", none,
          some ⟨some ⟨"t.c", 1⟩, some "next"⟩⟩ ∧
      ((aroundLoop "x").tagged oldTag).attribution? none ("dynamic_object$1#lb3.next" ++ oldTag) =
        some ⟨"dynamic_object$1#lb3.next@old", "dynamic_object$1", none,
          some ⟨some ⟨"t.c", 1⟩, some "next@old"⟩⟩) := by
  decide +kernel

end InvariantSynthesis
