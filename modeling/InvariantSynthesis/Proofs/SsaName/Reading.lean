import Mathlib.Data.List.TakeWhile
import InvariantSynthesis.SsaName

/-!
Reading the tags of a name. Every tag has a search of its own: for the first dot or hash, for the last
mark of a loop, for the digits after a mark. A name that is put together from a variable, the mark of
a loop and a field is read back as these parts, and it does not matter whether the mark or the field
comes first.
-/

namespace InvariantSynthesis

theorem Text.toList_toString (n : Nat) : (toString n).toList = Nat.toDigits 10 n := Nat.toList_repr

theorem Text.numberOf_toString (n : Nat) : numberOf (toString n).toList = n := by
  rw [toList_toString]
  exact Nat.ofDigitChars_toDigits (by decide) (by decide)

theorem Text.isDigit_of_mem_toString {n : Nat} {c : Char} (h : c ∈ (toString n).toList) :
    c.isDigit = true := by
  rw [toList_toString] at h
  exact Nat.isDigit_of_mem_toDigits (by decide) (by decide) h

theorem Text.not_mem_toString {n : Nat} {c : Char} (hc : c.isDigit = false) :
    c ∉ (toString n).toList := by
  intro h
  have hdigit := isDigit_of_mem_toString h
  rw [hc] at hdigit
  cases hdigit

namespace SsaName

section search

variable {mark cs rest : List Char}

theorem loopBackMark_eq : loopBackMark = ['#', 'l', 'b'] := by decide

theorem after?_eq_some_iff : after? mark cs = some rest ↔ cs = mark ++ rest := by
  induction mark generalizing cs with
  | nil => simp [after?]
  | cons m mark ih =>
    cases cs with
    | nil => simp [after?]
    | cons c cs =>
      by_cases h : m = c
      · simp [after?, h, ih]
      · simp [after?, h, Ne.symm h]

theorem after?_append {t : List Char} (h : ∀ c ∈ t.head?, c ∉ mark) :
    after? mark (cs ++ t) = (after? mark cs).map (· ++ t) := by
  induction mark generalizing cs with
  | nil => simp [after?]
  | cons m mark ih =>
    cases cs with
    | cons c cs =>
      have hrest : after? mark (cs ++ t) = (after? mark cs).map (· ++ t) :=
        ih fun x hx hmem => h x hx (List.mem_cons_of_mem _ hmem)
      by_cases hc : m = c
      · simpa [after?, hc] using hrest
      · simp [after?, hc]
    | nil =>
      cases t with
      | nil => rfl
      | cons x t =>
        have hx : m ≠ x := fun hx => h x rfl (hx ▸ List.mem_cons_self)
        simp [after?, hx]

theorem afterLast?_append_left {before : List Char} (h : afterLast? mark cs = some rest) :
    afterLast? mark (before ++ cs) = some rest := by
  induction before with
  | nil => exact h
  | cons c before ih => rw [List.cons_append, afterLast?, ih, Option.some_or]

theorem afterLast?_skip {m : Char} {before : List Char} (h : m ∉ before) :
    afterLast? (m :: mark) (before ++ cs) = afterLast? (m :: mark) cs := by
  induction before with
  | nil => rfl
  | cons c before ih =>
    rw [List.mem_cons, not_or] at h
    rw [List.cons_append, afterLast?, ih h.2, after?, if_neg h.1, Option.or_none]

theorem after?_eq_none_iff : after? mark cs = none ↔ ¬ mark <+: cs := by
  constructor
  · rintro h ⟨rest, hrest⟩
    rw [after?_eq_some_iff.mpr hrest.symm] at h
    cases h
  · intro h
    apply Option.eq_none_iff_forall_ne_some.mpr
    intro rest hrest
    exact h ⟨rest, (after?_eq_some_iff.mp hrest).symm⟩

theorem afterLast?_eq_none_iff : afterLast? mark cs = none ↔ ¬ mark <:+: cs := by
  induction cs with
  | nil => rw [afterLast?, after?_eq_none_iff, List.infix_nil, List.prefix_nil]
  | cons c cs ih =>
    rw [afterLast?, Option.or_eq_none_iff, ih, after?_eq_none_iff, List.infix_cons_iff, not_or,
      and_comm]

/-- The last mark of a loop is the one that no other follows. -/
theorem afterLast?_loopBackMark (before : List Char) (h : afterLast? loopBackMark rest = none) :
    afterLast? loopBackMark (before ++ loopBackMark ++ rest) = some rest := by
  rw [List.append_assoc]
  apply afterLast?_append_left
  rw [loopBackMark_eq] at h ⊢
  have hskip : afterLast? ['#', 'l', 'b'] (['l', 'b'] ++ rest) = none := by
    rw [afterLast?_skip (by decide), h]
  rw [List.cons_append, afterLast?, hskip, Option.none_or, after?_eq_some_iff]
  rfl

theorem afterLast?_loopBackMark_iff : afterLast? loopBackMark cs = some rest ↔
    ∃ before, cs = before ++ loopBackMark ++ rest ∧ ¬ loopBackMark <:+: rest := by
  constructor
  · intro h
    induction cs with
    | nil => cases h
    | cons c cs ih =>
      rw [afterLast?, Option.or_eq_some_iff] at h
      rcases h with hlater | ⟨hnone, hhere⟩
      · obtain ⟨before, rfl, hrest⟩ := ih hlater
        exact ⟨c :: before, rfl, hrest⟩
      · rw [after?_eq_some_iff] at hhere
        refine ⟨[], hhere, ?_⟩
        intro hmark
        rw [loopBackMark_eq] at hhere
        obtain rfl : cs = ['l', 'b'] ++ rest := (List.cons.inj hhere).2
        exact afterLast?_eq_none_iff.mp hnone (hmark.trans (List.suffix_append _ _).isInfix)
  · rintro ⟨before, rfl, hrest⟩
    exact afterLast?_loopBackMark before (afterLast?_eq_none_iff.mpr hrest)

theorem takeWhile_append_head {p : Char → Bool} (hrest : ∀ c ∈ rest.head?, p c = false) :
    (cs ++ rest).takeWhile p = cs.takeWhile p := by
  induction cs with
  | nil =>
    cases rest with
    | nil => rfl
    | cons c rest => simp [hrest c rfl]
  | cons c cs ih =>
    by_cases hc : p c = true
    · simp [hc, ih]
    · simp [hc]

theorem takeWhile_append_stop {p : Char → Bool} (hcs : ∀ c ∈ cs, p c = true)
    (hrest : ∀ c ∈ rest.head?, p c = false) : (cs ++ rest).takeWhile p = cs := by
  rw [takeWhile_append_head hrest, List.takeWhile_eq_self_iff]
  exact hcs

theorem leadingNumber?_append (hrest : ∀ c ∈ rest.head?, c.isDigit = false) :
    leadingNumber? (cs ++ rest) = leadingNumber? cs := by
  rw [leadingNumber?, leadingNumber?, takeWhile_append_head hrest]

theorem leadingNumber?_toString {n : Nat} (hn : n < UInt32.size)
    (hrest : ∀ c ∈ rest.head?, c.isDigit = false) :
    leadingNumber? ((toString n).toList ++ rest) = some n := by
  have hdigits : (toString n).toList.takeWhile Char.isDigit = (toString n).toList :=
    List.takeWhile_eq_self_iff.mpr fun _ hc => Text.isDigit_of_mem_toString hc
  have hne : (toString n).toList ≠ [] := by
    rw [Text.toList_toString]
    exact Nat.toDigits_ne_nil
  rw [leadingNumber?_append hrest, leadingNumber?, hdigits, Text.numberOf_toString]
  simp only [hne, if_false]
  exact if_pos hn

end search

section tags

variable {n site : Nat} {before rest suffix : String}

/-- A text that starts with none of the characters of the marks does not make a name reserved. -/
theorem isReserved_append (h : ∀ c ∈ rest.toList.head?, ∀ mark ∈ reservedMarks, c ∉ mark) :
    isReserved (before ++ rest) = isReserved before := by
  have hmark : ∀ mark ∈ reservedMarks,
      (after? mark (before ++ rest).toList).isSome = (after? mark before.toList).isSome := by
    intro mark hmark
    rw [String.toList_append, after?_append fun c hc => h c hc mark hmark, Option.isSome_map]
  rw [isReserved, isReserved, Bool.eq_iff_iff, List.any_eq_true, List.any_eq_true]
  constructor
  · rintro ⟨mark, hmem, hafter⟩
    exact ⟨mark, hmem, hmark mark hmem ▸ hafter⟩
  · rintro ⟨mark, hmem, hafter⟩
    exact ⟨mark, hmem, hmark mark hmem ▸ hafter⟩

theorem isDynamic_append (h : ∀ c ∈ rest.toList.head?, c ∉ dynamicMark) :
    isDynamic (before ++ rest) = isDynamic before := by
  rw [isDynamic, isDynamic, String.toList_append, after?_append h, Option.isSome_map]

theorem after?_dynamicMark (s : String) :
    after? dynamicMark ("dynamic_object$" ++ s).toList = some s.toList := by
  rw [after?_eq_some_iff, String.toList_append]
  rfl

theorem isReserved_dynamic (s : String) : isReserved ("dynamic_object$" ++ s) = false := by
  rw [isReserved, String.toList_append]
  rfl

theorem isDynamic_dynamic (s : String) : isDynamic ("dynamic_object$" ++ s) = true := by
  rw [isDynamic, after?_dynamicMark, Option.isSome_some]

theorem parse?_plain {name : String} (hreserved : isReserved name = false)
    (hdynamic : isDynamic name = false) :
    parse? name = some ⟨name, prettyName name, loopBack? name, none⟩ := by
  rw [parse?, hreserved, hdynamic]
  rfl

theorem parse?_dynamic (s : String) : parse? ("dynamic_object$" ++ s) =
    some ⟨"dynamic_object$" ++ s, prettyName ("dynamic_object$" ++ s),
      loopBack? ("dynamic_object$" ++ s),
      some ⟨allocationSite? ("dynamic_object$" ++ s), field? ("dynamic_object$" ++ s)⟩⟩ := by
  rw [parse?, isReserved_dynamic, isDynamic_dynamic]
  rfl

theorem takeWhile_hash (hbefore : '#' ∉ before.toList) (hrest : ∀ c ∈ rest.toList.head?, c = '#') :
    (before ++ rest).toList.takeWhile (· != '#') = before.toList := by
  rw [String.toList_append]
  apply takeWhile_append_stop
  · intro c hc
    exact bne_iff_ne.mpr fun h => hbefore (h ▸ hc)
  · intro c hc
    rw [hrest c hc]
    rfl

theorem prettyName_plain (hbefore : '#' ∉ before.toList) (hrest : ∀ c ∈ rest.toList.head?, c = '#')
    (hdynamic : isDynamic (before ++ rest) = false) : prettyName (before ++ rest) = before := by
  rw [isDynamic, Option.isSome_eq_false_iff, Option.isNone_iff_eq_none] at hdynamic
  rw [prettyName, hdynamic]
  simp only [takeWhile_hash hbefore hrest, String.ofList_toList]

theorem prettyName_dynamic (hrest : ∀ c ∈ rest.toList.head?, c = '.' ∨ c = '#') :
    prettyName ("dynamic_object$" ++ (toString site ++ rest)) =
      "dynamic_object$" ++ toString site := by
  have htake : (toString site ++ rest).toList.takeWhile (fun c => c != '.' && c != '#') =
      (toString site).toList := by
    rw [String.toList_append]
    apply takeWhile_append_stop
    · intro c hc
      have hdot : c ≠ '.' := fun h => Text.not_mem_toString (by decide) (h ▸ hc)
      have hhash : c ≠ '#' := fun h => Text.not_mem_toString (by decide) (h ▸ hc)
      simp [hdot, hhash]
    · intro c hc
      obtain rfl | rfl := hrest c hc <;> rfl
  rw [prettyName, after?_dynamicMark]
  simp only [htake]
  apply String.toList_injective
  rw [String.toList_ofList, String.toList_append]
  rfl

theorem loopBack?_mark (hn : n < UInt32.size) (hmark : afterLast? loopBackMark suffix.toList = none)
    (hdigit : ∀ c ∈ suffix.toList.head?, c.isDigit = false) :
    loopBack? (before ++ ("#lb" ++ (toString n ++ suffix))) = some n := by
  have htext : (before ++ ("#lb" ++ (toString n ++ suffix))).toList =
      before.toList ++ loopBackMark ++ ((toString n).toList ++ suffix.toList) := by
    simp only [String.toList_append, List.append_assoc]
    rfl
  have hlater : afterLast? loopBackMark ((toString n).toList ++ suffix.toList) = none := by
    rw [loopBackMark_eq] at hmark ⊢
    rw [afterLast?_skip (Text.not_mem_toString (by decide)), hmark]
  rw [loopBack?, htext, afterLast?_loopBackMark _ hlater]
  exact leadingNumber?_toString hn hdigit

theorem allocationSite?_dynamic (hsite : site < UInt32.size)
    (hrest : ∀ c ∈ rest.toList.head?, c.isDigit = false) :
    allocationSite? ("dynamic_object$" ++ (toString site ++ rest)) = some site := by
  rw [allocationSite?, after?_dynamicMark, String.toList_append]
  exact leadingNumber?_toString hsite hrest

theorem field?_dynamic {field : String} (hbefore : '.' ∉ before.toList) (hfield : '#' ∉ field.toList)
    (hne : field ≠ "") (hrest : ∀ c ∈ rest.toList.head?, c = '#') :
    field? ("dynamic_object$" ++ (before ++ ("." ++ (field ++ rest)))) = some field := by
  have hdrop : (before ++ ("." ++ (field ++ rest))).toList.dropWhile (· != '.') =
      '.' :: (field ++ rest).toList := by
    rw [String.toList_append, List.dropWhile_append_of_pos, String.toList_append]
    · rfl
    · intro c hc
      exact bne_iff_ne.mpr fun h => hbefore (h ▸ hc)
  have htaken : field.toList ≠ [] := fun h => hne (String.toList_eq_nil_iff.mp h)
  rw [field?, after?_dynamicMark]
  simp only [Option.bind_eq_bind, Option.bind_some, hdrop, takeWhile_hash hfield hrest, htaken,
    if_false, String.ofList_toList]

theorem forall_head? {cs : List Char} {c : Char} {P : Char → Prop} (h : cs.head? = some c) (hc : P c) :
    ∀ x ∈ cs.head?, P x := by
  intro x hx
  rw [h] at hx
  exact Option.some.inj hx ▸ hc

theorem head?_append {t s : String} {c : Char} (h : t.toList.head? = some c) :
    ∀ x ∈ (t ++ s).toList.head?, x = c := by
  refine forall_head? ?_ rfl
  rw [String.toList_append, List.head?_append, h, Option.some_or]

theorem parse?_carried {base : String} (hn : n < UInt32.size) (hbase : '#' ∉ base.toList)
    (hreserved : isReserved base = false) (hdynamic : isDynamic base = false)
    (hmark : ¬ loopBackMark <:+: suffix.toList)
    (hdigit : ∀ c ∈ suffix.toList.head?, c.isDigit = false) :
    parse? (base ++ "#lb" ++ toString n ++ suffix) =
      some ⟨base ++ "#lb" ++ toString n ++ suffix, base, some n, none⟩ := by
  have hname : base ++ "#lb" ++ toString n ++ suffix =
      base ++ ("#lb" ++ (toString n ++ suffix)) := by
    simp only [String.append_assoc]
  have hhash : ∀ c ∈ ("#lb" ++ (toString n ++ suffix)).toList.head?, c = '#' := head?_append rfl
  have hplain : isDynamic (base ++ ("#lb" ++ (toString n ++ suffix))) = false := by
    rw [isDynamic_append fun c hc => hhash c hc ▸ by decide, hdynamic]
  have hfree : isReserved (base ++ ("#lb" ++ (toString n ++ suffix))) = false := by
    rw [isReserved_append fun c hc => hhash c hc ▸ by decide, hreserved]
  rw [hname, parse?_plain hfree hplain, prettyName_plain hbase hhash hplain,
    loopBack?_mark hn (afterLast?_eq_none_iff.mpr hmark) hdigit]

theorem parse?_mark_field {field : String} (hsite : site < UInt32.size) (hn : n < UInt32.size)
    (hne : field ≠ "") (hfield : '#' ∉ field.toList) (hmark : ¬ loopBackMark <:+: suffix.toList)
    (hhash : ∀ c ∈ suffix.toList.head?, c = '#') :
    parse? ("dynamic_object$" ++ toString site ++ "#lb" ++ toString n ++ "." ++ field ++ suffix) =
      some ⟨"dynamic_object$" ++ toString site ++ "#lb" ++ toString n ++ "." ++ field ++ suffix,
        "dynamic_object$" ++ toString site, some n, some ⟨some site, some field⟩⟩ := by
  have hname : "dynamic_object$" ++ toString site ++ "#lb" ++ toString n ++ "." ++ field ++ suffix =
      "dynamic_object$" ++ (toString site ++ ("#lb" ++ (toString n ++ ("." ++ (field ++ suffix))))) := by
    simp only [String.append_assoc]
  have hstart : ∀ c ∈ ("#lb" ++ (toString n ++ ("." ++ (field ++ suffix)))).toList.head?, c = '#' :=
    head?_append rfl
  have hlater : afterLast? loopBackMark ("." ++ (field ++ suffix)).toList = none := by
    have hsuffix := afterLast?_eq_none_iff.mpr hmark
    rw [loopBackMark_eq] at hsuffix ⊢
    rw [String.toList_append, String.toList_append, afterLast?_skip (by decide),
      afterLast?_skip hfield, hsuffix]
  have hloop : loopBack? ("dynamic_object$" ++
      (toString site ++ ("#lb" ++ (toString n ++ ("." ++ (field ++ suffix)))))) = some n := by
    rw [← String.append_assoc]
    exact loopBack?_mark hn hlater fun c hc => head?_append rfl c hc ▸ by decide
  have hread : field? ("dynamic_object$" ++
      (toString site ++ ("#lb" ++ (toString n ++ ("." ++ (field ++ suffix)))))) = some field := by
    have hdot : '.' ∉ (toString site ++ ("#lb" ++ toString n)).toList := by
      rw [String.toList_append, String.toList_append, List.mem_append, List.mem_append]
      rintro (h | h | h)
      · exact Text.not_mem_toString (by decide) h
      · revert h
        decide
      · exact Text.not_mem_toString (by decide) h
    have hparts := field?_dynamic hdot hfield hne hhash
    simpa only [String.append_assoc] using hparts
  rw [hname, parse?_dynamic, prettyName_dynamic fun c hc => .inr (hstart c hc), hloop,
    allocationSite?_dynamic hsite fun c hc => hstart c hc ▸ by decide, hread]

theorem parse?_field_mark {field : String} (hsite : site < UInt32.size) (hn : n < UInt32.size)
    (hne : field ≠ "") (hfield : '#' ∉ field.toList) (hmark : ¬ loopBackMark <:+: suffix.toList)
    (hdigit : ∀ c ∈ suffix.toList.head?, c.isDigit = false) :
    parse? ("dynamic_object$" ++ toString site ++ "." ++ field ++ "#lb" ++ toString n ++ suffix) =
      some ⟨"dynamic_object$" ++ toString site ++ "." ++ field ++ "#lb" ++ toString n ++ suffix,
        "dynamic_object$" ++ toString site, some n, some ⟨some site, some field⟩⟩ := by
  have hname : "dynamic_object$" ++ toString site ++ "." ++ field ++ "#lb" ++ toString n ++ suffix =
      "dynamic_object$" ++ (toString site ++ ("." ++ (field ++ ("#lb" ++ (toString n ++ suffix))))) := by
    simp only [String.append_assoc]
  have hstart : ∀ c ∈ ("." ++ (field ++ ("#lb" ++ (toString n ++ suffix)))).toList.head?, c = '.' :=
    head?_append rfl
  have hloop : loopBack? ("dynamic_object$" ++
      (toString site ++ ("." ++ (field ++ ("#lb" ++ (toString n ++ suffix)))))) = some n := by
    have hparts : loopBack? ("dynamic_object$" ++ (toString site ++ ("." ++ field)) ++
        ("#lb" ++ (toString n ++ suffix))) = some n :=
      loopBack?_mark hn (afterLast?_eq_none_iff.mpr hmark) hdigit
    simpa only [String.append_assoc] using hparts
  have hread : field? ("dynamic_object$" ++
      (toString site ++ ("." ++ (field ++ ("#lb" ++ (toString n ++ suffix)))))) = some field :=
    field?_dynamic (Text.not_mem_toString (by decide)) hfield hne (head?_append rfl)
  rw [hname, parse?_dynamic, prettyName_dynamic fun c hc => .inl (hstart c hc), hloop,
    allocationSite?_dynamic hsite fun c hc => hstart c hc ▸ by decide, hread]

end tags

/-- Names are read back as the parts they are made of: a variable with the mark of its loop, and a
field of an object, with the mark of the loop on either side of the field. What follows the mark must
not be another mark and not continue the number, and what follows a field must not continue it. -/
theorem parts_read_back (n : Location) (hn : n < UInt32.size) (suffix : String)
    (hmark : ¬ loopBackMark <:+: suffix.toList) :
    (∀ base : String, '#' ∉ base.toList → isReserved base = false → isDynamic base = false →
      (∀ c ∈ suffix.toList.head?, c.isDigit = false) →
      parse? (base ++ "#lb" ++ toString n ++ suffix) =
        some ⟨base ++ "#lb" ++ toString n ++ suffix, base, some n, none⟩) ∧
    ∀ site : Location, site < UInt32.size → ∀ field : String, field ≠ "" → '#' ∉ field.toList →
      ((∀ c ∈ suffix.toList.head?, c = '#') →
        parse? ("dynamic_object$" ++ toString site ++ "#lb" ++ toString n ++ "." ++ field ++ suffix) =
          some ⟨"dynamic_object$" ++ toString site ++ "#lb" ++ toString n ++ "." ++ field ++ suffix,
            "dynamic_object$" ++ toString site, some n, some ⟨some site, some field⟩⟩) ∧
      ((∀ c ∈ suffix.toList.head?, c.isDigit = false) →
        parse? ("dynamic_object$" ++ toString site ++ "." ++ field ++ "#lb" ++ toString n ++ suffix) =
          some ⟨"dynamic_object$" ++ toString site ++ "." ++ field ++ "#lb" ++ toString n ++ suffix,
            "dynamic_object$" ++ toString site, some n, some ⟨some site, some field⟩⟩) := by
  refine ⟨fun base hbase hreserved hdynamic hdigit =>
    parse?_carried hn hbase hreserved hdynamic hmark hdigit, fun site hsite field hne hfield => ?_⟩
  exact ⟨parse?_mark_field hsite hn hne hfield hmark, parse?_field_mark hsite hn hne hfield hmark⟩

/-- A field with a dot in it, and digits that belong to no number. -/
theorem parts_read_back_dotted : ¬ loopBackMark <:+: "#12".toList ∧
    (∀ c ∈ "#12".toList.head?, c = '#' ∧ c.isDigit = false) ∧
    '#' ∉ "a.f9".toList ∧ isReserved "a.f9" = false ∧ isDynamic "a.f9" = false ∧
    parse? "a.f9#lb3#12" = some ⟨"a.f9#lb3#12", "a.f9", some 3, none⟩ ∧
    parse? "dynamic_object$7#lb3.a.f9#12" =
      some ⟨"dynamic_object$7#lb3.a.f9#12", "dynamic_object$7", some 3, some ⟨some 7, some "a.f9"⟩⟩ ∧
    parse? "dynamic_object$7.a.f9#lb3#12" =
      some ⟨"dynamic_object$7.a.f9#lb3#12", "dynamic_object$7", some 3, some ⟨some 7, some "a.f9"⟩⟩ := by
  have hmark : ¬ loopBackMark <:+: "#12".toList := by decide
  have hhead : ∀ c ∈ "#12".toList.head?, c = '#' ∧ c.isDigit = false :=
    forall_head? rfl (by decide)
  have hfield : '#' ∉ "a.f9".toList := by decide
  have hfree : isReserved "a.f9" = false := by decide
  have hplain : isDynamic "a.f9" = false := by decide
  obtain ⟨hcarried, hobject⟩ := parts_read_back 3 (by decide) "#12" hmark
  obtain ⟨hbefore, hafter⟩ := hobject 7 (by decide) "a.f9" (by decide) hfield
  exact ⟨hmark, hhead, hfield, hfree, hplain,
    hcarried "a.f9" hfield hfree hplain fun c hc => (hhead c hc).2,
    hbefore fun c hc => (hhead c hc).1, hafter fun c hc => (hhead c hc).2⟩

end SsaName

end InvariantSynthesis
