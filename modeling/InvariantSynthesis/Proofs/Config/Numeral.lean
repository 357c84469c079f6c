import Mathlib.Data.List.DropRight
import Mathlib.Data.List.Induction
import InvariantSynthesis.Config.Options

namespace InvariantSynthesis

namespace Text

/-- The digits write a number, the one with the least weight last. -/
inductive Decimal : List Char → Nat → Prop
  | digit {d : Nat} : d < 10 → Decimal [d.digitChar] d
  | append {cs : List Char} {n d : Nat} : Decimal cs n → d < 10 →
      Decimal (cs ++ [d.digitChar]) (10 * n + d)

/-- A number of 64 bits as it may stand in an option table. -/
structure Numeral (cs : List Char) (n : Nat) : Prop where
  written : ∃ left sign digits right, cs = left ++ (sign ++ digits) ++ right ∧
    (∀ c ∈ left ++ right, isBlank c = true) ∧ (sign = [] ∨ sign = ['+']) ∧ Decimal digits n
  fits : n < 0x10000000000000000

section digits

variable {cs : List Char} {n : Nat}

theorem numberOf_append (cs : List Char) (c : Char) :
    numberOf (cs ++ [c]) = 10 * numberOf cs + (c.toNat - '0'.toNat) := by
  rw [numberOf, List.foldl_append]
  rfl

theorem exists_digitChar {c : Char} (h : c.isDigit = true) :
    ∃ d < 10, c = d.digitChar ∧ c.toNat - '0'.toNat = d := by
  obtain ⟨hlow, hhigh⟩ := Char.isDigit_iff_toNat.mp h
  have hzero : '0'.toNat = 48 := rfl
  have hnine : '9'.toNat = 57 := rfl
  have hd : c.toNat - '0'.toNat < 10 := by omega
  refine ⟨c.toNat - '0'.toNat, hd, Char.toNat_inj.mp ?_, rfl⟩
  rw [Nat.toNat_digitChar_of_lt_ten hd]
  omega

theorem decimal_iff : Decimal cs n ↔ cs ≠ [] ∧ (∀ c ∈ cs, c.isDigit = true) ∧ numberOf cs = n := by
  have hdigit : ∀ {d : Nat}, d < 10 →
      d.digitChar.isDigit = true ∧ d.digitChar.toNat - '0'.toNat = d := fun hd =>
    ⟨by simpa using hd, Nat.toNat_digitChar_sub_48_of_lt_ten hd⟩
  constructor
  · intro h
    induction h with
    | digit hd =>
      refine ⟨by simp, by simpa using hd, ?_⟩
      exact (Nat.zero_add _).trans (hdigit hd).2
    | append _ hd ih =>
      obtain ⟨-, hall, hn⟩ := ih
      refine ⟨by simp, fun c hc => ?_, by rw [numberOf_append, hn, (hdigit hd).2]⟩
      obtain hc | hc := List.mem_append.mp hc
      · exact hall c hc
      · rw [List.mem_singleton.mp hc]
        exact (hdigit hd).1
  · rintro ⟨hne, hall, rfl⟩
    induction cs using List.reverseRecOn with
    | nil => exact absurd rfl hne
    | append_singleton cs c ih =>
      obtain ⟨d, hd, rfl, hvalue⟩ := exists_digitChar (hall c (by simp))
      by_cases hcs : cs = []
      · subst hcs
        have hsingle : numberOf ([] ++ [d.digitChar]) = d := by
          rw [numberOf_append, hvalue]
          exact Nat.zero_add d
        rw [hsingle]
        exact .digit hd
      · rw [numberOf_append, hvalue]
        exact .append (ih hcs fun c hc => hall c (List.mem_append_left _ hc)) hd

end digits

section blanks

variable {cs left core right : List Char}

theorem exists_eq_trim (cs : List Char) :
    ∃ left right, cs = left ++ trim cs ++ right ∧ ∀ c ∈ left ++ right, isBlank c = true := by
  refine ⟨cs.takeWhile isBlank, (cs.dropWhile isBlank).rtakeWhile isBlank, ?_, fun c hc => ?_⟩
  · have hend : trim cs ++ (cs.dropWhile isBlank).rtakeWhile isBlank = cs.dropWhile isBlank :=
      List.rdropWhile_append_rtakeWhile
    rw [List.append_assoc, hend, List.takeWhile_append_dropWhile]
  · obtain hc | hc := List.mem_append.mp hc
    · exact List.mem_takeWhile_imp hc
    · exact List.mem_rtakeWhile_imp hc

theorem trim_eq (hblank : ∀ c ∈ left ++ right, isBlank c = true) (hne : core ≠ [])
    (hcore : ∀ c ∈ core, isBlank c = false) : trim (left ++ core ++ right) = core := by
  have hstart : (left ++ core ++ right).dropWhile isBlank = core ++ right := by
    rw [List.append_assoc,
      List.dropWhile_append_of_pos fun c hc => hblank c (List.mem_append_left _ hc)]
    obtain ⟨c, rest, rfl⟩ := List.exists_cons_of_ne_nil hne
    rw [List.cons_append, List.dropWhile_cons_of_neg (by simp [hcore c])]
  have hend : (core ++ right).rdropWhile isBlank = core := by
    rw [List.rdropWhile, List.reverse_append, List.dropWhile_append_of_pos fun c hc =>
      hblank c (List.mem_append_right _ (List.mem_reverse.mp hc))]
    exact List.rdropWhile_eq_self_iff.mpr fun h => by simp [hcore _ (List.getLast_mem h)]
  rw [trim, hstart]
  exact hend

theorem isBlank_of_isDigit {c : Char} (h : c.isDigit = true) : isBlank c = false := by
  obtain ⟨d, hd, rfl, -⟩ := exists_digitChar h
  revert d
  decide

end blanks

end Text

open Text

variable {cs : List Char} {n : Nat}

theorem read_digits_iff {digits : List Char} :
    (if digits = [] || digits.any (fun c => !c.isDigit) then none
      else if numberOf digits < 0x10000000000000000 then some (numberOf digits) else none) = some n ↔
    Decimal digits n ∧ n < 0x10000000000000000 := by
  rw [decimal_iff]
  by_cases hdigits : digits ≠ [] ∧ ∀ c ∈ digits, c.isDigit = true
  · obtain ⟨hne, hall⟩ := hdigits
    have hany : digits.any (fun c => !c.isDigit) = false := by simpa using hall
    simp only [hne, hany, decide_false, Bool.or_self, Bool.false_eq_true, if_false,
      Option.ite_none_right_eq_some, Option.some.injEq, ne_eq, not_false_eq_true, true_and]
    constructor
    · rintro ⟨hlt, rfl⟩
      exact ⟨⟨hall, rfl⟩, hlt⟩
    · rintro ⟨⟨-, rfl⟩, hlt⟩
      exact ⟨hlt, rfl⟩
  · rw [if_pos]
    · exact iff_of_false (by simp) fun h => hdigits ⟨h.1.1, h.1.2.1⟩
    · by_contra hcond
      exact hdigits (by simpa using hcond)

/-- A number is read if a sign or nothing and then digits of a number of 64 bits make up the text. -/
theorem Options.readNatural?_eq_some_iff : readNatural? cs = some n ↔
    (∃ sign digits, cs = sign ++ digits ∧ (sign = [] ∨ sign = ['+']) ∧ Decimal digits n) ∧
      n < 0x10000000000000000 := by
  have hplus : ∀ {digits}, ¬Decimal ('+' :: digits) n := fun h =>
    absurd ((decimal_iff.mp h).2.1 '+' List.mem_cons_self) (by decide)
  by_cases hsigned : ∃ rest, cs = '+' :: rest
  · obtain ⟨rest, rfl⟩ := hsigned
    rw [readNatural?, read_digits_iff, and_congr_left_iff]
    intro _
    constructor
    · exact fun h => ⟨['+'], rest, rfl, .inr rfl, h⟩
    · rintro ⟨sign, digits, hcs, rfl | rfl, h⟩
      · rw [List.nil_append] at hcs
        exact absurd (hcs ▸ h) hplus
      · rw [(List.cons.inj hcs).2]
        exact h
  · rw [readNatural?, read_digits_iff, and_congr_left_iff]
    · intro _
      constructor
      · exact fun h => ⟨[], cs, rfl, .inl rfl, h⟩
      · rintro ⟨sign, digits, rfl, rfl | rfl, h⟩
        · exact h
        · exact absurd ⟨digits, rfl⟩ hsigned
    · exact fun rest hcs => hsigned ⟨rest, hcs⟩

theorem Options.readNatural?_trim : readNatural? (trim cs) = some n ↔ Numeral cs n := by
  rw [readNatural?_eq_some_iff]
  constructor
  · rintro ⟨⟨sign, digits, htrim, hsign, hdigits⟩, hn⟩
    obtain ⟨left, right, hcs, hblank⟩ := exists_eq_trim cs
    exact ⟨⟨left, sign, digits, right, htrim ▸ hcs, hblank, hsign, hdigits⟩, hn⟩
  · rintro ⟨⟨left, sign, digits, right, rfl, hblank, hsign, hdigits⟩, hn⟩
    obtain ⟨hne, hall, -⟩ := decimal_iff.mp hdigits
    have hcore : ∀ c ∈ sign ++ digits, isBlank c = false := by
      intro c hc
      obtain hc | hc := List.mem_append.mp hc
      · obtain rfl : c = '+' := by
          obtain rfl | rfl := hsign
          · cases hc
          · exact List.mem_singleton.mp hc
        decide
      · exact isBlank_of_isDigit (hall c hc)
    rw [trim_eq hblank (List.append_ne_nil_of_right_ne_nil _ hne) hcore]
    exact ⟨⟨sign, digits, rfl, hsign, hdigits⟩, hn⟩

end InvariantSynthesis
