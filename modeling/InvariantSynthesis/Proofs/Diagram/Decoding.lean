import InvariantSynthesis.Proofs.Diagram.Arithmetic
import InvariantSynthesis.Proofs.Expr.Eval

/-!
Reading a word back in 64-bit arithmetic. The register holds the bits as a number without a sign. Where
it is not full, the weight of the sign has to be taken off; this weight has to be a positive 64-bit
number itself, which it is for every width but 63.
-/

namespace InvariantSynthesis.Diagram.Word

variable {place : Nat} {register : BitVec 64} {bits : List Bool} {w : Word} {value : Edge → Bool}

theorem toNat_weight (h : place < 64) : (1#64 <<< place).toNat = 2 ^ place := by
  have hlt : 2 ^ place < 2 ^ 64 := Nat.pow_lt_pow_right (by decide) h
  rw [BitVec.toNat_shiftLeft, BitVec.toNat_one (by decide), Nat.one_shiftLeft, Nat.mod_eq_of_lt hlt]

theorem toNat_setBit (b : Bool) (hfree : register.toNat < 2 ^ place) (hplace : place < 64) :
    (if b then register ||| 1#64 <<< place else register).toNat =
      register.toNat + 2 ^ place * b.toNat := by
  cases b with
  | false => simp
  | true =>
    have hor := Nat.two_pow_add_eq_or_of_lt hfree 1
    rw [Nat.mul_one] at hor
    rw [if_pos rfl, BitVec.toNat_or, toNat_weight hplace, Nat.or_comm, ← hor, Bool.toNat_true,
      Nat.mul_one, Nat.add_comm]

theorem toNat_setBits (hfree : register.toNat < 2 ^ place) (hlength : place + bits.length ≤ 64) :
    ((setBits place register bits).toNat : Int) =
      register.toNat + 2 ^ place * unsignedValue bits := by
  induction bits generalizing place register with
  | nil => simp [setBits, unsignedValue]
  | cons b bs ih =>
    rw [List.length_cons] at hlength
    have hbit := toNat_setBit b hfree (by omega)
    have hnext : (if b then register ||| 1#64 <<< place else register).toNat < 2 ^ (place + 1) := by
      have := Bool.toNat_le b
      rw [hbit, Nat.pow_succ]
      nlinarith
    rw [setBits, ih hnext (by omega), hbit, unsignedValue]
    push_cast
    ring

/-- The register holds bits that write this number without a sign. -/
def Holds (register : BitVec 64) (bits : List Bool) : Prop :=
  (register.toNat : Int) = unsignedValue bits

theorem holds_setBits (h : bits.length ≤ 64) : Holds (setBits 0 0#64 bits) bits := by
  have hall : ((setBits 0 0#64 bits).toNat : Int) = (0#64).toNat + 2 ^ 0 * unsignedValue bits :=
    toNat_setBits (by decide) (by omega)
  simpa [Holds] using hall

namespace Holds

variable (h : Holds register bits) (hne : bits ≠ [])
include h

theorem toInt_of_lt (hlength : bits.length < 64) : register.toInt = unsignedValue bits := by
  have hlt := (unsignedValue_mem bits).2
  have hpow : (2 : Int) ^ bits.length ≤ 2 ^ 63 := pow_width_le (by omega)
  rw [← h] at hlt
  rw [BitVec.toInt_eq_toNat_of_lt (by omega), h]

/-- The weight after a sign at place 62 is the least number of 64 bits. -/
theorem ssubOverflow_weight (hlength : bits.length = 63) :
    register.ssubOverflow (1#64 <<< bits.length) = true := by
  have hrange := unsignedValue_mem bits
  have hweight : (1#64 <<< bits.length).toInt = -2 ^ 63 := by
    rw [hlength]
    decide
  rw [BitVec.ssubOverflow, hweight, h.toInt_of_lt (by omega)]
  simp only [Bool.or_eq_true, decide_eq_true_eq]
  left
  omega

include hne

theorem getLsbD_sign : register.getLsbD (bits.length - 1) = bits.getLastD false := by
  obtain ⟨cs, b, rfl⟩ := exists_concat hne
  have hcs := unsignedValue_mem cs
  have hnat : register.toNat = (unsignedValue cs).toNat + 2 ^ cs.length * b.toNat := by
    rw [Holds, unsignedValue_append] at h
    simp only [unsignedValue] at h
    zify
    rw [h, Int.toNat_of_nonneg hcs.1]
    ring
  have hlt : (unsignedValue cs).toNat < 2 ^ cs.length := by
    zify
    rw [Int.toNat_of_nonneg hcs.1]
    exact hcs.2
  rw [← BitVec.testBit_toNat, Nat.testBit_eq_decide_div_mod_eq, List.getLastD_concat,
    List.length_append, List.length_singleton, Nat.add_sub_cancel, hnat,
    Nat.add_mul_div_left _ _ (by positivity), Nat.div_eq_of_lt hlt]
  cases b <;> rfl

theorem toInt_full (hlength : bits.length = 64) : register.toInt = signedValue bits := by
  have hlower := BitVec.le_toInt register
  have hupper := BitVec.toInt_lt (x := register)
  have hcond := BitVec.toInt_eq_toNat_cond register
  rw [Holds] at h
  symm
  apply eq_signedValue hne
  · rw [hlength]
    constructor <;> omega
  · show unsignedValue bits = register.toInt + 2 ^ bits.length * (if register.toInt < 0 then 1 else 0)
    rw [hlength, ← h]
    split at hcond <;> split <;> omega

theorem toInt_nonneg (hlength : bits.length < 64) (hsign : bits.getLastD false = false) :
    register.toInt = signedValue bits := by
  rw [h.toInt_of_lt hlength, signedValue_eq hne, hsign]
  simp

variable (hsign : bits.getLastD false = true)
include hsign

theorem toInt_sub_weight (hlength : bits.length < 63) :
    register.ssubOverflow (1#64 <<< bits.length) = false ∧
      (register - 1#64 <<< bits.length).toInt = signedValue bits := by
  have hpow : (2 : Int) ^ bits.length ≤ 2 ^ 62 := pow_width_le (by omega)
  have hpow' : 2 ^ bits.length ≤ 2 ^ 62 := Nat.pow_le_pow_right (by decide) (by omega)
  have hweight : (1#64 <<< bits.length).toInt = 2 ^ bits.length := by
    have hnat : (1#64 <<< bits.length).toNat = 2 ^ bits.length := toNat_weight (by omega)
    rw [BitVec.toInt_eq_toNat_of_lt (by omega), hnat]
    simp
  have hvalue : signedValue bits = register.toInt - (1#64 <<< bits.length).toInt := by
    rw [h.toInt_of_lt (by omega), hweight, signedValue_eq hne, hsign]
    simp
  have hrange := unsignedValue_mem bits
  have hoverflow : register.ssubOverflow (1#64 <<< bits.length) = false := by
    rw [BitVec.ssubOverflow, hweight, h.toInt_of_lt (by omega)]
    simp only [Bool.or_eq_false_iff, decide_eq_false_iff_not]
    constructor <;> omega
  refine ⟨hoverflow, ?_⟩
  rw [BitVec.toInt_sub_of_not_ssubOverflow (by simp [hoverflow]), hvalue]

end Holds

/-- The number that a word writes in two's complement, with these values for the bits that are not
constant. -/
def reading (w : Word) (value : Edge → Bool) : Int :=
  (BitVec.ofBoolListLE (w.bits.map (bitValue value))).toInt

theorem reading_eq (w : Word) (value : Edge → Bool) :
    w.reading value = signedValue (w.bits.map (bitValue value)) :=
  toInt_ofBoolListLE _

/-- Decoding reads the lowest 64 bits, unless there are 63 with the sign set. -/
theorem decode_eq (hw : w.bits ≠ []) (value : Edge → Bool) :
    w.decode value = if w.width = 63 ∧ w.reading value < 0 then .error .overflow
      else .ok (signedValue ((w.bits.take 64).map (bitValue value))) := by
  have hlength : ((w.bits.take 64).map (bitValue value)).length = min 64 w.width := by simp [width]
  have hne : (w.bits.take 64).map (bitValue value) ≠ [] := by simpa using hw
  have hpos : 0 < w.width := List.length_pos_iff.mpr hw
  generalize hbits : (w.bits.take 64).map (bitValue value) = bits at *
  have h : Holds (setBits 0 0#64 bits) bits := holds_setBits (by omega)
  have hwidth : w.width = 63 → w.reading value = signedValue bits := by
    intro h63
    rw [reading_eq, ← hbits, List.take_of_length_le (by rw [← width]; omega)]
  simp only [decode, hbits, h.getLsbD_sign hne]
  cases hsign : bits.getLastD false with
  | true =>
    have hneg := (signedValue_neg_iff hne).mpr hsign
    by_cases hshort : bits.length < 64
    · rw [if_pos (by simpa using hshort)]
      by_cases h63 : bits.length = 63
      · have h63' : w.width = 63 := by omega
        rw [if_pos (h.ssubOverflow_weight h63), if_pos ⟨h63', by rwa [hwidth h63']⟩]
      · obtain ⟨hoverflow, hvalue⟩ := h.toInt_sub_weight hne hsign (by omega)
        rw [hoverflow, if_neg Bool.false_ne_true, hvalue, if_neg (by omega)]
    · rw [if_neg (by simpa using hshort), h.toInt_full hne (by omega), if_neg (by omega)]
  | false =>
    have hnonneg : ¬signedValue bits < 0 := by rw [signedValue_neg_iff hne, hsign]; decide
    have hnot : ¬(w.width = 63 ∧ w.reading value < 0) := fun hlt => hnonneg (hwidth hlt.1 ▸ hlt.2)
    rw [if_neg (by simp), if_neg hnot]
    by_cases hshort : bits.length < 64
    · rw [h.toInt_nonneg hne hshort hsign]
    · rw [h.toInt_full hne (by omega)]

theorem signedValue_take_of_fits (hfits : Bounded.Fits (w.reading value)) :
    signedValue ((w.bits.take 64).map (bitValue value)) = w.reading value := by
  rw [List.map_take]
  by_cases hlength : w.bits.length ≤ 64
  · rw [List.take_of_length_le (by simpa using hlength), reading_eq]
  · rw [Bounded.Fits, Bounded.least, Bounded.greatest, reading_eq] at hfits
    rw [reading_eq]
    apply signedValue_take (by decide)
    · rw [List.length_map]
      omega
    · constructor <;> omega

theorem decode_of_fits (hw : w.bits ≠ []) (hfits : Bounded.Fits (w.reading value)) :
    w.decode value =
      if w.width = 63 ∧ w.reading value < 0 then .error .overflow else .ok (w.reading value) := by
  rw [decode_eq hw, signedValue_take_of_fits hfits]

theorem decode_of_width_lt (hw : w.bits ≠ []) (hwidth : w.width < 63) :
    w.decode value = .ok (w.reading value) := by
  have htake : w.bits.take 64 = w.bits := List.take_of_length_le (by rw [← width]; omega)
  rw [decode_eq hw, if_neg (by omega), reading_eq, htake]

theorem constant_ne_nil (k : Int) : (constant k).bits ≠ [] := by
  rw [← List.length_pos_iff, constant, List.length_map, length_lowBits]
  exact Nat.succ_pos _

theorem reading_constant (k : Int) (value : Edge → Bool) : (constant k).reading value = k := by
  have hbit : bitValue value ∘ Edge.ofBool = id := by
    funext b
    cases b <;> rfl
  rw [reading_eq, constant, List.map_map, hbit, List.map_id, signedValue_lowBits]

theorem width_constant_iff (k : Int) :
    (constant k).width = 63 ∧ k < 0 ↔ -2 ^ 62 ≤ k ∧ k < -2 ^ 61 := by
  rw [width, constant, List.length_map, length_lowBits, signedWidth]
  by_cases hk : k < 0
  · simp only [if_neg (not_le.mpr hk)]
    by_cases hzero : (-k - 1).toNat = 0
    · rw [if_pos hzero]
      omega
    · have hlog := Nat.log2_eq_iff (k := 61) hzero
      rw [if_neg hzero]
      omega
  · omega

/-- Decoding gives the number that a word writes, as long as 64 bits hold it, except that the
arithmetic overflows on a negative number of 63 bits. So it gives back every constant of 64 bits that
is not one of these. -/
theorem decode_inverts_unless_63 (value : Edge → Bool) :
    (∀ w : Word, w.bits ≠ [] → Bounded.Fits (w.reading value) → w.decode value =
      if w.width = 63 ∧ w.reading value < 0 then .error .overflow else .ok (w.reading value)) ∧
    ∀ k, Bounded.Fits k → (constant k).decode value =
      if -2 ^ 62 ≤ k ∧ k < -2 ^ 61 then .error .overflow else .ok k := by
  refine ⟨fun w => decode_of_fits, fun k hk => ?_⟩
  have hfits : Bounded.Fits ((constant k).reading value) := by rwa [reading_constant]
  rw [decode_of_fits (constant_ne_nil k) hfits]
  simp only [reading_constant, width_constant_iff]

/-- A word of 65 bits whose lowest bit is a variable. -/
def wide : Word := ⟨⟨2, true⟩ :: List.replicate 64 .one⟩

theorem decode_inverts_unless_63_wide :
    wide.bits ≠ [] ∧ Bounded.Fits (wide.reading Edge.complemented) ∧
      wide.decode Edge.complemented = .ok (-1) ∧ Bounded.Fits Bounded.least ∧
      (constant Bounded.least).decode Edge.complemented = .ok Bounded.least := by
  obtain ⟨hword, hconstant⟩ := decode_inverts_unless_63 Edge.complemented
  have hreading : wide.reading Edge.complemented = -1 := by decide +kernel
  have hne : wide.bits ≠ [] := by simp [wide]
  have hfits : Bounded.Fits (wide.reading Edge.complemented) := by
    rw [hreading]
    decide
  refine ⟨hne, hfits, ?_, by decide, ?_⟩
  · rw [hword wide hne hfits, hreading, if_neg (by simp [wide, width])]
  · rw [hconstant Bounded.least (by decide), if_neg (by decide)]

/-- A constant of 63 bits that 64-bit arithmetic does not decode. -/
theorem decode_constant_overflows :
    Bounded.Fits (-2 ^ 62) ∧ (constant (-2 ^ 62)).width = 63 ∧
      (constant (-2 ^ 62)).decode (fun _ => false) = .error .overflow ∧
      (constant (-2 ^ 62)).decode (fun _ => false) ≠ .ok (-2 ^ 62) := by
  have hdecode : (constant (-2 ^ 62)).decode (fun _ => false) = .error .overflow := by rfl
  refine ⟨by decide, by decide, hdecode, ?_⟩
  rw [hdecode]
  simp

end InvariantSynthesis.Diagram.Word
