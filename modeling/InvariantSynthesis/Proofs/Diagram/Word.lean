import InvariantSynthesis.Diagram.Word
import InvariantSynthesis.Proofs.Diagram.Ite
import Mathlib.Tactic.Ring
import Mathlib.Tactic.Linarith

namespace InvariantSynthesis.Diagram.Word

variable {s t : Store}

/-- The number that bits write without a sign. -/
def unsignedValue : List Bool → Int
  | [] => 0
  | b :: l => b.toNat + 2 * unsignedValue l

theorem signedValue_cons (b : Bool) {l : List Bool} (h : l ≠ []) :
    signedValue (b :: l) = b.toNat + 2 * signedValue l := by
  cases l with
  | nil => exact absurd rfl h
  | cons c cs => rfl

theorem signedValue_concat (l : List Bool) (b : Bool) :
    signedValue (l ++ [b]) = unsignedValue l - 2 ^ l.length * b.toNat := by
  induction l with
  | nil => simp [signedValue, unsignedValue]
  | cons a l ih =>
    rw [List.cons_append, signedValue_cons a (by simp), ih, unsignedValue, List.length_cons]
    ring

theorem unsignedValue_append (l cs : List Bool) :
    unsignedValue (l ++ cs) = unsignedValue l + 2 ^ l.length * unsignedValue cs := by
  induction l with
  | nil => simp [unsignedValue]
  | cons b l ih =>
    rw [List.cons_append, unsignedValue, ih, unsignedValue, List.length_cons]
    ring

theorem toNat_mem (b : Bool) : (0 : Int) ≤ b.toNat ∧ (b.toNat : Int) ≤ 1 := by
  cases b <;> decide

theorem unsignedValue_mem (l : List Bool) :
    0 ≤ unsignedValue l ∧ unsignedValue l < 2 ^ l.length := by
  induction l with
  | nil => simp [unsignedValue]
  | cons b l ih =>
    have := toNat_mem b
    rw [unsignedValue, List.length_cons, pow_succ]
    constructor <;> linarith

theorem exists_concat {α : Type} {l : List α} (h : l ≠ []) : ∃ cs b, l = cs ++ [b] := by
  simpa only [List.concat_eq_append] using (List.eq_nil_or_concat l).resolve_left h

/-- A signed number differs from the unsigned one by a multiple of the modulus. -/
theorem signedValue_eq {l : List Bool} (h : l ≠ []) :
    signedValue l = unsignedValue l - 2 ^ l.length * (l.getLastD false).toNat := by
  obtain ⟨cs, b, rfl⟩ := exists_concat h
  rw [signedValue_concat, unsignedValue_append, List.length_append, List.getLastD_concat]
  simp only [unsignedValue, List.length_singleton]
  ring

theorem signedValue_mem {l : List Bool} (h : l ≠ []) :
    -(2 ^ l.length) ≤ 2 * signedValue l ∧ 2 * signedValue l < 2 ^ l.length := by
  obtain ⟨cs, b, rfl⟩ := exists_concat h
  have hu := unsignedValue_mem cs
  rw [signedValue_concat, List.length_append, List.length_singleton, pow_succ]
  cases b <;> simp <;> constructor <;> linarith

theorem signedValue_neg_iff {l : List Bool} (h : l ≠ []) :
    signedValue l < 0 ↔ l.getLastD false = true := by
  obtain ⟨cs, b, rfl⟩ := exists_concat h
  have hu := unsignedValue_mem cs
  rw [signedValue_concat, List.getLastD_concat]
  cases b <;> simp
  · exact hu.1
  · exact hu.2

theorem eq_of_mem {n : Nat} {a b k : Int} (ha : -(2 ^ n) ≤ 2 * a ∧ 2 * a < 2 ^ n)
    (hb : -(2 ^ n) ≤ 2 * b ∧ 2 * b < 2 ^ n) (h : a - b = 2 ^ n * k) : a = b := by
  have hpos : (0 : Int) < 2 ^ n := by positivity
  have hk : k = 0 := by
    by_contra hne
    rcases Int.lt_or_gt_of_ne hne with hlt | hgt
    · nlinarith
    · nlinarith
  rw [hk, mul_zero] at h
  linarith

theorem eq_signedValue {l : List Bool} (h : l ≠ []) {a k : Int}
    (ha : -(2 ^ l.length) ≤ 2 * a ∧ 2 * a < 2 ^ l.length)
    (hk : unsignedValue l = a + 2 ^ l.length * k) : signedValue l = a := by
  refine eq_of_mem (signedValue_mem h) ha (k := k - (l.getLastD false).toNat) ?_
  rw [signedValue_eq h, hk]
  ring

theorem signedValue_extend {l : List Bool} (h : l ≠ []) (n : Nat) :
    signedValue (l ++ List.replicate n (l.getLastD false)) = signedValue l := by
  induction n with
  | zero => simp
  | succ n ih =>
    have hne : l ++ List.replicate n (l.getLastD false) ≠ [] := by simp [h]
    have hlast : (l ++ List.replicate n (l.getLastD false)).getLastD false =
        l.getLastD false := by
      cases n with
      | zero => simp
      | succ n => simp [List.replicate_succ']
    rw [List.replicate_succ', ← List.append_assoc, signedValue_concat, ← ih, signedValue_eq hne, hlast]

theorem signedValue_not {l : List Bool} (h : l ≠ []) :
    signedValue (l.map (!·)) = -signedValue l - 1 := by
  induction l with
  | nil => exact absurd rfl h
  | cons b l ih =>
    by_cases hbs : l = []
    · subst hbs
      cases b <;> rfl
    · rw [List.map_cons, signedValue_cons _ (by simpa using hbs), ih hbs, signedValue_cons b hbs]
      cases b <;> simp <;> ring

theorem signedValue_take {l : List Bool} {n : Nat} (hn : 0 < n) (hlen : n ≤ l.length)
    (h : -(2 ^ n) ≤ 2 * signedValue l ∧ 2 * signedValue l < 2 ^ n) :
    signedValue (l.take n) = signedValue l := by
  have hne : l ≠ [] := by
    intro h
    simp [h] at hlen
    omega
  have hlen' : (l.take n).length = n := by simp [hlen]
  have hne' : l.take n ≠ [] := by
    intro h
    rw [h] at hlen'
    exact absurd hlen' (Nat.ne_of_lt hn)
  have happend := unsignedValue_append (l.take n) (l.drop n)
  rw [List.take_append_drop, hlen'] at happend
  have hpow : (2 : Int) ^ l.length = 2 ^ n * 2 ^ (l.length - n) := by
    rw [← pow_add]
    congr 1
    omega
  refine eq_signedValue hne' (by rw [hlen']; exact h)
    (k := 2 ^ (l.length - n) * (l.getLastD false).toNat - unsignedValue (l.drop n)) ?_
  rw [hlen', signedValue_eq hne, happend, hpow]
  ring

theorem signedValue_inj {l cs : List Bool} (hlen : l.length = cs.length)
    (h : signedValue l = signedValue cs) : l = cs := by
  induction l generalizing cs with
  | nil => exact (List.length_eq_zero_iff.mp hlen.symm).symm
  | cons b l ih =>
    cases cs with
    | nil => cases hlen
    | cons c cs =>
      have hlen' : l.length = cs.length := Nat.succ.inj hlen
      by_cases hbs : l = []
      · subst hbs
        obtain rfl := List.length_eq_zero_iff.mp hlen'.symm
        cases b <;> cases c <;> simp [signedValue] at h ⊢
      · have hcs : cs ≠ [] := by
          intro hcs
          rw [hcs] at hlen'
          exact hbs (List.length_eq_zero_iff.mp hlen')
        rw [signedValue_cons b hbs, signedValue_cons c hcs] at h
        have hb : b = c := by cases b <;> cases c <;> simp at h ⊢ <;> omega
        subst hb
        rw [ih hlen' (by linarith)]

theorem unsignedValue_lowBits (n : Nat) (k : Int) :
    ∃ q, unsignedValue (lowBits n k) = k + 2 ^ n * q := by
  induction n generalizing k with
  | zero => exact ⟨-k, by simp [lowBits, unsignedValue]⟩
  | succ n ih =>
    obtain ⟨q, hq⟩ := ih (k / 2)
    have hbit : ((decide (k % 2 = 1)).toNat : Int) = k % 2 := by
      rcases Int.emod_two_eq_zero_or_one k with h | h <;> simp [h]
    refine ⟨q, ?_⟩
    have := Int.emod_add_mul_ediv k 2
    rw [lowBits, unsignedValue, hq, hbit, pow_succ]
    linarith

theorem length_lowBits (n : Nat) (k : Int) : (lowBits n k).length = n := by
  induction n generalizing k with
  | zero => rfl
  | succ n ih => rw [lowBits, List.length_cons, ih]

theorem mem_signedWidth (k : Int) :
    -(2 ^ signedWidth k) ≤ 2 * k ∧ 2 * k < 2 ^ signedWidth k := by
  unfold signedWidth
  have hlog : ∀ m : Nat, (m : Int) < 2 ^ (if m = 0 then 0 else m.log2 + 1) := by
    intro m
    split
    · simp [*]
    · exact_mod_cast Nat.lt_log2_self
  split
  · have := hlog k.toNat
    simp only [pow_succ]
    have hk : (k.toNat : Int) = k := Int.toNat_of_nonneg (by assumption)
    constructor <;> linarith
  · have := hlog (-k - 1).toNat
    simp only [pow_succ]
    have hk : ((-k - 1).toNat : Int) = -k - 1 := Int.toNat_of_nonneg (by omega)
    constructor <;> linarith

theorem signedValue_lowBits_of_mem {n : Nat} (hn : 0 < n) {k : Int}
    (hk : -(2 ^ n) ≤ 2 * k ∧ 2 * k < 2 ^ n) : signedValue (lowBits n k) = k := by
  have hlen := length_lowBits n k
  have hne : lowBits n k ≠ [] := by
    intro h
    rw [h] at hlen
    exact absurd hlen (Nat.ne_of_lt hn)
  obtain ⟨q, hq⟩ := unsignedValue_lowBits n k
  exact eq_signedValue hne (by rw [hlen]; exact hk) (by rw [hlen]; exact hq)

theorem signedValue_lowBits (k : Int) : signedValue (lowBits (signedWidth k) k) = k :=
  signedValue_lowBits_of_mem (Nat.succ_pos _) (mem_signedWidth k)

/-- The word is there and writes a number that depends on the assignment. -/
structure Represents (s : Store) (w : Word) (x : Assignment → Int) : Prop where
  has : ∀ e ∈ w.bits, s.Has e
  nonempty : w.bits ≠ []
  value : ∀ α, signedValue (w.bits.map (s.truth α)) = x α

namespace Represents

variable {w : Word} {x y : Assignment → Int}

theorem map_truth {bits : List Edge} (hs : s.WellFormed) (hst : s.Extends t)
    (h : ∀ e ∈ bits, s.Has e) (α : Assignment) :
    bits.map (t.truth α) = bits.map (s.truth α) :=
  List.map_congr_left fun e he => hst.truth hs α (h e he)

theorem later (h : Represents s w x) (hs : s.WellFormed) (hst : s.Extends t) :
    Represents t w x :=
  ⟨fun e he => (h.has e he).extend hst, h.nonempty, fun α => by
    rw [map_truth hs hst h.has, h.value]⟩

theorem congr (h : Represents s w x) (hxy : ∀ α, x α = y α) : Represents s w y :=
  ⟨h.has, h.nonempty, fun α => (h.value α).trans (hxy α)⟩

theorem width_pos (h : Represents s w x) : 0 < w.width := List.length_pos_iff.mpr h.nonempty

theorem mem (h : Represents s w x) (α : Assignment) :
    -(2 ^ w.width) ≤ 2 * x α ∧ 2 * x α < 2 ^ w.width := by
  have := signedValue_mem (l := w.bits.map (s.truth α)) (by simpa using h.nonempty)
  rwa [h.value, List.length_map] at this

theorem sign_has (h : Represents s w x) : s.Has w.sign := by
  obtain ⟨cs, b, hb⟩ := exists_concat h.nonempty
  rw [sign, hb, List.getLastD_concat]
  exact h.has b (by simp [hb])

theorem getLastD_truth (h : Represents s w x) (α : Assignment) :
    (w.bits.map (s.truth α)).getLastD false = s.truth α w.sign := by
  obtain ⟨cs, b, hb⟩ := exists_concat h.nonempty
  rw [sign, hb, List.map_append, List.map_singleton, List.getLastD_concat, List.getLastD_concat]

theorem sign (h : Represents s w x) :
    Denotes s w.sign fun α => decide (x α < 0) := by
  refine ⟨h.sign_has, fun α => ?_⟩
  have := signedValue_neg_iff (l := w.bits.map (s.truth α)) (by simpa using h.nonempty)
  rw [h.value, h.getLastD_truth] at this
  rw [Bool.eq_iff_iff, ← this, decide_eq_true_iff]

theorem extend (h : Represents s w x) (n : Nat) :
    Represents s (w.extend n) x := by
  refine ⟨fun e he => ?_, by simp [Word.extend, h.nonempty], fun α => ?_⟩
  · rcases List.mem_append.mp he with he | he
    · exact h.has e he
    · rw [(List.mem_replicate.mp he).2]
      exact h.sign_has
  · rw [Word.extend, List.map_append, List.map_replicate, ← h.getLastD_truth,
      signedValue_extend (by simpa using h.nonempty), h.value]

theorem constant (hs : s.WellFormed) (k : Int) : Represents s (constant k) fun _ => k := by
  have hne : lowBits (signedWidth k) k ≠ [] := by
    intro h
    have := length_lowBits (signedWidth k) k
    rw [h] at this
    exact absurd this (Nat.ne_of_lt (Nat.succ_pos _))
  refine ⟨fun e he => ?_, by simpa [Word.constant] using hne, fun α => ?_⟩
  · obtain ⟨b, -, rfl⟩ := List.mem_map.mp he
    exact hs.has_ofBool b
  · rw [Word.constant, List.map_map, List.map_congr_left (g := id), List.map_id,
      signedValue_lowBits]
    exact fun b _ => Store.truth_ofBool s α b

end Represents

variable {a b : Word} {x y : Assignment → Int}

theorem width_extend (w : Word) {n : Nat} (h : w.width ≤ n) : (w.extend n).width = n := by
  have h' : w.bits.length ≤ n := h
  simp only [width, extend, List.length_append, List.length_replicate]
  omega

theorem extend_unsigned {w : Word} (h : Represents s w x) {n : Nat} (hn : w.width ≤ n)
    (α : Assignment) :
    ∃ q, unsignedValue ((w.extend n).bits.map (s.truth α)) = x α + 2 ^ n * q := by
  have hlen : (w.extend n).bits.length = n := width_extend w hn
  have hv := signedValue_eq (l := (w.extend n).bits.map (s.truth α))
    (by simpa using (h.extend n).nonempty)
  rw [(h.extend n).value, List.length_map, hlen] at hv
  exact ⟨_, (sub_eq_iff_eq_add.mp hv.symm)⟩

theorem align_has (ha : Represents s a x) (hb : Represents s b y) (n : Nat)
    {p : Edge × Edge} (hp : p ∈ a.align b n) : s.Has p.1 ∧ s.Has p.2 :=
  ⟨(ha.extend n).has _ (List.of_mem_zip hp).1, (hb.extend n).has _ (List.of_mem_zip hp).2⟩

theorem length_align {n : Nat} (ha : a.width ≤ n) (hb : b.width ≤ n) :
    (a.align b n).length = n := by
  have h1 : (a.extend n).bits.length = n := width_extend a ha
  have h2 : (b.extend n).bits.length = n := width_extend b hb
  rw [align, List.length_zip, h1, h2, Nat.min_self]

theorem align_fst {n : Nat} (ha : a.width ≤ n) (hb : b.width ≤ n) :
    (a.align b n).map Prod.fst = (a.extend n).bits :=
  List.map_fst_zip (Nat.le_of_eq ((width_extend a ha).trans (width_extend b hb).symm))

theorem align_snd {n : Nat} (ha : a.width ≤ n) (hb : b.width ≤ n) :
    (a.align b n).map Prod.snd = (b.extend n).bits :=
  List.map_snd_zip (Nat.le_of_eq ((width_extend b hb).trans (width_extend a ha).symm))

/-- Bits computed from pairs of bits. -/
structure Computed (t : Store) (n : Nat) (bits : List Edge) : Prop where
  has : ∀ e ∈ bits, t.Has e
  length : bits.length = n

theorem Computed.cons {n : Nat} {e : Edge} {bits : List Edge} (he : t.Has e)
    (h : Computed t n bits) : Computed t (n + 1) (e :: bits) :=
  ⟨List.forall_mem_cons.mpr ⟨he, h.has⟩, congrArg (· + 1) h.length⟩

theorem Computed.nil (t : Store) : Computed t 0 [] := ⟨by simp, rfl⟩

/-- The sum, with the carry that leaves the highest place. -/
theorem addFrom_yields (hs : s.WellFormed) {carry : Edge} {c : Assignment → Bool}
    (hc : Denotes s carry c) {ps : List (Edge × Edge)} (hps : ∀ p ∈ ps, s.Has p.1 ∧ s.Has p.2) :
    Yields (addFrom carry ps) s fun t bits => Computed t ps.length bits ∧ ∀ α, ∃ out : Bool,
      unsignedValue (bits.map (t.truth α)) + 2 ^ ps.length * out.toNat =
        unsignedValue ((ps.map Prod.fst).map (s.truth α)) +
          unsignedValue ((ps.map Prod.snd).map (s.truth α)) + (c α).toNat := by
  induction ps generalizing s carry c with
  | nil => exact .pure hs ⟨.nil s, fun α => ⟨c α, by simp [unsignedValue]⟩⟩
  | cons p ps ih =>
    obtain ⟨u, v⟩ := p
    have hu : Denotes s u fun α => s.truth α u := ⟨(hps (u, v) (by simp)).1, fun _ => rfl⟩
    have hv : Denotes s v fun α => s.truth α v := ⟨(hps (u, v) (by simp)).2, fun _ => rfl⟩
    have hrest : ∀ p ∈ ps, s.Has p.1 ∧ s.Has p.2 := fun p hp => hps p (List.mem_cons_of_mem _ hp)
    refine (xor_denotes hs hu hv).bind fun uv t₁ ht₁ h₁ huv => ?_
    refine (xor_denotes ht₁ huv (hc.extend hs h₁)).bind fun bit t₂ ht₂ h₂ hbit => ?_
    have h₀₂ := h₁.trans h₂
    refine (and_denotes ht₂ (hu.extend hs h₀₂) (hv.extend hs h₀₂)).bind fun both t₃ ht₃ h₃ hboth => ?_
    refine (and_denotes ht₃ (hc.extend hs (h₀₂.trans h₃)) (huv.extend ht₁ (h₂.trans h₃))).bind
      fun one t₄ ht₄ h₄ hone => ?_
    refine (or_denotes ht₄ (hboth.extend ht₃ h₄) hone).bind fun next t₅ ht₅ h₅ hnext => ?_
    have h₀₅ := h₀₂.trans (h₃.trans (h₄.trans h₅))
    have h₂₅ := h₃.trans (h₄.trans h₅)
    refine (ih ht₅ hnext fun p hp => ⟨(hrest p hp).1.extend h₀₅, (hrest p hp).2.extend h₀₅⟩).map
      fun bits t ht h₆ hbits => ?_
    have hbit' := hbit.extend ht₂ (h₂₅.trans h₆)
    refine ⟨hbits.1.cons hbit'.has, fun α => ?_⟩
    obtain ⟨out, hout⟩ := hbits.2 α
    refine ⟨out, ?_⟩
    rw [Represents.map_truth hs h₀₅ (by simpa using fun a b h => (hrest _ h).1),
      Represents.map_truth hs h₀₅ (by simpa using fun a b h => (hrest _ h).2)] at hout
    simp only [List.map_cons, unsignedValue, hbit'.truth, List.length_cons, pow_succ]
    -- The carry of a place is what its three bits leave after the sum bit.
    have hplace : (((s.truth α u != s.truth α v) != c α).toNat : Int) +
        2 * ((s.truth α u && s.truth α v || c α && (s.truth α u != s.truth α v)).toNat : Int) =
        (s.truth α u).toNat + (s.truth α v).toNat + (c α).toNat := by
      cases s.truth α u <;> cases s.truth α v <;> cases c α <;> rfl
    linarith

theorem pow_width_le {m n : Nat} (h : m ≤ n) : (2 : Int) ^ m ≤ 2 ^ n :=
  pow_le_pow_right₀ (by norm_num) h

theorem add_represents (hs : s.WellFormed) (ha : Represents s a x) (hb : Represents s b y) :
    Yields (a.add b) s fun t w =>
      Represents t w (fun α => x α + y α) ∧ w.width = max a.width b.width + 1 := by
  have hna : a.width ≤ max a.width b.width + 1 := by omega
  have hnb : b.width ≤ max a.width b.width + 1 := by omega
  refine (addFrom_yields hs (.zero hs) fun p hp => align_has ha hb _ hp).map
    fun bits t ht hst hbits => ?_
  rw [length_align hna hnb, align_fst hna hnb, align_snd hna hnb] at hbits
  obtain ⟨⟨hhas, hlen⟩, hsum⟩ := hbits
  have hne : bits ≠ [] := by
    intro h
    rw [h] at hlen
    exact absurd hlen.symm (Nat.succ_ne_zero _)
  refine ⟨⟨hhas, hne, fun α => ?_⟩, hlen⟩
  obtain ⟨out, hout⟩ := hsum α
  have hlen' : (bits.map (t.truth α)).length = max a.width b.width + 1 := by simpa using hlen
  obtain ⟨qa, hqa⟩ := extend_unsigned ha hna α
  obtain ⟨qb, hqb⟩ := extend_unsigned hb hnb α
  refine eq_signedValue (by simpa using hne) ?_ (k := qa + qb - out.toNat) ?_
  · -- Both operands leave the highest place free.
    rw [hlen', pow_succ]
    have hpa := pow_width_le (Nat.le_max_left a.width b.width)
    have hpb := pow_width_le (Nat.le_max_right a.width b.width)
    have hma := ha.mem α
    have hmb := hb.mem α
    constructor <;> linarith
  · rw [hqa, hqb, Bool.toNat_false, Nat.cast_zero] at hout
    rw [hlen', eq_sub_of_add_eq hout]
    ring

theorem neg_represents (hs : s.WellFormed) (ha : Represents s a x) :
    Yields a.neg s fun t w => Represents t w fun α => -x α := by
  have hpos := ha.width_pos
  have hext := ha.extend (a.width + 1)
  have hinv : Represents s ⟨(a.extend (a.width + 1)).bits.map Edge.flip⟩ fun α => -x α - 1 := by
    refine ⟨fun e he => ?_, by simpa using hext.nonempty, fun α => ?_⟩
    · obtain ⟨d, hd, rfl⟩ := List.mem_map.mp he
      exact (hext.has d hd).flip
    · have hnot := signedValue_not (l := (a.extend (a.width + 1)).bits.map (s.truth α))
        (by simpa using hext.nonempty)
      rw [hext.value, List.map_map] at hnot
      rw [← hnot, List.map_map]
      congr 1
      exact List.map_congr_left fun e _ => Store.truth_flip s α e
  have hw : (a.extend (a.width + 1)).width = a.width + 1 := width_extend a (Nat.le_succ _)
  refine (add_represents hs hinv (.constant hs 1)).map fun w t ht hst hsum => ?_
  obtain ⟨hsum, hwidth⟩ := hsum
  have hone : (constant 1).width = 2 := by decide
  have hw' : width ⟨(a.extend (a.width + 1)).bits.map Edge.flip⟩ = a.width + 1 := by
    rw [width, List.length_map]
    exact hw
  rw [hw', hone] at hwidth
  have hle : a.width + 1 ≤ w.bits.length := by
    have : w.bits.length = _ := hwidth
    omega
  refine ⟨fun e he => hsum.has e (List.mem_of_mem_take he), ?_, fun α => ?_⟩
  · simpa using hsum.nonempty
  · have hval := hsum.value α
    have hmem := ha.mem α
    have hpow : (0 : Int) < 2 ^ a.width := by positivity
    rw [List.map_take, signedValue_take (Nat.succ_pos _) (by simpa using hle), hval]
    · ring
    · rw [hval, pow_succ]
      constructor <;> linarith

theorem sub_represents (hs : s.WellFormed) (ha : Represents s a x) (hb : Represents s b y) :
    Yields (a.sub b) s fun t w => Represents t w fun α => x α - y α := by
  refine (neg_represents hs hb).bind fun n t ht hst hn => ?_
  refine (add_represents ht (ha.later hs hst) hn).imp fun w u _ _ hw => hw.1.congr fun α => ?_
  ring

theorem shift_represents (hs : s.WellFormed) (ha : Represents s a x) (n : Nat) :
    Represents s (a.shift n) fun α => 2 ^ n * x α := by
  induction n with
  | zero => simpa [shift] using ha
  | succ n ih =>
    have hbits : (a.shift (n + 1)).bits = .zero :: (a.shift n).bits := rfl
    refine ⟨fun e he => ?_, by simp [hbits], fun α => ?_⟩
    · rcases List.mem_cons.mp (hbits ▸ he) with rfl | he
      · exact hs.has_zero
      · exact ih.has e he
    · rw [hbits, List.map_cons, signedValue_cons _ (by simpa using ih.nonempty), ih.value,
        Store.truth_zero, pow_succ]
      simp only [Bool.toNat_false, Nat.cast_zero]
      ring

theorem addAll_represents (hs : s.WellFormed) (ha : Represents s a x) {ws : List Word}
    {f : Word → Assignment → Int} (hws : ∀ w ∈ ws, Represents s w (f w)) :
    Yields (a.addAll ws) s fun t w =>
      Represents t w fun α => x α + (ws.map (f · α)).sum := by
  induction ws generalizing s a x with
  | nil => exact .pure hs (ha.congr fun α => by simp)
  | cons w ws ih =>
    refine (add_represents hs ha (hws w (by simp))).bind fun sum t ht hst hsum => ?_
    refine (ih ht hsum.1 fun v hv => (hws v (List.mem_cons_of_mem _ hv)).later hs hst).imp
      fun r u _ _ hr => hr.congr fun α => ?_
    simp only [List.map_cons, List.sum_cons]
    ring

theorem sum_testBit (m : Nat) {n : Nat} (h : n < 2 ^ m) :
    (((List.range m).filter n.testBit).map (2 ^ ·)).sum = n := by
  induction m generalizing n with
  | zero => simp at h; simp [h]
  | succ m ih =>
    have hlow : (List.range m).filter n.testBit = (List.range m).filter (n % 2 ^ m).testBit := by
      refine List.filter_congr fun i hi => ?_
      rw [Nat.testBit_mod_two_pow, decide_eq_true (List.mem_range.mp hi), Bool.true_and]
    have hdiv := Nat.mod_add_div n (2 ^ m)
    have hbit : n.testBit m = decide (n / 2 ^ m % 2 = 1) := Nat.testBit_eq_decide_div_mod_eq
    have hquot : n / 2 ^ m < 2 := Nat.div_lt_of_lt_mul (by rwa [← pow_succ])
    rw [List.range_succ, List.filter_append, List.map_append, List.sum_append, hlow,
      ih (Nat.mod_lt _ (by positivity))]
    rcases Nat.le_one_iff_eq_zero_or_eq_one.mp (Nat.le_of_lt_succ hquot) with hq | hq
    · rw [hq] at hdiv hbit
      simp only [Nat.zero_mod] at hbit
      simp [hbit]
      omega
    · rw [hq] at hdiv hbit
      simp only [Nat.one_mod] at hbit
      simp [hbit]
      omega

/-- The copies of a word at the bits of a number add up to the product. -/
theorem sum_shift (hs : s.WellFormed) (ha : Represents s a x) (n : Nat) (α : Assignment) :
    ((((List.range (n.log2 + 1)).filter n.testBit).map a.shift).map
      fun w => signedValue (w.bits.map (s.truth α))).sum = n * x α := by
  have hpow := sum_testBit (n.log2 + 1) (n := n) Nat.lt_log2_self
  rw [List.map_map]
  generalize (List.range (n.log2 + 1)).filter n.testBit = places at hpow ⊢
  rw [← hpow]
  clear hpow
  induction places with
  | nil => simp
  | cons i places ih =>
    simp only [List.map_cons, List.sum_cons, Function.comp_apply, ih,
      (shift_represents hs ha i).value]
    push_cast
    ring

theorem scale_represents (hs : s.WellFormed) (k : Int) (ha : Represents s a x) :
    Yields (a.scale k) s fun t w => Represents t w fun α => k * x α := by
  unfold scale
  dsimp only
  have hsum := sum_shift hs ha k.natAbs
  generalize hws : ((List.range (k.natAbs.log2 + 1)).filter k.natAbs.testBit).map a.shift = ws
    at hsum ⊢
  have hrep : ∀ w ∈ ws, Represents s w fun α => signedValue (w.bits.map (s.truth α)) := by
    intro w hw
    rw [← hws] at hw
    obtain ⟨i, -, rfl⟩ := List.mem_map.mp hw
    exact ⟨(shift_represents hs ha i).has, (shift_represents hs ha i).nonempty, fun _ => rfl⟩
  match ws, hsum, hrep with
  | [], hsum, _ =>
    -- A factor without bits is zero.
    refine .pure hs ((Represents.constant hs 0).congr fun α => ?_)
    have habs : (k.natAbs : Int) * x α = 0 := (hsum α).symm
    rcases Int.natAbs_eq k with hk | hk
    · rw [hk, habs]
    · rw [hk, neg_mul, habs, neg_zero]
  | w :: ws, hsum, hrep =>
    have hsum' : ∀ α, signedValue (w.bits.map (s.truth α)) +
        (ws.map fun w => signedValue (w.bits.map (s.truth α))).sum = k.natAbs * x α := by
      intro α
      rw [← hsum α, List.map_cons, List.sum_cons]
    refine (addAll_represents hs (hrep w (by simp))
      fun v hv => hrep v (List.mem_cons_of_mem _ hv)).bind fun product t ht hst hp => ?_
    have hproduct : Represents t product fun α => k.natAbs * x α := hp.congr hsum'
    split
    · rename_i hneg
      refine (neg_represents ht hproduct).imp fun r u _ _ hr => hr.congr fun α => ?_
      have hk : (k.natAbs : Int) = -k := Int.ofNat_natAbs_of_nonpos (Int.le_of_lt hneg)
      rw [hk]
      ring
    · rename_i hnonneg
      refine .pure ht (hproduct.congr fun α => ?_)
      have hk : (k.natAbs : Int) = k := Int.natAbs_of_nonneg (Int.not_lt.mp hnonneg)
      rw [hk]

theorem iteBits_yields (hs : s.WellFormed) {c : Edge} {p : Assignment → Bool} (hc : Denotes s c p)
    {ps : List (Edge × Edge)} (hps : ∀ p ∈ ps, s.Has p.1 ∧ s.Has p.2) :
    Yields (iteBits c ps) s fun t bits => Computed t ps.length bits ∧ ∀ α,
      bits.map (t.truth α) =
        if p α then (ps.map Prod.fst).map (s.truth α) else (ps.map Prod.snd).map (s.truth α) := by
  induction ps generalizing s with
  | nil => exact .pure hs ⟨.nil s, fun α => by simp⟩
  | cons q ps ih =>
    obtain ⟨u, v⟩ := q
    have hu : Denotes s u fun α => s.truth α u := ⟨(hps (u, v) (by simp)).1, fun _ => rfl⟩
    have hv : Denotes s v fun α => s.truth α v := ⟨(hps (u, v) (by simp)).2, fun _ => rfl⟩
    have hrest : ∀ p ∈ ps, s.Has p.1 ∧ s.Has p.2 := fun p hp => hps p (List.mem_cons_of_mem _ hp)
    refine (ite_denotes hs hc hu hv).bind fun bit t ht hst hbit => ?_
    refine (ih ht (hc.extend hs hst)
      fun p hp => ⟨(hrest p hp).1.extend hst, (hrest p hp).2.extend hst⟩).map
      fun bits r _ htr hbits => ?_
    have hbit' := hbit.extend ht htr
    refine ⟨hbits.1.cons hbit'.has, fun α => ?_⟩
    rw [List.map_cons, hbit'.truth, hbits.2 α,
      Represents.map_truth hs hst (by simpa using fun a b h => (hrest _ h).1),
      Represents.map_truth hs hst (by simpa using fun a b h => (hrest _ h).2)]
    cases p α <;> rfl

theorem ite_represents (hs : s.WellFormed) {c : Edge} {p : Assignment → Bool} (hc : Denotes s c p)
    (ha : Represents s a x) (hb : Represents s b y) :
    Yields (Word.ite c a b) s fun t w => Represents t w fun α => if p α then x α else y α := by
  have hna := Nat.le_max_left a.width b.width
  have hnb := Nat.le_max_right a.width b.width
  refine (iteBits_yields hs hc fun p hp => align_has ha hb _ hp).map fun bits t ht hst hbits => ?_
  rw [length_align hna hnb, align_fst hna hnb, align_snd hna hnb] at hbits
  obtain ⟨⟨hhas, hlen⟩, hbits⟩ := hbits
  refine ⟨hhas, ?_, fun α => ?_⟩
  · intro h
    rw [show bits = [] from h, List.length_nil] at hlen
    have := ha.width_pos
    omega
  · rw [hbits α]
    cases p α
    · exact (hb.extend _).value α
    · exact (ha.extend _).value α

theorem equalFrom_yields (hs : s.WellFormed) {acc : Edge} {p : Assignment → Bool}
    (hacc : Denotes s acc p) {ps : List (Edge × Edge)} (hps : ∀ p ∈ ps, s.Has p.1 ∧ s.Has p.2) :
    Yields (equalFrom acc ps) s fun t e => Denotes t e fun α =>
      p α && decide ((ps.map Prod.fst).map (s.truth α) = (ps.map Prod.snd).map (s.truth α)) := by
  induction ps generalizing s acc p with
  | nil => exact .pure hs (hacc.congr fun α => by simp)
  | cons q ps ih =>
    obtain ⟨u, v⟩ := q
    have hu : Denotes s u fun α => s.truth α u := ⟨(hps (u, v) (by simp)).1, fun _ => rfl⟩
    have hv : Denotes s v fun α => s.truth α v := ⟨(hps (u, v) (by simp)).2, fun _ => rfl⟩
    have hrest : ∀ p ∈ ps, s.Has p.1 ∧ s.Has p.2 := fun p hp => hps p (List.mem_cons_of_mem _ hp)
    refine (eq_denotes hs hu hv).bind fun same t₁ ht₁ h₁ hsame => ?_
    refine (and_denotes ht₁ (hacc.extend hs h₁) hsame).bind fun r t ht h₂ hr => ?_
    have hst := h₁.trans h₂
    have hcons : ∀ α, (p α && (s.truth α u == s.truth α v) &&
        decide ((ps.map Prod.fst).map (s.truth α) = (ps.map Prod.snd).map (s.truth α))) =
        (p α && decide ((((u, v) :: ps).map Prod.fst).map (s.truth α) =
          (((u, v) :: ps).map Prod.snd).map (s.truth α))) := by
      intro α
      simp only [List.map_cons, List.cons.injEq, Bool.decide_and, Bool.and_assoc]
      rfl
    split
    · rename_i hzero
      refine .pure ht ⟨hr.has, fun α => ?_⟩
      rw [← hcons, ← hr.truth, hzero, Store.truth_zero, Bool.false_and]
    · refine (ih ht hr fun p hp => ⟨(hrest p hp).1.extend hst, (hrest p hp).2.extend hst⟩).imp
        fun e w _ _ he => he.congr fun α => ?_
      rw [← hcons, Represents.map_truth hs hst (by simpa using fun a b h => (hrest _ h).1),
        Represents.map_truth hs hst (by simpa using fun a b h => (hrest _ h).2)]

theorem equal_denotes (hs : s.WellFormed) (ha : Represents s a x) (hb : Represents s b y) :
    Yields (a.equal b) s fun t e => Denotes t e fun α => decide (x α = y α) := by
  have hna := Nat.le_max_left a.width b.width
  have hnb := Nat.le_max_right a.width b.width
  refine (equalFrom_yields hs (.one hs) fun p hp => align_has ha hb _ hp).imp
    fun e t _ _ he => he.congr fun α => ?_
  rw [Bool.true_and, decide_eq_decide, align_fst hna hnb, align_snd hna hnb]
  constructor
  · intro h
    rw [← (ha.extend _).value α, ← (hb.extend _).value α, h]
  · intro h
    refine signedValue_inj ?_ ?_
    · rw [List.length_map, List.length_map]
      exact (width_extend a hna).trans (width_extend b hnb).symm
    · rw [(ha.extend _).value, (hb.extend _).value, h]

theorem less_denotes (hs : s.WellFormed) (ha : Represents s a x) (hb : Represents s b y) :
    Yields (a.less b) s fun t e => Denotes t e fun α => decide (x α < y α) := by
  refine (sub_represents hs ha hb).map fun w t _ _ hw => hw.sign.congr fun α => ?_
  rw [decide_eq_decide]
  exact sub_neg

theorem atMost_denotes (hs : s.WellFormed) (ha : Represents s a x) (hb : Represents s b y) :
    Yields (a.atMost b) s fun t e => Denotes t e fun α => decide (x α ≤ y α) := by
  refine (less_denotes hs hb ha).map fun e t _ _ he => he.flip.congr fun α => ?_
  rw [← decide_not, decide_eq_decide]
  exact Int.not_lt

end InvariantSynthesis.Diagram.Word
