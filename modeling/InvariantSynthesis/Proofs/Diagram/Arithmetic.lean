import InvariantSynthesis.Proofs.Diagram.Recursion
import InvariantSynthesis.Proofs.Diagram.Word

namespace InvariantSynthesis.Diagram

open Store

namespace Word

variable {s : Store} {a : Word}

/-- The number that a word writes under an assignment, in two's complement. -/
def number (a : Word) (s : Store) (α : Assignment) : Int :=
  (BitVec.ofBoolListLE (a.bits.map (s.truth α))).toInt

/-- A word with a sign whose bits are edges of a store. -/
structure Of (s : Store) (a : Word) : Prop where
  has : ∀ e ∈ a.bits, s.Has e
  width_pos : 1 ≤ a.width

theorem toInt_ofBoolListLE (l : List Bool) : (BitVec.ofBoolListLE l).toInt = signedValue l := by
  induction l with
  | nil => rfl
  | cons b l ih =>
    rw [BitVec.ofBoolListLE, BitVec.toInt_concat, ih]
    cases l with
    | nil => cases b <;> rfl
    | cons c cs =>
      rw [if_neg (by simp), signedValue_cons b (by simp)]
      cases b <;> simp <;> ring

theorem Of.represents (h : a.Of s) : Represents s a (a.number s) :=
  ⟨h.has, List.length_pos_iff.mp h.width_pos, fun _ => (toInt_ofBoolListLE _).symm⟩

/-- A word of the store with a number that depends on the assignment. -/
structure Writes (s : Store) (a : Word) (x : Assignment → Int) : Prop extends a.Of s where
  number : ∀ α, a.number s α = x α

theorem Represents.writes {x : Assignment → Int} (h : Represents s a x) : Writes s a x where
  has := h.has
  width_pos := h.width_pos
  number α := (toInt_ofBoolListLE _).trans (h.value α)

theorem gives_of_represents {b : Build Word} {x : Assignment → Int} (hs : s.WellFormed)
    (h : Yields b s fun t w => Represents t w x) : Gives b s fun t w => w.Writes t x :=
  (h.imp fun _ _ _ _ hw => hw.writes).gives hs

end Word

namespace Reached

variable {s : Store} {es : List Edge} {a b : Word}

/-- In every store that calls have built, for words of all widths and under all assignments, the
operations on words are those on integers: no result is too wide for its word. -/
theorem arithmetic_exact (h : Reached s es) (ha : a.Of s) (hb : b.Of s) {c : Edge} (hc : s.Has c)
    (k : Int) (n : Nat) :
    Gives (a.add b) s (fun t w => w.Writes t fun α => a.number s α + b.number s α) ∧
      Gives (a.sub b) s (fun t w => w.Writes t fun α => a.number s α - b.number s α) ∧
      Gives a.neg s (fun t w => w.Writes t fun α => -a.number s α) ∧
      Gives (a.scale k) s (fun t w => w.Writes t fun α => k * a.number s α) ∧
      Gives (Word.ite c a b) s (fun t w => w.Writes t fun α =>
        if s.truth α c then a.number s α else b.number s α) ∧
      (a.extend n).Writes s (a.number s) ∧ (a.extend n).width = max a.width n ∧
      (Word.constant k).Writes s (fun _ => k) ∧
      Gives (a.equal b) s (fun t e => Denotes t e fun α => decide (a.number s α = b.number s α)) ∧
      Gives (a.less b) s (fun t e => Denotes t e fun α => decide (a.number s α < b.number s α)) ∧
      Gives (a.atMost b) s (fun t e => Denotes t e fun α => decide (a.number s α ≤ b.number s α)) := by
  have hs := h.wellFormed
  have ha := ha.represents
  have hb := hb.represents
  have hc : Denotes s c fun α => s.truth α c := ⟨hc, fun _ => rfl⟩
  refine ⟨?_, ?_, ?_, ?_, ?_, (ha.extend n).writes, ?_, (Word.Represents.constant hs k).writes, ?_, ?_, ?_⟩
  · exact Word.gives_of_represents hs ((Word.add_represents hs ha hb).imp fun _ _ _ _ hw => hw.1)
  · exact Word.gives_of_represents hs (Word.sub_represents hs ha hb)
  · exact Word.gives_of_represents hs (Word.neg_represents hs ha)
  · exact Word.gives_of_represents hs (Word.scale_represents hs k ha)
  · exact Word.gives_of_represents hs (Word.ite_represents hs hc ha hb)
  · simp only [Word.width, Word.extend, List.length_append, List.length_replicate]
    omega
  · exact (Word.equal_denotes hs ha hb).gives hs
  · exact (Word.less_denotes hs ha hb).gives hs
  · exact (Word.atMost_denotes hs ha hb).gives hs

def narrow : Word := ⟨[⟨2, false⟩]⟩

def wider : Word := ⟨[⟨3, false⟩, ⟨2, false⟩, ⟨4, true⟩]⟩

/-- Minus one times the least number of 64 bits is a number that 64 bits do not hold, and the largest
number of three bits less minus one is a number that three bits do not hold. -/
theorem arithmetic_exact_narrow :
    Reached (after dual) [⟨4, true⟩, ⟨4, false⟩, ⟨3, false⟩, ⟨2, false⟩] ∧
      narrow.Of (after dual) ∧ wider.Of (after dual) ∧
      (narrow.scale (-9223372036854775808) (after dual)).1.number
        (narrow.scale (-9223372036854775808) (after dual)).2 (fun _ => true) = 9223372036854775808 ∧
      (wider.sub narrow (after dual)).1.number (wider.sub narrow (after dual)).2 (fun _ => true) = 4 := by
  have hnarrow : narrow.Of (after dual) := ⟨by decide, by decide⟩
  have hwider : wider.Of (after dual) := ⟨by decide, by decide⟩
  have hx := hnarrow.has ⟨2, false⟩ (by decide)
  have hscale :=
    (arithmetic_exact reached_dual hnarrow hwider hx (-9223372036854775808) 0).2.2.2.1
  have hsub := (arithmetic_exact reached_dual hwider hnarrow hx 0 0).2.1
  refine ⟨reached_dual, hnarrow, hwider, ?_, ?_⟩
  · exact (hscale.result.number _).trans (by decide)
  · exact (hsub.result.number _).trans (by decide)

end Reached

end InvariantSynthesis.Diagram
