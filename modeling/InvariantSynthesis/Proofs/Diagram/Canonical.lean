import Mathlib.Logic.Function.Basic
import InvariantSynthesis.Proofs.Diagram.Reached

/-!
Diagrams are canonical: in a store that was built by calls, two edges are equal exactly if they stand
for the same boolean function. Equality, complement and constancy of diagrams are then decided by
looking at two edges.
-/

namespace InvariantSynthesis.Diagram

open Store

attribute [ext] Edge Node

namespace Store

variable {s t : Store} {d e : Edge} {n : Nat}

/-- A diagram does not depend on a variable that comes before all its tests. -/
theorem truth_update_of_above (hs : s.WellFormed) (he : s.Has e) {v : Nat} (h : s.Above v e)
    (α : Assignment) (b : Bool) : s.truth (Function.update α v b) e = s.truth α e := by
  -- The induction is on the index, which decreases along both edges of a node.
  induction hi : e.index using Nat.strongRecOn generalizing e with
  | ind i ih =>
    by_cases h1 : e.index = 1
    · obtain rfl | rfl := Edge.eq_one_or_zero h1 <;> rfl
    · have h2 : 2 ≤ e.index := by have := he.1; omega
      have hv : v < s.var e := h.resolve_left h1
      have hlow := ih _ (hi ▸ low_index_lt hs he h2) (low_has hs he h2)
        ((low_above hs he h2).mono (Nat.le_of_lt hv)) rfl
      have hhigh := ih _ (hi ▸ high_index_lt hs he h2) (high_has hs he h2)
        ((high_above hs he h2).mono (Nat.le_of_lt hv)) rfl
      rw [truth_eq hs _ he h2, truth_eq hs _ he h2, Function.update_of_ne (Nat.ne_of_gt hv), hlow, hhigh]

section node

variable (hs : s.WellFormed) (he : s.Has e) (h2 : 2 ≤ e.index)
include hs he h2

theorem truth_low (α : Assignment) :
    s.truth α (s.low e) = s.truth (Function.update α (s.var e) false) e := by
  rw [truth_eq hs _ he h2, Function.update_self, if_neg Bool.false_ne_true,
    truth_update_of_above hs (low_has hs he h2) (low_above hs he h2)]

theorem truth_high (α : Assignment) :
    s.truth α (s.high e) = s.truth (Function.update α (s.var e) true) e := by
  rw [truth_eq hs _ he h2, Function.update_self, if_pos rfl,
    truth_update_of_above hs (high_has hs he h2) (high_above hs he h2)]

theorem complemented_high : (s.high e).complemented = e.complemented := by
  have hreg := (hs.nodeFits he h2).regular
  rw [Store.high]
  cases e.complemented <;> simp [Edge.flipIf, Edge.flip, hreg]

end node

theorem eq_of_parts (hs : s.WellFormed) (hd : s.Has d) (he : s.Has e) (hd2 : 2 ≤ d.index)
    (he2 : 2 ≤ e.index) (hvar : s.var d = s.var e) (hlow : s.low d = s.low e)
    (hhigh : s.high d = s.high e) : d = e := by
  have hcompl : d.complemented = e.complemented := by
    rw [← complemented_high hs hd hd2, hhigh, complemented_high hs he he2]
  rw [Store.low, Store.low, hcompl] at hlow
  rw [Store.high, Store.high, hcompl] at hhigh
  have hnode : s.node d = s.node e :=
    Node.ext hvar (Edge.flipIf_inj hlow) (Edge.flipIf_inj hhigh)
  -- The table of nodes gives one index to each node.
  have hd' := (hs.unique_iff (s.node e) d.index).mpr ⟨hd2, hnode ▸ hd.node⟩
  have he' := (hs.unique_iff (s.node e) e.index).mpr ⟨he2, he.node⟩
  rw [hd'] at he'
  exact Edge.ext (Option.some.inj he') hcompl

/-- Edges below an index that stand for the same function are equal. -/
def CanonicalBelow (s : Store) (n : Nat) : Prop :=
  ∀ ⦃d e : Edge⦄, s.Has d → s.Has e → d.index < n → e.index < n →
    (∀ α, s.truth α d = s.truth α e) → d = e

/-- A diagram depends on the variable that it tests first, so a diagram of the same function does not
start later. -/
theorem CanonicalBelow.not_above (hn : s.CanonicalBelow n) (hs : s.WellFormed) (ht : t.WellFormed)
    (hd : s.Has d) (he : t.Has e) (hd2 : 2 ≤ d.index) (hdn : d.index ≤ n)
    (h : ∀ α, s.truth α d = t.truth α e) : ¬t.Above (s.var d) e := by
  intro habove
  have hlt := low_index_lt hs hd hd2
  have hlt' := high_index_lt hs hd hd2
  refine low_ne_high hs hd hd2
    (hn (low_has hs hd hd2) (high_has hs hd hd2) (by omega) (by omega) fun α => ?_)
  calc s.truth α (s.low d)
      = t.truth (Function.update α (s.var d) false) e := by rw [truth_low hs hd hd2, h]
    _ = t.truth (Function.update α (s.var d) true) e := by
      rw [truth_update_of_above ht he habove, truth_update_of_above ht he habove]
    _ = s.truth α (s.high d) := by rw [truth_high hs hd hd2, h]

theorem CanonicalBelow.var_eq {m : Nat} (hn : s.CanonicalBelow n) (hm : t.CanonicalBelow m)
    (hs : s.WellFormed) (ht : t.WellFormed) (hd : s.Has d) (he : t.Has e) (hd2 : 2 ≤ d.index)
    (hdn : d.index ≤ n) (hem : e.index ≤ m) (h : ∀ α, s.truth α d = t.truth α e) :
    2 ≤ e.index ∧ s.var d = t.var e := by
  have hnot := hn.not_above hs ht hd he hd2 hdn h
  have he1 := he.1
  have he2 : 2 ≤ e.index := by
    by_contra hlt
    exact hnot (.inl (by omega))
  have hnot' := hm.not_above ht hs he hd he2 hem fun α => (h α).symm
  exact ⟨he2, Nat.le_antisymm (Nat.le_of_not_lt fun hlt => hnot' (.inr hlt))
    (Nat.le_of_not_lt fun hlt => hnot (.inr hlt))⟩

theorem truth_parts_eq (hs : s.WellFormed) (ht : t.WellFormed) (hd : s.Has d) (he : t.Has e)
    (hd2 : 2 ≤ d.index) (he2 : 2 ≤ e.index) (hvar : s.var d = t.var e)
    (h : ∀ α, s.truth α d = t.truth α e) (α : Assignment) :
    s.truth α (s.low d) = t.truth α (t.low e) ∧ s.truth α (s.high d) = t.truth α (t.high e) := by
  constructor
  · rw [truth_low hs hd hd2, truth_low ht he he2, h, hvar]
  · rw [truth_high hs hd hd2, truth_high ht he he2, h, hvar]

theorem canonicalBelow (hs : s.WellFormed) (n : Nat) : s.CanonicalBelow n := by
  induction n with
  | zero => exact fun d e _ _ h => absurd h (Nat.not_lt_zero _)
  | succ n ih =>
    intro d e hd he hdn hen h
    by_cases hd2 : 2 ≤ d.index
    · obtain ⟨he2, hvar⟩ := ih.var_eq ih hs hs hd he hd2 (by omega) (by omega) h
      have hparts := truth_parts_eq hs hs hd he hd2 he2 hvar h
      have := low_index_lt hs hd hd2
      have := low_index_lt hs he he2
      have := high_index_lt hs hd hd2
      have := high_index_lt hs he he2
      apply eq_of_parts hs hd he hd2 he2 hvar
      · exact ih (low_has hs hd hd2) (low_has hs he he2) (by omega) (by omega) fun α => (hparts α).1
      · exact ih (high_has hs hd hd2) (high_has hs he he2) (by omega) (by omega) fun α => (hparts α).2
    · have hd1 : d.index = 1 := by have := hd.1; omega
      have he1 : e.index = 1 := by
        by_contra hne
        have he2 : 2 ≤ e.index := by have := he.1; omega
        exact hd2 (ih.var_eq ih hs hs he hd he2 (by omega) (by omega) fun α => (h α).symm).1
      obtain rfl | rfl := Edge.eq_one_or_zero hd1 <;>
        obtain rfl | rfl := Edge.eq_one_or_zero he1 <;> simp at h ⊢

theorem eq_of_truth_eq (hs : s.WellFormed) (hd : s.Has d) (he : s.Has e)
    (h : ∀ α, s.truth α d = s.truth α e) : d = e :=
  canonicalBelow hs s.nodes.size hd he hd.2 he.2 h

end Store

namespace Reached

variable {s : Store} {es : List Edge}

/-- Whatever calls have built a store, the edges that they returned are edges of it, and any two of
its edges are equal exactly if they stand for the same function. So an edge is the constant false only
if it is the edge `zero`, and two edges are complements only if one is the other flipped. -/
theorem eq_iff_truth_eq (h : Reached s es) :
    (∀ e ∈ es, s.Has e) ∧
      ∀ {d e : Edge}, s.Has d → s.Has e →
        (d = e ↔ ∀ α, s.truth α d = s.truth α e) ∧
        (d = .zero ↔ ∀ α, s.truth α d = false) ∧
        (d = e.flip ↔ ∀ α, s.truth α d = !s.truth α e) := by
  have hs := h.wellFormed
  refine ⟨h.has, fun {d e} hd he => ⟨⟨?_, ?_⟩, ⟨?_, ?_⟩, ⟨?_, ?_⟩⟩⟩
  · rintro rfl α
    rfl
  · exact eq_of_truth_eq hs hd he
  · rintro rfl α
    exact truth_zero s α
  · intro hfalse
    apply eq_of_truth_eq hs hd hs.has_zero
    intro α
    rw [hfalse, truth_zero]
  · rintro rfl α
    exact truth_flip s α e
  · intro hnot
    apply eq_of_truth_eq hs hd he.flip
    intro α
    rw [hnot, truth_flip]

def dual : List Call :=
  [.literal 1, .literal 2, .and ⟨2, false⟩ ⟨3, false⟩, .or ⟨2, true⟩ ⟨3, true⟩]

theorem reached_dual :
    Reached (after dual) [⟨4, true⟩, ⟨4, false⟩, ⟨3, false⟩, ⟨2, false⟩] := by
  have h1 : Reached (after (dual.take 1)) [⟨2, false⟩] :=
    .answered (c := .literal 1) .empty ⟨by decide, nofun⟩ rfl
  have h2 : Reached (after (dual.take 2)) [⟨3, false⟩, ⟨2, false⟩] :=
    .answered (c := .literal 2) h1 ⟨by decide, nofun⟩ rfl
  have h3 : Reached (after (dual.take 3)) [⟨4, false⟩, ⟨3, false⟩, ⟨2, false⟩] :=
    .answered (c := .and ⟨2, false⟩ ⟨3, false⟩) h2 ⟨by decide, nofun⟩ rfl
  exact .answered (c := .or ⟨2, true⟩ ⟨3, true⟩) h3 ⟨by decide, nofun⟩ rfl

theorem eq_iff_truth_eq_dual :
    Reached (after dual) [⟨4, true⟩, ⟨4, false⟩, ⟨3, false⟩, ⟨2, false⟩] ∧
      (∀ α, (after dual).truth α ⟨4, true⟩ = !(after dual).truth α ⟨4, false⟩) ∧
      ¬∀ α, (after dual).truth α ⟨4, false⟩ = false := by
  obtain ⟨hreturned, hequal⟩ := eq_iff_truth_eq reached_dual
  have hor := hreturned ⟨4, true⟩ (by decide)
  have hand := hreturned ⟨4, false⟩ (by decide)
  refine ⟨reached_dual, (hequal hor hand).2.2.mp rfl, fun hfalse => ?_⟩
  exact absurd ((hequal hand hand).2.1.mpr hfalse) (by decide)

end Reached

end InvariantSynthesis.Diagram
