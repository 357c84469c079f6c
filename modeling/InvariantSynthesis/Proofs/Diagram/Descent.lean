import InvariantSynthesis.Proofs.Diagram.Canonical
import InvariantSynthesis.Proofs.Diagram.Path

namespace InvariantSynthesis.Diagram.Store

variable {s t : Store} {d e : Edge} {path : List (Nat × Bool)}

/-- A walk down to the constant true. It takes the high edge unless this is the constant false. -/
inductive Descends (s : Store) : Edge → List (Nat × Bool) → Prop
  | arrived : Descends s .one []
  | high {e : Edge} {path : List (Nat × Bool)} : e ≠ .one → s.high e ≠ .zero →
      Descends s (s.high e) path → Descends s e ((s.var e, true) :: path)
  | low {e : Edge} {path : List (Nat × Bool)} : e ≠ .one → s.high e = .zero →
      Descends s (s.low e) path → Descends s e ((s.var e, false) :: path)

theorem Descends.unique {path' : List (Nat × Bool)} (h : s.Descends e path)
    (h' : s.Descends e path') : path = path' := by
  induction h generalizing path' with
  | arrived =>
    cases h' with
    | arrived => rfl
    | high hne | low hne => exact absurd rfl hne
  | high hne hhigh _ ih =>
    cases h' with
    | arrived => exact absurd rfl hne
    | high _ _ h' => rw [ih h']
    | low _ hzero => exact absurd hzero hhigh
  | low hne hzero _ ih =>
    cases h' with
    | arrived => exact absurd rfl hne
    | high _ hhigh => exact absurd hzero hhigh
    | low _ _ h' => rw [ih h']

theorem descends_walk (hs : s.WellFormed) {fuel : Nat} (he : s.Has e) (h0 : e ≠ .zero)
    (hfuel : e.index ≤ fuel) : s.Descends e (s.walk fuel e) := by
  induction fuel generalizing e with
  | zero => exact absurd he.1 (by omega)
  | succ fuel ih =>
    rw [walk]
    by_cases h1 : e = .one
    · simp only [h1, if_true]
      exact .arrived
    have h2 := two_le_of_ne he h1 h0
    have hlow := low_index_lt hs he h2
    have hhigh := high_index_lt hs he h2
    rw [if_neg h1]
    by_cases hzero : s.high e = .zero
    · rw [if_neg (not_not.mpr hzero)]
      apply Descends.low h1 hzero
      exact ih (low_has hs he h2) (low_ne_zero hs he h2 hzero) (by omega)
    · rw [if_pos hzero]
      apply Descends.high h1 hzero
      exact ih (high_has hs he h2) hzero (by omega)

theorem path?_eq_some_iff (hs : s.WellFormed) (he : s.Has e) (h0 : e ≠ .zero) :
    s.path? e = some path ↔ s.Descends e path := by
  have hwalk := descends_walk hs he h0 (Nat.le_refl _)
  rw [path?, if_neg h0, Option.some_inj]
  constructor
  · rintro rfl
    exact hwalk
  · exact hwalk.unique

theorem eq_ofBool_of_truth_eq (hs : s.WellFormed) (he : s.Has e) {b : Bool}
    (h : ∀ α, s.truth α e = b) : e = .ofBool b := by
  apply eq_of_truth_eq hs he (hs.has_ofBool b)
  intro α
  rw [h, truth_ofBool]

theorem eq_zero_of_truth_eq (ht : t.WellFormed) (he : t.Has e) (h : ∀ α, s.truth α d = t.truth α e)
    (hd : d = .zero) : e = .zero := by
  apply eq_ofBool_of_truth_eq (b := false) ht he
  intro α
  rw [← h, hd, truth_zero]

/-- Nodes with the same test whose parts have the same functions. -/
structure SameNode (s t : Store) (d e : Edge) : Prop where
  left : 2 ≤ d.index
  right : 2 ≤ e.index
  var : s.var d = t.var e
  low : ∀ α, s.truth α (s.low d) = t.truth α (t.low e)
  high : ∀ α, s.truth α (s.high d) = t.truth α (t.high e)

theorem sameNode (hs : s.WellFormed) (ht : t.WellFormed) (hd : s.Has d) (he : t.Has e)
    (h1 : d ≠ .one) (h0 : d ≠ .zero) (h : ∀ α, s.truth α d = t.truth α e) : SameNode s t d e := by
  have hd2 := two_le_of_ne hd h1 h0
  obtain ⟨he2, hvar⟩ := (canonicalBelow hs d.index).var_eq (canonicalBelow ht e.index) hs ht hd he
    hd2 (Nat.le_refl _) (Nat.le_refl _) h
  have hparts := truth_parts_eq hs ht hd he hd2 he2 hvar h
  exact ⟨hd2, he2, hvar, fun α => (hparts α).1, fun α => (hparts α).2⟩

theorem SameNode.ne_one (h : SameNode s t d e) : e ≠ .one := by
  rintro rfl
  exact absurd h.right (by decide)

/-- A walk down one diagram is a walk down every diagram of the same function. -/
theorem Descends.transfer (hs : s.WellFormed) (ht : t.WellFormed) (hpath : s.Descends d path)
    (hd : s.Has d) (he : t.Has e) (h0 : d ≠ .zero) (h : ∀ α, s.truth α d = t.truth α e) :
    t.Descends e path := by
  induction hpath generalizing e with
  | arrived =>
    obtain rfl : e = .ofBool true := eq_ofBool_of_truth_eq ht he fun α => by rw [← h, truth_one]
    exact .arrived
  | high h1 hhigh _ ih =>
    have hnode := sameNode hs ht hd he h1 h0 h
    have hd' := high_has hs hd hnode.left
    rw [hnode.var]
    apply Descends.high hnode.ne_one
    · intro hzero
      exact hhigh (eq_zero_of_truth_eq hs hd' (fun α => (hnode.high α).symm) hzero)
    · exact ih hd' (high_has ht he hnode.right) hhigh hnode.high
  | low h1 hzero _ ih =>
    have hnode := sameNode hs ht hd he h1 h0 h
    have hd0 := low_ne_zero hs hd hnode.left hzero
    rw [hnode.var]
    apply Descends.low hnode.ne_one
    · exact eq_zero_of_truth_eq ht (high_has ht he hnode.right) hnode.high hzero
    · exact ih (low_has hs hd hnode.left) (low_has ht he hnode.right) hd0 hnode.low

theorem path?_eq_of_truth_eq (hs : s.WellFormed) (ht : t.WellFormed) (hd : s.Has d) (he : t.Has e)
    (h : ∀ α, s.truth α d = t.truth α e) : s.path? d = t.path? e := by
  by_cases h0 : d = .zero
  · have he0 := eq_zero_of_truth_eq ht he h h0
    rw [path?, path?, if_pos h0, if_pos he0]
  · have he0 : e ≠ .zero := fun he0 => h0 (eq_zero_of_truth_eq hs hd (fun α => (h α).symm) he0)
    have hwalk := descends_walk hs hd h0 (Nat.le_refl _)
    rw [path?, if_neg h0]
    exact ((path?_eq_some_iff ht he he0).mpr (hwalk.transfer hs ht hd he h0 h)).symm

/-- Only the constant false has no path. From any other diagram the walk ends, with one path only;
this tests variables in increasing order, and every assignment that follows it makes the diagram
true. Diagrams of the same function have the same path, whichever stores they are in. -/
theorem satisfying_path_canonical (hs : s.WellFormed) (he : s.Has e) :
    (s.path? e = none ↔ ∀ α, s.truth α e = false) ∧
      ((∃ α, s.truth α e = true) → ∃ path, s.path? e = some path ∧
        (∀ path', s.Descends e path' ↔ path' = path) ∧ path.Pairwise (fun p q => p.1 < q.1) ∧
        ∀ α, (∀ p ∈ path, α p.1 = p.2) → s.truth α e = true) ∧
      ∀ {t : Store} {d : Edge}, t.WellFormed → t.Has d → (∀ α, t.truth α d = s.truth α e) →
        t.path? d = s.path? e := by
  refine ⟨path?_eq_none_iff hs he, ?_, fun ht hd h => path?_eq_of_truth_eq ht hs hd he h⟩
  rintro ⟨α, hα⟩
  have h0 : e ≠ .zero := by
    rintro rfl
    exact absurd hα (by simp)
  refine ⟨s.walk e.index e, by rw [path?, if_neg h0], fun path => ?_, (walk_sorted hs _ he h0).1,
    fun β => truth_walk hs he h0 (Nat.le_refl _)⟩
  rw [← path?_eq_some_iff hs he h0, path?, if_neg h0, Option.some_inj, eq_comm]

/-- The calls of `dual` with the variables in another order and one more among them. -/
def turned : List Call := [.literal 3, .literal 2, .literal 1, .or ⟨4, true⟩ ⟨3, true⟩]

theorem reached_turned :
    Reached (Reached.after turned) [⟨5, true⟩, ⟨4, false⟩, ⟨3, false⟩, ⟨2, false⟩] := by
  have hliteral : ∀ (s : Store) (v : Nat), (Call.literal v).Allowed s := fun s v =>
    ⟨by simp [Call.operands], by simp⟩
  have h1 : Reached (Reached.after (turned.take 1)) [⟨2, false⟩] :=
    .answered .empty (hliteral _ 3) rfl
  have h2 : Reached (Reached.after (turned.take 2)) [⟨3, false⟩, ⟨2, false⟩] :=
    .answered h1 (hliteral _ 2) rfl
  have h3 : Reached (Reached.after (turned.take 3)) [⟨4, false⟩, ⟨3, false⟩, ⟨2, false⟩] :=
    .answered h2 (hliteral _ 1) rfl
  exact .answered (c := .or ⟨4, true⟩ ⟨3, true⟩) h3 ⟨by decide, by simp⟩ rfl

/-- Two stores number the nodes of one disjunction in different ways. -/
theorem satisfying_path_canonical_turned :
    (Reached.after turned).WellFormed ∧ (Reached.after turned).Has ⟨5, true⟩ ∧
      (Reached.after Reached.dual).WellFormed ∧ (Reached.after Reached.dual).Has ⟨4, true⟩ ∧
      (∀ α, (Reached.after turned).truth α ⟨5, true⟩ =
        (Reached.after Reached.dual).truth α ⟨4, true⟩) ∧
      (Reached.after turned).path? ⟨5, true⟩ = some [(1, true), (2, false)] := by
  have hdual := Reached.reached_dual.wellFormed
  have hturned := reached_turned.wellFormed
  have hnodes : (Reached.after turned).nodes = #[terminal, terminal, ⟨3, .zero, .one⟩,
      ⟨2, .zero, .one⟩, ⟨1, .zero, .one⟩, ⟨1, .zero, ⟨3, false⟩⟩] := by decide +kernel
  have hnodes' : (Reached.after Reached.dual).nodes = #[terminal, terminal, ⟨1, .zero, .one⟩,
      ⟨2, .zero, .one⟩, ⟨1, .zero, ⟨3, false⟩⟩] := by decide +kernel
  have htruth : ∀ α, (Reached.after turned).truth α ⟨5, true⟩ =
      (Reached.after Reached.dual).truth α ⟨4, true⟩ := fun α => by
    simp [truth, truthWith, var, low, high, node, hnodes, hnodes', Edge.one, Edge.zero, Edge.flipIf,
      Edge.flip]
  obtain ⟨-, -, hsame⟩ := satisfying_path_canonical (e := ⟨4, true⟩) hdual (by decide)
  exact ⟨hturned, by decide, hdual, by decide, htruth, hsame hturned (by decide) htruth⟩

end InvariantSynthesis.Diagram.Store
