import Std.Data.TreeMap.Lemmas
import InvariantSynthesis.Diagram.Ite

namespace InvariantSynthesis.Diagram

abbrev Assignment := Nat → Bool

namespace Edge

theorem key_inj {d e : Edge} (h : d.key = e.key) : d = e := by
  obtain ⟨i, b⟩ := d
  obtain ⟨j, c⟩ := e
  simp only [key] at h
  cases b <;> cases c <;> simp at h ⊢ <;> omega

@[simp]
theorem index_flipIf (b : Bool) (e : Edge) : (e.flipIf b).index = e.index := by
  cases b <;> rfl

theorem flipIf_inj {b : Bool} {d e : Edge} (h : d.flipIf b = e.flipIf b) : d = e := by
  cases b with
  | false => exact h
  | true => rw [← flip_flip d, ← flip_flip e]; exact congrArg flip h

theorem flipIf_not (b : Bool) (e : Edge) : e.flipIf (!b) = (e.flipIf b).flip := by
  cases b <;> simp [flipIf]

theorem eq_one_or_zero {e : Edge} (h : e.index = 1) : e = one ∨ e = zero := by
  obtain ⟨i, b⟩ := e
  subst h
  cases b
  · exact .inl rfl
  · exact .inr rfl

end Edge

instance : Std.TransOrd Node :=
  inferInstanceAs (Std.TransCmp (compareLex (compareOn (fun n : Node => n.var))
    (compareLex (compareOn (fun n : Node => n.low.key)) (compareOn (fun n : Node => n.high.key)))))

instance : Std.TransOrd Triple :=
  inferInstanceAs (Std.TransCmp (compareLex (compareOn (fun t : Triple => t.test.key))
    (compareLex (compareOn (fun t : Triple => t.yes.key)) (compareOn (fun t : Triple => t.no.key)))))

theorem Node.compare_eq_iff {m n : Node} : compare m n = .eq ↔ m = n := by
  constructor
  · intro h
    obtain ⟨hv, hrest⟩ := compareLex_eq_eq.mp h
    obtain ⟨hl, hh⟩ := compareLex_eq_eq.mp hrest
    obtain ⟨v, l, h⟩ := m
    obtain ⟨v', l', h'⟩ := n
    simp only [mk.injEq]
    exact ⟨Nat.compare_eq_eq.mp hv, Edge.key_inj (Nat.compare_eq_eq.mp hl),
      Edge.key_inj (Nat.compare_eq_eq.mp hh)⟩
  · rintro rfl
    exact Std.ReflCmp.compare_self

theorem Triple.compare_eq_iff {t u : Triple} : compare t u = .eq ↔ t = u := by
  constructor
  · intro h
    obtain ⟨hf, hrest⟩ := compareLex_eq_eq.mp h
    obtain ⟨hg, hh⟩ := compareLex_eq_eq.mp hrest
    obtain ⟨f, g, h⟩ := t
    obtain ⟨f', g', h'⟩ := u
    simp only [mk.injEq]
    exact ⟨Edge.key_inj (Nat.compare_eq_eq.mp hf), Edge.key_inj (Nat.compare_eq_eq.mp hg),
      Edge.key_inj (Nat.compare_eq_eq.mp hh)⟩
  · rintro rfl
    exact Std.ReflCmp.compare_self

namespace Store

variable {s t u : Store} {e : Edge}

/-- The value of an edge, found with at most `fuel` tests. -/
def truthWith (s : Store) (α : Assignment) : Nat → Edge → Bool
  | 0, e => !e.complemented
  | fuel + 1, e =>
    if e.index = 1 then !e.complemented
    else if α (s.var e) then s.truthWith α fuel (s.high e) else s.truthWith α fuel (s.low e)

/-- The value of an edge. Indices decrease along edges, so the index is enough fuel. -/
def truth (s : Store) (α : Assignment) (e : Edge) : Bool := s.truthWith α e.index e

def Has (s : Store) (e : Edge) : Prop := 1 ≤ e.index ∧ e.index < s.nodes.size

instance (s : Store) (e : Edge) : Decidable (s.Has e) := inferInstanceAs (Decidable (_ ∧ _))

/-- The edge tests only variables after `v`. -/
def Above (s : Store) (v : Nat) (e : Edge) : Prop := e.index = 1 ∨ v < s.var e

/-- A node at index `i` is ordered and reduced. -/
structure NodeFits (s : Store) (i : Nat) (n : Node) : Prop where
  var_pos : 0 < n.var
  low_pos : 1 ≤ n.low.index
  low_lt : n.low.index < i
  high_pos : 1 ≤ n.high.index
  high_lt : n.high.index < i
  regular : n.high.complemented = false
  differ : n.low ≠ n.high
  low_above : s.Above n.var n.low
  high_above : s.Above n.var n.high

/-- A remembered result is the if-then-else of its operands. -/
structure EntryFits (s : Store) (t : Triple) (r : Edge) : Prop where
  test_has : s.Has t.test
  yes_has : s.Has t.yes
  no_has : s.Has t.no
  has : s.Has r
  test_regular : t.test.complemented = false
  yes_regular : t.yes.complemented = false
  truth : ∀ α, s.truth α r = if s.truth α t.test then s.truth α t.yes else s.truth α t.no
  above : ∀ v, s.Above v t.test → s.Above v t.yes → s.Above v t.no → s.Above v r

structure WellFormed (s : Store) : Prop where
  base : ∀ i < 2, s.nodes[i]? = some terminal
  fits : ∀ i n, 2 ≤ i → s.nodes[i]? = some n → s.NodeFits i n
  unique_iff : ∀ n i, s.unique[n]? = some i ↔ 2 ≤ i ∧ s.nodes[i]? = some n
  entry : ∀ t r, s.computed[t]? = some r → s.EntryFits t r

/-- The second store has all nodes of the first at the same places. -/
structure Extends (s t : Store) : Prop where
  size_le : s.nodes.size ≤ t.nodes.size
  node_eq : ∀ i < s.nodes.size, t.nodes[i]? = s.nodes[i]?

theorem Extends.refl (s : Store) : s.Extends s := ⟨Nat.le_refl _, fun _ _ => rfl⟩

theorem Extends.trans (h : s.Extends t) (h' : t.Extends u) : s.Extends u :=
  ⟨Nat.le_trans h.size_le h'.size_le, fun i hi =>
    (h'.node_eq i (Nat.lt_of_lt_of_le hi h.size_le)).trans (h.node_eq i hi)⟩

theorem Has.node (h : s.Has e) : s.nodes[e.index]? = some (s.node e) := by
  simp [Store.node, Array.getD, h.2]

theorem Has.flip (h : s.Has e) : s.Has e.flip := h

theorem Has.flipIf (b : Bool) (h : s.Has e) : s.Has (e.flipIf b) := by
  simpa [Has] using h

theorem Has.extend (h : s.Has e) (hst : s.Extends t) : t.Has e :=
  ⟨h.1, Nat.lt_of_lt_of_le h.2 hst.size_le⟩

theorem WellFormed.two_le (h : s.WellFormed) : 2 ≤ s.nodes.size := by
  have h1 := h.base 1 (by omega)
  have := (Array.getElem?_eq_some_iff.mp h1).1
  omega

theorem WellFormed.has_one (h : s.WellFormed) : s.Has .one := ⟨Nat.le_refl _, h.two_le⟩

theorem WellFormed.has_zero (h : s.WellFormed) : s.Has .zero := ⟨Nat.le_refl _, h.two_le⟩

theorem WellFormed.has_ofBool (h : s.WellFormed) (b : Bool) : s.Has (.ofBool b) := by
  cases b
  · exact h.has_zero
  · exact h.has_one

theorem WellFormed.nodeFits (h : s.WellFormed) (he : s.Has e) (h2 : 2 ≤ e.index) :
    s.NodeFits e.index (s.node e) :=
  h.fits _ _ h2 he.node

theorem Above.one (v : Nat) : s.Above v .one := .inl rfl

theorem Above.zero (v : Nat) : s.Above v .zero := .inl rfl

theorem Above.mono {v w : Nat} (hw : w ≤ v) (h : s.Above v e) : s.Above w e :=
  h.imp_right (Nat.lt_of_le_of_lt hw)

theorem Above.flip {v : Nat} (h : s.Above v e) : s.Above v e.flip := h

theorem Above.flipIf {v : Nat} (b : Bool) (h : s.Above v e) : s.Above v (e.flipIf b) := by
  cases b
  · exact h
  · exact h.flip

theorem Extends.node (h : s.Extends t) (he : s.Has e) : t.node e = s.node e := by
  have := h.node_eq e.index he.2
  rw [he.node, (he.extend h).node] at this
  exact Option.some.inj this

theorem Extends.var (h : s.Extends t) (he : s.Has e) : t.var e = s.var e := by
  rw [Store.var, h.node he, Store.var]

theorem Extends.low (h : s.Extends t) (he : s.Has e) : t.low e = s.low e := by
  rw [Store.low, h.node he, Store.low]

theorem Extends.high (h : s.Extends t) (he : s.Has e) : t.high e = s.high e := by
  rw [Store.high, h.node he, Store.high]

theorem Above.extend {v : Nat} (h : s.Above v e) (hst : s.Extends t) (he : s.Has e) : t.Above v e := by
  rw [Above, hst.var he]
  exact h

section children

variable (hs : s.WellFormed) (he : s.Has e) (h2 : 2 ≤ e.index)
include hs he h2

theorem low_index_lt : (s.low e).index < e.index := by
  simpa [Store.low] using (hs.nodeFits he h2).low_lt

theorem high_index_lt : (s.high e).index < e.index := by
  simpa [Store.high] using (hs.nodeFits he h2).high_lt

theorem low_has : s.Has (s.low e) := by
  have hlt := low_index_lt hs he h2
  refine ⟨?_, Nat.lt_trans hlt he.2⟩
  simpa [Store.low] using (hs.nodeFits he h2).low_pos

theorem high_has : s.Has (s.high e) := by
  have hlt := high_index_lt hs he h2
  refine ⟨?_, Nat.lt_trans hlt he.2⟩
  simpa [Store.high] using (hs.nodeFits he h2).high_pos

theorem low_above : s.Above (s.var e) (s.low e) := (hs.nodeFits he h2).low_above.flipIf _

theorem high_above : s.Above (s.var e) (s.high e) := (hs.nodeFits he h2).high_above.flipIf _

theorem low_ne_high : s.low e ≠ s.high e :=
  fun h => (hs.nodeFits he h2).differ (Edge.flipIf_inj h)

theorem var_pos : 0 < s.var e := (hs.nodeFits he h2).var_pos

end children

theorem var_flip (s : Store) (e : Edge) : s.var e.flip = s.var e := rfl

theorem low_flip (s : Store) (e : Edge) : s.low e.flip = (s.low e).flip := Edge.flipIf_not _ _

theorem high_flip (s : Store) (e : Edge) : s.high e.flip = (s.high e).flip := Edge.flipIf_not _ _

theorem truthWith_flip (s : Store) (α : Assignment) (fuel : Nat) (e : Edge) :
    s.truthWith α fuel e.flip = !s.truthWith α fuel e := by
  induction fuel generalizing e with
  | zero => rfl
  | succ fuel ih =>
    simp only [truthWith, Edge.index_flip, var_flip, low_flip, high_flip, ih]
    split
    · rfl
    · split <;> rfl

@[simp]
theorem truth_flip (s : Store) (α : Assignment) (e : Edge) : s.truth α e.flip = !s.truth α e :=
  truthWith_flip s α e.index e

theorem truth_flipIf (s : Store) (α : Assignment) (b : Bool) (e : Edge) :
    s.truth α (e.flipIf b) = (s.truth α e != b) := by
  cases b <;> simp [Edge.flipIf]

@[simp]
theorem truth_one (s : Store) (α : Assignment) : s.truth α .one = true := rfl

@[simp]
theorem truth_zero (s : Store) (α : Assignment) : s.truth α .zero = false := rfl

@[simp]
theorem truth_ofBool (s : Store) (α : Assignment) (b : Bool) : s.truth α (.ofBool b) = b := by
  cases b <;> rfl

theorem truthWith_eq (hs : s.WellFormed) (α : Assignment) {fuel fuel' : Nat} (he : s.Has e)
    (h : e.index ≤ fuel) (h' : e.index ≤ fuel') :
    s.truthWith α fuel e = s.truthWith α fuel' e := by
  induction fuel generalizing e fuel' with
  | zero => exact absurd he.1 (by omega)
  | succ fuel ih =>
    obtain ⟨fuel', rfl⟩ : ∃ k, fuel' = k + 1 := ⟨fuel' - 1, by have := he.1; omega⟩
    by_cases h1 : e.index = 1
    · simp [truthWith, h1]
    · have h2 : 2 ≤ e.index := by have := he.1; omega
      have hl := low_index_lt hs he h2
      have hh := high_index_lt hs he h2
      simp only [truthWith, h1, if_false]
      rw [ih (low_has hs he h2) (by omega) (by omega : _ ≤ fuel'),
        ih (high_has hs he h2) (by omega) (by omega : _ ≤ fuel')]

/-- The value of an edge is decided by its first test. -/
theorem truth_eq (hs : s.WellFormed) (α : Assignment) (he : s.Has e) (h2 : 2 ≤ e.index) :
    s.truth α e = if α (s.var e) then s.truth α (s.high e) else s.truth α (s.low e) := by
  obtain ⟨k, hk⟩ : ∃ k, e.index = k + 1 := ⟨e.index - 1, by omega⟩
  have hl := low_index_lt hs he h2
  have hh := high_index_lt hs he h2
  have h1 : e.index ≠ 1 := by omega
  rw [truth, hk, truthWith, if_neg h1]
  rw [truthWith_eq hs α (high_has hs he h2) (by omega) (Nat.le_refl _),
    truthWith_eq hs α (low_has hs he h2) (by omega) (Nat.le_refl _), truth, truth]

theorem Extends.truthWith (hs : s.WellFormed) (h : s.Extends t) (α : Assignment) (fuel : Nat)
    (he : s.Has e) : t.truthWith α fuel e = s.truthWith α fuel e := by
  induction fuel generalizing e with
  | zero => rfl
  | succ fuel ih =>
    by_cases h1 : e.index = 1
    · simp [Store.truthWith, h1]
    · have h2 : 2 ≤ e.index := by have := he.1; omega
      simp only [Store.truthWith, h.var he, h.low he, h.high he, ih (low_has hs he h2),
        ih (high_has hs he h2)]

theorem Extends.truth (hs : s.WellFormed) (h : s.Extends t) (α : Assignment) (he : s.Has e) :
    t.truth α e = s.truth α e :=
  h.truthWith hs α e.index he

theorem NodeFits.extend {i : Nat} {n : Node} (hn : s.NodeFits i n) (h : s.Extends t)
    (hi : i ≤ s.nodes.size) : t.NodeFits i n where
  var_pos := hn.var_pos
  low_pos := hn.low_pos
  low_lt := hn.low_lt
  high_pos := hn.high_pos
  high_lt := hn.high_lt
  regular := hn.regular
  differ := hn.differ
  low_above := hn.low_above.extend h ⟨hn.low_pos, Nat.lt_of_lt_of_le hn.low_lt hi⟩
  high_above := hn.high_above.extend h ⟨hn.high_pos, Nat.lt_of_lt_of_le hn.high_lt hi⟩

theorem EntryFits.extend {x : Triple} {r : Edge} (hx : s.EntryFits x r) (hs : s.WellFormed)
    (h : s.Extends t) : t.EntryFits x r where
  test_has := hx.test_has.extend h
  yes_has := hx.yes_has.extend h
  no_has := hx.no_has.extend h
  has := hx.has.extend h
  test_regular := hx.test_regular
  yes_regular := hx.yes_regular
  truth := fun α => by
    rw [h.truth hs α hx.has, h.truth hs α hx.test_has, h.truth hs α hx.yes_has,
      h.truth hs α hx.no_has]
    exact hx.truth α
  above := fun v hf hg hh => by
    rw [Above, h.var hx.test_has] at hf
    rw [Above, h.var hx.yes_has] at hg
    rw [Above, h.var hx.no_has] at hh
    exact (hx.above v hf hg hh).extend h hx.has

theorem wellFormed_empty : Store.empty.WellFormed where
  base := fun i hi => by
    match i, hi with
    | 0, _ => rfl
    | 1, _ => rfl
  fits := fun i n h2 hn => by
    have := (Array.getElem?_eq_some_iff.mp hn).1
    simp only [Store.empty, List.size_toArray, List.length_cons, List.length_nil] at this
    omega
  unique_iff := fun n i => by
    simp only [Store.empty, Std.TreeMap.getElem?_emptyc, reduceCtorEq, false_iff, not_and]
    intro h2 hn
    have := (Array.getElem?_eq_some_iff.mp hn).1
    simp only [List.size_toArray, List.length_cons, List.length_nil] at this
    omega
  entry := fun t r h => by simp [Store.empty] at h

end Store

end InvariantSynthesis.Diagram
