import InvariantSynthesis.Proofs.Diagram.Store

/-!
If-then-else computes if-then-else. A computation on stores is described by what it yields: a
well-formed larger store, and a property of its result there.
-/

namespace InvariantSynthesis.Diagram

open Store

variable {α β : Type} {s t : Store}

/-- From a store, a computation reaches a well-formed extension and a result with a property. -/
structure Yields (b : Build α) (s : Store) (Q : Store → α → Prop) : Prop where
  wellFormed : (b s).2.WellFormed
  grows : s.Extends (b s).2
  result : Q (b s).2 (b s).1

theorem bind_of_read {b : Build α} {a : α} {f : α → Build β} (hb : b s = (a, s)) :
    (b >>= f) s = f a s := by
  show f (b s).1 (b s).2 = f a s
  rw [hb]

namespace Yields

theorem pure {Q : Store → α → Prop} {a : α} (hs : s.WellFormed) (h : Q s a) :
    Yields (Pure.pure a : Build α) s Q :=
  ⟨hs, .refl s, h⟩

theorem bind {b : Build α} {f : α → Build β} {Q : Store → α → Prop} {R : Store → β → Prop}
    (hb : Yields b s Q)
    (hf : ∀ a t, t.WellFormed → s.Extends t → Q t a → Yields (f a) t R) :
    Yields (b >>= f) s R :=
  have h := hf (b s).1 (b s).2 hb.wellFormed hb.grows hb.result
  ⟨h.wellFormed, hb.grows.trans h.grows, h.result⟩

theorem imp {b : Build α} {Q R : Store → α → Prop} (hb : Yields b s Q)
    (h : ∀ a t, t.WellFormed → s.Extends t → Q t a → R t a) : Yields b s R :=
  ⟨hb.wellFormed, hb.grows, h _ _ hb.wellFormed hb.grows hb.result⟩

theorem congr {b c : Build α} {Q : Store → α → Prop} (h : b s = c s) (hb : Yields c s Q) :
    Yields b s Q := by
  obtain ⟨h₁, h₂, h₃⟩ := hb
  rw [← h] at h₁ h₂ h₃
  exact ⟨h₁, h₂, h₃⟩

theorem map {b : Build α} {f : α → β} {Q : Store → α → Prop} {R : Store → β → Prop}
    (hb : Yields b s Q) (h : ∀ a t, t.WellFormed → s.Extends t → Q t a → R t (f a)) :
    Yields (do return f (← b)) s R :=
  hb.bind fun a t ht hst ha => .pure ht (h a t ht hst ha)

end Yields

/-- The result means a given function, and tests only variables that come late enough. -/
structure Means (s : Store) (f : Assignment → Bool) (lower : Nat → Prop) (r : Edge) : Prop where
  has : s.Has r
  truth : ∀ α, s.truth α r = f α
  above : ∀ v, lower v → s.Above v r

theorem Means.imp {f f' : Assignment → Bool} {lower lower' : Nat → Prop} {r : Edge}
    (h : Means s f lower r) (hf : ∀ α, f α = f' α) (hl : ∀ v, lower' v → lower v) :
    Means s f' lower' r :=
  ⟨h.has, fun α => (h.truth α).trans (hf α), fun v hv => h.above v (hl v hv)⟩

theorem extends_push (s : Store) (n : Node) (unique : Std.TreeMap Node Nat)
    (computed : Std.TreeMap Triple Edge) : s.Extends ⟨s.nodes.push n, unique, computed⟩ := by
  refine ⟨by simp, fun i hi => ?_⟩
  simp [Array.getElem?_push, Nat.ne_of_lt hi]

theorem unique_iff_push (hs : s.WellFormed) {n : Node} (hnew : s.unique[n]? = none) (m : Node)
    (i : Nat) : (s.unique.insert n s.nodes.size)[m]? = some i ↔
      2 ≤ i ∧ (s.nodes.push n)[i]? = some m := by
  rw [Std.TreeMap.getElem?_insert, Array.getElem?_push]
  by_cases hmn : n = m
  · subst hmn
    rw [if_pos (Node.compare_eq_iff.mpr rfl)]
    constructor
    · intro h
      cases h
      simp [hs.two_le]
    · rintro ⟨hi, h⟩
      split at h
      · rename_i heq
        rw [heq]
      · -- an old node would have been found
        rw [(hs.unique_iff n i).mpr ⟨hi, h⟩] at hnew
        cases hnew
  · rw [if_neg (fun h => hmn (Node.compare_eq_iff.mp h)), hs.unique_iff m i]
    refine and_congr_right fun _ => ?_
    split
    · rename_i heq
      subst heq
      simp [hmn]
    · rfl

/-- Adding a node that fits and is not there keeps the store well-formed. -/
theorem wellFormed_push (hs : s.WellFormed) {n : Node} (hn : s.NodeFits s.nodes.size n)
    (hnew : s.unique[n]? = none) :
    Store.WellFormed ⟨s.nodes.push n, s.unique.insert n s.nodes.size, s.computed⟩ := by
  have hext := extends_push s n (s.unique.insert n s.nodes.size) s.computed
  refine ⟨fun i hi => ?_, fun i m hi hm => ?_, unique_iff_push hs hnew, fun x r hx => ?_⟩
  · rw [hext.node_eq i (Nat.lt_of_lt_of_le hi hs.two_le)]
    exact hs.base i hi
  · rw [Array.getElem?_push] at hm
    split at hm
    · rename_i heq
      cases hm
      rw [heq]
      exact hn.extend hext (Nat.le_refl _)
    · have hlt := (Array.getElem?_eq_some_iff.mp hm).1
      exact (hs.fits i m hi hm).extend hext (Nat.le_of_lt hlt)
  · exact (hs.entry x r hx).extend hs hext

theorem means_node (hs : s.WellFormed) {i : Nat} {n : Node} (h2 : 2 ≤ i)
    (hn : s.nodes[i]? = some n) :
    Means s (fun α => if α n.var then s.truth α n.high else s.truth α n.low) (· < n.var)
      ⟨i, false⟩ := by
  have hlt := (Array.getElem?_eq_some_iff.mp hn).1
  have he : s.Has ⟨i, false⟩ := ⟨Nat.le_of_lt h2, hlt⟩
  have heq : s.node ⟨i, false⟩ = n := by
    have := he.node
    rw [hn] at this
    exact (Option.some.inj this).symm
  have hvar : s.var ⟨i, false⟩ = n.var := by rw [Store.var, heq]
  refine ⟨he, fun α => ?_, fun v hv => .inr (hvar ▸ hv)⟩
  rw [truth_eq hs α he h2, hvar, Store.high, Store.low, heq]
  rfl

theorem regularNode_yields (hs : s.WellFormed) {v : Nat} {low high : Edge} (hv : 0 < v)
    (hlow : s.Has low) (hhigh : s.Has high) (hreg : high.complemented = false)
    (hla : s.Above v low) (hha : s.Above v high) :
    Yields (regularNode v low high) s fun t r =>
      Means t (fun α => if α v then s.truth α high else s.truth α low) (· < v) r := by
  by_cases heq : low = high
  · have hrun : regularNode v low high s = (low, s) := if_pos heq
    refine ⟨by rw [hrun]; exact hs, by rw [hrun]; exact .refl s, ?_⟩
    rw [hrun]
    subst heq
    exact ⟨hlow, fun α => (ite_self _).symm, fun w hw => hla.mono (Nat.le_of_lt hw)⟩
  · have hfits : s.NodeFits s.nodes.size ⟨v, low, high⟩ :=
      ⟨hv, hlow.1, hlow.2, hhigh.1, hhigh.2, hreg, heq, hla, hha⟩
    cases hfind : s.unique[(⟨v, low, high⟩ : Node)]? with
    | some i =>
      have hrun : regularNode v low high s = (⟨i, false⟩, s) := by
        simp only [regularNode, if_neg heq, hfind]
      obtain ⟨h2, hi⟩ := (hs.unique_iff _ i).mp hfind
      refine ⟨by rw [hrun]; exact hs, by rw [hrun]; exact .refl s, ?_⟩
      rw [hrun]
      exact means_node hs h2 hi
    | none =>
      have hrun : regularNode v low high s = (⟨s.nodes.size, false⟩,
          ⟨s.nodes.push ⟨v, low, high⟩, s.unique.insert ⟨v, low, high⟩ s.nodes.size,
            s.computed⟩) := by
        simp only [regularNode, if_neg heq, hfind]
      have hext := extends_push s ⟨v, low, high⟩ (s.unique.insert ⟨v, low, high⟩ s.nodes.size)
        s.computed
      have hwf := wellFormed_push hs hfits hfind
      refine ⟨by rw [hrun]; exact hwf, by rw [hrun]; exact hext, ?_⟩
      rw [hrun]
      have hm := means_node hwf hs.two_le (n := ⟨v, low, high⟩) (by simp)
      refine ⟨hm.has, fun α => ?_, hm.above⟩
      rw [hm.truth α, hext.truth hs α hlow, hext.truth hs α hhigh]

theorem branch_yields (hs : s.WellFormed) {v : Nat} {low high : Edge} (hv : 0 < v)
    (hlow : s.Has low) (hhigh : s.Has high) (hla : s.Above v low) (hha : s.Above v high) :
    Yields (branch v low high) s fun t r =>
      Means t (fun α => if α v then s.truth α high else s.truth α low) (· < v) r := by
  unfold branch
  cases hc : high.complemented with
  | false => exact regularNode_yields hs hv hlow hhigh hc hla hha
  | true =>
    have h := regularNode_yields hs hv hlow.flip hhigh.flip (by simp [Edge.flip, hc]) hla.flip hha.flip
    refine h.map fun r t _ _ hr => ?_
    refine ⟨hr.has.flip, fun α => ?_, fun w hw => (hr.above w hw).flip⟩
    rw [truth_flip, hr.truth α]
    split <;> simp

/-- The edge is the test of a single variable. -/
structure Literal (s : Store) (v : Nat) (e : Edge) : Prop where
  regular : e.complemented = false
  two_le : 2 ≤ e.index
  node : s.nodes[e.index]? = some ⟨v, .zero, .one⟩

namespace Literal

variable {v : Nat} {e : Edge}

theorem has (h : Literal s v e) : s.Has e :=
  ⟨Nat.le_of_lt h.two_le, (Array.getElem?_eq_some_iff.mp h.node).1⟩

theorem node_eq (h : Literal s v e) : s.node e = ⟨v, .zero, .one⟩ := by
  have := h.has.node
  rw [h.node] at this
  exact (Option.some.inj this).symm

theorem var_eq (h : Literal s v e) : s.var e = v := by rw [Store.var, h.node_eq]

theorem isTerminal_eq (h : Literal s v e) : e.isTerminal = false :=
  decide_eq_false (Nat.ne_of_gt h.two_le)

theorem truth_eq (h : Literal s v e) (hs : s.WellFormed) (α : Assignment) : s.truth α e = α v := by
  rw [Store.truth_eq hs α h.has h.two_le, h.var_eq, Store.high, Store.low, h.node_eq, h.regular]
  cases α v <;> simp [Edge.flipIf]

theorem extend (h : Literal s v e) (hst : s.Extends t) : Literal t v e :=
  ⟨h.regular, h.two_le, by rw [hst.node_eq _ h.has.2]; exact h.node⟩

end Literal

theorem literal_yields (hs : s.WellFormed) {v : Nat} (hv : 0 < v) :
    Yields (literal v) s fun t r => Literal t v r := by
  have h := branch_yields hs hv hs.has_zero hs.has_one (.zero v) (.one v)
  refine ⟨h.wellFormed, h.grows, ?_⟩
  have hrun : literal v s = regularNode v .zero .one s := rfl
  rw [hrun]
  unfold regularNode
  rw [if_neg (by decide)]
  split
  · rename_i i hi
    obtain ⟨h2, hn⟩ := (hs.unique_iff _ i).mp hi
    exact ⟨rfl, h2, hn⟩
  · exact ⟨rfl, hs.two_le, by simp⟩

section ite

variable {f g h : Edge}

def Store.choice (s : Store) (f g h : Edge) (α : Assignment) : Bool :=
  if s.truth α f then s.truth α g else s.truth α h

def Store.AllAbove (s : Store) (f g h : Edge) (v : Nat) : Prop :=
  s.Above v f ∧ s.Above v g ∧ s.Above v h

theorem Store.Extends.choice (hs : s.WellFormed) (hst : s.Extends t) (hf : s.Has f) (hg : s.Has g)
    (hh : s.Has h) : t.choice f g h = s.choice f g h := by
  funext α
  rw [Store.choice, hst.truth hs α hf, hst.truth hs α hg, hst.truth hs α hh, Store.choice]

/-- The diagrams for both values of the first variable that is tested. -/
structure Splits (s : Store) (v : Nat) (e : Edge) (c : Edge × Edge) : Prop where
  low_has : s.Has c.1
  high_has : s.Has c.2
  low_above : s.Above v c.1
  high_above : s.Above v c.2
  low_le : c.1.index ≤ e.index
  high_le : c.2.index ≤ e.index
  truth : ∀ α, s.truth α e = if α v then s.truth α c.2 else s.truth α c.1

theorem cofactors_splits (hs : s.WellFormed) {v : Nat} {e : Edge} (he : s.Has e)
    (hv : 2 ≤ e.index → v ≤ s.var e) : Splits s v e (s.cofactors e v) := by
  unfold Store.cofactors
  by_cases h1 : e.index = 1
  · rw [if_pos (by simp [Edge.isTerminal, h1])]
    exact ⟨he, he, .inl h1, .inl h1, Nat.le_refl _, Nat.le_refl _, fun α => (ite_self _).symm⟩
  · have h2 : 2 ≤ e.index := by have := he.1; omega
    by_cases hlt : v < s.var e
    · rw [if_pos (by simp [hlt])]
      exact ⟨he, he, .inr hlt, .inr hlt, Nat.le_refl _, Nat.le_refl _, fun α => (ite_self _).symm⟩
    · have hveq : v = s.var e := Nat.le_antisymm (hv h2) (Nat.le_of_not_lt hlt)
      rw [if_neg (by simp [Edge.isTerminal, h1, hlt]), hveq]
      exact ⟨Store.low_has hs he h2, Store.high_has hs he h2, Store.low_above hs he h2,
        Store.high_above hs he h2, Nat.le_of_lt (low_index_lt hs he h2),
        Nat.le_of_lt (high_index_lt hs he h2), fun α => Store.truth_eq hs α he h2⟩

theorem cofactors_lt (hs : s.WellFormed) {e : Edge} (he : s.Has e) (h2 : 2 ≤ e.index) :
    (s.cofactors e (s.var e)).1.index < e.index ∧ (s.cofactors e (s.var e)).2.index < e.index := by
  have h1 : e.index ≠ 1 := by omega
  rw [Store.cofactors, if_neg (by simp [Edge.isTerminal, h1])]
  exact ⟨low_index_lt hs he h2, high_index_lt hs he h2⟩

theorem topVar_le (s : Store) (f g h : Edge) :
    s.topVar f g h ≤ s.var f ∧ (2 ≤ g.index → s.topVar f g h ≤ s.var g) ∧
      (2 ≤ h.index → s.topVar f g h ≤ s.var h) := by
  simp only [Store.topVar, List.foldl_cons, List.foldl_nil, Edge.isTerminal, decide_eq_true_eq]
  grind

theorem topVar_eq (s : Store) (f g h : Edge) :
    s.topVar f g h = s.var f ∨ (g.index ≠ 1 ∧ s.topVar f g h = s.var g) ∨
      (h.index ≠ 1 ∧ s.topVar f g h = s.var h) := by
  simp only [Store.topVar, List.foldl_cons, List.foldl_nil, Edge.isTerminal, decide_eq_true_eq]
  grind

theorem standard_eq (f g h : Edge) : Triple.standard f g h =
    if f.complemented then
      if h.complemented then (⟨f.flip, h.flip, g.flip⟩, true) else (⟨f.flip, h, g⟩, false)
    else if g.complemented then (⟨f, g.flip, h.flip⟩, true) else (⟨f, g, h⟩, false) := by
  unfold Triple.standard
  cases f.complemented <;> rfl

/-- A triple and a complement that stand for the same function as three operands. -/
structure Standard (s : Store) (f g h : Edge) (n : Triple × Bool) : Prop where
  choice : ∀ α, s.choice f g h α = (s.choice n.1.test n.1.yes n.1.no α != n.2)
  above : ∀ v, s.AllAbove f g h v → s.AllAbove n.1.test n.1.yes n.1.no v
  test_regular : n.1.test.complemented = false
  yes_regular : n.1.yes.complemented = false
  test_index : n.1.test.index = f.index
  index_eq : n.1.yes.index + n.1.no.index = g.index + h.index
  test_has : s.Has n.1.test
  yes_has : s.Has n.1.yes
  no_has : s.Has n.1.no

theorem standard_spec (hf : s.Has f) (hg : s.Has g) (hh : s.Has h) :
    Standard s f g h (Triple.standard f g h) := by
  rw [standard_eq]
  cases hfc : f.complemented with
  | false =>
    cases hgc : g.complemented with
    | false =>
      exact ⟨fun α => (Bool.xor_false _).symm, fun v hv => hv, hfc, hgc, rfl, rfl, hf, hg, hh⟩
    | true =>
      refine ⟨fun α => ?_, fun v hv => hv, hfc, ?_, rfl, rfl, hf, hg, hh⟩
      · simp only [Store.choice]
        cases hα : s.truth α f <;> simp [hα]
      · simp [Edge.flip, hgc]
  | true =>
    cases hhc : h.complemented with
    | false =>
      refine ⟨fun α => ?_, fun v hv => ⟨hv.1, hv.2.2, hv.2.1⟩, ?_, hhc, rfl, Nat.add_comm _ _,
        hf, hh, hg⟩
      · simp only [Store.choice]
        cases hα : s.truth α f <;> simp [hα]
      · simp [Edge.flip, hfc]
    | true =>
      refine ⟨fun α => ?_, fun v hv => ⟨hv.1, hv.2.2, hv.2.1⟩, ?_, ?_, rfl, Nat.add_comm _ _,
        hf, hh, hg⟩
      · simp only [Store.choice]
        cases hα : s.truth α f <;> simp [hα]
      · simp [Edge.flip, hfc]
      · simp [Edge.flip, hhc]

theorem remember_yields (hs : s.WellFormed) {x : Triple} {r : Edge} (h : s.EntryFits x r) :
    Yields (remember x r) s fun t _ => t.nodes = s.nodes := by
  refine ⟨?_, ⟨Nat.le_refl _, fun _ _ => rfl⟩, rfl⟩
  have hext : s.Extends (remember x r s).2 := ⟨Nat.le_refl _, fun _ _ => rfl⟩
  refine ⟨hs.base, fun i n hi hn => (hs.fits i n hi hn).extend hext ?_, hs.unique_iff, ?_⟩
  · exact Nat.le_of_lt (Array.getElem?_eq_some_iff.mp hn).1
  · intro y q hy
    simp only [remember, Std.TreeMap.getElem?_insert] at hy
    split at hy
    · rename_i heq
      cases hy
      rw [Triple.compare_eq_iff] at heq
      exact heq ▸ h.extend hs hext
    · exact (hs.entry y q hy).extend hs hext

/-- One step of if-then-else: both parts are computed, joined by a test and remembered. -/
def joinParts (part : Edge → Edge → Edge → Build Edge) (s : Store) (x : Triple) (v : Nat) :
    Build Edge := do
  let low ← part (s.cofactors x.test v).1 (s.cofactors x.yes v).1 (s.cofactors x.no v).1
  let high ← part (s.cofactors x.test v).2 (s.cofactors x.yes v).2 (s.cofactors x.no v).2
  let e ← branch v low high
  remember x e
  return e

/-- One of the operands starts with the test of the first variable, so the parts are smaller. -/
theorem parts_smaller {x : Triple} {v : Nat} (hs : s.WellFormed)
    (htop : v = s.var x.test ∨ (x.yes.index ≠ 1 ∧ v = s.var x.yes) ∨
      (x.no.index ≠ 1 ∧ v = s.var x.no)) (hf : s.Has x.test) (hg : s.Has x.yes) (hh : s.Has x.no)
    (h2 : 2 ≤ x.test.index) (cf : Splits s v x.test (s.cofactors x.test v))
    (cg : Splits s v x.yes (s.cofactors x.yes v)) (ch : Splits s v x.no (s.cofactors x.no v)) :
    0 < v ∧
      (s.cofactors x.test v).1.index + (s.cofactors x.yes v).1.index + (s.cofactors x.no v).1.index <
        x.test.index + x.yes.index + x.no.index ∧
      (s.cofactors x.test v).2.index + (s.cofactors x.yes v).2.index + (s.cofactors x.no v).2.index <
        x.test.index + x.yes.index + x.no.index := by
  have := cf.low_le; have := cf.high_le; have := cg.low_le; have := cg.high_le
  have := ch.low_le; have := ch.high_le
  rcases htop with heq | ⟨h1, heq⟩ | ⟨h1, heq⟩
  · have hlt := cofactors_lt hs hf h2
    rw [← heq] at hlt
    exact ⟨heq ▸ var_pos hs hf h2, by omega, by omega⟩
  · have h2g : 2 ≤ x.yes.index := by have := hg.1; omega
    have hlt := cofactors_lt hs hg h2g
    rw [← heq] at hlt
    exact ⟨heq ▸ var_pos hs hg h2g, by omega, by omega⟩
  · have h2h : 2 ≤ x.no.index := by have := hh.1; omega
    have hlt := cofactors_lt hs hh h2h
    rw [← heq] at hlt
    exact ⟨heq ▸ var_pos hs hh h2h, by omega, by omega⟩

theorem Means.entryFits {x : Triple} {e : Edge} (hs : s.WellFormed) (hst : s.Extends t)
    (he : Means t (s.choice x.test x.yes x.no) (s.AllAbove x.test x.yes x.no) e)
    (hf : s.Has x.test) (hg : s.Has x.yes) (hh : s.Has x.no) (hfr : x.test.complemented = false)
    (hgr : x.yes.complemented = false) : t.EntryFits x e := by
  refine ⟨hf.extend hst, hg.extend hst, hh.extend hst, he.has, hfr, hgr, fun α => ?_, ?_⟩
  · rw [he.truth α, ← hst.choice hs hf hg hh]
    rfl
  · intro b hbf hbg hbh
    rw [Above, hst.var hf] at hbf
    rw [Above, hst.var hg] at hbg
    rw [Above, hst.var hh] at hbh
    exact he.above b ⟨hbf, hbg, hbh⟩

theorem joinParts_yields {part : Edge → Edge → Edge → Build Edge} {x : Triple} {v : Nat}
    (hs : s.WellFormed) (hv : s.topVar x.test x.yes x.no = v) (hf : s.Has x.test)
    (hg : s.Has x.yes) (hh : s.Has x.no) (h2 : 2 ≤ x.test.index)
    (hfr : x.test.complemented = false) (hgr : x.yes.complemented = false)
    (hpart : ∀ (t : Store) (f g h : Edge), t.WellFormed → t.Has f → t.Has g → t.Has h →
      f.index + g.index + h.index < x.test.index + x.yes.index + x.no.index →
      Yields (part f g h) t fun u r => Means u (t.choice f g h) (t.AllAbove f g h) r) :
    Yields (joinParts part s x v) s fun t r =>
      Means t (s.choice x.test x.yes x.no) (s.AllAbove x.test x.yes x.no) r := by
  obtain ⟨hvf, hvg, hvh⟩ := topVar_le s x.test x.yes x.no
  have htop := topVar_eq s x.test x.yes x.no
  rw [hv] at hvf hvg hvh htop
  have cf := cofactors_splits hs hf (v := v) fun _ => hvf
  have cg := cofactors_splits hs hg (v := v) hvg
  have ch := cofactors_splits hs hh (v := v) hvh
  obtain ⟨hpos, hlow, hhigh⟩ := parts_smaller hs htop hf hg hh h2 cf cg ch
  refine (hpart s _ _ _ hs cf.low_has cg.low_has ch.low_has hlow).bind fun low t ht hst hl => ?_
  refine (hpart t _ _ _ ht (cf.high_has.extend hst) (cg.high_has.extend hst)
    (ch.high_has.extend hst) hhigh).bind fun high u hu htu hh' => ?_
  have hla : u.Above v low := (hl.above v ⟨cf.low_above, cg.low_above, ch.low_above⟩).extend htu hl.has
  have hha : u.Above v high := hh'.above v ⟨cf.high_above.extend hst cf.high_has,
    cg.high_above.extend hst cg.high_has, ch.high_above.extend hst ch.high_has⟩
  refine (branch_yields hu hpos (hl.has.extend htu) hh'.has hla hha).bind fun e w hw huw he => ?_
  -- The joined diagram means the choice between the operands.
  have hm : Means w (s.choice x.test x.yes x.no) (s.AllAbove x.test x.yes x.no) e := by
    refine ⟨he.has, fun α => ?_, ?_⟩
    · rw [he.truth α, hh'.truth α, htu.truth ht α hl.has, hl.truth α,
        hst.choice hs cf.high_has cg.high_has ch.high_has]
      simp only [Store.choice, cf.truth α, cg.truth α, ch.truth α]
      cases α v <;> rfl
    · rintro b ⟨hbf, hbg, hbh⟩
      refine he.above b ?_
      rcases htop with heq | ⟨h1, heq⟩ | ⟨h1, heq⟩
      · exact heq ▸ hbf.resolve_left (by omega)
      · exact heq ▸ hbg.resolve_left h1
      · exact heq ▸ hbh.resolve_left h1
  have hentry := hm.entryFits hs ((hst.trans htu).trans huw) hf hg hh hfr hgr
  refine (remember_yields hw hentry).bind fun _ z hz hwz _ => .pure hz ?_
  exact ⟨hm.has.extend hwz, fun α => (hwz.truth hw α hm.has).trans (hm.truth α),
    fun b hb => (hm.above b hb).extend hwz hm.has⟩

/-- A choice is known from its standard form. -/
theorem Standard.means {x : Triple} {negated : Bool} {e : Edge}
    (hn : Standard s f g h (x, negated))
    (he : Means t (s.choice x.test x.yes x.no) (s.AllAbove x.test x.yes x.no) e) :
    Means t (s.choice f g h) (s.AllAbove f g h) (e.flipIf negated) := by
  refine ⟨he.has.flipIf _, fun α => ?_, fun v hv => (he.above v (hn.above v hv)).flipIf _⟩
  rw [truth_flipIf, he.truth, hn.choice]

/-- What one step of if-then-else does: it finds its result, goes on with simpler operands, or joins
the results for both parts of the standard form. -/
inductive IteStep (fuel : Nat) (s : Store) (f g h : Edge) : Prop
  | found (e : Edge) (run : iteWith (fuel + 1) f g h s = (e, s))
      (means : Means s (s.choice f g h) (s.AllAbove f g h) e)
  | simpler (g' h' : Edge) (run : iteWith (fuel + 1) f g h s = iteWith fuel f g' h' s)
      (yes_has : s.Has g') (no_has : s.Has h') (lt : g'.index + h'.index < g.index + h.index)
      (choice : ∀ α, s.choice f g' h' α = s.choice f g h α)
      (above : ∀ v, s.AllAbove f g h v → s.AllAbove f g' h' v)
  | joined (x : Triple) (negated : Bool) (standard : Standard s f g h (x, negated))
      (two_le : 2 ≤ f.index)
      (run : iteWith (fuel + 1) f g h s = (joinParts (iteWith fuel) s x
        (s.topVar x.test x.yes x.no) >>= fun e => Pure.pure (e.flipIf negated) : Build Edge) s)

theorem iteWith_nontrivial (fuel : Nat) (hf1 : f ≠ .one) (hf0 : f ≠ .zero) (hgh : g ≠ h)
    (h10 : ¬(g = .one ∧ h = .zero)) (h01 : ¬(g = .zero ∧ h = .one)) :
    iteWith (fuel + 1) f g h = if g = f then iteWith fuel f .one h
      else if h = f then iteWith fuel f g .zero
      else if g = f.flip then iteWith fuel f .zero h
      else if h = f.flip then iteWith fuel f g .one
      else do
        let found ← lookup? (Triple.standard f g h).1
        match found with
        | some e => return e.flipIf (Triple.standard f g h).2
        | none =>
          let s ← get
          return (← joinParts (iteWith fuel) s (Triple.standard f g h).1
            (s.topVar (Triple.standard f g h).1.test (Triple.standard f g h).1.yes
              (Triple.standard f g h).1.no)).flipIf (Triple.standard f g h).2 := by
  rw [iteWith, if_neg hf1, if_neg hf0, if_neg hgh, if_neg h10, if_neg h01]
  rfl

theorem iteStep_nontrivial (fuel : Nat) (hs : s.WellFormed) (hf : s.Has f) (hg : s.Has g)
    (hh : s.Has h) (hf1 : f ≠ .one) (hf0 : f ≠ .zero) (hgh : g ≠ h)
    (h10 : ¬(g = .one ∧ h = .zero)) (h01 : ¬(g = .zero ∧ h = .one)) : IteStep fuel s f g h := by
  have h1 := hs.has_one
  have h0 := hs.has_zero
  have hone : Edge.one.index = 1 := rfl
  have hzero : Edge.zero.index = 1 := rfl
  have hf2 : 2 ≤ f.index := by
    have hne : f.index ≠ 1 := fun he => (Edge.eq_one_or_zero he).elim hf1 hf0
    have := hf.1
    omega
  have hrun := iteWith_nontrivial fuel hf1 hf0 hgh h10 h01
  -- An operand that is the test or its opposite is a constant where it is chosen.
  by_cases hgf : g = f
  · have hgi := congrArg Edge.index hgf
    refine .simpler .one h (by rw [hrun, if_pos hgf]) h1 hh (by omega) (fun α => ?_)
      fun v hv => ⟨hv.1, .one v, hv.2.2⟩
    simp only [Store.choice, hgf]
    cases s.truth α f <;> simp
  by_cases hhf : h = f
  · have hhi := congrArg Edge.index hhf
    refine .simpler g .zero (by rw [hrun, if_neg hgf, if_pos hhf]) hg h0 (by omega) (fun α => ?_)
      fun v hv => ⟨hv.1, hv.2.1, .zero v⟩
    simp only [Store.choice, hhf]
    cases s.truth α f <;> simp
  by_cases hgn : g = f.flip
  · have hgi : g.index = f.index := by rw [hgn]; rfl
    refine .simpler .zero h (by rw [hrun, if_neg hgf, if_neg hhf, if_pos hgn]) h0 hh (by omega)
      (fun α => ?_) fun v hv => ⟨hv.1, .zero v, hv.2.2⟩
    simp only [Store.choice, hgn, truth_flip]
    cases s.truth α f <;> simp
  by_cases hhn : h = f.flip
  · have hhi : h.index = f.index := by rw [hhn]; rfl
    refine .simpler g .one (by rw [hrun, if_neg hgf, if_neg hhf, if_neg hgn, if_pos hhn]) hg h1
      (by omega) (fun α => ?_) fun v hv => ⟨hv.1, hv.2.1, .one v⟩
    simp only [Store.choice, hhn, truth_flip]
    cases s.truth α f <;> simp
  rw [if_neg hgf, if_neg hhf, if_neg hgn, if_neg hhn] at hrun
  have hn := standard_spec hf hg hh
  generalize Triple.standard f g h = n at hn hrun
  obtain ⟨x, negated⟩ := n
  cases hfind : s.computed[x]? with
  | some e =>
    have he := hs.entry x e hfind
    have hread : lookup? x s = (some e, s) := congrArg (·, s) hfind
    refine .found (e.flipIf negated) ?_
      (hn.means ⟨he.has, he.truth, fun v hv => he.above v hv.1 hv.2.1 hv.2.2⟩)
    rw [hrun, bind_of_read hread]
    rfl
  | none =>
    have hread : lookup? x s = (none, s) := congrArg (·, s) hfind
    refine .joined x negated hn hf2 ?_
    rw [hrun, bind_of_read hread]
    rfl

theorem iteWith_step (fuel : Nat) (hs : s.WellFormed) (hf : s.Has f) (hg : s.Has g)
    (hh : s.Has h) : IteStep fuel s f g h := by
  by_cases hf1 : f = .one
  · refine .found g (by rw [iteWith, if_pos hf1]; rfl) ⟨hg, fun α => ?_, fun v hv => hv.2.1⟩
    simp [Store.choice, hf1]
  by_cases hf0 : f = .zero
  · refine .found h (by rw [iteWith, if_neg hf1, if_pos hf0]; rfl)
      ⟨hh, fun α => ?_, fun v hv => hv.2.2⟩
    simp [Store.choice, hf0]
  by_cases hgh : g = h
  · refine .found g (by rw [iteWith, if_neg hf1, if_neg hf0, if_pos hgh]; rfl)
      ⟨hg, fun α => ?_, fun v hv => hv.2.1⟩
    simp [Store.choice, hgh]
  by_cases h10 : g = .one ∧ h = .zero
  · refine .found f (by rw [iteWith, if_neg hf1, if_neg hf0, if_neg hgh, if_pos h10]; rfl)
      ⟨hf, fun α => ?_, fun v hv => hv.1⟩
    simp [Store.choice, h10.1, h10.2]
  by_cases h01 : g = .zero ∧ h = .one
  · refine .found f.flip
      (by rw [iteWith, if_neg hf1, if_neg hf0, if_neg hgh, if_neg h10, if_pos h01]; rfl)
      ⟨hf.flip, fun α => ?_, fun v hv => hv.1.flip⟩
    simp [Store.choice, h01.1, h01.2]
  exact iteStep_nontrivial fuel hs hf hg hh hf1 hf0 hgh h10 h01

theorem iteWith_yields (fuel : Nat) (hs : s.WellFormed) (hf : s.Has f) (hg : s.Has g)
    (hh : s.Has h) (hfuel : f.index + g.index + h.index < fuel) :
    Yields (iteWith fuel f g h) s fun t r => Means t (s.choice f g h) (s.AllAbove f g h) r := by
  induction fuel generalizing s f g h with
  | zero => exact absurd hfuel (Nat.not_lt_zero _)
  | succ fuel ih =>
    cases iteWith_step fuel hs hf hg hh with
    | found e run means => exact .congr (c := Pure.pure e) run (.pure hs means)
    | simpler g' h' run hg' hh' lt choice above =>
      refine .congr run ((ih hs hf hg' hh' (by omega)).imp fun r t _ _ hr => ?_)
      exact hr.imp choice above
    | joined x negated hn hf2 run =>
      refine .congr run ?_
      have hindex : x.yes.index + x.no.index = g.index + h.index := hn.index_eq
      have htest : x.test.index = f.index := hn.test_index
      refine (joinParts_yields hs rfl hn.test_has hn.yes_has hn.no_has (htest ▸ hf2)
        hn.test_regular hn.yes_regular fun t f' g' h' ht hf' hg' hh' hlt => ?_).map
        fun e t _ _ he => hn.means he
      have hlt : f'.index + g'.index + h'.index < x.test.index + x.yes.index + x.no.index := hlt
      exact ih ht hf' hg' hh' (by omega)

theorem ite_yields (hs : s.WellFormed) (hf : s.Has f) (hg : s.Has g) (hh : s.Has h) :
    Yields (ite f g h) s fun t r => Means t (s.choice f g h) (s.AllAbove f g h) r :=
  iteWith_yields _ hs hf hg hh (Nat.lt_succ_self _)

end ite

structure Denotes (s : Store) (e : Edge) (p : Assignment → Bool) : Prop where
  has : s.Has e
  truth : ∀ α, s.truth α e = p α

namespace Denotes

variable {e : Edge} {p : Assignment → Bool}

theorem extend (h : Denotes s e p) (hs : s.WellFormed) (hst : s.Extends t) : Denotes t e p :=
  ⟨h.has.extend hst, fun α => (hst.truth hs α h.has).trans (h.truth α)⟩

theorem flip (h : Denotes s e p) : Denotes s e.flip fun α => !p α :=
  ⟨h.has.flip, fun α => by rw [truth_flip, h.truth]⟩

theorem one (hs : s.WellFormed) : Denotes s .one fun _ => true := ⟨hs.has_one, fun _ => rfl⟩

theorem zero (hs : s.WellFormed) : Denotes s .zero fun _ => false := ⟨hs.has_zero, fun _ => rfl⟩

theorem congr {q : Assignment → Bool} (h : Denotes s e p) (hpq : ∀ α, p α = q α) : Denotes s e q :=
  ⟨h.has, fun α => (h.truth α).trans (hpq α)⟩

end Denotes

section connectives

variable {u v w : Edge} {p q r : Assignment → Bool}

theorem ite_denotes (hs : s.WellFormed) (hu : Denotes s u p) (hv : Denotes s v q)
    (hw : Denotes s w r) :
    Yields (ite u v w) s fun t e => Denotes t e fun α => if p α then q α else r α := by
  refine (ite_yields hs hu.has hv.has hw.has).imp fun e t _ _ he => ⟨he.has, fun α => ?_⟩
  rw [he.truth, Store.choice, hu.truth, hv.truth, hw.truth]

theorem and_denotes (hs : s.WellFormed) (hu : Denotes s u p) (hv : Denotes s v q) :
    Yields (and u v) s fun t e => Denotes t e fun α => p α && q α := by
  refine (ite_denotes hs hu hv (.zero hs)).imp fun e t _ _ he => he.congr fun α => ?_
  cases p α <;> simp

theorem or_denotes (hs : s.WellFormed) (hu : Denotes s u p) (hv : Denotes s v q) :
    Yields (or u v) s fun t e => Denotes t e fun α => p α || q α := by
  refine (ite_denotes hs hu (.one hs) hv).imp fun e t _ _ he => he.congr fun α => ?_
  cases p α <;> simp

theorem xor_denotes (hs : s.WellFormed) (hu : Denotes s u p) (hv : Denotes s v q) :
    Yields (xor u v) s fun t e => Denotes t e fun α => p α != q α := by
  refine (ite_denotes hs hu hv.flip hv).imp fun e t _ _ he => he.congr fun α => ?_
  cases p α <;> simp

theorem eq_denotes (hs : s.WellFormed) (hu : Denotes s u p) (hv : Denotes s v q) :
    Yields (eq u v) s fun t e => Denotes t e fun α => p α == q α := by
  refine (ite_denotes hs hu hv hv.flip).imp fun e t _ _ he => he.congr fun α => ?_
  cases p α <;> simp

theorem imply_denotes (hs : s.WellFormed) (hu : Denotes s u p) (hv : Denotes s v q) :
    Yields (imply u v) s fun t e => Denotes t e fun α => !p α || q α := by
  refine (ite_denotes hs hu hv (.one hs)).imp fun e t _ _ he => he.congr fun α => ?_
  cases p α <;> simp

theorem andFrom_denotes {es : List Edge} (hs : s.WellFormed) (hu : Denotes s u p)
    (hes : ∀ e ∈ es, s.Has e) :
    Yields (andFrom u es) s fun t e => Denotes t e fun α => p α && es.all (s.truth α) := by
  induction es generalizing s u p with
  | nil => exact .pure hs (hu.congr fun α => by simp)
  | cons e es ih =>
    have he := hes e List.mem_cons_self
    refine (and_denotes hs hu ⟨he, fun _ => rfl⟩).bind fun r t ht hst hr => ?_
    have hrest : ∀ e ∈ es, s.Has e := fun e he => hes e (List.mem_cons_of_mem _ he)
    -- The rest keeps its meaning in the larger store.
    have hall : ∀ α, es.all (t.truth α) = es.all (s.truth α) := by
      intro α
      rw [Bool.eq_iff_iff, List.all_eq_true, List.all_eq_true]
      exact forall₂_congr fun e he => by rw [hst.truth hs α (hrest e he)]
    by_cases hzero : r = .zero
    · rw [if_pos hzero]
      refine .pure ht ⟨hr.has, fun α => ?_⟩
      have hfalse : (p α && s.truth α e) = false := by rw [← hr.truth α, hzero]; rfl
      rw [hr.truth α, hfalse, List.all_cons, ← Bool.and_assoc, hfalse, Bool.false_and]
    · rw [if_neg hzero]
      refine (ih ht hr fun e he => (hrest e he).extend hst).imp fun r' w _ _ hr' => ?_
      refine hr'.congr fun α => ?_
      rw [hall α, List.all_cons, Bool.and_assoc]

theorem andMany_denotes {es : List Edge} (hs : s.WellFormed) (hes : ∀ e ∈ es, s.Has e) :
    Yields (andMany es) s fun t e => Denotes t e fun α => es.all (s.truth α) :=
  andFrom_denotes hs (.one hs) hes

end connectives

end InvariantSynthesis.Diagram
