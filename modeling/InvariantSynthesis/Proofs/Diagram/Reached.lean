import InvariantSynthesis.Proofs.Diagram.Ite

namespace InvariantSynthesis.Diagram

open Store

namespace Store

variable {s : Store} {i j : Nat} {n : Node}

theorem WellFormed.parts (hs : s.WellFormed) (h2 : 2 ≤ i) (hn : s.nodes[i]? = some n) :
    ∀ e ∈ [n.low, n.high], s.Has e ∧ e.index < i ∧ s.Above n.var e := by
  have hfits := hs.fits i n h2 hn
  have hi : i < s.nodes.size := (Array.getElem?_eq_some_iff.mp hn).1
  intro e he
  obtain rfl | rfl : e = n.low ∨ e = n.high := by simpa using he
  · exact ⟨⟨hfits.low_pos, Nat.lt_trans hfits.low_lt hi⟩, hfits.low_lt, hfits.low_above⟩
  · exact ⟨⟨hfits.high_pos, Nat.lt_trans hfits.high_lt hi⟩, hfits.high_lt, hfits.high_above⟩

theorem WellFormed.truth_node (hs : s.WellFormed) (h2 : 2 ≤ i) (hn : s.nodes[i]? = some n)
    (α : Assignment) :
    s.truth α ⟨i, false⟩ = if α n.var then s.truth α n.high else s.truth α n.low := by
  have hhas : s.Has ⟨i, false⟩ := ⟨Nat.le_of_succ_le h2, (Array.getElem?_eq_some_iff.mp hn).1⟩
  have hnode : s.node ⟨i, false⟩ = n := Option.some.inj (hhas.node.symm.trans hn)
  rw [truth_eq hs α hhas h2, Store.var, Store.low, Store.high, hnode]
  rfl

/-- A node has one place. The terminal tests no variable, so no other node is like it. -/
theorem WellFormed.place_inj (hs : s.WellFormed) (hi : 1 ≤ i) (hj : 1 ≤ j)
    (hn : s.nodes[i]? = some n) (hn' : s.nodes[j]? = some n) : i = j := by
  have hterminal : ∀ k, 2 ≤ k → s.nodes[k]? = some n → s.nodes[1]? ≠ some n := by
    intro k hk hkn h1
    obtain rfl : terminal = n := Option.some.inj ((hs.base 1 (by omega)).symm.trans h1)
    exact Nat.lt_irrefl 0 (hs.fits k _ hk hkn).var_pos
  by_cases hi2 : 2 ≤ i
  · by_cases hj2 : 2 ≤ j
    · have hfound := (hs.unique_iff n i).mpr ⟨hi2, hn⟩
      exact Option.some.inj (hfound.symm.trans ((hs.unique_iff n j).mpr ⟨hj2, hn'⟩))
    · obtain rfl : j = 1 := by omega
      exact absurd hn' (hterminal i hi2 hn)
  · obtain rfl : i = 1 := by omega
    by_cases hj2 : 2 ≤ j
    · exact absurd hn (hterminal j hj2 hn')
    · omega

end Store

/-- A call that asks a store for a diagram. -/
inductive Call where
  | literal (v : Nat)
  | branch (v : Nat) (low high : Edge)
  | ite (f g h : Edge)
  | and (u v : Edge)
  | or (u v : Edge)
  | xor (u v : Edge)
  | eq (u v : Edge)
  | imply (u v : Edge)
  | andMany (es : List Edge)

namespace Call

def operands : Call → List Edge
  | literal _ => []
  | branch _ low high => [low, high]
  | ite f g h => [f, g, h]
  | and u v | or u v | xor u v | eq u v | imply u v => [u, v]
  | andMany es => es

def run : Call → ExceptT Fault (StateM Store) Edge
  | literal v => literalOf v
  | branch v low high => branchOn v low high
  | ite f g h => liftM (Diagram.ite f g h)
  | and u v => liftM (Diagram.and u v)
  | or u v => liftM (Diagram.or u v)
  | xor u v => liftM (Diagram.xor u v)
  | eq u v => liftM (Diagram.eq u v)
  | imply u v => liftM (Diagram.imply u v)
  | andMany es => liftM (Diagram.andMany es)

/-- The operands are edges of the store, and a variable is branched on before those that the parts
test. -/
structure Allowed (s : Store) (c : Call) : Prop where
  has : ∀ e ∈ c.operands, s.Has e
  ordered : ∀ {v : Nat} {low high : Edge}, c = branch v low high → s.Above v low ∧ s.Above v high

/-- What a call leaves behind. -/
structure Keeps (s : Store) (r : Except Fault Edge × Store) : Prop where
  wellFormed : r.2.WellFormed
  grows : s.Extends r.2
  has : ∀ {e}, r.1 = .ok e → r.2.Has e

variable {s : Store} {c : Call}

theorem Keeps.of_yields {b : Build Edge} {p : Assignment → Bool}
    (h : Yields b s fun t e => Denotes t e p) :
    Keeps s ((liftM b : ExceptT Fault (StateM Store) Edge) s) := by
  refine ⟨h.wellFormed, h.grows, fun {e} he => ?_⟩
  obtain rfl : (b s).1 = e := Except.ok.inj he
  exact h.result.has

theorem branchOn_keeps (hs : s.WellFormed) {v : Nat} {low high : Edge} (hlow : s.Has low)
    (hhigh : s.Has high) (hla : s.Above v low) (hha : s.Above v high) :
    Keeps s (branchOn v low high s) := by
  unfold branchOn
  by_cases hv : v = 0
  · rw [if_pos hv]
    exact ⟨hs, .refl s, fun he => by cases he⟩
  · rw [if_neg hv]
    exact .of_yields ((branch_yields hs (Nat.pos_of_ne_zero hv) hlow hhigh hla hha).imp
      fun e t _ _ he => ⟨he.has, he.truth⟩)

theorem run_keeps (hs : s.WellFormed) (hc : c.Allowed s) : Keeps s (c.run s) := by
  have h : ∀ e ∈ c.operands, Denotes s e fun α => s.truth α e :=
    fun e he => ⟨hc.has e he, fun _ => rfl⟩
  cases c with
  | literal v => exact branchOn_keeps hs hs.has_zero hs.has_one (.zero v) (.one v)
  | branch v low high =>
    obtain ⟨hla, hha⟩ := hc.ordered rfl
    exact branchOn_keeps hs (h low (by simp [operands])).has (h high (by simp [operands])).has hla hha
  | ite f g k =>
    exact .of_yields (ite_denotes hs (h f (by simp [operands])) (h g (by simp [operands]))
      (h k (by simp [operands])))
  | and u v => exact .of_yields (and_denotes hs (h u (by simp [operands])) (h v (by simp [operands])))
  | or u v => exact .of_yields (or_denotes hs (h u (by simp [operands])) (h v (by simp [operands])))
  | xor u v => exact .of_yields (xor_denotes hs (h u (by simp [operands])) (h v (by simp [operands])))
  | eq u v => exact .of_yields (eq_denotes hs (h u (by simp [operands])) (h v (by simp [operands])))
  | imply u v =>
    exact .of_yields (imply_denotes hs (h u (by simp [operands])) (h v (by simp [operands])))
  | andMany es => exact .of_yields (andMany_denotes hs hc.has)

end Call

/-- A store that calls have built from the empty one, with the edges that they returned. -/
inductive Reached : Store → List Edge → Prop
  | empty : Reached .empty []
  | answered {s t : Store} {es : List Edge} {c : Call} {e : Edge} : Reached s es → c.Allowed s →
      c.run s = (.ok e, t) → Reached t (e :: es)
  | refused {s t : Store} {es : List Edge} {c : Call} {f : Fault} : Reached s es → c.Allowed s →
      c.run s = (.error f, t) → Reached t es

namespace Reached

variable {s : Store} {es : List Edge}

theorem wellFormed (h : Reached s es) : s.WellFormed := by
  induction h with
  | empty => exact wellFormed_empty
  | answered _ hc hrun ih | refused _ hc hrun ih =>
    have hkeeps := Call.run_keeps ih hc
    rw [hrun] at hkeeps
    exact hkeeps.wellFormed

theorem has (h : Reached s es) : ∀ e ∈ es, s.Has e := by
  induction h with
  | empty => exact fun e he => nomatch he
  | answered hs hc hrun ih =>
    have hkeeps := Call.run_keeps hs.wellFormed hc
    rw [hrun] at hkeeps
    intro e he
    obtain rfl | he := List.mem_cons.mp he
    · exact hkeeps.has rfl
    · exact (ih e he).extend hkeeps.grows
  | refused hs hc hrun ih =>
    have hkeeps := Call.run_keeps hs.wellFormed hc
    rw [hrun] at hkeeps
    exact fun e he => (ih e he).extend hkeeps.grows

def after (cs : List Call) : Store := cs.foldl (fun s c => (c.run s).2) .empty

/-- Whatever calls have built a store, every node after the terminal has a regular high edge, tells
its two parts apart and comes before them in the order of the variables, as their branch. The table of
nodes gives the place of every such node and nothing else, so no node is stored twice. A remembered
result belongs to a regular test and a regular first part, and it is their if-then-else. -/
theorem tables_agree (h : Reached s es) :
    (∀ i n, 2 ≤ i → s.nodes[i]? = some n →
      0 < n.var ∧ n.high.complemented = false ∧ n.low ≠ n.high ∧
      (∀ e ∈ [n.low, n.high], s.Has e ∧ e.index < i ∧ s.Above n.var e) ∧
      ∀ α, s.truth α ⟨i, false⟩ = if α n.var then s.truth α n.high else s.truth α n.low) ∧
    (∀ n i, s.unique[n]? = some i ↔ 2 ≤ i ∧ s.nodes[i]? = some n) ∧
    (∀ i j n, 1 ≤ i → 1 ≤ j → s.nodes[i]? = some n → s.nodes[j]? = some n → i = j) ∧
    ∀ f g k r, s.computed[(⟨f, g, k⟩ : Triple)]? = some r →
      f.complemented = false ∧ g.complemented = false ∧ (∀ e ∈ [f, g, k, r], s.Has e) ∧
      ∀ α, s.truth α r = if s.truth α f then s.truth α g else s.truth α k := by
  have hs := h.wellFormed
  refine ⟨fun i n h2 hn => ?_, hs.unique_iff, fun i j n => hs.place_inj, fun f g k r hr => ?_⟩
  · have hfits := hs.fits i n h2 hn
    exact ⟨hfits.var_pos, hfits.regular, hfits.differ, hs.parts h2 hn, hs.truth_node h2 hn⟩
  · have hfits := hs.entry ⟨f, g, k⟩ r hr
    refine ⟨hfits.test_regular, hfits.yes_regular, fun e he => ?_, hfits.truth⟩
    obtain rfl | rfl | rfl | rfl : e = f ∨ e = g ∨ e = k ∨ e = r := by simpa using he
    · exact hfits.test_has
    · exact hfits.yes_has
    · exact hfits.no_has
    · exact hfits.has

/-- A test in front of two complemented literals, and the exclusive or of its complement with one of
the literals, for which the store remembers two results. -/
def choice : List Call :=
  [.literal 3, .literal 2, .branch 1 ⟨2, true⟩ ⟨3, true⟩, .xor ⟨4, true⟩ ⟨2, false⟩]

theorem reached_choice :
    Reached (after choice) [⟨6, false⟩, ⟨4, true⟩, ⟨3, false⟩, ⟨2, false⟩] := by
  have h1 : Reached (after (choice.take 1)) [⟨2, false⟩] :=
    .answered (c := .literal 3) .empty ⟨by decide, nofun⟩ rfl
  have h2 : Reached (after (choice.take 2)) [⟨3, false⟩, ⟨2, false⟩] :=
    .answered (c := .literal 2) h1 ⟨by decide, nofun⟩ rfl
  have h3 : Reached (after (choice.take 3)) [⟨4, true⟩, ⟨3, false⟩, ⟨2, false⟩] := by
    refine .answered (c := .branch 1 ⟨2, true⟩ ⟨3, true⟩) h2 ⟨by decide, fun hc => ?_⟩ rfl
    cases hc
    exact ⟨.inr (by decide), .inr (by decide)⟩
  exact .answered (c := .xor ⟨4, true⟩ ⟨2, false⟩) h3 ⟨by decide, nofun⟩ rfl

theorem tables_agree_choice :
    Reached (after choice) [⟨6, false⟩, ⟨4, true⟩, ⟨3, false⟩, ⟨2, false⟩] ∧
      (after choice).unique[(⟨1, ⟨2, false⟩, ⟨3, false⟩⟩ : Node)]? = some 4 ∧
      (∀ j, 1 ≤ j → (after choice).nodes[j]? = some ⟨1, ⟨2, false⟩, ⟨3, false⟩⟩ → j = 4) ∧
      ∀ α, (after choice).truth α ⟨6, false⟩ =
        if (after choice).truth α ⟨4, false⟩ then (after choice).truth α ⟨2, false⟩
        else (after choice).truth α ⟨2, true⟩ := by
  obtain ⟨-, hunique, hplace, hentry⟩ := tables_agree reached_choice
  have hnode : (after choice).nodes[4]? = some ⟨1, ⟨2, false⟩, ⟨3, false⟩⟩ := by decide +kernel
  refine ⟨reached_choice, (hunique _ 4).mpr ⟨by decide, hnode⟩, fun j hj hn => ?_, ?_⟩
  · exact hplace j 4 _ hj (by decide) hn hnode
  · exact (hentry ⟨4, false⟩ ⟨2, false⟩ ⟨2, true⟩ ⟨6, false⟩ (by decide +kernel)).2.2.2

end Reached

end InvariantSynthesis.Diagram
