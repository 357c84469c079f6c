import InvariantSynthesis.Proofs.BitSolver.Exact

namespace InvariantSynthesis

open Diagram

namespace BitSolver

variable {s t : BitSolver} {layout : Layout} {i j i' j' : Nat} {e e' : Edge}

/-- The edge is bit `j` of the variable at place `i` of the list. -/
def BitAt (s : BitSolver) (i j : Nat) (e : Edge) : Prop :=
  ∃ n x, s.symbols.entries[i]? = some (n, x) ∧ x.bits[j]? = some e

theorem Laid.placed_of_entry (h : Laid layout s) {n : String} {x : Term}
    (hi : s.symbols.entries[i]? = some (n, x)) : Placed layout s n x :=
  h.placed n x (h.once.get?_of_entry hi)

theorem Laid.length_bits (h : Laid layout s) {n : String} {x : Term}
    (hi : s.symbols.entries[i]? = some (n, x)) :
    x.bits.length = if x.sort = .int then s.width else 1 := by
  have hlength := (h.placed_of_entry hi).length
  cases x with
  | bool e => exact hlength
  | int w => exact hlength

theorem Laid.literal (h : Laid layout s) (hb : s.BitAt i j e) :
    Literal s.store (s.store.var e) e ∧ 0 < s.store.var e ∧ s.store.var e < s.nextVar := by
  obtain ⟨n, x, hi, hj⟩ := hb
  obtain ⟨v, hpos, hlt, hv, -⟩ := (h.placed_of_entry hi).literal j e hj
  rw [hv.var_eq]
  exact ⟨hv, hpos, hlt⟩

theorem Laid.layout_eq (h : Laid layout s) (hb : s.BitAt i j e) :
    ∃ n x, s.symbols.entries[i]? = some (n, x) ∧ layout (s.store.var e) = some (n, j) := by
  obtain ⟨n, x, hi, hj⟩ := hb
  obtain ⟨v, -, -, hv, hlayout⟩ := (h.placed_of_entry hi).literal j e hj
  exact ⟨n, x, hi, by rw [hv.var_eq, hlayout]⟩

theorem Laid.bit_unique (h : Laid layout s) (hb : s.BitAt i j e) (hb' : s.BitAt i' j' e')
    (hvar : s.store.var e = s.store.var e') : i = i' ∧ j = j' := by
  obtain ⟨n, x, hi, hlayout⟩ := h.layout_eq hb
  obtain ⟨n', x', hi', hlayout'⟩ := h.layout_eq hb'
  rw [hvar, hlayout', Option.some.injEq, Prod.mk.injEq] at hlayout
  obtain ⟨rfl, rfl⟩ := hlayout
  exact ⟨h.once.place_eq hi hi', rfl⟩

theorem Adds.node_eq (h : s.Adds t) (hs : s.Valid) (hb : s.BitAt i j e) :
    t.store.node e = s.store.node e := by
  obtain ⟨layout, hlaid⟩ := hs
  exact h.store.node (hlaid.literal hb).1.has

theorem execute_append (s : BitSolver) (commands more : List Command) :
    s.execute (commands ++ more) = more.foldl step (s.execute commands) := by
  rw [execute, List.foldl_append, execute]

/-- After any commands, whether they were carried out or refused, the index has the place of a name in
the list and nothing else, and no name is listed twice. An integer has as many bits as the solver is
wide, a boolean has one. Every bit is the positive literal of a diagram variable that was given out, and
no two bits have the same variable. Whatever commands follow, the list only grows at its end, and the
bits are the nodes that they were. -/
theorem symbols_own_bits {width limit : Nat} {s₀ : BitSolver} (hs₀ : create width limit = .ok s₀)
    (commands more : List Command) :
    let s := (s₀.execute commands).1
    let t := (s₀.execute (commands ++ more)).1
    (∀ n i, s.symbols.index.get? n = some i ↔ ∃ x, s.symbols.entries[i]? = some (n, x)) ∧
      (s.symbols.entries.map (·.1)).Nodup ∧
      (∀ (i : Nat) (n : String) (x : Term), s.symbols.entries[i]? = some (n, x) →
        x.bits.length = if x.sort = .int then width else 1) ∧
      (∀ i j e, s.BitAt i j e →
        Literal s.store (s.store.var e) e ∧ 0 < s.store.var e ∧ s.store.var e < s.nextVar) ∧
      (∀ i j e i' j' e', s.BitAt i j e → s.BitAt i' j' e' → s.store.var e = s.store.var e' →
        i = i' ∧ j = j') ∧
      s.symbols.entries <+: t.symbols.entries ∧
      ∀ i j e, s.BitAt i j e → t.store.node e = s.store.node e := by
  obtain ⟨-, -, hkeeps, -, hwidth⟩ := keeps_of_create hs₀ commands
  obtain ⟨-, hadds⟩ := foldl_step_keeps hkeeps more
  obtain ⟨layout, hlaid⟩ := hkeeps.valid
  rw [execute_append]
  refine ⟨fun n i => hlaid.once.index_iff, hlaid.once, fun i n x hi => ?_, fun i j e => hlaid.literal,
    fun i j e i' j' e' => hlaid.bit_unique, hadds.entries, fun i j e => hadds.node_eq hkeeps.valid⟩
  rw [hlaid.length_bits hi, hwidth]

/-- A list that is refused after its boolean was entered, an integer that gets bits in an assertion, a
list of two integers, and an assertion that is refused. -/
def disturbed : List Command :=
  [.declare [("a", .bool), ("x", .int), ("a", .int)], .assert (.lt (.intVar "z") (.int 0)), .push,
    .declare [("x", .int), ("z", .int), ("y", .int)], .assert (.boolVar "y")]

theorem symbols_own_bits_disturbed :
    ∃ s₀, create 2 100 = .ok s₀ ∧
      let s := (s₀.execute disturbed).1
      let t := (s₀.execute (disturbed ++ [.check, .pop, .pop, .declare [("b", .bool)]])).1
      s.symbols.entries.map (·.1) = ["a", "z", "x", "y"] ∧ s.nextVar = 8 ∧
        s.symbols.index.get? "y" = some 3 ∧ s.symbols.entries <+: t.symbols.entries ∧
        ∃ e e', s.BitAt 2 0 e ∧ s.BitAt 3 1 e' ∧ s.store.var e ≠ s.store.var e' := by
  have hcreate : create 2 100 = .ok (fresh 2 100) := rfl
  obtain ⟨hindex, -, -, -, hdistinct, hgrown, -⟩ :=
    symbols_own_bits hcreate disturbed [.check, .pop, .pop, .declare [("b", .bool)]]
  refine ⟨fresh 2 100, hcreate, by decide +kernel, by decide +kernel, (hindex "y" 3).mpr ?_, hgrown, ?_⟩
  · exact ⟨_, rfl⟩
  · have hx : BitAt ((fresh 2 100).execute disturbed).1 2 0 _ := ⟨_, _, rfl, rfl⟩
    have hy : BitAt ((fresh 2 100).execute disturbed).1 3 1 _ := ⟨_, _, rfl, rfl⟩
    refine ⟨_, _, hx, hy, fun hvar => ?_⟩
    exact absurd (hdistinct _ _ _ _ _ _ hx hy hvar).1 (by decide)

end BitSolver

end InvariantSynthesis
