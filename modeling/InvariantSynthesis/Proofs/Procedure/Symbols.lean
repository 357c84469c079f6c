import InvariantSynthesis.Proofs.Expr.Occurrence
import InvariantSynthesis.Proofs.Template.SortCheck

namespace InvariantSynthesis

theorem Expr.mem_names_symbols {e : Expr} {n : String} : n ∈ e.symbols.names ↔ e.Mentions n := by
  constructor
  · intro h
    obtain ⟨sort, hsort⟩ := Option.isSome_iff_exists.mp (Table.mem_names_iff.mp h)
    exact ⟨sort, (get?_symbols.mp hsort).mem⟩
  · rintro ⟨sort, h⟩
    obtain ⟨_, hmem, -⟩ := mem_symbols h
    exact List.mem_map.mpr ⟨_, hmem, rfl⟩

/-- A name stands in a block, other than in an assertion. -/
inductive Block.Uses (b : Block) (n : String) : Prop
  | guard (h : b.guard.Mentions n)
  | defined (e : Equality) (he : e ∈ b.equalities) (h : e.lhs = n)
  | definition (e : Equality) (he : e ∈ b.equalities) (h : e.rhs.Mentions n)
  | constraint (e : Expr) (he : e ∈ b.constraints) (h : e.Mentions n)
  | cond (e : Expr) (he : b.cond = some e) (h : e.Mentions n)
  | carried (v : LoopVar) (hv : v ∈ b.loopVars) (h : v.lb = n)
  | flowing (v : LoopVar) (hv : v ∈ b.loopVars) (h : v.post.Mentions n)

namespace Block

variable {b : Block} {n : String}

def exprs (b : Block) : List Expr :=
  [b.guard] ++ b.equalities.map (·.rhs) ++ b.constraints ++ b.cond.toList ++ b.loopVars.map (·.post)

theorem mem_mentions : n ∈ b.mentions.map (·.1) ↔ (∃ e ∈ b.equalities, e.lhs = n) ∨
    (∃ v ∈ b.loopVars, v.lb = n) ∨ ∃ e ∈ b.exprs, e.Mentions n := by
  have hexprs : n ∈ (b.exprs.flatMap fun e => e.symbols.entries).map (·.1) ↔
      ∃ e ∈ b.exprs, e.Mentions n := by
    rw [List.map_flatMap, List.mem_flatMap]
    exact exists_congr fun e => and_congr_right fun _ => Expr.mem_names_symbols
  rw [mentions, List.map_append, List.map_append, List.mem_append, List.mem_append, or_assoc,
    ← exprs, hexprs]
  simp

theorem exists_mem_exprs : (∃ e ∈ b.exprs, e.Mentions n) ↔ b.guard.Mentions n ∨
    (∃ e ∈ b.equalities, e.rhs.Mentions n) ∨ (∃ e ∈ b.constraints, e.Mentions n) ∨
    (∃ e, b.cond = some e ∧ e.Mentions n) ∨ ∃ v ∈ b.loopVars, v.post.Mentions n := by
  simp [exprs, or_and_right, exists_or]

theorem mem_mentions_iff : n ∈ b.mentions.map (·.1) ↔ b.Uses n := by
  rw [mem_mentions, exists_mem_exprs]
  constructor
  · rintro (⟨e, he, h⟩ | ⟨v, hv, h⟩ | h | ⟨e, he, h⟩ | ⟨e, he, h⟩ | ⟨e, he, h⟩ | ⟨v, hv, h⟩)
    · exact .defined e he h
    · exact .carried v hv h
    · exact .guard h
    · exact .definition e he h
    · exact .constraint e he h
    · exact .cond e he h
    · exact .flowing v hv h
  · intro huses
    cases huses with
    | guard h => exact .inr (.inr (.inl h))
    | defined e he h => exact .inl ⟨e, he, h⟩
    | definition e he h => exact .inr (.inr (.inr (.inl ⟨e, he, h⟩)))
    | constraint e he h => exact .inr (.inr (.inr (.inr (.inl ⟨e, he, h⟩))))
    | cond e he h => exact .inr (.inr (.inr (.inr (.inr (.inl ⟨e, he, h⟩)))))
    | carried v hv h => exact .inr (.inl ⟨v, hv, h⟩)
    | flowing v hv h => exact .inr (.inr (.inr (.inr (.inr (.inr ⟨v, hv, h⟩)))))

end Block

namespace Procedure

variable {p : Procedure} {n : String}

/-- A name stands in what is enabled or asserted. -/
inductive Demands (p : Procedure) (n : String) : Prop
  | enabling (e : Expr) (he : e ∈ p.enabling) (h : e.Mentions n)
  | assertion (b : Block) (hb : b ∈ p.blocks) (a : Assertion) (ha : a ∈ b.assertions)
      (h : a.condition.Mentions n)

/-- A name stands somewhere in a procedure. -/
inductive Mentions (p : Procedure) (n : String) : Prop
  | input (h : n ∈ p.inputs.map (·.1))
  | block (b : Block) (hb : b ∈ p.blocks) (h : b.Uses n)
  | demand (h : p.Demands n)

theorem mem_names_symbols :
    n ∈ p.symbols.map (·.1) ↔ n ∈ p.inputs.map (·.1) ∨ ∃ b ∈ p.blocks, b.Uses n := by
  obtain ⟨others, hsymbols, -, hmem⟩ := p.symbols_eq
  rw [hsymbols, List.map_append, List.mem_append, hmem]
  simp only [Block.mem_mentions_iff]
  by_cases hn : n ∈ p.inputs.map (·.1) <;> simp [hn]

theorem nodup_names_symbols : (p.symbols.map (·.1)).Nodup ↔ (p.inputs.map (·.1)).Nodup := by
  obtain ⟨others, hsymbols, hnodup, hmem⟩ := p.symbols_eq
  rw [hsymbols, List.map_append, List.nodup_append]
  refine ⟨fun h => h.1, fun h => ⟨h, hnodup, fun n hn m hm heq => ?_⟩⟩
  exact ((hmem m).mp hm).1 (heq ▸ hn)

theorem mem_names_symbols_iff_mentions : (∀ n, n ∈ p.symbols.map (·.1) ↔ p.Mentions n) ↔
    ∀ n, p.Demands n → n ∈ p.inputs.map (·.1) ∨ ∃ b ∈ p.blocks, b.Uses n := by
  constructor
  · intro h n hn
    exact mem_names_symbols.mp ((h n).mpr (.demand hn))
  · intro h n
    rw [mem_names_symbols]
    constructor
    · rintro (hn | ⟨b, hb, hn⟩)
      · exact .input hn
      · exact .block b hb hn
    · intro hn
      cases hn with
      | input hn => exact .inl hn
      | block b hb hn => exact .inr ⟨b, hb, hn⟩
      | demand hn => exact h n hn

/-- For any procedure, the inputs are listed as they are given, and behind them every other name that
a block uses, each once. So every name that stands in the procedure is listed once and no other name
is, exactly if no input is given twice and every name in an enabling expression or an assertion is
also the name of an input or used by a block. -/
theorem symbols_exhaustive_iff (p : Procedure) :
    (∃ others, p.symbols = p.inputs ++ others ∧ (others.map (·.1)).Nodup ∧
      ∀ n, n ∈ others.map (·.1) ↔ n ∉ p.inputs.map (·.1) ∧ ∃ b ∈ p.blocks, b.Uses n) ∧
    ((p.symbols.map (·.1)).Nodup ∧ (∀ n, n ∈ p.symbols.map (·.1) ↔ p.Mentions n) ↔
      (p.inputs.map (·.1)).Nodup ∧
        ∀ n, p.Demands n → n ∈ p.inputs.map (·.1) ∨ ∃ b ∈ p.blocks, b.Uses n) := by
  constructor
  · obtain ⟨others, hsymbols, hnodup, hmem⟩ := p.symbols_eq
    refine ⟨others, hsymbols, hnodup, fun n => ?_⟩
    simp only [hmem, Block.mem_mentions_iff]
  · exact and_congr nodup_names_symbols mem_names_symbols_iff_mentions

/-- An input that is given twice, a name that is only enabled and a name that is only asserted. -/
def demanding : Procedure where
  name := "demanding"
  inputs := [("x", .int), ("x", .int)]
  enabling := [.boolVar "e"]
  blocks := [{
    location := 1
    source := ⟨"t.c", 1⟩
    assertions := [⟨"a holds", .boolVar "a"⟩] }]

/-- A repeated input is listed twice. A name that is only enabled or only asserted is not listed. -/
theorem demanding_not_exhaustive :
    demanding.symbols = [("x", .int), ("x", .int)] ∧
      ¬(demanding.symbols.map (·.1)).Nodup ∧
      (demanding.Mentions "e" ∧ "e" ∉ demanding.symbols.map (·.1)) ∧
      demanding.Mentions "a" ∧ "a" ∉ demanding.symbols.map (·.1) := by
  refine ⟨rfl, by decide, ⟨.demand (.enabling _ List.mem_cons_self ⟨.bool, by decide⟩), by decide⟩,
    .demand (.assertion _ List.mem_cons_self _ List.mem_cons_self ⟨.bool, by decide⟩), by decide⟩

end Procedure

end InvariantSynthesis
