import InvariantSynthesis.BitSolver.Oracle
import InvariantSynthesis.Proofs.Diagram.Word
import InvariantSynthesis.Proofs.Expr.Value
import InvariantSynthesis.Proofs.Oracle.Session
import InvariantSynthesis.Proofs.Table

/-!
Variables of the bit-level solver and their diagram variables. Every diagram variable belongs to at
most one place of one variable, so each valuation in range comes from an assignment, and each
assignment gives a valuation in range.
-/

namespace InvariantSynthesis

open Diagram

namespace Term

def bits : Term → List Edge
  | .bool e => [e]
  | .int w => w.bits

def value (s : Store) (α : Assignment) : Term → Value
  | .bool e => .bool (s.truth α e)
  | .int w => .int (Word.signedValue (w.bits.map (s.truth α)))

structure Stored (s : Store) (t : Term) : Prop where
  has : ∀ e ∈ t.bits, s.Has e
  nonempty : t.bits ≠ []

variable {s u : Store} {t : Term}

theorem Stored.extend (h : t.Stored s) (hsu : s.Extends u) : t.Stored u :=
  ⟨fun e he => (h.has e he).extend hsu, h.nonempty⟩

theorem value_extend (hs : s.WellFormed) (hsu : s.Extends u) (h : t.Stored s) (α : Assignment) :
    t.value u α = t.value s α := by
  have hmap := Word.Represents.map_truth hs hsu h.has α
  cases t with
  | bool e => exact congrArg Value.bool (hsu.truth hs α (h.has e (by simp [bits])))
  | int w => exact congrArg (fun bs => Value.int (Word.signedValue bs)) hmap

theorem sort_value (s : Store) (α : Assignment) (t : Term) : (t.value s α).sort = t.sort := by
  cases t <;> rfl

end Term

namespace BitSolver

variable {s s' : BitSolver}

/-- Which place of which variable a diagram variable stands for. -/
abbrev Layout := Nat → Option (String × Nat)

/-- The bits of a variable are its places in a layout. -/
structure Placed (layout : Layout) (s : BitSolver) (n : String) (t : Term) : Prop where
  length : t.bits.length = match t with | .bool _ => 1 | .int _ => s.width
  literal : ∀ j e, t.bits[j]? = some e →
    ∃ v, 0 < v ∧ v < s.nextVar ∧ Literal s.store v e ∧ layout v = some (n, j)

structure Laid (layout : Layout) (s : BitSolver) : Prop where
  store : s.store.WellFormed
  width : widthAllowed s.width = true
  nextVar_pos : 0 < s.nextVar
  placed : ∀ n t, s.symbols.get? n = some t → Placed layout s n t
  once : s.symbols.Once

theorem Laid.width_pos {layout : Layout} (h : Laid layout s) : 0 < s.width :=
  pos_of_widthAllowed h.width

/-- The solver's variables have disjoint bits. -/
def Valid (s : BitSolver) : Prop := ∃ layout, Laid layout s

theorem Placed.stored {layout : Layout} {n : String} {t : Term} (hw : 0 < s.width)
    (h : Placed layout s n t) : t.Stored s.store := by
  refine ⟨fun e he => ?_, fun hnil => ?_⟩
  · obtain ⟨j, hj⟩ := List.getElem?_of_mem he
    obtain ⟨v, -, -, hv, -⟩ := h.literal j e hj
    exact hv.has
  · have hlen := h.length
    rw [hnil] at hlen
    cases t with
    | bool e => cases hlen
    | int w => exact absurd hlen (Nat.ne_of_lt hw)

theorem Valid.store (h : s.Valid) : s.store.WellFormed := h.elim fun _ h => h.store

theorem Valid.stored (h : s.Valid) {n : String} {t : Term} (ht : s.symbols.get? n = some t) :
    t.Stored s.store :=
  h.elim fun _ h => (h.placed n t ht).stored h.width_pos

/-- An assignment and a valuation give the solver's variables the same values. -/
def Reads (s : BitSolver) (α : Assignment) (ρ : Valuation) : Prop :=
  ∀ n t, s.symbols.get? n = some t → ρ n t.sort = t.value s.store α

theorem range_iff (hw : 0 < s.width) (k : Int) :
    s.range.1 ≤ k ∧ k ≤ s.range.2 ↔ -(2 ^ s.width) ≤ 2 * k ∧ 2 * k < 2 ^ s.width := by
  obtain ⟨m, hm⟩ := Nat.exists_eq_succ_of_ne_zero (Nat.ne_of_gt hw)
  have hhalf : ((Nat.pow 2 (s.width - 1) : Nat) : Int) = 2 ^ m := by
    rw [hm]
    exact Nat.cast_pow 2 m
  simp only [range, hhalf]
  rw [hm, pow_succ]
  constructor <;> rintro ⟨h1, h2⟩ <;> constructor <;> omega

theorem range_zero (hw : 0 < s.width) : s.range.1 ≤ 0 ∧ 0 ≤ s.range.2 := by
  rw [range_iff hw]
  have : (0 : Int) < 2 ^ s.width := by positivity
  constructor <;> linarith

def bitOf (s : BitSolver) (ρ : Valuation) (n : String) (j : Nat) : Bool :=
  match s.symbols.get? n with
  | some (.bool _) => (ρ n .bool).truth
  | some (.int _) => (Word.lowBits s.width (ρ n .int).number).getD j false
  | none => false

/-- The bits of a valuation at the places of a layout. -/
def Layout.assignment (layout : Layout) (s : BitSolver) (ρ : Valuation) : Assignment := fun v =>
  ((layout v).map fun p => s.bitOf ρ p.1 p.2).getD false

theorem bits_truth {layout : Layout} (h : Laid layout s) {n : String} {t : Term}
    (ht : s.symbols.get? n = some t) (ρ : Valuation) {j : Nat} {e : Edge}
    (he : t.bits[j]? = some e) : s.store.truth (layout.assignment s ρ) e = s.bitOf ρ n j := by
  obtain ⟨v, -, -, hv, hl⟩ := (h.placed n t ht).literal j e he
  rw [hv.truth_eq h.store, Layout.assignment, hl]
  rfl

/-- Every valuation in range comes from an assignment. -/
theorem Valid.realize (h : s.Valid) {ρ : Valuation} (hρ : ρ.InRange s.range) :
    ∃ α, s.Reads α ρ := by
  obtain ⟨layout, h⟩ := h
  refine ⟨layout.assignment s ρ, fun n t ht => ?_⟩
  have hbit := fun j e => bits_truth h ht ρ (j := j) (e := e)
  have hin := hρ n t.sort
  cases t with
  | bool e =>
    have he := hbit 0 e rfl
    simp only [Term.value, Term.sort, he, bitOf, ht]
    cases hval : ρ n .bool with
    | bool b => rfl
    | int k =>
      rw [Term.sort, hval] at hin
      cases hin.1
  | int w =>
    have hlen : w.bits.length = s.width := (h.placed n _ ht).length
    cases hval : ρ n .int with
    | bool b =>
      rw [Term.sort, hval] at hin
      cases hin
    | int k =>
      rw [Term.sort, hval] at hin
      have hbits : w.bits.map (s.store.truth (layout.assignment s ρ)) = Word.lowBits s.width k := by
        refine List.ext_getElem (by rw [List.length_map, hlen, Word.length_lowBits])
          fun j h1 h2 => ?_
        have hj : j < w.bits.length := by simpa using h1
        have he := hbit j w.bits[j] (List.getElem?_eq_getElem hj)
        rw [List.getElem_map, he]
        simp [bitOf, ht, hval, h2]
      have hw := (range_iff h.width_pos k).mp hin.2
      simp only [Term.value, Term.sort, hval, hbits]
      rw [Word.signedValue_lowBits_of_mem h.width_pos hw]

/-- The values that an assignment gives to the variables; the others are false or zero. -/
def valuation (s : BitSolver) (α : Assignment) : Valuation := fun n sort =>
  let other := match sort with
    | .bool => Value.bool false
    | .int => .int 0
  match s.symbols.get? n with
  | some t => if t.sort = sort then t.value s.store α else other
  | none => other

theorem reads_valuation (s : BitSolver) (α : Assignment) : s.Reads α (s.valuation α) := by
  intro n t ht
  simp [valuation, ht]

theorem Valid.inRange_valuation (h : s.Valid) (α : Assignment) :
    (s.valuation α).InRange s.range := by
  obtain ⟨layout, h⟩ := h
  have hother : ∀ sort : ValueSort, (match sort with
      | .bool => Value.bool false
      | .int => .int 0).Within sort s.range := by
    intro sort
    cases sort with
    | bool => rfl
    | int => exact ⟨rfl, range_zero h.width_pos⟩
  intro n sort
  unfold valuation
  cases ht : s.symbols.get? n with
  | none => exact hother sort
  | some t =>
    have hp := h.placed n t ht
    by_cases hsort : t.sort = sort
    · subst hsort
      simp only [if_true]
      cases t with
      | bool e => rfl
      | int w =>
        have hlen : w.bits.length = s.width := hp.length
        have hne : w.bits ≠ [] := (hp.stored h.width_pos).nonempty
        have hmem := Word.signedValue_mem (l := w.bits.map (s.store.truth α)) (by simpa using hne)
        rw [List.length_map, hlen] at hmem
        exact ⟨rfl, (range_iff h.width_pos _).mpr hmem⟩
    · simp only [if_neg hsort]
      exact hother sort

/-- Nodes and variables are added to a solver. -/
structure Adds (s s' : BitSolver) : Prop where
  valid : s'.Valid
  store : s.store.Extends s'.store
  symbols : ∀ n t, s.symbols.get? n = some t → s'.symbols.get? n = some t
  width : s'.width = s.width
  nodeLimit : s'.nodeLimit = s.nodeLimit
  entries : s.symbols.entries <+: s'.symbols.entries

theorem Adds.trans {s'' : BitSolver} (h : s.Adds s') (h' : s'.Adds s'') : s.Adds s'' :=
  ⟨h'.valid, h.store.trans h'.store, fun n t ht => h'.symbols n t (h.symbols n t ht),
    h'.width.trans h.width, h'.nodeLimit.trans h.nodeLimit, h.entries.trans h'.entries⟩

theorem Adds.reads (h : s.Adds s') (hs : s.Valid) {α : Assignment} {ρ : Valuation}
    (hr : s'.Reads α ρ) : s.Reads α ρ := fun n t ht => by
  rw [hr n t (h.symbols n t ht), Term.value_extend hs.store h.store (hs.stored ht)]

theorem Valid.adds (h : s.Valid) (top : Edge) (outer : List Edge) (model : Option Model) :
    s.Adds { s with top, outer, model } := by
  obtain ⟨layout, h⟩ := h
  refine ⟨⟨layout, h.store, h.width, h.nextVar_pos, fun n t ht => ?_, h.once⟩, .refl _,
    fun _ _ h => h, rfl, rfl, List.prefix_rfl⟩
  have hp := h.placed n t ht
  exact ⟨hp.length, hp.literal⟩

/-- What requests about terms do to a solver: the assertions stay. -/
structure Grows (s s' : BitSolver) : Prop extends Adds s s' where
  top : s'.top = s.top
  outer : s'.outer = s.outer

theorem Grows.refl (h : s.Valid) : s.Grows s :=
  ⟨h.adds s.top s.outer s.model, rfl, rfl⟩

theorem Grows.trans {s'' : BitSolver} (h : s.Grows s') (h' : s'.Grows s'') : s.Grows s'' :=
  ⟨h.toAdds.trans h'.toAdds, h'.top.trans h.top, h'.outer.trans h.outer⟩

/-- A request only adds nodes and variables, and its result has a property. -/
structure Runs {α : Type} (r : Request BitSolver α) (s : BitSolver) (Q : BitSolver → α → Prop) :
    Prop where
  grows : s.Grows (r s).2
  result : ∀ a, (r s).1 = .ok a → Q (r s).2 a

namespace Runs

variable {α β : Type} {Q : BitSolver → α → Prop} {R : BitSolver → β → Prop}

theorem pure {a : α} (hs : s.Valid) (h : Q s a) : Runs (Pure.pure a : Request BitSolver α) s Q := by
  refine ⟨.refl hs, fun b hb => ?_⟩
  cases hb
  exact h

theorem throw {e : OracleError} (hs : s.Valid) : Runs (throw e : Request BitSolver α) s Q :=
  ⟨.refl hs, fun _ h => nomatch h⟩

theorem bind {r : Request BitSolver α} {f : α → Request BitSolver β} (hr : Runs r s Q)
    (hf : ∀ a t, s.Grows t → Q t a → Runs (f a) t R) : Runs (r >>= f) s R := by
  obtain ⟨hg, hq⟩ := hr
  cases hrun : r s with
  | mk x t =>
    rw [hrun] at hg hq
    cases x with
    | ok a =>
      have h := hf a t hg (hq a rfl)
      refine ⟨?_, ?_⟩ <;> rw [Session.bind_ok hrun]
      · exact hg.trans h.grows
      · exact h.result
    | error e =>
      refine ⟨?_, ?_⟩ <;> rw [Session.bind_error hrun]
      · exact hg
      · exact fun b hb => nomatch hb

theorem imp {r : Request BitSolver α} {Q' : BitSolver → α → Prop} (hr : Runs r s Q)
    (h : ∀ a t, s.Grows t → Q t a → Q' t a) : Runs r s Q' :=
  ⟨hr.grows, fun a ha => h a _ hr.grows (hr.result a ha)⟩

theorem of_eq {r : Request BitSolver α} {a : α} (h : r s = (.ok a, s')) (hg : s.Grows s')
    (hq : Q s' a) : Runs r s Q := by
  refine ⟨?_, fun b hb => ?_⟩
  · rw [h]
    exact hg
  · rw [h] at hb ⊢
    cases hb
    exact hq

theorem get_bind {f : BitSolver → Request BitSolver β} (h : Runs (f s) s R) :
    Runs (get >>= f) s R :=
  ⟨h.grows, h.result⟩

end Runs

theorem build_runs {α : Type} {b : Build α} {Q : Store → α → Prop} (hs : s.Valid)
    (hb : Yields b s.store Q) : Runs (build b) s fun t a => Q t.store a := by
  obtain ⟨layout, h⟩ := hs
  refine ⟨⟨⟨⟨layout, hb.wellFormed, h.width, h.nextVar_pos, fun n t ht => ?_, h.once⟩, hb.grows,
    fun _ _ h => h, rfl, rfl, List.prefix_rfl⟩, rfl, rfl⟩, fun a ha => ?_⟩
  · have hp := h.placed n t ht
    refine ⟨hp.length, fun j e he => ?_⟩
    obtain ⟨v, hv0, hv1, hv, hl⟩ := hp.literal j e he
    exact ⟨v, hv0, hv1, hv.extend hb.grows, hl⟩
  · cases ha
    exact hb.result

/-- Nodes and diagram variables are added; the layout may give the new ones any meaning. -/
theorem Laid.allot {layout layout' : Layout} (h : Laid layout s) {st : Store} {next : Nat}
    (hst : st.WellFormed) (hext : s.store.Extends st) (hnext : s.nextVar ≤ next)
    (hlayout : ∀ v, v < s.nextVar → layout' v = layout v) :
    Laid layout' { s with store := st, nextVar := next } := by
  refine ⟨hst, h.width, Nat.lt_of_lt_of_le h.nextVar_pos hnext, fun n t ht => ?_, h.once⟩
  have hp := h.placed n t ht
  refine ⟨hp.length, fun j e he => ?_⟩
  obtain ⟨v, hv0, hv1, hv, hl⟩ := hp.literal j e he
  exact ⟨v, hv0, Nat.lt_of_lt_of_le hv1 hnext, hv.extend hext, (hlayout v hv1).trans hl⟩

theorem Laid.bind {layout : Layout} (h : Laid layout s) {n : String} {t : Term}
    (hn : s.symbols.get? n = none) (hp : Placed layout s n t) :
    Laid layout { s with symbols := s.symbols.insert n t } := by
  refine ⟨h.store, h.width, h.nextVar_pos, fun m u hu => ?_, h.once.insert hn⟩
  rw [Registry.get?_insert] at hu
  split at hu
  · rename_i heq
    cases hu
    subst heq
    exact ⟨hp.length, hp.literal⟩
  · have := h.placed m u hu
    exact ⟨this.length, this.literal⟩

theorem get?_insert_of_unbound {n : String} {t : Term} (hn : s.symbols.get? n = none) {m : String}
    {u : Term} (hm : s.symbols.get? m = some u) : (s.symbols.insert n t).get? m = some u := by
  rw [Registry.get?_insert, if_neg fun h => ?_]
  · exact hm
  · rw [h, hn] at hm
    cases hm

/-- Several literals of the variables from some index on. -/
structure Literals (st : Store) (base : Nat) (bits : List Edge) (n : Nat) : Prop where
  length : bits.length = n
  literal : ∀ j e, bits[j]? = some e → Literal st (base + j) e

theorem freshBit_eq (hst : s.store.WellFormed) (hnext : 0 < s.nextVar) :
    ∃ e st, freshBit s = (.ok e, { s with store := st, nextVar := s.nextVar + 1 }) ∧
      st.WellFormed ∧ s.store.Extends st ∧ Literal st s.nextVar e :=
  have h := literal_yields hst hnext
  ⟨_, _, rfl, h.wellFormed, h.grows, h.result⟩

theorem freshBits_eq (n : Nat) (hst : s.store.WellFormed) (hnext : 0 < s.nextVar) :
    ∃ bits st, freshBits n s = (.ok bits, { s with store := st, nextVar := s.nextVar + n }) ∧
      st.WellFormed ∧ s.store.Extends st ∧ Literals st s.nextVar bits n := by
  induction n generalizing s with
  | zero => exact ⟨[], s.store, rfl, hst, .refl _, rfl, by simp⟩
  | succ n ih =>
    obtain ⟨e, st, hrun, hwf, hext, he⟩ := freshBit_eq hst hnext
    obtain ⟨bits, st', hrun', hwf', hext', hlen, hbits⟩ :=
      ih (s := { s with store := st, nextVar := s.nextVar + 1 }) hwf (Nat.succ_pos _)
    refine ⟨e :: bits, st', ?_, hwf', hext.trans hext', by simp [hlen], fun j d hd => ?_⟩
    · rw [freshBits, Session.bind_ok hrun, Session.bind_ok hrun']
      simp only [Nat.add_assoc, Nat.add_comm 1 n]
      rfl
    · cases j with
      | zero =>
        cases hd
        exact he.extend hext'
      | succ j =>
        have := hbits j d hd
        rwa [Nat.add_assoc, Nat.add_comm 1 j] at this

theorem Laid.symbol {layout : Layout} (h : Laid layout s) {n : String} {t : Term} {st : Store}
    (hn : s.symbols.get? n = none) (hst : st.WellFormed) (hext : s.store.Extends st)
    (hlen : t.bits.length = match t with | .bool _ => 1 | .int _ => s.width)
    (hbits : Literals st s.nextVar t.bits t.bits.length) :
    s.Grows { s with
      store := st, nextVar := s.nextVar + t.bits.length, symbols := s.symbols.insert n t } := by
  let layout' : Layout := fun v => if s.nextVar ≤ v then some (n, v - s.nextVar) else layout v
  have hlaid : Laid layout' { s with store := st, nextVar := s.nextVar + t.bits.length } :=
    h.allot hst hext (Nat.le_add_right _ _) fun v hv => if_neg (Nat.not_le_of_lt hv)
  refine ⟨⟨⟨layout', hlaid.bind hn ⟨hlen, fun j e he => ?_⟩⟩, hext,
    fun _ _ => get?_insert_of_unbound hn, rfl, rfl, Registry.entries_insert⟩, rfl, rfl⟩
  have hj : j < t.bits.length := (List.getElem?_eq_some_iff.mp he).1
  have hpos := h.nextVar_pos
  refine ⟨s.nextVar + j, by omega, by simpa using hj, hbits.literal j e he, ?_⟩
  simp only [layout', if_pos (Nat.le_add_right _ _), Nat.add_sub_cancel_left]

theorem symbol_runs (hs : s.Valid) (n : String) (sort : ValueSort) :
    Runs (symbol n sort) s fun t u => t.symbols.get? n = some u ∧ u.sort = sort ∧
      ∀ m, m ≠ n → t.symbols.get? m = s.symbols.get? m := by
  refine Runs.get_bind ?_
  cases hn : s.symbols.get? n with
  | some t =>
    dsimp only
    split
    · exact .pure hs ⟨hn, by assumption, fun _ _ => rfl⟩
    · exact .throw hs
  | none =>
    obtain ⟨layout, h⟩ := hs
    dsimp only
    cases sort with
    | bool =>
      obtain ⟨e, st, hrun, hwf, hext, he⟩ := freshBit_eq h.store h.nextVar_pos
      have hbit : Literals st s.nextVar [e] 1 := by
        refine ⟨rfl, fun j d hd => ?_⟩
        obtain ⟨rfl, rfl⟩ : j = 0 ∧ d = e := by
          cases j with
          | zero => exact ⟨rfl, (Option.some.inj hd).symm⟩
          | succ j => cases hd
        exact he
      refine .of_eq (a := .bool e) ?_ (h.symbol (t := .bool e) hn hwf hext rfl hbit)
        ⟨?_, rfl, fun m hm => ?_⟩
      · exact Session.bind_ok hrun
      · rw [Registry.get?_insert, if_pos rfl]
      · rw [Registry.get?_insert, if_neg hm]
    | int =>
      obtain ⟨bits, st, hrun, hwf, hext, hbits⟩ := freshBits_eq s.width h.store h.nextVar_pos
      have hlen : (Term.int ⟨bits⟩).bits.length = s.width := hbits.length
      refine .of_eq (a := .int ⟨bits⟩) ?_ (h.symbol (t := .int ⟨bits⟩) hn hwf hext hlen ?_)
        ⟨?_, rfl, fun m hm => ?_⟩
      · rw [hlen]
        exact Session.bind_ok hrun
      · exact ⟨rfl, hbits.literal⟩
      · rw [Registry.get?_insert, if_pos rfl]
      · rw [Registry.get?_insert, if_neg hm]

end BitSolver

end InvariantSynthesis
