import InvariantSynthesis.Proofs.BitSolver.Blast
import InvariantSynthesis.Proofs.Diagram.Decoding
import InvariantSynthesis.Proofs.Diagram.Path
import InvariantSynthesis.Proofs.Oracle.Contract

/-!
The bit-level solver is exact. After any sequence of requests, a check that stays below the node
limit answers that the live assertions can hold together if and only if some valuation in range
makes all of them true.
-/

namespace InvariantSynthesis.BitSolver

open Diagram

variable {s s' : BitSolver}

/-- Integer variables that wait for their bits. -/
structure Pending (s : BitSolver) (ints : List String) : Prop where
  nodup : ints.Nodup
  unbound : ∀ n ∈ ints, s.symbols.get? n = none

/-- The variable has a term of its sort, or is an integer that waits for one. -/
def Announced (s : BitSolver) (ints : List String) (p : TypedName) : Prop :=
  (s.symbols.get? p.1).map Term.sort = some p.2 ∨ p.2 = .int ∧ p.1 ∈ ints

theorem Pending.concat {ints : List String} {n : String} (h : Pending s ints) (hn : n ∉ ints)
    (hunbound : s.symbols.get? n = none) : Pending s (ints ++ [n]) := by
  refine ⟨?_, fun m hm => ?_⟩
  · rw [List.nodup_append]
    refine ⟨h.nodup, by simp, fun a ha b hb => ?_⟩
    rw [List.mem_singleton.mp hb]
    exact fun h => hn (h ▸ ha)
  · rcases List.mem_append.mp hm with hm | hm
    · exact h.unbound m hm
    · rw [List.mem_singleton.mp hm]
      exact hunbound

theorem exists_lookup_of_mem {names : List TypedName} {p : TypedName} (h : p ∈ names) :
    ∃ sort, names.lookup p.1 = some sort :=
  Option.isSome_iff_exists.mp (List.lookup_isSome_iff.mpr ⟨p, h, by simp⟩)

theorem announced_cons {ints ints' : List String} {n : String} {sort : ValueSort}
    {rest : List TypedName} (hfirst : Announced s ints' (n, sort))
    (hrest : ∀ p : TypedName, p.1 ≠ n → rest.lookup p.1 = some p.2 → p.1 ∉ ints →
      Announced s ints' p) :
    ∀ p : TypedName, ((n, sort) :: rest).lookup p.1 = some p.2 → p.1 ∉ ints →
      Announced s ints' p := by
  intro p hp hni
  rw [List.lookup_cons] at hp
  by_cases hpn : p.1 = n
  · rw [beq_iff_eq.mpr hpn] at hp
    cases p
    cases hp
    cases hpn
    exact hfirst
  · rw [beq_false_of_ne hpn] at hp
    exact hrest p hpn hp hni

theorem announce_cons (ints : List String) (n : String) (sort : ValueSort) (rest : List TypedName)
    (s : BitSolver) : announce ints ((n, sort) :: rest) s =
      match s.symbols.get? n with
      | some t =>
        if t.sort = sort then announce ints rest s else (.error (.sortClash n t.sort sort), s)
      | none =>
        if n ∈ ints then announce ints rest s
        else
          match sort with
          | .bool => (symbol n .bool >>= fun _ => announce ints rest) s
          | .int => announce (ints ++ [n]) rest s := by
  have hget : (get : Request BitSolver BitSolver) s = (.ok s, s) := rfl
  rw [announce.eq_def]
  dsimp only
  rw [Session.bind_ok hget]
  cases s.symbols.get? n with
  | some t =>
    dsimp only
    split <;> rfl
  | none =>
    dsimp only
    split
    · rfl
    · cases sort <;> rfl

theorem announce_runs {names : List TypedName} {ints : List String} (hs : s.Valid)
    (hp : Pending s ints) :
    Runs (announce ints names) s fun t ints' => Pending t ints' ∧ (∀ n ∈ ints, n ∈ ints') ∧
      ∀ p : TypedName, names.lookup p.1 = some p.2 → p.1 ∉ ints → Announced t ints' p := by
  induction names generalizing s ints with
  | nil => exact .pure hs ⟨hp, fun _ h => h, fun _ h => nomatch h⟩
  | cons p rest ih =>
    obtain ⟨n, sort⟩ := p
    refine Runs.get_bind ?_
    cases hn : s.symbols.get? n with
    | some t =>
      dsimp only
      split
      · rename_i hsort
        refine (ih hs hp).imp fun ints' u hg h => ⟨h.1, h.2.1, announced_cons ?_ fun p _ => h.2.2 p⟩
        exact .inl (by rw [hg.symbols _ _ hn, Option.map_some, hsort])
      · exact .throw hs
    | none =>
      dsimp only
      split
      · -- the name waits for its bits since an earlier entry
        rename_i hmem
        refine (ih hs hp).imp fun ints' u hg h => ⟨h.1, h.2.1, fun p hp hni => ?_⟩
        have hpn : p.1 ≠ n := fun h => hni (h ▸ hmem)
        rw [List.lookup_cons, beq_false_of_ne hpn] at hp
        exact h.2.2 p hp hni
      · rename_i hmem
        cases sort with
        | bool =>
          refine (symbol_runs hs n .bool).bind fun u t hg hu => ?_
          have hp' : Pending t ints := ⟨hp.nodup, fun m hm => by
            rw [hu.2.2 m fun h => hmem (h ▸ hm)]
            exact hp.unbound m hm⟩
          refine (ih hg.valid hp').imp fun ints' v hg' h =>
            ⟨h.1, h.2.1, announced_cons ?_ fun p _ => h.2.2 p⟩
          exact .inl (by rw [hg'.symbols _ _ hu.1, Option.map_some, hu.2.1])
        | int =>
          refine (ih hs (hp.concat hmem hn)).imp fun ints' v hg' h =>
            ⟨h.1, fun m hm => ?_, announced_cons ?_ ?_⟩
          · exact h.2.1 m (List.mem_append_left _ hm)
          · exact .inr ⟨rfl, h.2.1 n (by simp)⟩
          · intro p hpn hp hni
            refine h.2.2 p hp fun hpi => ?_
            exact (List.mem_append.mp hpi).elim hni fun h => hpn (List.mem_singleton.mp h)

/-- Rows of literals, one row for each place. -/
structure Rows (st : Store) (base count : Nat) (rows : List (List Edge)) (places : Nat) : Prop where
  length : rows.length = places
  literals : ∀ j row, rows[j]? = some row → Literals st (base + j * count) row count

theorem freshPlaces_eq (count places : Nat) (hst : s.store.WellFormed) (hnext : 0 < s.nextVar) :
    ∃ rows st, freshPlaces count places s =
        (.ok rows, { s with store := st, nextVar := s.nextVar + places * count }) ∧
      st.WellFormed ∧ s.store.Extends st ∧ Rows st s.nextVar count rows places := by
  induction places generalizing s with
  | zero =>
    refine ⟨[], s.store, ?_, hst, .refl _, rfl, by simp⟩
    rw [Nat.zero_mul]
    rfl
  | succ places ih =>
    obtain ⟨row, st, hrun, hwf, hext, hrow⟩ := freshBits_eq count hst hnext
    obtain ⟨rows, st', hrun', hwf', hext', hrows⟩ :=
      ih (s := { s with store := st, nextVar := s.nextVar + count }) hwf (Nat.add_pos_left hnext _)
    refine ⟨row :: rows, st', ?_, hwf', hext.trans hext', ?_⟩
    · rw [freshPlaces, Session.bind_ok hrun, Session.bind_ok hrun', Nat.succ_mul,
        Nat.add_comm (places * count), ← Nat.add_assoc]
      rfl
    · refine ⟨by simp [hrows.length], fun j r hr => ?_⟩
      cases j with
      | zero =>
        cases hr
        refine ⟨hrow.length, fun i e he => ?_⟩
        rw [Nat.zero_mul, Nat.add_zero]
        exact (hrow.literal i e he).extend hext'
      | succ j =>
        have := hrows.literals j r hr
        rwa [Nat.add_assoc, Nat.add_comm count, ← Nat.succ_mul] at this

/-- Bits of one place are shared out among the new integers. -/
def interleaved (layout : Layout) (base : Nat) (ints : List String) : Layout := fun v =>
  if base ≤ v then (ints[(v - base) % ints.length]?).map (·, (v - base) / ints.length) else layout v

theorem Rows.placed {layout : Layout} {st : Store} {base : Nat} {ints : List String}
    {rows : List (List Edge)} (hbase : 0 < base) (hst : s.store = st)
    (hnext : s.nextVar = base + s.width * ints.length)
    (hrows : Rows st base ints.length rows s.width) {i : Nat} {n : String} (hn : ints[i]? = some n) :
    Placed (interleaved layout base ints) s n (.int ⟨rows.map fun bits => bits.getD i .zero⟩) := by
  have hi : i < ints.length := (List.getElem?_eq_some_iff.mp hn).1
  refine ⟨by simp [Term.bits, hrows.length], fun j e he => ?_⟩
  obtain ⟨row, hrow, he⟩ : ∃ row, rows[j]? = some row ∧ row.getD i .zero = e := by
    simpa [Term.bits] using he
  have hlits := hrows.literals j row hrow
  have hj : j < s.width := by
    rw [← hrows.length]
    exact (List.getElem?_eq_some_iff.mp hrow).1
  have hei : row[i]? = some e := by
    have hlt : i < row.length := by rw [hlits.length]; exact hi
    rw [List.getElem?_eq_getElem hlt, ← he]
    simp [hlt]
  have hlt : j * ints.length + i < s.width * ints.length := calc
    j * ints.length + i < j * ints.length + ints.length := by omega
    _ = (j + 1) * ints.length := (Nat.succ_mul _ _).symm
    _ ≤ s.width * ints.length := Nat.mul_le_mul_right _ hj
  refine ⟨base + j * ints.length + i, by omega, by rw [hnext]; omega, hst ▸ hlits.literal i e hei, ?_⟩
  have hsub : base + j * ints.length + i - base = i + ints.length * j := by
    rw [Nat.mul_comm]
    omega
  rw [interleaved, if_pos (by omega), hsub, Nat.add_mul_mod_self_left, Nat.mod_eq_of_lt hi,
    Nat.add_mul_div_left _ _ (Nat.zero_lt_of_lt hi), Nat.div_eq_of_lt hi, hn, Nat.zero_add]
  rfl

theorem bindColumns_eq {layout : Layout} {rows : List (List Edge)} {k : Nat} {names : List String}
    (h : Laid layout s) (hp : Pending s names)
    (hplaced : ∀ i n, names[i]? = some n →
      Placed layout s n (.int ⟨rows.map fun bits => bits.getD (k + i) .zero⟩)) :
    ∃ t, bindColumns rows k names s = (.ok (), t) ∧ s.Grows t ∧
      ∀ n ∈ names, (t.symbols.get? n).map Term.sort = some .int := by
  induction names generalizing s k with
  | nil => exact ⟨s, rfl, .refl ⟨layout, h⟩, fun _ h => nomatch h⟩
  | cons n names ih =>
    obtain ⟨hn, hnodup⟩ := List.nodup_cons.mp hp.nodup
    have hunbound := hp.unbound n (by simp)
    let w : Word := ⟨rows.map fun bits => bits.getD k .zero⟩
    let u : BitSolver := { s with symbols := s.symbols.insert n (.int w) }
    have hu : Laid layout u := h.bind hunbound (hplaced 0 n rfl)
    have hsu : s.Grows u := ⟨⟨⟨layout, hu⟩, .refl _, fun _ _ => get?_insert_of_unbound hunbound,
      rfl, rfl, Registry.entries_insert⟩, rfl, rfl⟩
    have hpu : Pending u names := by
      refine ⟨hnodup, fun m hm => ?_⟩
      have hne : m ≠ n := fun h => hn (h ▸ hm)
      rw [Registry.get?_insert, if_neg hne]
      exact hp.unbound m (List.mem_cons_of_mem _ hm)
    have hpl : ∀ i m, names[i]? = some m →
        Placed layout u m (.int ⟨rows.map fun bits => bits.getD (k + 1 + i) .zero⟩) := by
      intro i m hm
      have := hplaced (i + 1) m hm
      rw [show k + (i + 1) = k + 1 + i by omega] at this
      exact ⟨this.length, this.literal⟩
    obtain ⟨t, hrun, hut, hsorts⟩ := ih hu hpu hpl
    refine ⟨t, hrun, hsu.trans hut, List.forall_mem_cons.mpr ⟨?_, hsorts⟩⟩
    have hget : u.symbols.get? n = some (.int w) := by rw [Registry.get?_insert, if_pos rfl]
    rw [hut.symbols n _ hget]
    rfl

def sorts (s : BitSolver) : Sorts := fun n => (s.symbols.get? n).map Term.sort

theorem Adds.sorts (h : s.Adds s') : s.sorts.Extends s'.sorts := by
  intro n sort hn
  obtain ⟨t, ht, rfl⟩ := Option.map_eq_some_iff.mp hn
  exact congrArg (Option.map Term.sort) (h.symbols n t ht)

theorem declare_runs (hs : s.Valid) (names : List TypedName) :
    Runs (declare names) s fun t _ => ∀ n sort, names.lookup n = some sort → t.sorts n = some sort := by
  refine (announce_runs hs ⟨.nil, fun _ h => nomatch h⟩).bind fun ints t hg h => Runs.get_bind ?_
  obtain ⟨hp, -, hnames⟩ := h
  obtain ⟨layout, ht⟩ := hg.valid
  obtain ⟨rows, st, hrun, hwf, hext, hrows⟩ :=
    freshPlaces_eq ints.length t.width ht.store ht.nextVar_pos
  let u : BitSolver := { t with store := st, nextVar := t.nextVar + t.width * ints.length }
  have hu : Laid (interleaved layout t.nextVar ints) u :=
    ht.allot hwf hext (Nat.le_add_right _ _) fun v hv => if_neg (Nat.not_le_of_lt hv)
  have htu : t.Grows u :=
    ⟨⟨⟨_, hu⟩, hext, fun _ _ h => h, rfl, rfl, List.prefix_rfl⟩, rfl, rfl⟩
  obtain ⟨w, hbind, huw, hsorts⟩ := bindColumns_eq (k := 0) hu ⟨hp.nodup, hp.unbound⟩ fun i n hn => by
    rw [Nat.zero_add]
    exact hrows.placed (s := u) ht.nextVar_pos rfl rfl hn
  refine .of_eq (a := ()) ?_ (htu.trans huw) fun n sort hn => ?_
  · rw [Session.bind_ok hrun]
    exact hbind
  · rcases hnames (n, sort) hn (by simp) with hbound | ⟨rfl, hmem⟩
    · exact (htu.trans huw).sorts n sort hbound
    · exact hsorts n hmem

/-- Each open scope has the diagram of its assertions and of those around it. -/
def Stacked (s : BitSolver) : List Edge → List (List Expr) → Prop
  | [], [] => True
  | e :: es, c :: cs =>
    Tells s (.bool e) (fun ρ => .bool ((c :: cs).flatten.all (Expr.holds ρ))) ∧ Stacked s es cs
  | _, _ => False

theorem Stacked.later {es : List Edge} {cs : List (List Expr)} (h : Stacked s es cs) (hs : s.Valid)
    (hg : s.Adds s') : Stacked s' es cs := by
  induction es generalizing cs with
  | nil => cases cs <;> exact h
  | cons e es ih =>
    cases cs with
    | nil => exact h
    | cons c cs => exact ⟨h.1.later hs hg, ih h.2⟩

theorem Stacked.length {es : List Edge} {cs : List (List Expr)} (h : Stacked s es cs) :
    es.length = cs.length := by
  induction es generalizing cs with
  | nil =>
    cases cs with
    | nil => rfl
    | cons c cs => exact h.elim
  | cons e es ih =>
    cases cs with
    | nil => exact h.elim
    | cons c cs => exact congrArg (· + 1) (ih h.2)

def conjoined (e : Expr) : Request BitSolver Edge := do
  let r ← expectBool e (← blast e)
  build (Diagram.and (← get).top r)

theorem assert_eq (e : Expr) (s : BitSolver) : assert e s =
    (conjoined e >>= fun top => modify fun s => { s with top }) { s with model := none } := by
  simp only [assert, conjoined, bind_assoc]
  rfl

theorem pop_eq_error (h : s.outer = []) : pop s = (.error .scopeUnderflow, s) := by
  cases s
  subst h
  rfl

theorem pop_eq_ok {e : Edge} {es : List Edge} (h : s.outer = e :: es) :
    pop s = (.ok (), { s with top := e, outer := es, model := none }) := by
  cases s
  subst h
  rfl

theorem check_eq_unknown (h : s.nodeLimit < s.store.size) :
    check s = (.ok (.unknown "node limit exceeded"), { s with model := none }) := by
  show (if s.nodeLimit < s.store.size then _ else _ : Request BitSolver Answer) _ = _
  rw [if_pos h]
  rfl

theorem check_eq_unsat (h : ¬s.nodeLimit < s.store.size) (hpath : s.store.path? s.top = none) :
    check s = (.ok .unsat, { s with model := none }) := by
  show (if s.nodeLimit < s.store.size then _ else _ : Request BitSolver Answer) _ = _
  rw [if_neg h]
  simp only [hpath]
  rfl

theorem check_eq_sat (h : ¬s.nodeLimit < s.store.size) {path : List (Nat × Bool)}
    (hpath : s.store.path? s.top = some path) :
    check s = (.ok .sat, { s with model := some (s.symbols.map (s.valueOn path)) }) := by
  show (if s.nodeLimit < s.store.size then _ else _ : Request BitSolver Answer) _ = _
  rw [if_neg h]
  simp only [hpath]
  rfl

/-- The solver's diagrams are those of its live assertions. -/
structure Keeps (s : BitSolver) (c : Scopes) : Prop where
  valid : s.Valid
  top : Tells s (.bool s.top) fun ρ => .bool (c.live.all (Expr.holds ρ))
  outer : Stacked s s.outer c.outer
  fits : ∀ e ∈ c.live, s.sorts.Fits e

namespace Keeps

variable {c : Scopes}

theorem fresh {width limit : Nat} (hw : widthAllowed width = true) : Keeps (fresh width limit) .none := by
  have hv : (BitSolver.fresh width limit).Valid :=
    ⟨fun _ => none, Store.wellFormed_empty, hw, Nat.one_pos, (fun _ _ h => nomatch h),
      Registry.once_empty⟩
  exact ⟨hv, tells_bool hv true, trivial, fun _ h => nomatch h⟩

theorem width (h : Keeps s c) : widthAllowed s.width = true := h.valid.elim fun _ h => h.width

theorem width_pos (h : Keeps s c) : 0 < s.width := h.valid.elim fun _ h => h.width_pos

theorem later (h : Keeps s c) (hg : s.Grows s') : Keeps s' c := by
  refine ⟨hg.valid, ?_, ?_, fun e he => (h.fits e he).extend hg.sorts⟩
  · rw [hg.top]
    exact h.top.later h.valid hg.toAdds
  · rw [hg.outer]
    exact h.outer.later h.valid hg.toAdds

theorem push (h : Keeps s c) : Keeps s.push c.opened :=
  have ha := h.valid.adds s.top (s.top :: s.outer) s.model
  ⟨ha.valid, h.top.later h.valid ha, ⟨h.top.later h.valid ha, h.outer.later h.valid ha⟩, h.fits⟩

theorem forget (h : Keeps s c) (m : Option Model) : Keeps { s with model := m } c :=
  h.later ⟨h.valid.adds s.top s.outer m, rfl, rfl⟩

theorem pop (h : Keeps s c) :
    (∃ t, pop s = (.ok (), t) ∧ c.outer ≠ [] ∧ Keeps t c.closed ∧ s.Adds t ∧
        t.sorts = s.sorts) ∨
      pop s = (.error .scopeUnderflow, s) ∧ c.outer = [] := by
  obtain ⟨inner, outer⟩ := c
  have hstack := h.outer
  cases hs : s.outer with
  | nil =>
    rw [hs] at hstack
    exact .inr ⟨pop_eq_error hs, List.length_eq_zero_iff.mp hstack.length.symm⟩
  | cons e es =>
    rw [hs] at hstack
    cases outer with
    | nil => exact hstack.elim
    | cons inner' outer =>
      have ha := h.valid.adds e es none
      refine .inl ⟨_, pop_eq_ok hs, List.cons_ne_nil _ _,
        ⟨ha.valid, hstack.1.later h.valid ha, hstack.2.later h.valid ha, fun d hd => ?_⟩, ha, rfl⟩
      exact h.fits d (List.mem_append_right _ hd)

theorem conjoined (h : Keeps s c) (e : Expr) : Runs (conjoined e) s fun t x =>
    Tells t (.bool x) (fun ρ => .bool ((c.add e).live.all (Expr.holds ρ))) ∧ t.sorts.Fits e := by
  refine (blasts e).bool h.valid fun r t hg hr => Runs.get_bind ?_
  have htop := (h.later hg).top
  refine (buildBool_runs (p := fun ρ => (c.add e).live.all (Expr.holds ρ)) hg.valid
    (and_denotes hg.valid.store htop.denotes hr.denotes) fun α ρ hρ => ?_).imp
      fun x u hg' hx => ⟨hx, ?_⟩
  · rw [htop.truth hρ, hr.truth hρ, Scopes.live_add, List.all_cons, Bool.and_comm]
    rfl
  · exact ⟨hr.sort, fun p hp => hg'.sorts p.1 p.2 (hr.binds p hp)⟩

theorem assert (h : Keeps s c) (e : Expr) :
    (∃ t, assert e s = (.ok (), t) ∧ Keeps t (c.add e) ∧ s.Adds t) ∨
      ∃ err t, assert e s = (.error err, t) ∧ Keeps t c ∧ s.Adds t := by
  have h₀ := h.forget none
  have ha₀ := h.valid.adds s.top s.outer none
  rw [assert_eq]
  have hruns := h₀.conjoined e
  have hg := hruns.grows
  cases hrun : BitSolver.conjoined e { s with model := none } with
  | mk x t =>
    rw [hrun] at hg
    cases x with
    | error err => exact .inr ⟨err, t, Session.bind_error hrun, h₀.later hg, ha₀.trans hg.toAdds⟩
    | ok top =>
      obtain ⟨htells, hfits⟩ := hruns.result top (by rw [hrun])
      rw [hrun] at htells hfits
      have ht := h₀.later hg
      have ha := hg.valid.adds top t.outer t.model
      refine .inl ⟨{ t with top }, Session.bind_ok hrun, ⟨ha.valid, ?_, ?_, ?_⟩,
        ha₀.trans (hg.toAdds.trans ha)⟩
      · exact htells.later hg.valid ha
      · exact ht.outer.later hg.valid ha
      · exact List.forall_mem_cons.mpr ⟨hfits, ht.fits⟩

theorem valueOn_eq (hs : s.Valid) (path : List (Nat × Bool)) {n : String} {t : Term}
    (ht : s.symbols.get? n = some t) :
    s.valueOn path t = t.value s.store (Store.onPath path) := by
  obtain ⟨layout, hl⟩ := hs
  have hbit : ∀ e ∈ t.bits, s.bitOn path e = s.store.truth (Store.onPath path) e ∧
      e.isTerminal = false := by
    intro e he
    obtain ⟨j, hj⟩ := List.getElem?_of_mem he
    obtain ⟨v, -, -, hv, -⟩ := (hl.placed n t ht).literal j e hj
    rw [hv.truth_eq hl.store, bitOn, hv.var_eq, hv.regular, Bool.bne_false, Store.onPath]
    exact ⟨rfl, hv.isTerminal_eq⟩
  cases t with
  | bool e => exact congrArg Value.bool (hbit e (by simp [Term.bits])).1
  | int w =>
    have hwidth : w.width = s.width := (hl.placed n _ ht).length
    obtain ⟨hmin, hmax⟩ := widthAllowed_iff.mp hl.width
    have hne : w.bits ≠ [] := List.length_pos_iff.mp (by rw [← Word.width]; omega)
    have hread : w.bits.map (Word.bitValue (s.bitOn path)) =
        w.bits.map (s.store.truth (Store.onPath path)) := List.map_congr_left fun e he => by
      rw [Word.bitValue, (hbit e he).2, if_neg Bool.false_ne_true, (hbit e he).1]
    have hdecode : w.decode (s.bitOn path) = .ok (w.reading (s.bitOn path)) :=
      Word.decode_of_width_lt hne (by omega)
    simp only [valueOn, hdecode, Word.reading_eq, hread]
    rfl

/-- The model of a satisfying path makes the live assertions true. -/
theorem satisfies (h : Keeps s c) {path : List (Nat × Bool)}
    (hpath : s.store.path? s.top = some path) :
    Model.Satisfies (s.symbols.map (s.valueOn path)) s.range s.sorts c.live := by
  have hget : ∀ n v, (s.symbols.map (s.valueOn path)).get? n = some v →
      ∃ t, s.symbols.get? n = some t ∧ t.value s.store (Store.onPath path) = v := by
    intro n v hv
    rw [Registry.get?_map] at hv
    obtain ⟨t, ht, rfl⟩ := Option.map_eq_some_iff.mp hv
    exact ⟨t, ht, (valueOn_eq h.valid path ht).symm⟩
  refine ⟨fun n v hv => ?_, fun n sort hsort => ?_, ?_⟩
  · obtain ⟨t, ht, rfl⟩ := hget n v hv
    have := h.valid.inRange_valuation (Store.onPath path) n t.sort
    rwa [reads_valuation s _ n t ht, ← Term.sort_value s.store (Store.onPath path) t] at this
  · obtain ⟨t, ht, rfl⟩ := Option.map_eq_some_iff.mp hsort
    rw [Registry.get?_map, ht, Option.map_some, Option.map_some, valueOn_eq h.valid path ht,
      Term.sort_value]
  · have hreads : s.Reads (Store.onPath path) (Model.valuation (s.symbols.map (s.valueOn path))) := by
      intro n t ht
      rw [Model.valuation, Registry.get?_map, ht, Option.map_some, Option.getD_some,
        valueOn_eq h.valid path ht]
    have htrue := Store.truth_onPath h.valid.store h.top.denotes.has hpath
    rw [h.top.truth hreads, Value.truth_bool, List.all_eq_true] at htrue
    exact htrue

/-- A check compares the number of nodes with the limit and then decides the live assertions. -/
theorem check (h : Keeps s c) : ∃ a t, check s = (.ok a, t) ∧ Keeps t c ∧ s.Adds t ∧
    t.sorts = s.sorts ∧
    ((∃ reason, a = .unknown reason) ↔ s.nodeLimit < s.store.size) ∧
    (a = .unsat → ∀ ρ : Valuation, ρ.InRange s.range → ∃ e ∈ c.live, e.holds ρ = false) ∧
    (a = .sat → ∃ m, t.model = some m ∧ m.Satisfies s.range s.sorts c.live) := by
  have ha : ∀ m, s.Adds { s with model := m } := fun m => h.valid.adds s.top s.outer m
  by_cases hlimit : s.nodeLimit < s.store.size
  · exact ⟨_, _, check_eq_unknown hlimit, h.forget none, ha none, rfl, by simp [hlimit],
      by simp, by simp⟩
  cases hpath : s.store.path? s.top with
  | none =>
    refine ⟨.unsat, _, check_eq_unsat hlimit hpath, h.forget none, ha none, rfl, by simp [hlimit],
      fun _ ρ hρ => ?_, by simp⟩
    obtain ⟨α, hα⟩ := h.valid.realize hρ
    have hfalse := (Store.path?_eq_none_iff h.valid.store h.top.denotes.has).mp hpath α
    rw [h.top.truth hα, Value.truth_bool, List.all_eq_false] at hfalse
    simpa using hfalse
  | some path =>
    exact ⟨.sat, _, check_eq_sat hlimit hpath, h.forget _, ha _, rfl, by simp [hlimit], by simp,
      fun _ => ⟨_, rfl, h.satisfies hpath⟩⟩

end Keeps

/-- A request from outside. -/
inductive Command where
  | declare (names : List TypedName)
  | assert (e : Expr)
  | push
  | pop
  | check

def step : BitSolver × Scopes → Command → BitSolver × Scopes
  | (s, c), .declare names => ((declare names s).2, c)
  | (s, c), .assert e =>
    match assert e s with
    | (.ok (), t) => (t, c.add e)
    | (.error _, t) => (t, c)
  | (s, c), .push => (s.push, c.opened)
  | (s, c), .pop =>
    match pop s with
    | (.ok (), t) => (t, c.closed)
    | (.error _, t) => (t, c)
  | (s, c), .check => ((check s).2, c)

/-- Carry out commands, from a solver without assertions. -/
def execute (s : BitSolver) (commands : List Command) : BitSolver × Scopes :=
  commands.foldl step (s, .none)

theorem step_keeps {c : Scopes} (h : Keeps s c) (command : Command) :
    Keeps (step (s, c) command).1 (step (s, c) command).2 ∧ s.Adds (step (s, c) command).1 := by
  cases command with
  | declare names =>
    have hg := (declare_runs h.valid names).grows
    exact ⟨h.later hg, hg.toAdds⟩
  | assert e =>
    rcases h.assert e with ⟨t, hrun, hk, ha⟩ | ⟨err, t, hrun, hk, ha⟩ <;> simp only [step, hrun]
    · exact ⟨hk, ha⟩
    · exact ⟨hk, ha⟩
  | push => exact ⟨h.push, h.valid.adds s.top (s.top :: s.outer) s.model⟩
  | pop =>
    rcases h.pop with ⟨t, hrun, -, hk, ha, -⟩ | ⟨hrun, -⟩ <;> simp only [step, hrun]
    · exact ⟨hk, ha⟩
    · exact ⟨h, (Grows.refl h.valid).toAdds⟩
  | check =>
    obtain ⟨a, t, hrun, hk, ha, -⟩ := h.check
    simp only [step, hrun]
    exact ⟨hk, ha⟩

theorem foldl_step_keeps {c : Scopes} (h : Keeps s c) (commands : List Command) :
    Keeps (commands.foldl step (s, c)).1 (commands.foldl step (s, c)).2 ∧
      s.Adds (commands.foldl step (s, c)).1 := by
  induction commands generalizing s c with
  | nil => exact ⟨h, (Grows.refl h.valid).toAdds⟩
  | cons command commands ih =>
    obtain ⟨hk, ha⟩ := step_keeps h command
    obtain ⟨hk', ha'⟩ := ih hk
    exact ⟨hk', ha.trans ha'⟩

theorem execute_keeps {width : Nat} (limit : Nat) (hw : widthAllowed width = true)
    (commands : List Command) :
    Keeps (execute (fresh width limit) commands).1 (execute (fresh width limit) commands).2 ∧
      (fresh width limit).Adds (execute (fresh width limit) commands).1 :=
  foldl_step_keeps (.fresh hw) commands

theorem create_eq {width : Nat} (limit : Nat) (hmin : 2 ≤ width) (hmax : width ≤ 32) :
    create width limit = .ok (fresh width limit) := by
  simp [create, widthAllowed, minWidth, maxWidth, hmin, hmax]

theorem range_eq (s : BitSolver) : s.range = (-(2 ^ (s.width - 1)), 2 ^ (s.width - 1) - 1) := by
  have hhalf : ((Nat.pow 2 (s.width - 1) : Nat) : Int) = 2 ^ (s.width - 1) := Nat.cast_pow 2 _
  rw [range, hhalf]

structure Later (s t : BitSolver) : Prop where
  nodeLimit : t.nodeLimit = s.nodeLimit
  size_le : s.store.size ≤ t.store.size

theorem Adds.later (h : s.Adds s') : s.Later s' :=
  ⟨h.nodeLimit, Nat.sub_le_sub_right h.store.size_le 1⟩

/-- The bit-level solver can be relied on. -/
def faithful {width : Nat} (hmin : 2 ≤ width) (hmax : width ≤ 32) :
    Faithful BitSolver (-(2 ^ (width - 1)), 2 ^ (width - 1) - 1) where
  Keeps s c Γ := s.Keeps c ∧ s.sorts = Γ ∧ s.width = width
  Later := Later
  zero_mem := by
    have h := range_zero (s := fresh width 0) (Nat.lt_of_lt_of_le Nat.two_pos hmin)
    rwa [range_eq] at h
  bounded := by
    have h : (2 : Int) ^ (width - 1) ≤ 2 ^ 31 := Word.pow_width_le (by omega)
    constructor
    · show Bounded.least ≤ -(2 ^ (width - 1))
      unfold Bounded.least
      linarith
    · show 2 ^ (width - 1) - 1 ≤ Bounded.greatest
      unfold Bounded.greatest
      linarith
  later_refl s := ⟨rfl, Nat.le_refl _⟩
  later_trans h h' := ⟨h'.nodeLimit.trans h.nodeLimit, Nat.le_trans h.size_le h'.size_le⟩
  range_eq := by
    rintro s c Γ ⟨-, -, hw⟩
    show s.range = _
    rw [range_eq, hw]
  depth_eq h := h.1.outer.length
  fits := by
    rintro s c Γ ⟨h, rfl, -⟩
    exact h.fits
  declare := by
    rintro s c Γ names t ⟨h, rfl, hw⟩ hrun
    have hd := declare_runs h.valid names
    have hrun' : declare names s = (.ok (), t) := hrun
    have hg := hd.grows
    have hr := hd.result ()
    rw [hrun'] at hg hr
    exact ⟨hg.toAdds.later, t.sorts, hg.sorts, hr rfl, h.later hg, rfl, hg.width.trans hw⟩
  assert := by
    rintro s c Γ e t ⟨h, rfl, hw⟩ hrun
    rcases h.assert e with ⟨u, hrun', hk, ha⟩ | ⟨err, u, hrun', -⟩
    · obtain rfl : u = t := (Prod.mk.inj (hrun'.symm.trans hrun)).2
      exact ⟨ha.later, u.sorts, ha.sorts, hk, rfl, ha.width.trans hw⟩
    · exact nomatch (Prod.mk.inj (hrun'.symm.trans hrun)).1
  push := by
    rintro s c Γ ⟨h, rfl, hw⟩
    exact ⟨(h.valid.adds s.top (s.top :: s.outer) s.model).later, h.push, rfl, hw⟩
  pop := by
    rintro s c Γ ⟨h, rfl, hw⟩ hopen
    rcases h.pop with ⟨t, hrun, -, hk, ha, hsorts⟩ | ⟨-, hnone⟩
    · exact ⟨t, hrun, ha.later, hk, hsorts, ha.width.trans hw⟩
    · exact absurd hnone hopen
  check := by
    rintro s c Γ a t ⟨h, rfl, hw⟩ hrun
    obtain ⟨a', u, hrun', hk, ha, hsorts, -⟩ := h.check
    obtain rfl : u = t := (Prod.mk.inj (hrun'.symm.trans hrun)).2
    exact ⟨ha.later, hk, hsorts, ha.width.trans hw⟩
  unsat := by
    rintro s c Γ t ⟨h, rfl, hw⟩ hrun
    obtain ⟨a, u, hrun', -, -, -, -, hunsat, -⟩ := h.check
    obtain rfl : a = .unsat := Except.ok.inj (Prod.mk.inj (hrun'.symm.trans hrun)).1
    have := hunsat rfl
    rwa [range_eq, hw] at this
  sat := by
    rintro s c Γ t m ⟨h, rfl, hw⟩ hrun hmodel
    obtain ⟨a, u, hrun', -, -, -, -, -, hsat⟩ := h.check
    obtain ⟨ha, rfl⟩ := Prod.mk.inj (hrun'.symm.trans hrun)
    obtain rfl : a = .sat := Except.ok.inj ha
    obtain ⟨m', hm', hs⟩ := hsat rfl
    obtain rfl : m' = m := Option.some.inj (hm'.symm.trans hmodel)
    rwa [range_eq, hw] at hs

theorem steady {width : Nat} (hmin : 2 ≤ width) (hmax : width ≤ 32) : (faithful hmin hmax).Steady := by
  rintro s s' t t' c c' Γ Γ' reason a ⟨h, -, -⟩ hrun hlater ⟨h', -, -⟩ hrun'
  obtain ⟨b, u, hcheck, -, -, -, hunknown, -⟩ := h.check
  obtain ⟨b', u', hcheck', -, -, -, hunknown', -⟩ := h'.check
  obtain rfl : b = .unknown reason := Except.ok.inj (Prod.mk.inj (hcheck.symm.trans hrun)).1
  obtain rfl : b' = a := Except.ok.inj (Prod.mk.inj (hcheck'.symm.trans hrun')).1
  have hlimit := hunknown.mp ⟨reason, rfl⟩
  have hlater : s.Later t := hlater
  rw [← hlater.nodeLimit] at hlimit
  exact hunknown'.mpr (Nat.lt_of_lt_of_le hlimit hlater.size_le)

theorem of_create_ok {width limit : Nat} {s : BitSolver} (h : create width limit = .ok s) :
    2 ≤ width ∧ width ≤ 32 ∧ s = fresh width limit := by
  unfold create at h
  split at h
  · rename_i hallowed
    cases h
    obtain ⟨hmin, hmax⟩ := widthAllowed_iff.mp hallowed
    exact ⟨hmin, hmax, rfl⟩
  · cases h

/-- A solver that was made and asked can be relied on from then on. -/
theorem keeps_of_create {width limit : Nat} {s₀ : BitSolver} (h : create width limit = .ok s₀)
    (commands : List Command) : ∃ (hmin : 2 ≤ width) (hmax : width ≤ 32),
      (faithful hmin hmax).Keeps (s₀.execute commands).1 (s₀.execute commands).2
        (s₀.execute commands).1.sorts := by
  obtain ⟨hmin, hmax, rfl⟩ := of_create_ok h
  obtain ⟨hkeeps, hadds⟩ := execute_keeps limit (widthAllowed_iff.mpr ⟨hmin, hmax⟩) commands
  exact ⟨hmin, hmax, hkeeps, rfl, hadds.width⟩

/-- Some valuation in range makes all live assertions true. -/
def Satisfiable (width : Nat) (c : Scopes) : Prop :=
  ∃ ρ : Valuation, ρ.InRange (-(2 ^ (width - 1)), 2 ^ (width - 1) - 1) ∧
    ∀ e ∈ c.live, e.holds ρ = true

/-- After any commands, a check says that it does not know exactly if there are more nodes than
allowed, and otherwise decides whether the live assertions can hold together. -/
theorem check_exact {width limit : Nat} (hmin : 2 ≤ width) (hmax : width ≤ 32)
    (commands : List Command) :
    ∃ s₀, create width limit = .ok s₀ ∧
      ∃ answer, (check (execute s₀ commands).1).1 = .ok answer ∧
        ((∃ reason, answer = .unknown reason) ↔ limit < (execute s₀ commands).1.store.size) ∧
        ((execute s₀ commands).1.store.size ≤ limit →
          (answer = .sat ↔ Satisfiable width (execute s₀ commands).2) ∧
          (answer = .unsat ↔ ¬Satisfiable width (execute s₀ commands).2)) := by
  refine ⟨fresh width limit, create_eq limit hmin hmax, ?_⟩
  obtain ⟨hk, ha⟩ := execute_keeps limit (widthAllowed_iff.mpr ⟨hmin, hmax⟩) commands
  obtain ⟨answer, t, hrun, -, -, -, hunknown, hunsat, hsat⟩ := hk.check
  have hlimit : (execute (fresh width limit) commands).1.nodeLimit = limit := ha.nodeLimit
  have hrange : (execute (fresh width limit) commands).1.range =
      (-(2 ^ (width - 1)), 2 ^ (width - 1) - 1) := by
    rw [range_eq, ha.width]
    rfl
  rw [hlimit] at hunknown
  rw [hrange] at hunsat hsat
  refine ⟨answer, by rw [hrun], hunknown, fun hsize => ?_⟩
  have hknown : ∀ reason, answer ≠ .unknown reason := fun reason h =>
    Nat.not_le_of_lt (hunknown.mp ⟨reason, h⟩) hsize
  have sound : answer = .sat → Satisfiable width (execute (fresh width limit) commands).2 := by
    intro h
    obtain ⟨m, -, hm⟩ := hsat h
    refine ⟨m.sortedValuation, hm.inRange ?_, hm.holds_sorted hk.fits⟩
    rw [← hrange]
    exact range_zero hk.width_pos
  have complete : answer = .unsat → ¬Satisfiable width (execute (fresh width limit) commands).2 := by
    rintro h ⟨ρ, hρ, hholds⟩
    obtain ⟨e, he, hfalse⟩ := hunsat h ρ hρ
    rw [hholds e he] at hfalse
    cases hfalse
  cases answer with
  | sat => exact ⟨⟨fun h => sound h, fun _ => rfl⟩, ⟨nofun, fun h => absurd (sound rfl) h⟩⟩
  | unsat => exact ⟨⟨nofun, fun h => absurd h (complete rfl)⟩, ⟨fun h => complete h, fun _ => rfl⟩⟩
  | unknown reason => exact absurd rfl (hknown reason)

/-- A positive variable of two bits, after a contradiction in a scope that was closed again and an
assertion that was refused. -/
theorem check_exact_after_pop :
    ∃ s₀, create 2 100 = .ok s₀ ∧
      let after := execute s₀ [.declare [("x", .int)], .assert (.lt (.int 0) (.intVar "x")), .push,
        .assert (.lt (.intVar "x") (.int 0)), .check, .pop, .pop, .assert (.boolVar "x")]
      ∃ answer, (check after.1).1 = .ok answer ∧
        ((∃ reason, answer = .unknown reason) ↔ 100 < after.1.store.size) ∧
        (after.1.store.size ≤ 100 → (answer = .sat ↔ Satisfiable 2 after.2) ∧
          (answer = .unsat ↔ ¬Satisfiable 2 after.2)) :=
  check_exact (by decide) (by decide) _

end InvariantSynthesis.BitSolver
