import InvariantSynthesis.Proofs.BitSolver.Exact
import InvariantSynthesis.Proofs.Diagram.Repeat
import InvariantSynthesis.Proofs.Expr.Occurrence

/-!
Requests that are made a second time. A solver that has gone on since a request still has the terms
and the diagrams that the request came to. The same request then has the same result and adds neither
variables nor nodes.
-/

namespace InvariantSynthesis

open Diagram

/-- The diagrams of a term are in the store. -/
def Term.In (u : Term) (s : Store) : Prop := ∀ e ∈ u.bits, s.Has e

theorem Term.in_bool {e : Edge} {s : Store} (he : s.Has e) : (Term.bool e).In s := by
  simpa [Term.In, Term.bits] using he

namespace BitSolver

variable {s t u : BitSolver} {α β : Type}

/-- The solver is as it was, but for its table of computed diagrams. -/
structure Idle (s t : BitSolver) : Prop where
  eq : t = { s with store := t.store }
  store : t.store.WellFormed
  nodes : t.store.nodes = s.store.nodes

theorem Idle.refl (h : s.Valid) : Idle s s := ⟨rfl, h.store, rfl⟩

theorem Idle.trans (h : Idle s t) (h' : Idle t u) : Idle s u := by
  refine ⟨?_, h'.store, h'.nodes.trans h.nodes⟩
  rw [h'.eq, h.eq]

theorem Idle.grows (h : Idle s t) (hs : s.Valid) : s.Grows t := by
  obtain ⟨layout, hs⟩ := hs
  have hext : s.store.Extends t.store := .of_nodes_eq h.nodes
  have ht := hs.allot h.store hext (Nat.le_refl _) fun _ _ => rfl
  rw [h.eq]
  exact ⟨⟨⟨layout, ht⟩, hext, fun _ _ h => h, rfl, rfl, List.prefix_rfl⟩, rfl, rfl⟩

theorem Adds.idle (h : s.Adds t) (h' : Idle t u) : s.Adds u :=
  h.trans (h'.grows h.valid).toAdds

/-- A request that has its result again, and adds nothing, in every solver that has gone on from
where the request ended. -/
structure Recalls (r : Request BitSolver α) (s : BitSolver) (Q : BitSolver → α → Prop) : Prop
    extends Runs r s Q where
  again : ∀ a, (r s).1 = .ok a → ∀ t, (r s).2.Adds t → ∃ t', r t = (.ok a, t') ∧ Idle t t'

namespace Recalls

variable {Q : BitSolver → α → Prop} {R : BitSolver → β → Prop}

theorem pure {a : α} (hs : s.Valid) (h : Q s a) :
    Recalls (Pure.pure a : Request BitSolver α) s Q := by
  refine ⟨.pure hs h, fun b hb t ht => ?_⟩
  cases hb
  exact ⟨t, rfl, .refl ht.valid⟩

theorem throw {e : OracleError} (hs : s.Valid) : Recalls (throw e : Request BitSolver α) s Q :=
  ⟨.throw hs, fun _ h => nomatch h⟩

theorem bind {r : Request BitSolver α} {f : α → Request BitSolver β} (hr : Recalls r s Q)
    (hf : ∀ a t, s.Grows t → Q t a → Recalls (f a) t R) : Recalls (r >>= f) s R := by
  refine ⟨hr.toRuns.bind fun a t hg ha => (hf a t hg ha).toRuns, fun b hb t ht => ?_⟩
  obtain ⟨⟨hg, hq⟩, hagain⟩ := hr
  cases hrun : r s with
  | mk x m =>
    rw [hrun] at hg hq hagain
    cases x with
    | error e =>
      rw [Session.bind_error hrun] at hb
      cases hb
    | ok a =>
      have hrest := hf a m hg (hq a rfl)
      rw [Session.bind_ok hrun] at hb ht
      -- The first part finds its result because the second part has only added to its state.
      obtain ⟨t₁, hfirst, h₁⟩ := hagain a rfl t (hrest.grows.toAdds.trans ht)
      obtain ⟨t₂, hsecond, h₂⟩ := hrest.again b hb t₁ (ht.idle h₁)
      exact ⟨t₂, (Session.bind_ok hfirst).trans hsecond, h₁.trans h₂⟩

end Recalls

theorem build_recalls {b : Build α} {Q : Store → α → Prop} (hs : s.Valid)
    (hb : Stable b s.store Q) : Recalls (build b) s fun t a => Q t.store a := by
  refine ⟨build_runs hs hb.toYields, fun a ha t ht => ?_⟩
  cases ha
  obtain ⟨hwf, hfinds⟩ := hb.again t.store ht.valid.store ht.store
  refine ⟨{ t with store := (b t.store).2 }, ?_, rfl, hwf, hfinds.nodes⟩
  rw [← hfinds.result]
  rfl

theorem symbol_eq {n : String} {sort : ValueSort} {x : Term} (hx : s.symbols.get? n = some x)
    (hsort : x.sort = sort) : symbol n sort s = (.ok x, s) := by
  have hget : (get : Request BitSolver BitSolver) s = (.ok s, s) := rfl
  rw [symbol, Session.bind_ok hget, hx]
  dsimp only
  rw [if_pos hsort]
  rfl

theorem symbol_recalls (hs : s.Valid) (n : String) (sort : ValueSort) :
    Recalls (symbol n sort) s fun t x => x.In t.store := by
  have hruns := symbol_runs hs n sort
  refine ⟨hruns.imp fun x t hg hx => (hg.valid.stored hx.1).has, fun x hx t ht => ?_⟩
  obtain ⟨hget, hsort, -⟩ := hruns.result x hx
  exact ⟨t, symbol_eq (ht.symbols n x hget) hsort, .refl ht.valid⟩

/-- What is proved of every expression: it is translated to the same term again. -/
def Reblasts (e : Expr) : Prop :=
  ∀ s : BitSolver, s.Valid → Recalls (blast e) s fun t x => x.In t.store

section operands

variable {a b : Expr} {R : BitSolver → β → Prop}

theorem Reblasts.bool {f : Edge → Request BitSolver β} (ha : Reblasts a) (hs : s.Valid)
    (hf : ∀ x t, s.Grows t → t.store.Has x → Recalls (f x) t R) :
    Recalls (do f (← expectBool a (← blast a))) s R := by
  refine (ha s hs).bind fun x t hg hx => ?_
  cases x with
  | bool x => exact hf x t hg (hx x (by simp [Term.bits]))
  | int w => exact Recalls.bind (Q := fun _ _ => False) (.throw hg.valid) fun _ _ _ h => h.elim

theorem Reblasts.int {f : Word → Request BitSolver β} (ha : Reblasts a) (hs : s.Valid)
    (hf : ∀ w t, s.Grows t → w.In t.store → Recalls (f w) t R) :
    Recalls (do f (← expectInt a (← blast a))) s R := by
  refine (ha s hs).bind fun x t hg hx => ?_
  cases x with
  | int w => exact hf w t hg hx
  | bool x => exact Recalls.bind (Q := fun _ _ => False) (.throw hg.valid) fun _ _ _ h => h.elim

theorem returnBool_recalls {b : Build Edge} (hs : s.Valid)
    (hb : Stable b s.store fun t e => t.Has e) :
    Recalls (do return Term.bool (← build b)) s fun t x => x.In t.store :=
  (build_recalls hs hb).bind fun _ _ hg he => .pure hg.valid (Term.in_bool he)

theorem returnInt_recalls {b : Build Word} (hs : s.Valid)
    (hb : Stable b s.store fun t w => w.In t) :
    Recalls (do return Term.int (← build b)) s fun t x => x.In t.store :=
  (build_recalls hs hb).bind fun _ _ hg hw => .pure hg.valid hw

theorem blastFold_recalls {combine : Edge → Edge → Build Edge}
    (hcombine : ∀ {st : Store} {u v : Edge}, st.WellFormed → st.Has u → st.Has v →
      Stable (combine u v) st fun t e => t.Has e)
    {args : List Expr} (hargs : ∀ a ∈ args, Reblasts a) (hs : s.Valid) {acc : Edge}
    (hacc : s.store.Has acc) :
    Recalls (blastFold combine acc args) s fun t e => t.store.Has e := by
  induction args generalizing s acc with
  | nil =>
    rw [blastFold]
    exact .pure hs hacc
  | cons a args ih =>
    rw [blastFold]
    refine (hargs a List.mem_cons_self).bool hs fun x t hg hx => ?_
    refine (build_recalls hg.valid (hcombine hg.valid.store (hacc.extend hg.store) hx)).bind
      fun r u hg' hr => ?_
    exact ih (fun b hb => hargs b (List.mem_cons_of_mem _ hb)) hg'.valid hr

theorem blastSum_recalls {args : List Expr} (hargs : ∀ a ∈ args, Reblasts a) (hs : s.Valid)
    {acc : Word} (hacc : acc.In s.store) :
    Recalls (blastSum acc args) s fun t w => w.In t.store := by
  induction args generalizing s acc with
  | nil =>
    rw [blastSum]
    exact .pure hs hacc
  | cons a args ih =>
    rw [blastSum]
    refine (hargs a List.mem_cons_self).int hs fun x t hg hx => ?_
    refine (build_recalls hg.valid (Word.add_stable hg.valid.store (hacc.later hg.store) hx)).bind
      fun r u hg' hr => ?_
    exact ih (fun b hb => hargs b (List.mem_cons_of_mem _ hb)) hg'.valid hr

theorem pair_reblasts {e : Expr} {f : Word → Word → Build α} {g : α → Term} {K : Store → α → Prop}
    (ha : Reblasts a) (hb : Reblasts b)
    (hblast : blast e = do
      let x ← expectInt a (← blast a)
      let y ← expectInt b (← blast b)
      return g (← build (f x y)))
    (hf : ∀ {st : Store} {x y : Word}, st.WellFormed → x.In st → y.In st → Stable (f x y) st K)
    (hg : ∀ {st : Store} {z : α}, K st z → (g z).In st) : Reblasts e := by
  intro s hs
  rw [hblast]
  refine ha.int hs fun x t ht hx => hb.int ht.valid fun y u hu hy => ?_
  have hop := hf hu.valid.store (hx.later hu.store) hy
  exact (build_recalls hu.valid hop).bind fun z v hv hz => .pure hv.valid (hg hz)

theorem eq_reblasts (ha : Reblasts a) (hb : Reblasts b) : Reblasts (.eq a b) := by
  intro s hs
  rw [blast]
  refine (ha s hs).bind fun x t ht hx => (hb t ht.valid).bind fun y u hu hy => ?_
  have hx' : x.In u.store := fun e he => (hx e he).extend hu.store
  cases x with
  | bool x =>
    cases y with
    | bool y =>
      exact returnBool_recalls hu.valid (eq_stable hu.valid.store (hx' x (by simp [Term.bits]))
        (hy y (by simp [Term.bits])))
    | int y => exact .throw hu.valid
  | int x =>
    cases y with
    | bool y => exact .throw hu.valid
    | int y => exact returnBool_recalls hu.valid (Word.equal_stable hu.valid.store hx' hy)

theorem ite_reblasts {c : Expr} (hc : Reblasts c) (ha : Reblasts a) (hb : Reblasts b) :
    Reblasts (.ite c a b) := by
  intro s hs
  rw [blast]
  refine hc.bool hs fun r t₀ ht₀ hr => ?_
  refine (ha t₀ ht₀.valid).bind fun x t₁ ht₁ hx => (hb t₁ ht₁.valid).bind fun y t ht hy => ?_
  have hr' := hr.extend (ht₁.store.trans ht.store)
  have hx' : x.In t.store := fun e he => (hx e he).extend ht.store
  cases x with
  | bool x =>
    cases y with
    | bool y =>
      exact returnBool_recalls ht.valid (ite_stable ht.valid.store hr'
        (hx' x (by simp [Term.bits])) (hy y (by simp [Term.bits])))
    | int y => exact .throw ht.valid
  | int x =>
    cases y with
    | bool y => exact .throw ht.valid
    | int y => exact returnInt_recalls ht.valid (Word.ite_stable ht.valid.store hr' hx' hy)

end operands

theorem reblasts (e : Expr) : Reblasts e := by
  induction e with
  | bool c =>
    intro s hs
    rw [blast]
    exact .pure hs (Term.in_bool (hs.store.has_ofBool c))
  | int k =>
    intro s hs
    rw [blast]
    exact .pure hs (Word.In.constant hs.store k)
  | var n sort =>
    intro s hs
    rw [blast]
    exact symbol_recalls hs n sort
  | not a ih =>
    intro s hs
    rw [blast]
    exact ih.bool hs fun x t hg hx => .pure hg.valid (Term.in_bool hx.flip)
  | and args ih =>
    intro s hs
    rw [blast]
    exact (blastFold_recalls and_stable ih hs hs.store.has_one).bind
      fun e t hg he => .pure hg.valid (Term.in_bool he)
  | or args ih =>
    intro s hs
    rw [blast]
    exact (blastFold_recalls or_stable ih hs hs.store.has_zero).bind
      fun e t hg he => .pure hg.valid (Term.in_bool he)
  | implies a b iha ihb =>
    intro s hs
    rw [blast]
    refine iha.bool hs fun x t hg hx => ihb.bool hg.valid fun y u hg' hy => ?_
    exact returnBool_recalls hg'.valid (imply_stable hg'.valid.store (hx.extend hg'.store) hy)
  | neg a ih =>
    intro s hs
    rw [blast]
    exact ih.int hs fun x t hg hx => returnInt_recalls hg.valid (Word.neg_stable hg.valid.store hx)
  | add args ih =>
    intro s hs
    rw [blast]
    exact (blastSum_recalls ih hs (.constant hs.store 0)).bind fun w t hg hw => .pure hg.valid hw
  | mul k a ih =>
    intro s hs
    rw [blast]
    exact ih.int hs fun x t hg hx =>
      returnInt_recalls hg.valid (Word.scale_stable hg.valid.store k hx)
  | sub a b iha ihb =>
    exact pair_reblasts (g := .int) iha ihb (by rw [blast]) Word.sub_stable fun hw => hw
  | le a b iha ihb => exact pair_reblasts iha ihb (by rw [blast]) Word.atMost_stable Term.in_bool
  | lt a b iha ihb => exact pair_reblasts iha ihb (by rw [blast]) Word.less_stable Term.in_bool
  | eq a b iha ihb => exact eq_reblasts iha ihb
  | ite c a b ihc iha ihb => exact ite_reblasts ihc iha ihb

theorem conjoined_eq (hs : s.Valid) (e : Expr) {top : Edge} (htop : s.top = top) : conjoined e s =
    (do build (Diagram.and top (← expectBool e (← blast e)))) s := by
  have hg := (blasts e s hs).grows
  rw [conjoined]
  cases hrun : blast e s with
  | mk x m =>
    rw [hrun] at hg
    cases x with
    | error err => rw [Session.bind_error hrun, Session.bind_error hrun]
    | ok x =>
      rw [Session.bind_ok hrun, Session.bind_ok hrun]
      cases x with
      | int w => rfl
      | bool r =>
        have hbool : expectBool e (.bool r) m = (.ok r, m) := rfl
        have hget : (get : Request BitSolver BitSolver) m = (.ok m, m) := rfl
        rw [Session.bind_ok hbool, Session.bind_ok hbool, Session.bind_ok hget, hg.top, htop]

theorem conjoin_recalls (hs : s.Valid) {top : Edge} (htop : s.store.Has top) (e : Expr) :
    Recalls (do build (Diagram.and top (← expectBool e (← blast e)))) s fun t x => t.store.Has x :=
  (reblasts e).bool hs fun _ _ hg hx =>
    build_recalls hg.valid (and_stable hg.valid.store (htop.extend hg.store) hx)

def Known (s : BitSolver) (n : String) : Prop := (s.sorts n).isSome = true

theorem Adds.known (h : s.Adds t) {n : String} (hn : s.Known n) : t.Known n := by
  obtain ⟨sort, hsort⟩ := Option.isSome_iff_exists.mp hn
  rw [Known, h.sorts n sort hsort]
  rfl

/-- Two solvers at the same place of two runs. The second one has met all that the first run came to
at its end, and the names are known that the first run had declared. -/
structure Twin (last : BitSolver) (declared : String → Prop) (s t : BitSolver) : Prop where
  keeps : ∃ c, s.Keeps c
  later : last.Adds t
  nodes : t.store.nodes = last.store.nodes
  top : t.top = s.top
  outer : t.outer = s.outer
  known : ∀ n, declared n → s.Known n

namespace Twin

variable {last : BitSolver} {declared : String → Prop} {s' : BitSolver} {e : Expr}

theorem forget (h : Twin last declared s t) :
    Twin last declared { s with model := none } { t with model := none } := by
  obtain ⟨c, hc⟩ := h.keeps
  refine ⟨⟨c, hc.forget none⟩, ?_, h.nodes, h.top, h.outer, h.known⟩
  exact h.later.trans (h.later.valid.adds t.top t.outer none)

theorem assert (h : Twin last declared s t) (hrun : assert e s = (.ok (), s'))
    (hlast : s'.Adds last) :
    ∃ t', BitSolver.assert e t = (.ok (), t') ∧ Twin last declared s' t' ∧ s'.sorts.Fits e := by
  obtain ⟨c, hc⟩ := h.keeps
  obtain ⟨hkeeps, hadds⟩ : s'.Keeps (c.add e) ∧ s.Adds s' := by
    rcases hc.assert e with ⟨u, hrun', hk, ha⟩ | ⟨err, u, hrun', -⟩
    · obtain rfl := (Prod.mk.inj (hrun'.symm.trans hrun)).2
      exact ⟨hk, ha⟩
    · cases (Prod.mk.inj (hrun'.symm.trans hrun)).1
  have h₀ := h.forget
  have hvalid := (hc.forget none).valid
  rw [assert_eq] at hrun
  obtain ⟨x, m, hcon, hset⟩ := Session.ok_of_bind hrun
  rw [conjoined_eq hvalid e rfl] at hcon
  obtain ⟨⟨hg, -⟩, hagain⟩ := conjoin_recalls hvalid (hc.forget none).top.denotes.has e
  rw [hcon] at hg hagain
  cases hset
  have hm : m.Adds { t with model := none } :=
    ((hg.valid.adds x m.outer m.model).trans hlast).trans h₀.later
  obtain ⟨t₁, hagain, hidle⟩ := hagain x rfl _ hm
  refine ⟨{ t₁ with top := x }, ?_, ⟨⟨c.add e, hkeeps⟩, ?_, ?_, rfl, ?_, ?_⟩,
    hkeeps.fits e List.mem_cons_self⟩
  · rw [assert_eq, Session.bind_ok ((conjoined_eq h₀.later.valid e h.top).trans hagain)]
    rfl
  · have ht₁ := h₀.later.idle hidle
    exact ht₁.trans (ht₁.valid.adds x t₁.outer t₁.model)
  · exact hidle.nodes.trans h₀.nodes
  · have houter : t₁.outer = t.outer := by rw [hidle.eq]
    exact houter.trans (h.outer.trans hg.outer.symm)
  · intro n hn
    exact hadds.known (h.known n hn)

end Twin

theorem Adds.valueOn_eq (h : s.Adds t) (hs : s.Valid) (path : List (Nat × Bool)) {n : String}
    {x : Term} (hx : s.symbols.get? n = some x) : t.valueOn path x = s.valueOn path x := by
  rw [Keeps.valueOn_eq h.valid path (h.symbols n x hx), Keeps.valueOn_eq hs path hx,
    Term.value_extend hs.store h.store (hs.stored hx)]

/-- What can be read of two solvers is the same: the model, if there is one, on the variables that the
first solver knows, and the solvers that they spawn. -/
structure Alike (s t : BitSolver) : Prop where
  spawn : (Oracle.spawn t : BitSolver) = Oracle.spawn s
  model : ∀ m, s.model = some m → ∃ m', t.model = some m' ∧ m.Agrees s.Known m'

theorem Keeps.of_check {c : Scopes} {s' : BitSolver} {a : Answer} (h : s.Keeps c)
    (hrun : BitSolver.check s = (.ok a, s')) : s.Adds s' ∧ s'.sorts = s.sorts := by
  obtain ⟨b, u, hrun', -, hadds, hsorts, -⟩ := h.check
  obtain rfl : u = s' := (Prod.mk.inj (hrun'.symm.trans hrun)).2
  exact ⟨hadds, hsorts⟩

namespace Twin

variable {last : BitSolver} {declared : String → Prop} {s' : BitSolver} {a : Answer}

/-- Below the limit a check has the same answer again, shown by the same path. -/
theorem check (h : Twin last declared s t) (hroom : last.store.size ≤ last.nodeLimit)
    (hrun : check s = (.ok a, s')) (hlast : s'.Adds last) :
    ∃ t', BitSolver.check t = (.ok a, t') ∧ Twin last declared s' t' ∧ Alike s' t' := by
  obtain ⟨c, hc⟩ := h.keeps
  have hlast := (hc.of_check hrun).1.trans hlast
  have hst := hlast.trans h.later
  have hsize : t.store.size = last.store.size := congrArg (Array.size · - 1) h.nodes
  have hs : ¬s.nodeLimit < s.store.size := by
    have hle := hlast.later.size_le
    rw [← hlast.nodeLimit]
    omega
  have ht : ¬t.nodeLimit < t.store.size := by
    rw [h.later.nodeLimit, hsize]
    exact Nat.not_lt_of_le hroom
  -- Nodes are never changed, so the conjunction has the path that it had.
  have hpath : t.store.path? t.top = s.store.path? s.top := by
    rw [h.top]
    exact hst.store.path? hc.valid.store hc.top.denotes.has
  have hmodel : ∀ m m', Twin last declared { s with model := m } { t with model := m' } := by
    intro m m'
    refine ⟨⟨c, hc.forget m⟩, ?_, h.nodes, h.top, h.outer, h.known⟩
    exact h.later.trans (h.later.valid.adds t.top t.outer m')
  have hspawn : BitSolver.fresh t.width t.nodeLimit = .fresh s.width s.nodeLimit := by
    rw [hst.width, hst.nodeLimit]
  cases hfound : s.store.path? s.top with
  | none =>
    rw [check_eq_unsat hs hfound] at hrun
    cases hrun
    exact ⟨_, check_eq_unsat ht (hpath.trans hfound), hmodel none none, hspawn, fun m hm => nomatch hm⟩
  | some path =>
    rw [check_eq_sat hs hfound] at hrun
    cases hrun
    refine ⟨_, check_eq_sat ht (hpath.trans hfound), hmodel _ _, hspawn,
      fun m hm => ⟨_, rfl, fun n hn => ?_⟩⟩
    cases hm
    obtain ⟨sort, hsort⟩ := Option.isSome_iff_exists.mp hn
    obtain ⟨x, hx, -⟩ := Option.map_eq_some_iff.mp hsort
    rw [Registry.get?_map, Registry.get?_map, hst.symbols n x hx, hx, Option.map_some, Option.map_some,
      hst.valueOn_eq hc.valid path hx]

end Twin

section declare

theorem announce_known {names : List TypedName} (ints : List String)
    (hknown : ∀ p ∈ names, (s.sorts p.1).isSome = true) :
    (∀ p ∈ names, s.sorts p.1 = some p.2) ∧ announce ints names s = (.ok ints, s) ∨
      ∃ p ∈ names, ∃ sort, s.sorts p.1 = some sort ∧ sort ≠ p.2 ∧
        announce ints names s = (.error (.sortClash p.1 sort p.2), s) := by
  induction names with
  | nil => exact .inl ⟨nofun, rfl⟩
  | cons p rest ih =>
    obtain ⟨n, sort⟩ := p
    obtain ⟨hn, hrest⟩ := List.forall_mem_cons.mp hknown
    obtain ⟨sort', hsort'⟩ := Option.isSome_iff_exists.mp hn
    obtain ⟨x, hx, rfl⟩ := Option.map_eq_some_iff.mp hsort'
    rw [announce_cons, hx]
    dsimp only
    by_cases hsort : x.sort = sort
    · rw [if_pos hsort]
      obtain ⟨hsorts, h⟩ | ⟨p, hp, h⟩ := ih hrest
      · rw [hsort] at hsort'
        exact .inl ⟨List.forall_mem_cons.mpr ⟨hsort', hsorts⟩, h⟩
      · exact .inr ⟨p, List.mem_cons_of_mem _ hp, h⟩
    · rw [if_neg hsort]
      exact .inr ⟨(n, sort), List.mem_cons_self, x.sort, hsort', hsort, rfl⟩

theorem freshPlaces_zero (places : Nat) (s : BitSolver) :
    ∃ rows, freshPlaces 0 places s = (.ok rows, s) := by
  induction places with
  | zero => exact ⟨[], rfl⟩
  | succ places ih =>
    obtain ⟨rows, hrows⟩ := ih
    have hbits : freshBits 0 s = (.ok [], s) := rfl
    refine ⟨[] :: rows, ?_⟩
    rw [freshPlaces, Session.bind_ok hbits, Session.bind_ok hrows]
    rfl

/-- Declaring variables again changes nothing, or finds one that was declared at two sorts. -/
theorem declare_again {names : List TypedName} {s' : BitSolver} (hs : s.Valid)
    (hrun : declare names s = (.ok (), s')) (hst : s'.Adds t) :
    (∀ p ∈ names, t.sorts p.1 = some p.2) ∧ declare names t = (.ok (), t) ∨
      ∃ n sort sort', (n, sort) ∈ names ∧ (n, sort') ∈ names ∧ sort ≠ sort' ∧
        declare names t = (.error (.sortClash n sort sort'), t) := by
  have hdeclared := (declare_runs hs names).result ()
  rw [hrun] at hdeclared
  have hsorts : ∀ n sort, names.lookup n = some sort → t.sorts n = some sort := fun n sort hn =>
    hst.sorts n sort (hdeclared rfl n sort hn)
  have hknown : ∀ p ∈ names, (t.sorts p.1).isSome = true := by
    intro p hp
    obtain ⟨sort, hsort⟩ := exists_lookup_of_mem hp
    rw [hsorts p.1 sort hsort]
    rfl
  obtain ⟨hall, h⟩ | ⟨p, hp, sort, hsort, hne, h⟩ := announce_known [] hknown
  · refine .inl ⟨hall, ?_⟩
    obtain ⟨rows, hrows⟩ := freshPlaces_zero t.width t
    have hget : (get : Request BitSolver BitSolver) t = (.ok t, t) := rfl
    rw [declare, Session.bind_ok h, Session.bind_ok hget, List.length_nil, Session.bind_ok hrows]
    rfl
  · obtain ⟨first, hfirst⟩ := exists_lookup_of_mem hp
    obtain rfl : first = sort := Option.some.inj ((hsorts _ _ hfirst).symm.trans hsort)
    refine .inr ⟨p.1, first, p.2, ?_, hp, hne, ?_⟩
    · obtain ⟨l₁, l₂, hsplit, -⟩ := List.lookup_eq_some_iff.mp hfirst
      rw [hsplit]
      simp
    · rw [declare, Session.bind_error h]

end declare

end BitSolver

end InvariantSynthesis
