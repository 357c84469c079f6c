import InvariantSynthesis.Proofs.Diagram.Canonical

/-!
If-then-else as a recursion. The recursion is written as rules without a bound on its depth, with all
that a step takes for granted. On the edges of a store that calls have built it always ends, with the
result that is computed, and it changes the meaning of no edge.
-/

namespace InvariantSynthesis.Diagram

open Store

/-- The result, where the operands decide it at once. -/
def decided? (f g h : Edge) : Option Edge :=
  if f = .one then some g
  else if f = .zero then some h
  else if g = h then some g
  else if g = .one ∧ h = .zero then some f
  else if g = .zero ∧ h = .one then some f.flip
  else none

def simplified? (f g h : Edge) : Option (Edge × Edge) :=
  if g = f then some (.one, h)
  else if h = f then some (g, .zero)
  else if g = f.flip then some (.zero, h)
  else if h = f.flip then some (g, .one)
  else none

/-- What is taken for granted when operands are split at a variable. They are there, one that does
not start with a later variable starts with this one, and it is the number of a variable. -/
structure SplitsAt (s : Store) (x : Triple) (v : Nat) : Prop where
  has : ∀ e ∈ [x.test, x.yes, x.no], s.Has e
  starts : ∀ e ∈ [x.test, x.yes, x.no], e.isTerminal = false → ¬v < s.var e → v = s.var e
  var_ne : v ≠ 0

/-- The recursion of if-then-else, from a store and three operands to a result and a store. -/
inductive IteRun : Store → Edge → Edge → Edge → Edge → Store → Prop
  | decided {s : Store} {f g h e : Edge} : decided? f g h = some e → IteRun s f g h e s
  | simplified {s t : Store} {f g h g' h' e : Edge} : decided? f g h = none →
      simplified? f g h = some (g', h') → IteRun s f g' h' e t → IteRun s f g h e t
  | recalled {s : Store} {f g h e : Edge} {x : Triple} {negated : Bool} : decided? f g h = none →
      simplified? f g h = none → Triple.standard f g h = (x, negated) → s.computed[x]? = some e →
      IteRun s f g h (e.flipIf negated) s
  | split {s t u w : Store} {f g h low high e : Edge} {x : Triple} {negated : Bool} {v : Nat} :
      decided? f g h = none → simplified? f g h = none → Triple.standard f g h = (x, negated) →
      s.computed[x]? = none → s.topVar x.test x.yes x.no = v → SplitsAt s x v →
      IteRun s (s.cofactors x.test v).1 (s.cofactors x.yes v).1 (s.cofactors x.no v).1 low t →
      IteRun t (s.cofactors x.test v).2 (s.cofactors x.yes v).2 (s.cofactors x.no v).2 high u →
      branch v low high u = (e, w) → IteRun s f g h (e.flipIf negated) (remember x e w).2

theorem IteRun.unique {s t t' : Store} {f g h e e' : Edge} (hrun : IteRun s f g h e t)
    (hrun' : IteRun s f g h e' t') : e = e' ∧ t = t' := by
  induction hrun generalizing e' t' with
  | decided hd => cases hrun' <;> simp_all
  | simplified hd hs hrest ih =>
    cases hrun' with
    | decided | recalled | split => simp_all
    | simplified hd' hs' hrest' =>
      cases hs.symm.trans hs'
      exact ih hrest'
  | recalled hd hs hx he => cases hrun' <;> simp_all
  | split hd hs hx he hv hsplits hlow hhigh hbranch ihlow ihhigh =>
    cases hrun' with
    | decided | simplified | recalled => simp_all
    | split hd' hs' hx' he' hv' hsplits' hlow' hhigh' hbranch' =>
      cases hx.symm.trans hx'
      cases hv.symm.trans hv'
      obtain ⟨rfl, rfl⟩ := ihlow hlow'
      obtain ⟨rfl, rfl⟩ := ihhigh hhigh'
      cases hbranch.symm.trans hbranch'
      exact ⟨rfl, rfl⟩

variable {s : Store} {f g h : Edge}

theorem two_le_of_undecided (hf : s.Has f) (hd : decided? f g h = none) : 2 ≤ f.index := by
  have hne : f.index ≠ 1 := by
    intro he
    obtain rfl | rfl := Edge.eq_one_or_zero he <;> simp [decided?, Edge.one, Edge.zero] at hd
  have := hf.1
  omega

theorem iteWith_succ (fuel : Nat) (f g h : Edge) : iteWith (fuel + 1) f g h =
    match decided? f g h with
    | some e => pure e
    | none =>
      match simplified? f g h with
      | some (g', h') => iteWith fuel f g' h'
      | none => do
        let found ← lookup? (Triple.standard f g h).1
        match found with
        | some e => return e.flipIf (Triple.standard f g h).2
        | none =>
          let s ← get
          return (← joinParts (iteWith fuel) s (Triple.standard f g h).1
            (s.topVar (Triple.standard f g h).1.test (Triple.standard f g h).1.yes
              (Triple.standard f g h).1.no)).flipIf (Triple.standard f g h).2 := by
  unfold decided? simplified?
  by_cases hf1 : f = .one
  · rw [iteWith, if_pos hf1, if_pos hf1]
  by_cases hf0 : f = .zero
  · rw [iteWith, if_neg hf1, if_neg hf1, if_pos hf0, if_pos hf0]
  by_cases hgh : g = h
  · rw [iteWith, if_neg hf1, if_neg hf1, if_neg hf0, if_neg hf0, if_pos hgh, if_pos hgh]
  by_cases h10 : g = .one ∧ h = .zero
  · rw [iteWith]
    simp only [if_neg hf1, if_neg hf0, if_neg hgh, if_pos h10]
  by_cases h01 : g = .zero ∧ h = .one
  · rw [iteWith]
    simp only [if_neg hf1, if_neg hf0, if_neg hgh, if_neg h10, if_pos h01]
  rw [iteWith_nontrivial fuel hf1 hf0 hgh h10 h01]
  simp only [if_neg hf1, if_neg hf0, if_neg hgh, if_neg h10, if_neg h01]
  split
  · rfl
  split
  · rfl
  split
  · rfl
  split <;> rfl

theorem simplified_smaller {g' h' : Edge} (hs : s.WellFormed) (hf : s.Has f) (hg : s.Has g)
    (hh : s.Has h) (hd : decided? f g h = none) (hsimple : simplified? f g h = some (g', h')) :
    s.Has g' ∧ s.Has h' ∧ g'.index + h'.index < g.index + h.index := by
  have h2 := two_le_of_undecided hf hd
  have hone : Edge.one.index = 1 := rfl
  have hzero : Edge.zero.index = 1 := rfl
  unfold simplified? at hsimple
  split at hsimple
  · rename_i heq
    cases hsimple
    exact ⟨hs.has_one, hh, by rw [heq, hone]; omega⟩
  split at hsimple
  · rename_i heq
    cases hsimple
    exact ⟨hg, hs.has_zero, by rw [heq, hzero]; omega⟩
  split at hsimple
  · rename_i heq
    cases hsimple
    exact ⟨hs.has_zero, hh, by rw [heq, hzero, Edge.index_flip]; omega⟩
  split at hsimple
  · rename_i heq
    cases hsimple
    exact ⟨hg, hs.has_one, by rw [heq, hone, Edge.index_flip]; omega⟩
  · cases hsimple

theorem starts_of_le {e : Edge} {v : Nat} (he : s.Has e) (hv : 2 ≤ e.index → v ≤ s.var e) :
    e.isTerminal = false → ¬v < s.var e → v = s.var e := by
  intro hterminal hlt
  have hne : e.index ≠ 1 := by simpa [Edge.isTerminal] using hterminal
  have hpos := he.1
  have hle := hv (by omega)
  omega

theorem joinParts_run {part : Edge → Edge → Edge → Build Edge} {x : Triple} {negated : Bool}
    (hs : s.WellFormed) (hd : decided? f g h = none) (hsimple : simplified? f g h = none)
    (hx : Triple.standard f g h = (x, negated)) (hn : Standard s f g h (x, negated))
    (hfind : s.computed[x]? = none) (hf2 : 2 ≤ f.index)
    (hpart : ∀ (t : Store) (f' g' h' : Edge), t.WellFormed → t.Has f' → t.Has g' → t.Has h' →
      f'.index + g'.index + h'.index < f.index + g.index + h.index →
      IteRun t f' g' h' (part f' g' h' t).1 (part f' g' h' t).2 ∧ (part f' g' h' t).2.WellFormed ∧
        t.Extends (part f' g' h' t).2) :
    IteRun s f g h
      ((joinParts part s x (s.topVar x.test x.yes x.no) s).1.flipIf negated)
      (joinParts part s x (s.topVar x.test x.yes x.no) s).2 := by
  have hf : s.Has x.test := hn.test_has
  have hg : s.Has x.yes := hn.yes_has
  have hh : s.Has x.no := hn.no_has
  have hindex : x.yes.index + x.no.index = g.index + h.index := hn.index_eq
  have htest : x.test.index = f.index := hn.test_index
  obtain ⟨hvf, hvg, hvh⟩ := topVar_le s x.test x.yes x.no
  have htop := topVar_eq s x.test x.yes x.no
  generalize hv : s.topVar x.test x.yes x.no = v at *
  have cf := cofactors_splits hs hf (v := v) fun _ => hvf
  have cg := cofactors_splits hs hg (v := v) hvg
  have ch := cofactors_splits hs hh (v := v) hvh
  obtain ⟨hpos, hlow, hhigh⟩ := parts_smaller hs htop hf hg hh (htest ▸ hf2) cf cg ch
  have hsplits : SplitsAt s x v := by
    refine ⟨by simp [hf, hg, hh], ?_, Nat.ne_of_gt hpos⟩
    simp only [List.forall_mem_cons, List.not_mem_nil, false_implies, implies_true, and_true]
    exact ⟨starts_of_le hf fun _ => hvf, starts_of_le hg hvg, starts_of_le hh hvh⟩
  obtain ⟨hrun, ht, hst⟩ := hpart s _ _ _ hs cf.low_has cg.low_has ch.low_has (by omega)
  obtain ⟨hrun', -, -⟩ := hpart _ _ _ _ ht (cf.high_has.extend hst) (cg.high_has.extend hst)
    (ch.high_has.extend hst) (by omega)
  exact .split hd hsimple hx hfind hv hsplits hrun hrun' rfl

theorem iteWith_run (fuel : Nat) (hs : s.WellFormed) (hf : s.Has f) (hg : s.Has g) (hh : s.Has h)
    (hfuel : f.index + g.index + h.index < fuel) :
    IteRun s f g h (iteWith fuel f g h s).1 (iteWith fuel f g h s).2 := by
  induction fuel generalizing s f g h with
  | zero => exact absurd hfuel (Nat.not_lt_zero _)
  | succ fuel ih =>
    rw [iteWith_succ]
    cases hd : decided? f g h with
    | some e => exact .decided hd
    | none =>
      cases hsimple : simplified? f g h with
      | some branches =>
        obtain ⟨g', h'⟩ := branches
        obtain ⟨hg', hh', hlt⟩ := simplified_smaller hs hf hg hh hd hsimple
        exact .simplified hd hsimple (ih hs hf hg' hh' (by omega))
      | none =>
        have hn := standard_spec hf hg hh
        generalize hx : Triple.standard f g h = n at hn
        obtain ⟨x, negated⟩ := n
        dsimp only
        cases hfind : s.computed[x]? with
        | some e =>
          have hread : lookup? x s = (some e, s) := congrArg (·, s) hfind
          rw [bind_of_read hread]
          exact .recalled hd hsimple hx hfind
        | none =>
          have hread : lookup? x s = (none, s) := congrArg (·, s) hfind
          rw [bind_of_read hread]
          refine joinParts_run hs hd hsimple hx hn hfind (two_le_of_undecided hf hd)
            fun t f' g' h' ht hf' hg' hh' hlt => ?_
          have hyields := iteWith_yields fuel ht hf' hg' hh' (by omega)
          exact ⟨ih ht hf' hg' hh' (by omega), hyields.wellFormed, hyields.grows⟩

/-- The recursion ends exactly with what is computed. -/
theorem iteRun_iff (hs : s.WellFormed) (hf : s.Has f) (hg : s.Has g) (hh : s.Has h) {e : Edge}
    {t : Store} : IteRun s f g h e t ↔ ite f g h s = (e, t) := by
  have hrun := iteWith_run _ hs hf hg hh (Nat.lt_succ_self _)
  constructor
  · intro h
    obtain ⟨rfl, rfl⟩ := h.unique hrun
    rfl
  · intro h
    obtain ⟨rfl, rfl⟩ := Prod.mk.inj h
    exact hrun

theorem andFrom_cons (acc u : Edge) (us : List Edge) (s : Store) : andFrom acc (u :: us) s =
    if (and acc u s).1 = .zero then and acc u s
    else andFrom (and acc u s).1 us (and acc u s).2 := by
  have hstep : andFrom acc (u :: us) s =
      (if (and acc u s).1 = .zero then pure (and acc u s).1 else andFrom (and acc u s).1 us : Build Edge)
        (and acc u s).2 :=
    rfl
  rw [hstep]
  by_cases hr : (and acc u s).1 = .zero
  · rw [if_pos hr, if_pos hr]
    rfl
  · rw [if_neg hr, if_neg hr]

/-- A conjunction that is false is not computed further. -/
theorem andFrom_append {acc : Edge} (hacc : acc ≠ .zero) (us vs : List Edge)
    (h : (andFrom acc us s).1 = .zero) : andFrom acc (us ++ vs) s = andFrom acc us s := by
  induction us generalizing acc s with
  | nil => exact absurd h hacc
  | cons u us ih =>
    rw [andFrom_cons] at h
    rw [List.cons_append, andFrom_cons, andFrom_cons]
    by_cases hr : (and acc u s).1 = .zero
    · rw [if_pos hr, if_pos hr]
    · rw [if_neg hr] at h
      rw [if_neg hr, if_neg hr, ih hr h]

/-- A computation gives a result with a property, in a store where every edge means what it meant
before. -/
structure Gives {α : Type} (b : Build α) (s : Store) (Q : Store → α → Prop) : Prop where
  wellFormed : (b s).2.WellFormed
  kept : ∀ e, s.Has e → (b s).2.Has e ∧ ∀ α, (b s).2.truth α e = s.truth α e
  result : Q (b s).2 (b s).1

theorem Yields.gives {α : Type} {b : Build α} {Q : Store → α → Prop} (h : Yields b s Q)
    (hs : s.WellFormed) : Gives b s Q where
  wellFormed := h.wellFormed
  kept _ he := ⟨he.extend h.grows, fun α => h.grows.truth hs α he⟩
  result := h.result

namespace Reached

variable {es : List Edge}

/-- In every store that calls have built, and for all of its edges: the recursion of if-then-else
ends, with all that it takes for granted, and gives the choice between two diagrams; and the
connectives give what they are called. An edge that was returned before keeps its meaning. -/
theorem ite_correct (h : Reached s es) :
    (∀ e ∈ es, s.Has e) ∧
      (∀ {f g k : Edge}, s.Has f → s.Has g → s.Has k →
        (∀ e t, IteRun s f g k e t ↔ ite f g k s = (e, t)) ∧
        Gives (ite f g k) s fun t e => Denotes t e fun α =>
          s.truth α f && s.truth α g || !s.truth α f && s.truth α k) ∧
      (∀ {u v : Edge}, s.Has u → s.Has v →
        Gives (and u v) s (fun t e => Denotes t e fun α => s.truth α u && s.truth α v) ∧
        Gives (or u v) s (fun t e => Denotes t e fun α => s.truth α u || s.truth α v) ∧
        Gives (xor u v) s (fun t e => Denotes t e fun α => s.truth α u != s.truth α v) ∧
        Gives (eq u v) s (fun t e => Denotes t e fun α => s.truth α u == s.truth α v) ∧
        Gives (imply u v) s (fun t e => Denotes t e fun α => !s.truth α u || s.truth α v)) ∧
      ∀ {us : List Edge}, (∀ u ∈ us, s.Has u) →
        Gives (andMany us) s (fun t e => Denotes t e fun α => us.all (s.truth α)) ∧
        ((andMany us s).1 = .zero → ∀ vs, andMany (us ++ vs) s = andMany us s) := by
  have hs := h.wellFormed
  have hmeans : ∀ {e}, s.Has e → Denotes s e fun α => s.truth α e := fun he => ⟨he, fun _ => rfl⟩
  refine ⟨h.has, fun {f g k} hf hg hk => ⟨fun e t => iteRun_iff hs hf hg hk, ?_⟩,
    fun {u v} hu hv => ?_, fun {us} hus => ⟨?_, fun hzero vs => ?_⟩⟩
  · have hchoice := ite_denotes hs (hmeans hf) (hmeans hg) (hmeans hk)
    apply Yields.gives _ hs
    refine hchoice.imp fun e t _ _ he => he.congr fun α => ?_
    cases s.truth α f <;> simp
  · exact ⟨(and_denotes hs (hmeans hu) (hmeans hv)).gives hs,
      (or_denotes hs (hmeans hu) (hmeans hv)).gives hs,
      (xor_denotes hs (hmeans hu) (hmeans hv)).gives hs,
      (eq_denotes hs (hmeans hu) (hmeans hv)).gives hs,
      (imply_denotes hs (hmeans hu) (hmeans hv)).gives hs⟩
  · exact (andMany_denotes hs hus).gives hs
  · exact andFrom_append (by decide) us vs hzero

/-- A choice whose test is complemented and that has to be split, and a conjunction that is false
before its last part. -/
theorem ite_correct_dual :
    Reached (after dual) [⟨4, true⟩, ⟨4, false⟩, ⟨3, false⟩, ⟨2, false⟩] ∧
      (∃ e t, IteRun (after dual) ⟨3, true⟩ ⟨2, true⟩ ⟨4, false⟩ e t ∧
        ∀ α, t.truth α e = ((after dual).truth α ⟨3, true⟩ && (after dual).truth α ⟨2, true⟩ ||
          !(after dual).truth α ⟨3, true⟩ && (after dual).truth α ⟨4, false⟩)) ∧
      Gives (andMany [⟨2, false⟩, ⟨2, true⟩, ⟨4, false⟩]) (after dual) fun t e =>
        Denotes t e fun α => [⟨2, false⟩, ⟨2, true⟩, ⟨4, false⟩].all ((after dual).truth α) := by
  obtain ⟨hreturned, hite, -, hmany⟩ := ite_correct reached_dual
  have hx := hreturned ⟨2, false⟩ (by decide)
  have hy := hreturned ⟨3, false⟩ (by decide)
  have hboth := hreturned ⟨4, false⟩ (by decide)
  obtain ⟨hrun, hgives⟩ := hite hy.flip hx.flip hboth
  refine ⟨reached_dual, ⟨_, _, (hrun _ _).mpr rfl, hgives.result.truth⟩, (hmany ?_).1⟩
  simp only [List.forall_mem_cons, List.not_mem_nil, false_implies, implies_true, and_true]
  exact ⟨hx, hx.flip, hboth⟩

end Reached

end InvariantSynthesis.Diagram
