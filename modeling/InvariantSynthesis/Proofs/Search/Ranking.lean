import InvariantSynthesis.Proofs.Search.Round

namespace InvariantSynthesis

theorem nodup_places {α β γ : Type} {as : List α} {bs : List β} {g : α → β → Bool}
    {f : α → β → Option γ} :
    (((as.zip bs).zipIdx.filterMap fun ((a, b), i) =>
      if g a b then (f a b).map (i, ·) else none).map (·.1)).Nodup := by
  have hplaces : ((as.zip bs).zipIdx.map (·.2)).Nodup := by
    rw [List.zipIdx_map_snd]
    exact List.nodup_range'
  rw [List.Nodup, List.pairwise_map] at hplaces ⊢
  rw [List.pairwise_filterMap]
  refine hplaces.imp fun {p q} hpq x hx y hy => ?_
  obtain ⟨-, hx⟩ := Option.ite_none_right_eq_some.mp hx
  obtain ⟨-, hy⟩ := Option.ite_none_right_eq_some.mp hy
  obtain ⟨e, -, rfl⟩ := Option.map_eq_some_iff.mp hx
  obtain ⟨e', -, rfl⟩ := Option.map_eq_some_iff.mp hy
  exact hpq

namespace RankingDomain

variable {σ : Type} [Oracle σ] {d : RankingDomain} {v v' : List RankingRow} {m : Model}
  {focus : Option Nat} {stats stats' : Statistics} {o p : σ} {b : Bool} {i : Nat} {e : Expr}

theorem mem_conditions : (i, e) ∈ d.conditions v focus ↔
    ∃ l r, d.loops[i]? = some l ∧ v[i]? = some r ∧ l.loop.inFocus focus = true ∧
      l.failure? r = some e :=
  mem_places (g := fun l _ => l.loop.inFocus focus) (f := RankedLoop.failure?)

theorem nodup_conditions : ((d.conditions v focus).map (·.1)).Nodup := by
  unfold conditions
  exact nodup_places (g := fun l _ => l.loop.inFocus focus) (f := RankedLoop.failure?)

theorem alive_of_mem_conditions {r : RankingRow} (h : (i, e) ∈ d.conditions v focus)
    (hr : v[i]? = some r) : r.function ≠ .gaveUp := by
  obtain ⟨l, r', -, hr', -, hfailure⟩ := mem_conditions.mp h
  cases hr.symm.trans hr'
  intro hgave
  simp [RankedLoop.failure?, hgave] at hfailure

theorem improveAll_step {conds : List (Nat × Expr)} (hnodup : (conds.map (·.1)).Nodup)
    (halive : ∀ e ∈ conds, ∀ {r}, v[e.1]? = some r → r.function ≠ .gaveUp)
    (hs : (Domain.ranking d).Sane v)
    (h : (Domain.ranking d).improveAll m conds ((v, stats), o) = (.ok b, ((v', stats'), p))) :
    (Domain.ranking d).Step v b v' := by
  induction conds generalizing v stats b with
  | nil =>
    cases h
    exact .of_eq hs rfl
  | cons rc rest ih =>
    obtain ⟨hfirst, hrest⟩ := List.nodup_cons.mp hnodup
    rw [Domain.improveAll] at h
    split at h
    · obtain ⟨changed, ⟨⟨w, t⟩, q⟩, hrun, h⟩ := Session.ok_of_bind h
      obtain ⟨more, ⟨⟨u, t'⟩, q'⟩, hmore, h⟩ := Session.ok_of_bind h
      cases h
      obtain ⟨hedit, rfl⟩ := Domain.improve_ok hrun
      have hstep := edit_step hs (halive rc List.mem_cons_self) hedit
      refine hstep.trans (ih hrest (fun e he r hr => ?_) hstep.sane hmore)
      -- The other loops of the round have not been revised yet.
      obtain ⟨-, l, r₀, r', -, -, rfl, -⟩ := edit_ok hedit
      have hne : rc.1 ≠ e.1 := fun heq => hfirst (List.mem_map.mpr ⟨e, he, heq.symm⟩)
      rw [List.getElem?_set_ne hne] at hr
      exact halive e (List.mem_cons_of_mem _ he) hr
    · exact ih hrest (fun e he => halive e (List.mem_cons_of_mem _ he)) hs h

theorem descends (d : RankingDomain) : (Domain.ranking d).Descends :=
  fun _ hs h => improveAll_step nodup_conditions
    (fun _ he _ hr => alive_of_mem_conditions he hr) hs h

/-- Every loop has a row, and a function that was found has the components of the coefficients. -/
structure Explained (d : RankingDomain) (v : List RankingRow) : Prop where
  length : v.length = d.loops.length
  components : ∀ {i : Nat} {l : RankedLoop} {r : RankingRow} {cs : List Expr},
    d.loops[i]? = some l → v[i]? = some r → r.function = .found cs → cs = l.components r.coefficients

theorem explained_start (d : RankingDomain) : d.Explained d.start := by
  refine ⟨List.length_map _, fun {i l r cs} _ hr hfound => ?_⟩
  obtain ⟨l', -, rfl⟩ := List.mem_map.mp (List.mem_of_getElem? hr)
  cases hfound

theorem Explained.edit (hv : d.Explained v)
    (h : d.edit o i m (v, stats) = (.ok b, (v', stats'))) : d.Explained v' := by
  obtain ⟨-, l, r, r', hl, -, rfl, hrevised⟩ := edit_ok h
  refine ⟨by rw [List.length_set, hv.length], fun {j k x cs} hk hx hfound => ?_⟩
  rcases getElem?_set_cases hx with ⟨rfl, rfl⟩ | hx
  · cases hl.symm.trans hk
    obtain hgave | ⟨-, hcomponents⟩ := hrevised.function
    · exact nomatch hgave.symm.trans hfound
    · exact (RankingFunction.found.inj (hcomponents.symm.trans hfound)).symm
  · exact hv.components hk hx hfound

theorem enumerate_explained {range : Int × Int} {F : Faithful σ range} {c : Scopes} {Γ : Sorts}
    {t : List RankingRow × Statistics} (h : F.Keeps o c Γ) (hv : d.Explained v)
    (hrun : (Domain.ranking d).enumerate focus ((v, stats), o) = (.ok b, (t, p))) :
    d.Explained t.1 :=
  Domain.enumerate_invariant (d := .ranking d) (P := d.Explained) h
    (fun _ _ _ _ _ hu hedit => hu.edit hedit) hv hrun

end RankingDomain

end InvariantSynthesis
