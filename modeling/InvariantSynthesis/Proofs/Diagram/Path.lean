import InvariantSynthesis.Proofs.Diagram.Store

namespace InvariantSynthesis.Diagram.Store

variable {s : Store} {e : Edge}

/-- The values of the variables on a path; the others are false. -/
def onPath (path : List (Nat × Bool)) : Assignment := fun v => (path.lookup v).getD false

theorem onPath_eq {path : List (Nat × Bool)} (h : path.Pairwise fun p q => p.1 < q.1)
    {p : Nat × Bool} (hp : p ∈ path) : onPath path p.1 = p.2 := by
  induction path with
  | nil => cases hp
  | cons q rest ih =>
    obtain ⟨v, b⟩ := q
    obtain ⟨hq, hrest⟩ := List.pairwise_cons.mp h
    rcases List.mem_cons.mp hp with rfl | hp
    · simp [onPath]
    · have hne : (p.1 == v) = false := beq_false_of_ne (Nat.ne_of_gt (hq p hp))
      have := ih hrest hp
      simpa [onPath, List.lookup_cons, hne] using this

theorem two_le_of_ne (he : s.Has e) (h1 : e ≠ .one) (h0 : e ≠ .zero) : 2 ≤ e.index := by
  have hne : e.index ≠ 1 := fun h => (Edge.eq_one_or_zero h).elim h1 h0
  have := he.1
  omega

theorem low_ne_zero (hs : s.WellFormed) (he : s.Has e) (h2 : 2 ≤ e.index) (hhigh : s.high e = .zero) :
    s.low e ≠ .zero :=
  fun hlow => low_ne_high hs he h2 (hlow.trans hhigh.symm)

theorem walk_sorted (hs : s.WellFormed) (fuel : Nat) (he : s.Has e) (h0 : e ≠ .zero) :
    (s.walk fuel e).Pairwise (fun p q => p.1 < q.1) ∧
      ∀ v, s.Above v e → ∀ p ∈ s.walk fuel e, v < p.1 := by
  induction fuel generalizing e with
  | zero => simp [walk]
  | succ fuel ih =>
    unfold walk
    by_cases h1 : e = .one
    · simp [h1]
    rw [if_neg h1]
    have h2 := two_le_of_ne he h1 h0
    have step : ∀ (b : Bool) (d : Edge), s.Has d → s.Above (s.var e) d → d ≠ .zero →
        ((s.var e, b) :: s.walk fuel d).Pairwise (fun p q => p.1 < q.1) ∧
          ∀ v, s.Above v e → ∀ p ∈ (s.var e, b) :: s.walk fuel d, v < p.1 := by
      intro b d hd ha hd0
      obtain ⟨hsorted, habove⟩ := ih hd hd0
      have hlt := habove _ ha
      refine ⟨List.pairwise_cons.mpr ⟨hlt, hsorted⟩, fun v hv p hp => ?_⟩
      have hve : v < s.var e := hv.resolve_left (by omega)
      rcases List.mem_cons.mp hp with rfl | hp
      · exact hve
      · exact Nat.lt_trans hve (hlt p hp)
    split
    · rename_i hhigh
      exact step _ _ (high_has hs he h2) (high_above hs he h2) hhigh
    · rename_i hhigh
      exact step _ _ (low_has hs he h2) (low_above hs he h2)
        (low_ne_zero hs he h2 (Decidable.not_not.mp hhigh))

/-- The diagram is true under every assignment that follows its path. -/
theorem truth_walk (hs : s.WellFormed) {fuel : Nat} (he : s.Has e) (h0 : e ≠ .zero)
    (hfuel : e.index ≤ fuel) {α : Assignment} (hα : ∀ p ∈ s.walk fuel e, α p.1 = p.2) :
    s.truth α e = true := by
  induction fuel generalizing e with
  | zero => exact absurd he.1 (by omega)
  | succ fuel ih =>
    by_cases h1 : e = .one
    · rw [h1, truth_one]
    have h2 := two_le_of_ne he h1 h0
    rw [walk, if_neg h1] at hα
    rw [truth_eq hs α he h2]
    split at hα
    · rename_i hhigh
      have hv : α (s.var e) = true := hα _ (List.mem_cons_self ..)
      have := high_index_lt hs he h2
      rw [if_pos hv]
      exact ih (high_has hs he h2) hhigh (by omega) fun p hp => hα p (List.mem_cons_of_mem _ hp)
    · rename_i hhigh
      have hv : α (s.var e) = false := hα _ (List.mem_cons_self ..)
      have := low_index_lt hs he h2
      have hlow := low_ne_zero hs he h2 (Decidable.not_not.mp hhigh)
      rw [if_neg (by simp [hv])]
      exact ih (low_has hs he h2) hlow (by omega) fun p hp => hα p (List.mem_cons_of_mem _ hp)

theorem truth_onPath (hs : s.WellFormed) (he : s.Has e) {path : List (Nat × Bool)}
    (hpath : s.path? e = some path) : s.truth (onPath path) e = true := by
  unfold path? at hpath
  split at hpath
  · cases hpath
  · rename_i h0
    cases hpath
    have hsorted := (walk_sorted hs e.index he h0).1
    exact truth_walk hs he h0 (Nat.le_refl _) fun p hp => onPath_eq hsorted hp

/-- Only the constant false has no satisfying path. -/
theorem path?_eq_none_iff (hs : s.WellFormed) (he : s.Has e) :
    s.path? e = none ↔ ∀ α, s.truth α e = false := by
  constructor
  · intro h α
    unfold path? at h
    split at h
    · rename_i h0
      rw [h0, truth_zero]
    · cases h
  · intro h
    cases hpath : s.path? e with
    | none => rfl
    | some path =>
      have := truth_onPath hs he hpath
      rw [h] at this
      cases this

theorem Extends.walk {t : Store} (hst : s.Extends t) (hs : s.WellFormed) (fuel : Nat) (he : s.Has e)
    (h0 : e ≠ .zero) : t.walk fuel e = s.walk fuel e := by
  induction fuel generalizing e with
  | zero => rfl
  | succ fuel ih =>
    rw [Store.walk, Store.walk]
    by_cases h1 : e = .one
    · rw [if_pos h1, if_pos h1]
    have h2 := two_le_of_ne he h1 h0
    rw [if_neg h1, if_neg h1, hst.high he, hst.low he, hst.var he]
    split
    · rename_i hhigh
      rw [ih (high_has hs he h2) hhigh]
    · rename_i hhigh
      rw [ih (low_has hs he h2) (low_ne_zero hs he h2 (Decidable.not_not.mp hhigh))]

theorem Extends.path? {t : Store} (hst : s.Extends t) (hs : s.WellFormed) (he : s.Has e) :
    t.path? e = s.path? e := by
  unfold Store.path?
  split
  · rfl
  · rename_i h0
    rw [hst.walk hs e.index he h0]

end InvariantSynthesis.Diagram.Store
