import InvariantSynthesis.Proofs.Analysis.Congruence
import InvariantSynthesis.Proofs.Domain.Ranking
import InvariantSynthesis.Proofs.Oracle.Morphism

namespace InvariantSynthesis

open Session

section morphism

variable {τ σ : Type} [Oracle τ] [Oracle σ] {f : τ → σ} (hf : Oracle.Morphism f)

include hf

namespace RankingDomain

theorem mirrors_attempt (names : List (List String)) (turns : List (List Int)) :
    Mirrors f (attempt names turns : Session Statistics τ _) (attempt names turns) := by
  have hsolve : Mirrors f (solve names turns : Session Statistics τ Answer) (solve names turns) := by
    refine (mirrors_request (hf.declare _)).bind fun _ => ?_
    refine (mirrors_forM (fun turn => mirrors_assert hf _) turns).bind fun _ => ?_
    exact (mirrors_update _).bind fun _ => mirrors_request hf.check
  refine hsolve.bind fun answer => ?_
  split
  · refine Mirrors.bind ((mirrors_look hf.model?).bind fun found => ?_) fun _ => mirrors_pure _
    cases found with
    | none => exact mirrors_throw _
    | some m => exact mirrors_pure _
  · exact mirrors_pure _

theorem search_mirror (parent : τ) (vars : Nat) (turns : List (List Int))
    (attempts components : Nat) :
    search (f parent) vars turns attempts components =
      search parent vars turns attempts components := by
  induction attempts generalizing components with
  | zero => rfl
  | succ attempts ih =>
    funext stats
    rw [search_succ, search_succ, ih, hf.spawn, mirrors_attempt hf]
    rfl

end RankingDomain

namespace Domain

theorem edit_mirror (parent : τ) (m : Model) (d : Domain) (row : Nat) :
    d.edit (f parent) m row = d.edit parent m row := by
  induction d generalizing row with
  | template | equalities | predicates | heap => rfl
  | ranking d =>
    have hedit : d.edit (f parent) row m = d.edit parent row m := by
      funext x
      simp only [RankingDomain.edit, RankingDomain.search_mirror hf]
    exact hedit
  | product a b iha ihb =>
    funext x
    obtain ⟨⟨v, w⟩, stats⟩ := x
    rw [edit, edit, iha, ihb]
  | paths d conds ih => rw [edit, edit, ih]

end Domain

/-- An analysis finds the same with corresponding oracles. -/
theorem Oracle.Morphism.congruence :
    Congruence (fun _ _ (a : Session _ τ _) (b : Session _ σ _) => Mirrors f a b) where
  ofExcept := mirrors_ofExcept
  state := mirrors_state
  update := mirrors_update
  range := mirrors_look hf.range
  model? := mirrors_look hf.model?
  declare names := mirrors_request (hf.declare names)
  assert := mirrors_assert hf
  check := mirrors_request hf.check
  improve d m row s o := by
    rw [Domain.improve, Domain.improve, Domain.edit_mirror hf]
    rfl
  bind h h' := h.bind h'
  inScope h := h.inScope hf
  nested h := h.nested

end morphism

end InvariantSynthesis
