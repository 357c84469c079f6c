import InvariantSynthesis.Proofs.BitSolver.Exact
import Mathlib.Data.List.Induction

namespace InvariantSynthesis.BitSolver

open Diagram

variable {s : BitSolver} {α β : Type}

/-- A request that neither finds a model nor throws one away. -/
def KeepsModel (r : Request BitSolver α) : Prop := ∀ s, (r s).2.model = s.model

namespace KeepsModel

theorem pure (a : α) : KeepsModel (Pure.pure a) := fun _ => rfl

theorem throw (e : OracleError) : KeepsModel (throw e : Request BitSolver α) := fun _ => rfl

theorem build (b : Build α) : KeepsModel (build b) := fun _ => rfl

theorem get : KeepsModel (MonadState.get : Request BitSolver BitSolver) := fun _ => rfl

theorem bind {r : Request BitSolver α} {f : α → Request BitSolver β} (hr : KeepsModel r)
    (hf : ∀ a, KeepsModel (f a)) : KeepsModel (r >>= f) :=
  Session.bind_related (Q := fun s t : BitSolver => t.model = s.model)
    (fun _ _ _ h h' => h'.trans h) hr hf

end KeepsModel

theorem freshBits_keepsModel (n : Nat) : KeepsModel (freshBits n) := by
  induction n with
  | zero => exact .pure []
  | succ n ih => exact .bind (r := freshBit) (fun _ => rfl) fun _ => ih.bind fun _ => .pure _

theorem symbol_keepsModel (n : String) (sort : ValueSort) : KeepsModel (symbol n sort) := by
  refine .bind .get fun s => ?_
  split
  · split
    · exact .pure _
    · exact .throw _
  · have hbind : ∀ t, KeepsModel (do bindSymbol n t; return t) := fun t =>
      .bind (fun _ => rfl) fun _ => .pure t
    cases sort with
    | bool => exact .bind (r := freshBit) (fun _ => rfl) fun _ => .bind (.pure _) hbind
    | int => exact .bind .get fun s =>
        (freshBits_keepsModel s.width).bind fun _ => .bind (.pure _) hbind

theorem expectBool_keepsModel (e : Expr) (t : Term) : KeepsModel (expectBool e t) := by
  cases t with
  | bool r => exact .pure r
  | int w => exact .throw _

theorem expectInt_keepsModel (e : Expr) (t : Term) : KeepsModel (expectInt e t) := by
  cases t with
  | bool r => exact .throw _
  | int w => exact .pure w

section operands

variable {a b : Expr}

theorem KeepsModel.bool {f : Edge → Request BitSolver β} (ha : KeepsModel (blast a))
    (hf : ∀ x, KeepsModel (f x)) : KeepsModel (do f (← expectBool a (← blast a))) :=
  ha.bind fun t => (expectBool_keepsModel a t).bind hf

theorem KeepsModel.int {f : Word → Request BitSolver β} (ha : KeepsModel (blast a))
    (hf : ∀ w, KeepsModel (f w)) : KeepsModel (do f (← expectInt a (← blast a))) :=
  ha.bind fun t => (expectInt_keepsModel a t).bind hf

theorem build_keepsModel (b : Build α) (f : α → Term) : KeepsModel (do return f (← build b)) :=
  .bind (.build b) fun _ => .pure _

theorem blastFold_keepsModel (combine : Edge → Edge → Build Edge) {args : List Expr}
    (hargs : ∀ a ∈ args, KeepsModel (blast a)) (acc : Edge) :
    KeepsModel (blastFold combine acc args) := by
  induction args generalizing acc with
  | nil =>
    rw [blastFold]
    exact .pure acc
  | cons a args ih =>
    rw [blastFold]
    exact .bool (hargs a (by simp)) fun x => .bind (.build _) fun acc =>
      ih (fun b hb => hargs b (List.mem_cons_of_mem _ hb)) acc

theorem blastSum_keepsModel {args : List Expr} (hargs : ∀ a ∈ args, KeepsModel (blast a))
    (acc : Word) : KeepsModel (blastSum acc args) := by
  induction args generalizing acc with
  | nil =>
    rw [blastSum]
    exact .pure acc
  | cons a args ih =>
    rw [blastSum]
    exact .int (hargs a (by simp)) fun x => .bind (.build _) fun acc =>
      ih (fun b hb => hargs b (List.mem_cons_of_mem _ hb)) acc

end operands

theorem blast_keepsModel (e : Expr) : KeepsModel (blast e) := by
  induction e with
  | bool c =>
    rw [blast]
    exact .pure _
  | int k =>
    rw [blast]
    exact .pure _
  | var n sort =>
    rw [blast]
    exact symbol_keepsModel n sort
  | not a ih =>
    rw [blast]
    exact ih.bool fun _ => .pure _
  | and args ih | or args ih =>
    rw [blast]
    exact (blastFold_keepsModel _ ih _).bind fun _ => .pure _
  | implies a b iha ihb =>
    rw [blast]
    exact iha.bool fun _ => ihb.bool fun _ => build_keepsModel _ _
  | neg a ih | mul k a ih =>
    rw [blast]
    exact ih.int fun _ => build_keepsModel _ _
  | add args ih =>
    rw [blast]
    exact (blastSum_keepsModel ih _).bind fun _ => .pure _
  | sub a b iha ihb | le a b iha ihb | lt a b iha ihb =>
    rw [blast]
    exact iha.int fun _ => ihb.int fun _ => build_keepsModel _ _
  | eq a b iha ihb =>
    rw [blast]
    refine iha.bind fun t => ihb.bind fun u => ?_
    split
    · exact build_keepsModel _ _
    · exact build_keepsModel _ _
    · exact .throw _
  | ite c a b ihc iha ihb =>
    rw [blast]
    refine ihc.bool fun r => iha.bind fun t => ihb.bind fun u => ?_
    split
    · exact build_keepsModel _ _
    · exact build_keepsModel _ _
    · exact .throw _

theorem announce_keepsModel (ints : List String) (names : List TypedName) :
    KeepsModel (announce ints names) := by
  induction names generalizing ints with
  | nil => exact .pure ints
  | cons p rest ih =>
    refine .bind .get fun s => ?_
    split
    · split
      · exact ih ints
      · exact .throw _
    · split
      · exact ih ints
      · split
        · exact (symbol_keepsModel _ .bool).bind fun _ => ih ints
        · exact ih _

theorem freshPlaces_keepsModel (count places : Nat) : KeepsModel (freshPlaces count places) := by
  induction places with
  | zero => exact .pure []
  | succ places ih => exact (freshBits_keepsModel count).bind fun _ => ih.bind fun _ => .pure _

theorem bindColumns_keepsModel (rows : List (List Edge)) (i : Nat) (names : List String) :
    KeepsModel (bindColumns rows i names) := by
  induction names generalizing i with
  | nil => exact .pure ()
  | cons n names ih => exact .bind (fun _ => rfl) fun _ => ih (i + 1)

theorem declare_keepsModel (names : List TypedName) : KeepsModel (declare names) :=
  (announce_keepsModel [] names).bind fun ints => .bind .get fun s =>
    (freshPlaces_keepsModel ints.length s.width).bind fun rows => bindColumns_keepsModel rows 0 ints

theorem assert_model (e : Expr) (s : BitSolver) : (assert e s).2.model = none := by
  have hkeeps : KeepsModel (conjoined e >>= fun top => modify fun s => { s with top }) := by
    refine .bind ?_ fun top => fun _ => rfl
    exact .bool (blast_keepsModel e) fun r => .bind .get fun s => .build _
  rw [assert_eq, hkeeps]

/-- What a command does to a stored model: it stays as long as no assertion comes or goes, and a
check looks for another one. -/
theorem step_model {c : Scopes} {command : Command} {m : Model} (h : Keeps s c)
    (hm : (step (s, c) command).1.model = some m) :
    command = .check ∧ m.Satisfies s.range s.sorts c.live ∧ (step (s, c) command).2 = c ∨
      command ≠ .check ∧ s.model = some m ∧ (step (s, c) command).2.live = c.live := by
  cases command with
  | declare names =>
    refine .inr ⟨by simp, ?_, rfl⟩
    rw [← hm]
    exact (declare_keepsModel names s).symm
  | assert e =>
    have hnone := assert_model e s
    rcases h.assert e with ⟨t, hrun, -⟩ | ⟨err, t, hrun, -⟩ <;>
    · simp only [step, hrun] at hm
      rw [hrun, hm] at hnone
      cases hnone
  | push => exact .inr ⟨by simp, hm, rfl⟩
  | pop =>
    cases hs : s.outer with
    | nil =>
      simp only [step, pop_eq_error hs] at hm ⊢
      exact .inr ⟨by simp, hm, trivial⟩
    | cons e es =>
      simp only [step, pop_eq_ok hs] at hm
      cases hm
  | check =>
    refine .inl ⟨rfl, ?_, rfl⟩
    simp only [step] at hm
    by_cases hlimit : s.nodeLimit < s.store.size
    · rw [check_eq_unknown hlimit] at hm
      cases hm
    cases hpath : s.store.path? s.top with
    | none =>
      rw [check_eq_unsat hlimit hpath] at hm
      cases hm
    | some path =>
      rw [check_eq_sat hlimit hpath] at hm
      cases hm
      exact h.satisfies hpath

theorem foldl_step_model {c : Scopes} (h : Keeps s c) (hnone : s.model = none)
    (commands : List Command) {m : Model} (hm : (commands.foldl step (s, c)).1.model = some m) :
    ∃ before after, commands = before ++ .check :: after ∧ Command.check ∉ after ∧
      (commands.foldl step (s, c)).2.live = (before.foldl step (s, c)).2.live ∧
      m.Satisfies s.range (before.foldl step (s, c)).1.sorts (before.foldl step (s, c)).2.live := by
  induction commands using List.reverseRecOn with
  | nil =>
    rw [List.foldl_nil, hnone] at hm
    cases hm
  | append_singleton commands command ih =>
    obtain ⟨hkeeps, hadds⟩ := foldl_step_keeps h commands
    rw [List.foldl_append] at hm ⊢
    rcases step_model hkeeps hm with ⟨rfl, hsat, hlive⟩ | ⟨hne, hm', hlive⟩
    · refine ⟨commands, [], rfl, by simp, congrArg Scopes.live hlive, ?_⟩
      rwa [range_eq, hadds.width, ← range_eq] at hsat
    · obtain ⟨before, after, rfl, hafter, hbefore, hsat⟩ := ih hm'
      refine ⟨before, after ++ [command], by simp, ?_, hlive.trans hbefore, hsat⟩
      simp [hafter, Ne.symm hne]

/-- The stored model is never stale. After any commands, refused ones among them, a stored model
gives every variable that was known at the last check a value of its sort, with integers in the
solver's range, and it makes every assertion true that is live now. All variables of these
assertions were known at that check. -/
theorem model_never_stale {width limit : Nat} {s₀ : BitSolver} (hs₀ : create width limit = .ok s₀)
    (commands : List Command) {m : Model} (hm : (s₀.execute commands).1.model = some m) :
    ∃ before after, commands = before ++ .check :: after ∧ Command.check ∉ after ∧
      m.Satisfies (s₀.execute commands).1.range (s₀.execute before).1.sorts
        (s₀.execute commands).2.live ∧
      ∀ e ∈ (s₀.execute commands).2.live, (s₀.execute before).1.sorts.Fits e := by
  obtain ⟨hmin, hmax, rfl⟩ := of_create_ok hs₀
  have hfresh : Keeps (fresh width limit) .none := .fresh (widthAllowed_iff.mpr ⟨hmin, hmax⟩)
  obtain ⟨before, after, hsplit, hafter, hlive, hsat⟩ := foldl_step_model hfresh rfl commands hm
  have hwidth := (foldl_step_keeps hfresh commands).2.width
  refine ⟨before, after, hsplit, hafter, ?_, ?_⟩
  · rw [range_eq, execute, hwidth, ← range_eq, hlive]
    exact hsat
  · rw [execute, hlive]
    exact (foldl_step_keeps hfresh before).1.fits

/-- A model outlives an opened scope, a new variable and a scope that cannot be closed. -/
theorem model_never_stale_after_push :
    ∃ s₀ m, create 2 100 = .ok s₀ ∧
      let commands : List Command := [.pop, .assert (.lt (.int 0) (.intVar "x")), .check,
        .declare [("y", .bool)], .pop, .push]
      (s₀.execute commands).1.model = some m ∧
        ∃ before after, commands = before ++ .check :: after ∧ Command.check ∉ after ∧
          m.Satisfies (s₀.execute commands).1.range (s₀.execute before).1.sorts
            (s₀.execute commands).2.live ∧
          ∀ e ∈ (s₀.execute commands).2.live, (s₀.execute before).1.sorts.Fits e := by
  have hsome : ((fresh 2 100).execute [.pop, .assert (.lt (.int 0) (.intVar "x")), .check,
      .declare [("y", .bool)], .pop, .push]).1.model.isSome = true := by decide +kernel
  obtain ⟨m, hm⟩ := Option.isSome_iff_exists.mp hsome
  have hcreate : create 2 100 = .ok (fresh 2 100) := rfl
  exact ⟨fresh 2 100, m, hcreate, hm, model_never_stale hcreate _ hm⟩

end InvariantSynthesis.BitSolver
