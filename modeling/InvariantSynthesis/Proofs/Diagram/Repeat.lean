import InvariantSynthesis.Proofs.Diagram.Canonical
import InvariantSynthesis.Proofs.Diagram.Word

namespace InvariantSynthesis.Diagram

open Store

variable {α β : Type} {s t : Store} {f g h r : Edge}

theorem Store.Extends.of_nodes_eq (hst : t.nodes = s.nodes) : s.Extends t :=
  ⟨Nat.le_of_eq (congrArg Array.size hst.symm), fun _ _ => by rw [hst]⟩

/-- A computation has its result without new nodes. -/
structure Finds (b : Build α) (s : Store) (a : α) : Prop where
  result : (b s).1 = a
  nodes : (b s).2.nodes = s.nodes

namespace Finds

theorem bind {b : Build α} {k : α → Build β} {a : α} {c : β} (hb : Finds b s a)
    (hk : Finds (k a) (b s).2 c) : Finds (b >>= k) s c := by
  have hrun : (b >>= k) s = k a (b s).2 := congrArg (fun x => k x (b s).2) hb.result
  refine ⟨?_, ?_⟩ <;> rw [hrun]
  · exact hk.result
  · exact hk.nodes.trans hb.nodes

end Finds

theorem Yields.finds {b : Build Edge} {p : Assignment → Bool} {lower : Nat → Prop}
    (hb : Yields b s fun t e => Means t p lower e) (hs : s.WellFormed) (hr : s.Has r)
    (htruth : ∀ α, s.truth α r = p α) (hnodes : (b s).2.nodes = s.nodes) : Finds b s r := by
  refine ⟨?_, hnodes⟩
  apply eq_of_truth_eq hb.wellFormed hb.result.has (hr.extend hb.grows)
  intro α
  rw [hb.result.truth, hb.grows.truth hs α hr, htruth]

section branch

variable {v : Nat} {low high : Edge}

theorem regularNode_new (s : Store) (v : Nat) (low high : Edge) :
    (regularNode v low high s).2 = s ∨ (regularNode v low high s).1.index = s.nodes.size := by
  unfold regularNode
  split
  · exact .inl rfl
  · split
    · exact .inl rfl
    · exact .inr rfl

theorem branch_new (s : Store) (v : Nat) (low high : Edge) :
    (branch v low high s).2 = s ∨ (branch v low high s).1.index = s.nodes.size := by
  unfold branch
  cases high.complemented with
  | false => exact regularNode_new s v low high
  | true => exact regularNode_new s v low.flip high.flip

theorem branch_finds (hs : s.WellFormed) (hv : 0 < v) (hlow : s.Has low) (hhigh : s.Has high)
    (hla : s.Above v low) (hha : s.Above v high) (hr : s.Has r)
    (htruth : ∀ α, s.truth α r = if α v then s.truth α high else s.truth α low) :
    Finds (branch v low high) s r := by
  have hy := branch_yields hs hv hlow hhigh hla hha
  rcases branch_new s v low high with hsame | hnew
  · exact hy.finds hs hr htruth (congrArg Store.nodes hsame)
  · -- The result is the diagram that is there, so its index is not new.
    have heq : (branch v low high s).1 = r := by
      apply eq_of_truth_eq hy.wellFormed hy.result.has (hr.extend hy.grows)
      intro α
      rw [hy.result.truth, hy.grows.truth hs α hr, htruth]
    rw [heq] at hnew
    exact absurd hr.2 (Nat.not_lt_of_le (Nat.le_of_eq hnew.symm))

end branch

theorem Store.first_matters {e : Edge} (hs : s.WellFormed) (he : s.Has e) (h2 : 2 ≤ e.index) :
    ¬∀ α b, s.truth (Function.update α (s.var e) b) e = s.truth α e := by
  intro hindependent
  refine low_ne_high hs he h2 (eq_of_truth_eq hs (low_has hs he h2) (high_has hs he h2) fun α => ?_)
  rw [truth_low hs he h2, truth_high hs he h2, hindependent, hindependent]

section choice

variable {v : Nat} {x : Triple}

theorem choice_update (hs : s.WellFormed) (hf : s.Has f) (hg : s.Has g) (hh : s.Has h)
    (habove : s.AllAbove f g h v) (α : Assignment) (b : Bool) :
    s.choice f g h (Function.update α v b) = s.choice f g h α := by
  rw [Store.choice, truth_update_of_above hs hf habove.1, truth_update_of_above hs hg habove.2.1,
    truth_update_of_above hs hh habove.2.2, Store.choice]

theorem topVar_le_var (hs : s.WellFormed) (hf : s.Has f) (hg : s.Has g) (hh : s.Has h) (hr : s.Has r)
    (htruth : ∀ α, s.truth α r = s.choice f g h α) (h2 : 2 ≤ r.index) :
    s.topVar f g h ≤ s.var r := by
  by_contra hlt
  obtain ⟨hvf, hvg, hvh⟩ := topVar_le s f g h
  have habove : ∀ {e : Edge}, s.Has e → (2 ≤ e.index → s.topVar f g h ≤ s.var e) →
      s.Above (s.var r) e := by
    intro e he hve
    by_cases h1 : e.index = 1
    · exact .inl h1
    · exact .inr (Nat.lt_of_lt_of_le (Nat.not_le.mp hlt) (hve (by have := he.1; omega)))
  refine first_matters hs hr h2 fun α b => ?_
  rw [htruth, htruth,
    choice_update hs hf hg hh ⟨habove hf fun _ => hvf, habove hg hvg, habove hh hvh⟩]

theorem Splits.truth_low {e : Edge} {c : Edge × Edge} (hs : s.WellFormed) (hc : Splits s v e c)
    (α : Assignment) : s.truth α c.1 = s.truth (Function.update α v false) e := by
  rw [hc.truth, Function.update_self, if_neg Bool.false_ne_true,
    truth_update_of_above hs hc.low_has hc.low_above]

theorem Splits.truth_high {e : Edge} {c : Edge × Edge} (hs : s.WellFormed) (hc : Splits s v e c)
    (α : Assignment) : s.truth α c.2 = s.truth (Function.update α v true) e := by
  rw [hc.truth, Function.update_self, if_pos rfl,
    truth_update_of_above hs hc.high_has hc.high_above]

theorem joinParts_finds {part : Edge → Edge → Edge → Build Edge} (hs : s.WellFormed)
    (hv : s.topVar x.test x.yes x.no = v) (hf : s.Has x.test) (hg : s.Has x.yes) (hh : s.Has x.no)
    (h2 : 2 ≤ x.test.index) (hr : s.Has r)
    (htruth : ∀ α, s.truth α r = s.choice x.test x.yes x.no α)
    (hyields : ∀ (t : Store) (f g h : Edge), t.WellFormed → t.Has f → t.Has g → t.Has h →
      f.index + g.index + h.index < x.test.index + x.yes.index + x.no.index →
      Yields (part f g h) t fun u r => Means u (t.choice f g h) (t.AllAbove f g h) r)
    (hnodes : ∀ (t : Store) (f g h r : Edge), t.WellFormed → t.Has f → t.Has g → t.Has h → t.Has r →
      (∀ α, t.truth α r = t.choice f g h α) →
      f.index + g.index + h.index < x.test.index + x.yes.index + x.no.index →
      (part f g h t).2.nodes = t.nodes) :
    (joinParts part s x v s).2.nodes = s.nodes := by
  obtain ⟨hvf, hvg, hvh⟩ := topVar_le s x.test x.yes x.no
  have htop := topVar_eq s x.test x.yes x.no
  have hvr := topVar_le_var hs hf hg hh hr htruth
  rw [hv] at hvf hvg hvh htop hvr
  have cf := cofactors_splits hs hf (v := v) fun _ => hvf
  have cg := cofactors_splits hs hg (v := v) hvg
  have ch := cofactors_splits hs hh (v := v) hvh
  have cr := cofactors_splits hs hr (v := v) hvr
  obtain ⟨hpos, hlow, hhigh⟩ := parts_smaller hs htop hf hg hh h2 cf cg ch
  -- The low part is computed in the store itself.
  have hyl := hyields s _ _ _ hs cf.low_has cg.low_has ch.low_has hlow
  have htl : ∀ α, s.truth α (s.cofactors r v).1 = s.choice (s.cofactors x.test v).1
      (s.cofactors x.yes v).1 (s.cofactors x.no v).1 α := by
    intro α
    rw [cr.truth_low hs, htruth, Store.choice, ← cf.truth_low hs, ← cg.truth_low hs,
      ← ch.truth_low hs, Store.choice]
  have hfl := hyl.finds hs cr.low_has htl
    (hnodes s _ _ _ _ hs cf.low_has cg.low_has ch.low_has cr.low_has htl hlow)
  -- The high part is computed in the store that the low part leaves, which has the same nodes.
  have ht := hyl.wellFormed
  have hst := hyl.grows
  have hyh := hyields _ _ _ _ ht (cf.high_has.extend hst) (cg.high_has.extend hst)
    (ch.high_has.extend hst) hhigh
  have hth : ∀ α, s.truth α (s.cofactors r v).2 = s.choice (s.cofactors x.test v).2
      (s.cofactors x.yes v).2 (s.cofactors x.no v).2 α := by
    intro α
    rw [cr.truth_high hs, htruth, Store.choice, ← cf.truth_high hs, ← cg.truth_high hs,
      ← ch.truth_high hs, Store.choice]
  have hth' := fun α => (hst.truth hs α cr.high_has).trans ((hth α).trans
    (congrFun (hst.choice hs cf.high_has cg.high_has ch.high_has) α).symm)
  have hfh := hyh.finds ht (cr.high_has.extend hst) hth' (hnodes _ _ _ _ _ ht
    (cf.high_has.extend hst) (cg.high_has.extend hst) (ch.high_has.extend hst)
    (cr.high_has.extend hst) hth' hhigh)
  -- Both parts together are the diagram that is there.
  have hsu := hst.trans hyh.grows
  have hbranch := branch_finds hyh.wellFormed hpos (cr.low_has.extend hsu) (cr.high_has.extend hsu)
    (cr.low_above.extend hsu cr.low_has) (cr.high_above.extend hsu cr.high_has) (hr.extend hsu)
    fun α => by
      rw [hsu.truth hs α hr, hsu.truth hs α cr.high_has, hsu.truth hs α cr.low_has, cr.truth]
  have hjoined : Finds (joinParts part s x v) s r :=
    hfl.bind (hfh.bind (hbranch.bind ⟨rfl, rfl⟩))
  exact hjoined.nodes

end choice

theorem iteWith_nodes (fuel : Nat) (hs : s.WellFormed) (hf : s.Has f) (hg : s.Has g) (hh : s.Has h)
    (hr : s.Has r) (htruth : ∀ α, s.truth α r = s.choice f g h α)
    (hfuel : f.index + g.index + h.index < fuel) :
    (iteWith fuel f g h s).2.nodes = s.nodes := by
  induction fuel generalizing s f g h r with
  | zero => exact absurd hfuel (Nat.not_lt_zero _)
  | succ fuel ih =>
    cases iteWith_step fuel hs hf hg hh with
    | found e run means => rw [run]
    | simpler g' h' run hg' hh' lt choice above =>
      rw [run]
      exact ih hs hf hg' hh' hr (fun α => (htruth α).trans (choice α).symm) (by omega)
    | joined x negated hn hf2 run =>
      rw [run]
      have hindex : x.yes.index + x.no.index = g.index + h.index := hn.index_eq
      have htest : x.test.index = f.index := hn.test_index
      refine joinParts_finds (r := r.flipIf negated) hs rfl hn.test_has hn.yes_has hn.no_has
        (htest ▸ hf2) (hr.flipIf negated) (fun α => ?_)
        (fun t f' g' h' ht hf' hg' hh' hlt => iteWith_yields fuel ht hf' hg' hh' (by omega))
        (fun t f' g' h' r' ht hf' hg' hh' hr' htruth' hlt => ih ht hf' hg' hh' hr' htruth' (by omega))
      have hchoice : s.choice f g h α = (s.choice x.test x.yes x.no α != negated) := hn.choice α
      rw [truth_flipIf, htruth, hchoice]
      cases s.choice x.test x.yes x.no α <;> cases negated <;> rfl

/-- A diagram of the choice that is in the store is found again. -/
theorem ite_finds (hs : s.WellFormed) (hf : s.Has f) (hg : s.Has g) (hh : s.Has h) (hr : s.Has r)
    (htruth : ∀ α, s.truth α r = s.choice f g h α) : Finds (ite f g h) s r :=
  (ite_yields hs hf hg hh).finds hs hr htruth
    (iteWith_nodes _ hs hf hg hh hr htruth (Nat.lt_succ_self _))

/-- A computation that yields a result, and finds it without new nodes when it is repeated later. -/
structure Stable (b : Build α) (s : Store) (Q : Store → α → Prop) : Prop extends Yields b s Q where
  again : ∀ t, t.WellFormed → (b s).2.Extends t → (b t).2.WellFormed ∧ Finds b t (b s).1

namespace Stable

variable {Q R : Store → α → Prop} {R' : Store → β → Prop}

theorem pure {a : α} (hs : s.WellFormed) (ha : Q s a) : Stable (Pure.pure a : Build α) s Q :=
  ⟨.pure hs ha, fun _ ht _ => ⟨ht, rfl, rfl⟩⟩

theorem bind {b : Build α} {k : α → Build β} (hb : Stable b s Q)
    (hk : ∀ a t, t.WellFormed → s.Extends t → Q t a → Stable (k a) t R') :
    Stable (b >>= k) s R' := by
  have hrest := hk (b s).1 (b s).2 hb.wellFormed hb.grows hb.result
  refine ⟨hb.toYields.bind fun a t ht hst ha => (hk a t ht hst ha).toYields, fun t ht hext => ?_⟩
  obtain ⟨ht₁, hfirst⟩ := hb.again t ht (hrest.grows.trans hext)
  obtain ⟨ht₂, hsecond⟩ := hrest.again _ ht₁ (hext.trans (.of_nodes_eq hfirst.nodes))
  refine ⟨?_, hfirst.bind hsecond⟩
  have hrun : (b >>= k) t = k (b s).1 (b t).2 := congrArg (fun x => k x (b t).2) hfirst.result
  rw [hrun]
  exact ht₂

theorem map {b : Build α} {k : α → β} (hb : Stable b s Q)
    (h : ∀ a t, t.WellFormed → s.Extends t → Q t a → R' t (k a)) :
    Stable (do return k (← b)) s R' :=
  hb.bind fun a t ht hst ha => .pure ht (h a t ht hst ha)

end Stable

theorem ite_stable (hs : s.WellFormed) (hf : s.Has f) (hg : s.Has g) (hh : s.Has h) :
    Stable (ite f g h) s fun t e => t.Has e := by
  have hy := ite_yields hs hf hg hh
  refine ⟨hy.imp fun e t _ _ he => he.has, fun t ht hext => ?_⟩
  have hst := hy.grows.trans hext
  refine ⟨(ite_yields ht (hf.extend hst) (hg.extend hst) (hh.extend hst)).wellFormed, ?_⟩
  refine ite_finds ht (hf.extend hst) (hg.extend hst) (hh.extend hst) (hy.result.has.extend hext)
    fun α => ?_
  rw [hext.truth hy.wellFormed α hy.result.has, hy.result.truth, hst.choice hs hf hg hh]

section connectives

variable {u v : Edge} (hs : s.WellFormed) (hu : s.Has u) (hv : s.Has v)
include hs hu hv

theorem and_stable : Stable (and u v) s fun t e => t.Has e := ite_stable hs hu hv hs.has_zero

theorem or_stable : Stable (or u v) s fun t e => t.Has e := ite_stable hs hu hs.has_one hv

theorem xor_stable : Stable (xor u v) s fun t e => t.Has e := ite_stable hs hu hv.flip hv

theorem eq_stable : Stable (eq u v) s fun t e => t.Has e := ite_stable hs hu hv hv.flip

theorem imply_stable : Stable (imply u v) s fun t e => t.Has e := ite_stable hs hu hv hs.has_one

end connectives

namespace Word

variable {a b : Word}

def In (w : Word) (s : Store) : Prop := ∀ e ∈ w.bits, s.Has e

theorem In.later {w : Word} (hw : w.In s) (hst : s.Extends t) : w.In t :=
  fun e he => (hw e he).extend hst

theorem In.sign {w : Word} (hw : w.In s) (hs : s.WellFormed) : s.Has w.sign := by
  rw [Word.sign, List.getLastD_eq_getLast?]
  cases hlast : w.bits.getLast? with
  | none => exact hs.has_zero
  | some e => exact hw e (List.mem_of_getLast? hlast)

theorem In.constant (hs : s.WellFormed) (k : Int) : (constant k).In s :=
  (Represents.constant hs k).has

theorem In.extend {w : Word} (hw : w.In s) (hs : s.WellFormed) (n : Nat) : (w.extend n).In s := by
  intro e he
  rcases List.mem_append.mp he with he | he
  · exact hw e he
  · rw [(List.mem_replicate.mp he).2]
    exact hw.sign hs

theorem In.align (ha : a.In s) (hb : b.In s) (hs : s.WellFormed) (n : Nat) :
    ∀ p ∈ a.align b n, s.Has p.1 ∧ s.Has p.2 := by
  intro p hp
  obtain ⟨hpa, hpb⟩ := List.of_mem_zip hp
  exact ⟨ha.extend hs n _ hpa, hb.extend hs n _ hpb⟩

theorem In.shift {w : Word} (hw : w.In s) (hs : s.WellFormed) (n : Nat) : (w.shift n).In s := by
  intro e he
  rcases List.mem_append.mp he with he | he
  · rw [(List.mem_replicate.mp he).2]
    exact hs.has_zero
  · exact hw e he

theorem addFrom_stable {ps : List (Edge × Edge)} (hs : s.WellFormed) {carry : Edge}
    (hc : s.Has carry) (hps : ∀ p ∈ ps, s.Has p.1 ∧ s.Has p.2) :
    Stable (addFrom carry ps) s fun t bits => ∀ e ∈ bits, t.Has e := by
  induction ps generalizing s carry with
  | nil => exact .pure hs (by simp)
  | cons p ps ih =>
    obtain ⟨u, v⟩ := p
    obtain ⟨hu, hv⟩ := hps (u, v) List.mem_cons_self
    refine (xor_stable hs hu hv).bind fun uv t₁ ht₁ h₁ huv => ?_
    refine (xor_stable ht₁ huv (hc.extend h₁)).bind fun bit t₂ ht₂ h₂ hbit => ?_
    have h₀₂ := h₁.trans h₂
    refine (and_stable ht₂ (hu.extend h₀₂) (hv.extend h₀₂)).bind fun both t₃ ht₃ h₃ hboth => ?_
    refine (and_stable ht₃ (hc.extend (h₀₂.trans h₃)) (huv.extend (h₂.trans h₃))).bind
      fun one t₄ ht₄ h₄ hone => ?_
    refine (or_stable ht₄ (hboth.extend h₄) hone).bind fun next t₅ ht₅ h₅ hnext => ?_
    have h₂₅ := h₃.trans (h₄.trans h₅)
    refine (ih ht₅ hnext fun p hp => ?_).map fun bits t ht h₆ hbits => ?_
    · obtain ⟨hp₁, hp₂⟩ := hps p (List.mem_cons_of_mem _ hp)
      exact ⟨hp₁.extend (h₀₂.trans h₂₅), hp₂.extend (h₀₂.trans h₂₅)⟩
    · exact List.forall_mem_cons.mpr ⟨hbit.extend (h₂₅.trans h₆), hbits⟩

theorem add_stable (hs : s.WellFormed) (ha : a.In s) (hb : b.In s) :
    Stable (a.add b) s fun t w => w.In t :=
  (addFrom_stable hs hs.has_zero (ha.align hb hs _)).map fun _ _ _ _ hbits => hbits

theorem neg_stable (hs : s.WellFormed) (ha : a.In s) : Stable a.neg s fun t w => w.In t := by
  have hinverted : Word.In ⟨(a.extend (a.width + 1)).bits.map Edge.flip⟩ s := by
    intro e he
    obtain ⟨d, hd, rfl⟩ := List.mem_map.mp he
    exact (ha.extend hs _ d hd).flip
  exact (add_stable hs hinverted (.constant hs 1)).map
    fun w t _ _ hw e he => hw e (List.mem_of_mem_take he)

theorem sub_stable (hs : s.WellFormed) (ha : a.In s) (hb : b.In s) :
    Stable (a.sub b) s fun t w => w.In t :=
  (neg_stable hs hb).bind fun _ _ ht hst hn => add_stable ht (ha.later hst) hn

theorem addAll_stable {ws : List Word} (hs : s.WellFormed) (ha : a.In s)
    (hws : ∀ w ∈ ws, w.In s) : Stable (a.addAll ws) s fun t w => w.In t := by
  induction ws generalizing s a with
  | nil => exact .pure hs ha
  | cons w ws ih =>
    refine (add_stable hs ha (hws w List.mem_cons_self)).bind fun sum t ht hst hsum => ?_
    exact ih ht hsum fun x hx => (hws x (List.mem_cons_of_mem _ hx)).later hst

theorem scale_stable (hs : s.WellFormed) (k : Int) (ha : a.In s) :
    Stable (a.scale k) s fun t w => w.In t := by
  have hin : ∀ w ∈ ((List.range (k.natAbs.log2 + 1)).filter k.natAbs.testBit).map a.shift,
      w.In s := by
    intro w hw
    obtain ⟨i, -, rfl⟩ := List.mem_map.mp hw
    exact ha.shift hs i
  unfold scale
  dsimp only
  split
  · exact .pure hs (.constant hs 0)
  · rename_i w ws hws
    rw [hws] at hin
    obtain ⟨hw, hrest⟩ := List.forall_mem_cons.mp hin
    refine (addAll_stable hs hw hrest).bind fun product t ht _ hp => ?_
    split
    · exact neg_stable ht hp
    · exact .pure ht hp

theorem iteBits_stable {c : Edge} {ps : List (Edge × Edge)} (hs : s.WellFormed) (hc : s.Has c)
    (hps : ∀ p ∈ ps, s.Has p.1 ∧ s.Has p.2) :
    Stable (iteBits c ps) s fun t bits => ∀ e ∈ bits, t.Has e := by
  induction ps generalizing s with
  | nil => exact .pure hs (by simp)
  | cons p ps ih =>
    obtain ⟨u, v⟩ := p
    obtain ⟨hu, hv⟩ := hps (u, v) List.mem_cons_self
    refine (ite_stable hs hc hu hv).bind fun bit t₁ ht₁ h₁ hbit => ?_
    refine (ih ht₁ (hc.extend h₁) fun p hp => ?_).map fun bits t _ h₂ hbits => ?_
    · obtain ⟨hp₁, hp₂⟩ := hps p (List.mem_cons_of_mem _ hp)
      exact ⟨hp₁.extend h₁, hp₂.extend h₁⟩
    · exact List.forall_mem_cons.mpr ⟨hbit.extend h₂, hbits⟩

theorem ite_stable {c : Edge} (hs : s.WellFormed) (hc : s.Has c) (ha : a.In s) (hb : b.In s) :
    Stable (Word.ite c a b) s fun t w => w.In t :=
  (iteBits_stable hs hc (ha.align hb hs _)).map fun _ _ _ _ hbits => hbits

theorem equalFrom_stable {acc : Edge} {ps : List (Edge × Edge)} (hs : s.WellFormed)
    (hacc : s.Has acc) (hps : ∀ p ∈ ps, s.Has p.1 ∧ s.Has p.2) :
    Stable (equalFrom acc ps) s fun t e => t.Has e := by
  induction ps generalizing s acc with
  | nil => exact .pure hs hacc
  | cons p ps ih =>
    obtain ⟨u, v⟩ := p
    obtain ⟨hu, hv⟩ := hps (u, v) List.mem_cons_self
    refine (eq_stable hs hu hv).bind fun same t₁ ht₁ h₁ hsame => ?_
    refine (and_stable ht₁ (hacc.extend h₁) hsame).bind fun r t ht h₂ hr => ?_
    split
    · exact .pure ht hr
    · refine ih ht hr fun p hp => ?_
      obtain ⟨hp₁, hp₂⟩ := hps p (List.mem_cons_of_mem _ hp)
      exact ⟨hp₁.extend (h₁.trans h₂), hp₂.extend (h₁.trans h₂)⟩

theorem equal_stable (hs : s.WellFormed) (ha : a.In s) (hb : b.In s) :
    Stable (a.equal b) s fun t e => t.Has e :=
  equalFrom_stable hs hs.has_one (ha.align hb hs _)

theorem less_stable (hs : s.WellFormed) (ha : a.In s) (hb : b.In s) :
    Stable (a.less b) s fun t e => t.Has e :=
  (sub_stable hs ha hb).map fun _ _ ht _ hw => hw.sign ht

theorem atMost_stable (hs : s.WellFormed) (ha : a.In s) (hb : b.In s) :
    Stable (a.atMost b) s fun t e => t.Has e :=
  (less_stable hs hb ha).map fun _ _ _ _ he => he.flip

end Word

end InvariantSynthesis.Diagram
