import Mathlib.Data.List.Basic
import Mathlib.Data.List.Induction
import InvariantSynthesis.Domain.Basic
import InvariantSynthesis.Proofs.Expr.Occurrence
import InvariantSynthesis.Proofs.Procedure.Attribution

namespace InvariantSynthesis

theorem Expr.mem_names_iff {e : Expr} {n : String} : n ∈ e.names ↔ e.Mentions n := by
  have hfold : ∀ (ps : List TypedName) (seen : List String),
      n ∈ ps.foldl (fun seen p => if p.1 ∈ seen then seen else seen ++ [p.1]) seen ↔
        n ∈ seen ∨ ∃ sort, (n, sort) ∈ ps := by
    intro ps
    induction ps with
    | nil => simp
    | cons p ps ih =>
      intro seen
      rw [List.foldl_cons, ih]
      by_cases hp : p.1 ∈ seen <;> grind
  rw [names, hfold, Mentions]
  simp

namespace Imprecise

variable {es : List Imprecise} {e : Imprecise} {n : String}

theorem dedup_concat (es : List Imprecise) (e : Imprecise) : dedup (es ++ [e]) =
    if (dedup es).any (·.2 = e.2) then dedup es else dedup es ++ [e] := by
  rw [dedup, List.foldl_append]
  rfl

theorem exists_mem_dedup_iff : (∃ x ∈ dedup es, x.2 = n) ↔ ∃ x ∈ es, x.2 = n := by
  induction es using List.reverseRecOn with
  | nil => simp [dedup]
  | append_singleton es e ih =>
    have hlast : ∀ xs : List Imprecise, (∃ x ∈ xs ++ [e], x.2 = n) ↔ (∃ x ∈ xs, x.2 = n) ∨ e.2 = n := by
      intro xs
      simp only [List.mem_append, List.mem_singleton, or_and_right, exists_or, exists_eq_left]
    rw [dedup_concat]
    by_cases h : (dedup es).any (·.2 = e.2) = true
    · rw [if_pos h, hlast, ih, or_iff_left_of_imp]
      rintro rfl
      apply ih.mp
      simpa using h
    · rw [if_neg h, hlast, hlast, ih]

theorem dedup_concat_of_mem (h : ∃ x ∈ es, x.2 = e.2) : dedup (es ++ [e]) = dedup es := by
  rw [dedup_concat, if_pos]
  simpa using exists_mem_dedup_iff.mpr h

theorem dedup_concat_of_not_mem (h : ¬ ∃ x ∈ es, x.2 = e.2) : dedup (es ++ [e]) = dedup es ++ [e] := by
  rw [dedup_concat, if_neg]
  simpa using mt exists_mem_dedup_iff.mp h

theorem exists_of_mem_dedup (h : e ∈ dedup es) :
    ∃ before after, es = before ++ e :: after ∧ ∀ x ∈ before, x.2 ≠ e.2 := by
  induction es using List.reverseRecOn with
  | nil => cases h
  | append_singleton es x ih =>
    have hold : e ∈ dedup es → ∃ before after, es ++ [x] = before ++ e :: after ∧
        ∀ y ∈ before, y.2 ≠ e.2 := by
      intro he
      obtain ⟨before, after, rfl, hbefore⟩ := ih he
      exact ⟨before, after ++ [x], by simp, hbefore⟩
    by_cases hx : ∃ y ∈ es, y.2 = x.2
    · rw [dedup_concat_of_mem hx] at h
      exact hold h
    · rw [dedup_concat_of_not_mem hx, List.mem_append, List.mem_singleton] at h
      rcases h with h | rfl
      · exact hold h
      · exact ⟨es, [], rfl, fun y hy heq => hx ⟨y, hy, heq⟩⟩

/-- Of two entries that are kept, the name of the first one comes earlier in the list. -/
theorem pairwise_dedup (es : List Imprecise) : (dedup es).Pairwise fun a b =>
    ∃ before, before <+: es ∧ (∃ x ∈ before, x.2 = a.2) ∧ ∀ x ∈ before, x.2 ≠ b.2 := by
  induction es using List.reverseRecOn with
  | nil => exact List.Pairwise.nil
  | append_singleton es x ih =>
    have hold : (dedup es).Pairwise fun a b => ∃ before, before <+: es ++ [x] ∧
        (∃ y ∈ before, y.2 = a.2) ∧ ∀ y ∈ before, y.2 ≠ b.2 := by
      apply ih.imp
      rintro a b ⟨before, hbefore, hab⟩
      exact ⟨before, hbefore.trans (List.prefix_append es [x]), hab⟩
    by_cases hx : ∃ y ∈ es, y.2 = x.2
    · rwa [dedup_concat_of_mem hx]
    · rw [dedup_concat_of_not_mem hx, List.pairwise_append]
      refine ⟨hold, List.pairwise_singleton _ _, ?_⟩
      intro a ha b hb
      obtain rfl := List.mem_singleton.mp hb
      exact ⟨es, List.prefix_append es _, exists_mem_dedup_iff.mp ⟨a, ha, rfl⟩,
        fun y hy heq => hx ⟨y, hy, heq⟩⟩

section parts

variable {parts : List (List Imprecise)} {k : Nat}

def Names (parts : List (List Imprecise)) (k : Nat) (n : String) : Prop :=
  ∃ part, parts[k]? = some part ∧ ∃ x ∈ part, x.2 = n

theorem exists_part_of_mem_dedup (h : e ∈ dedup parts.flatten) :
    ∃ k part, parts[k]? = some part ∧ e ∈ part ∧ ∀ j, Names parts j e.2 → k ≤ j := by
  obtain ⟨before, after, hparts, hbefore⟩ := exists_of_mem_dedup h
  clear h
  induction parts generalizing before with
  | nil => simp at hparts
  | cons part parts ih =>
    by_cases he : e ∈ part
    · exact ⟨0, part, rfl, he, fun j _ => Nat.zero_le j⟩
    · rw [List.flatten_cons, List.append_eq_append_iff] at hparts
      -- The first part ends before the entry, since it does not contain the entry.
      obtain ⟨rest, rfl, hrest⟩ : ∃ rest, before = part ++ rest ∧ parts.flatten = rest ++ e :: after := by
        rcases hparts with ⟨rest, hrest, hafter⟩ | ⟨rest, hrest, hafter⟩
        · exact ⟨rest, hrest, hafter⟩
        · cases rest with
          | nil => exact ⟨[], by simpa using hrest.symm, by simpa using hafter.symm⟩
          | cons x rest =>
            obtain ⟨rfl, -⟩ := List.cons.inj hafter
            exact absurd (by simp [hrest]) he
      obtain ⟨k, found, hk, hfound, hfirst⟩ :=
        ih rest hrest fun x hx => hbefore x (List.mem_append_right part hx)
      refine ⟨k + 1, found, hk, hfound, ?_⟩
      intro j hj
      cases j with
      | zero =>
        obtain ⟨part', hpart, x, hx, hname⟩ := hj
        cases hpart
        exact absurd hname (hbefore x (List.mem_append_left rest hx))
      | succ j => exact Nat.succ_le_succ (hfirst j hj)

theorem pairwise_dedup_flatten (parts : List (List Imprecise)) :
    (dedup parts.flatten).Pairwise fun a b =>
      ∀ i j, (∀ i', Names parts i' a.2 → i ≤ i') → Names parts j b.2 → i ≤ j := by
  apply (pairwise_dedup parts.flatten).imp
  rintro a b ⟨before, hbefore, ⟨x, hx, hxa⟩, hb⟩ i j hi ⟨part, hpart, y, hy, hyb⟩
  apply Nat.le_of_not_lt
  intro hlt
  -- The parts in front of `i` do not have the name of `a`, but they have the name of `b`.
  have htake : ((parts.take i).flatten : List Imprecise) <+: parts.flatten := by
    refine ⟨(parts.drop i).flatten, ?_⟩
    rw [← List.flatten_append, List.take_append_drop]
  rcases List.prefix_or_prefix_of_prefix hbefore htake with hle | hle
  · obtain ⟨part', hpart', hxpart⟩ := List.mem_flatten.mp (hle.subset hx)
    obtain ⟨i', hi', hget⟩ := List.mem_take_iff_getElem.mp hpart'
    have := hi i' ⟨part', by rw [← hget]; exact List.getElem?_eq_getElem _, x, hxpart, hxa⟩
    omega
  · have hmem : part ∈ parts.take i := by
      apply List.mem_of_getElem? (i := j)
      rw [List.getElem?_take_of_lt hlt, hpart]
    exact hb y (hle.subset (List.mem_flatten.mpr ⟨part, hmem, hy⟩)) hyb

end parts

end Imprecise

namespace Domain

/-- A row of a value is at the top, it belongs to a loop, and a variable occurs in it. -/
def AtTop : (d : Domain) → d.Value → Nat → LoopTemplate → String → Prop
  | .template d, (v : List RowValue), k, l, n =>
    ∃ r, d.rows[k]? = some r ∧ v[k]? = some .top ∧ r.loop = l ∧ r.expr.Mentions n
  | .heap d, (v : List PointsTo), k, l, n =>
    ∃ r, d.rows[k]? = some r ∧ v[k]? = some .top ∧ r.loop = l ∧ r.lb = n
  | _, _, _, _, _ => False

/-- The first row at the top in which a variable occurs. -/
def FirstAtTop (d : Domain) (v : d.Value) (k : Nat) (l : LoopTemplate) (n : String) : Prop :=
  d.AtTop v k l n ∧ ∀ k' l', d.AtTop v k' l' n → k ≤ k'

/-- A list of entries reports the variables of the rows at the top, except for those of the tool, each
of them once, in the order of their first rows, and where they come from. -/
structure ReportedAs (d : Domain) (v : d.Value) (p : Procedure) (report : List ImpreciseVar) :
    Prop where
  named : ∀ n, n ∈ report.map (·.ssaName) ↔ SsaName.isReserved n = false ∧ ∃ k l, d.AtTop v k l n
  once : (report.map (·.ssaName)).Nodup
  ordered : report.Pairwise fun a b => ∀ i j l l', d.FirstAtTop v i l a.ssaName →
    d.FirstAtTop v j l' b.ssaName → i ≤ j
  attributed : ∀ e ∈ report, ∃ k l, d.FirstAtTop v k l e.ssaName ∧ e.ComesFrom p l.back

/-- What is imprecise in a value is listed in parts, one for each row. -/
structure ListedBy (d : Domain) (v : d.Value) (parts : List (List Imprecise)) : Prop where
  imprecision_eq : d.imprecision v = Imprecise.dedup parts.flatten
  mem_iff : ∀ k x, (∃ part, parts[k]? = some part ∧ x ∈ part) ↔
    ∃ l, d.AtTop v k l x.2 ∧ x.1 = some l.back

theorem exists_part_iff {α β : Type} {rows : List α} {v : List β} {f : α × β → List Imprecise} {k : Nat}
    {x : Imprecise} : (∃ part, ((rows.zip v).map f)[k]? = some part ∧ x ∈ part) ↔
      ∃ r y, rows[k]? = some r ∧ v[k]? = some y ∧ x ∈ f (r, y) := by
  simp only [List.getElem?_map, Option.map_eq_some_iff, List.getElem?_zip_eq_some]
  constructor
  · rintro ⟨-, ⟨⟨r, y⟩, ⟨hr, hy⟩, rfl⟩, hx⟩
    exact ⟨r, y, hr, hy, hx⟩
  · rintro ⟨r, y, hr, hy, hx⟩
    exact ⟨_, ⟨(r, y), ⟨hr, hy⟩, rfl⟩, hx⟩

theorem listedBy_template (d : TemplateDomain) (v : List RowValue) : (template d).ListedBy v
    ((d.rows.zip v).map fun rx =>
      if rx.2 = .top then rx.1.expr.names.map (some rx.1.loop.back, ·) else []) := by
  refine ⟨congrArg Imprecise.dedup List.flatMap_def, fun k x => ?_⟩
  rw [exists_part_iff]
  constructor
  · rintro ⟨r, y, hr, hy, hx⟩
    obtain ⟨rfl, hx⟩ := List.mem_ite_nil_right.mp hx
    obtain ⟨n, hn, rfl⟩ := List.mem_map.mp hx
    exact ⟨r.loop, ⟨r, hr, hy, rfl, Expr.mem_names_iff.mp hn⟩, rfl⟩
  · rintro ⟨l, ⟨r, hr, hy, rfl, hn⟩, hx⟩
    refine ⟨r, .top, hr, hy, ?_⟩
    rw [if_pos rfl, List.mem_map]
    exact ⟨x.2, Expr.mem_names_iff.mpr hn, Prod.ext hx.symm rfl⟩

theorem listedBy_heap (d : HeapDomain) (v : List PointsTo) : (heap d).ListedBy v
    ((d.rows.zip v).map fun rx =>
      if rx.2 = .top then [(some rx.1.loop.back, rx.1.lb)] else []) := by
  constructor
  · show Imprecise.dedup _ = _
    rw [List.filterMap_eq_flatMap_toList, List.flatMap_def]
    congr 3
    funext rx
    by_cases htop : rx.2 = .top
    · simp [htop]
    · simp [htop]
  · intro k x
    rw [exists_part_iff]
    constructor
    · rintro ⟨r, y, hr, hy, hx⟩
      obtain ⟨rfl, hx⟩ := List.mem_ite_nil_right.mp hx
      obtain rfl := List.mem_singleton.mp hx
      exact ⟨r.loop, ⟨r, hr, hy, rfl, rfl⟩, rfl⟩
    · rintro ⟨l, ⟨r, hr, hy, rfl, hn⟩, hx⟩
      refine ⟨r, .top, hr, hy, ?_⟩
      rw [if_pos rfl, List.mem_singleton]
      exact Prod.ext hx hn.symm

variable {d : Domain} {v : d.Value} {parts : List (List Imprecise)} {p : Procedure}

namespace ListedBy

theorem names_iff (h : d.ListedBy v parts) {k : Nat} {n : String} :
    Imprecise.Names parts k n ↔ ∃ l, d.AtTop v k l n := by
  constructor
  · rintro ⟨part, hpart, x, hx, rfl⟩
    obtain ⟨l, htop, -⟩ := (h.mem_iff k x).mp ⟨part, hpart, hx⟩
    exact ⟨l, htop⟩
  · rintro ⟨l, htop⟩
    obtain ⟨part, hpart, hx⟩ := (h.mem_iff k (some l.back, n)).mpr ⟨l, htop, rfl⟩
    exact ⟨part, hpart, _, hx, rfl⟩

theorem firstAtTop (h : d.ListedBy v parts) {x : Imprecise} (hx : x ∈ d.imprecision v) :
    ∃ k l, d.FirstAtTop v k l x.2 ∧ x.1 = some l.back := by
  rw [h.imprecision_eq] at hx
  obtain ⟨k, part, hpart, hmem, hfirst⟩ := Imprecise.exists_part_of_mem_dedup hx
  obtain ⟨l, htop, hloop⟩ := (h.mem_iff k x).mp ⟨part, hpart, hmem⟩
  exact ⟨k, l, ⟨htop, fun k' l' htop' => hfirst k' (h.names_iff.mpr ⟨l', htop'⟩)⟩, hloop⟩

theorem exists_mem_iff (h : d.ListedBy v parts) {n : String} :
    (∃ x ∈ d.imprecision v, x.2 = n) ↔ ∃ k l, d.AtTop v k l n := by
  rw [h.imprecision_eq, Imprecise.exists_mem_dedup_iff]
  simp only [← h.names_iff, Imprecise.Names, List.mem_flatten]
  constructor
  · rintro ⟨x, ⟨part, hpart, hx⟩, hn⟩
    obtain ⟨k, hk⟩ := List.getElem?_of_mem hpart
    exact ⟨k, part, hk, x, hx, hn⟩
  · rintro ⟨k, part, hk, x, hx, hn⟩
    exact ⟨x, ⟨part, List.mem_of_getElem? hk, hx⟩, hn⟩

/-- The entries that are attributed make up the report. -/
theorem reportedAs (h : d.ListedBy v parts) :
    d.ReportedAs v p (p.attributions (d.imprecision v)) where
  named n := by
    simp only [List.mem_map, Procedure.attributions, List.mem_filterMap, ← h.exists_mem_iff]
    constructor
    · rintro ⟨e, ⟨x, hx, he⟩, rfl⟩
      rw [Procedure.ssaName_attribution? he]
      exact ⟨Procedure.not_reserved_of_attribution? he, x, hx, rfl⟩
    · rintro ⟨hreserved, x, hx, rfl⟩
      exact ⟨_, ⟨x, hx, Procedure.attribution?_eq x.1 hreserved⟩, rfl⟩
  once := by
    rw [List.Nodup, List.pairwise_map, Procedure.attributions, List.pairwise_filterMap,
      h.imprecision_eq]
    apply (Imprecise.pairwise_dedup _).imp
    rintro x y ⟨before, -, ⟨z, hz, hzx⟩, hy⟩ a ha b hb heq
    rw [Procedure.ssaName_attribution? ha, Procedure.ssaName_attribution? hb] at heq
    exact hy z hz (hzx.trans heq)
  ordered := by
    rw [Procedure.attributions, List.pairwise_filterMap, h.imprecision_eq]
    apply (Imprecise.pairwise_dedup_flatten _).imp
    intro x y hxy a ha b hb i j l l' hi hj
    rw [Procedure.ssaName_attribution? ha] at hi
    rw [Procedure.ssaName_attribution? hb] at hj
    apply hxy i j
    · intro i' hi'
      obtain ⟨l'', htop⟩ := h.names_iff.mp hi'
      exact hi.2 i' l'' htop
    · exact h.names_iff.mpr ⟨l', hj.1⟩
  attributed e he := by
    obtain ⟨x, hx, hattribution⟩ := List.mem_filterMap.mp he
    obtain ⟨k, l, hfirst, hloop⟩ := h.firstAtTop hx
    refine ⟨k, l, ?_, ?_⟩
    · rwa [Procedure.ssaName_attribution? hattribution]
    · apply Procedure.comesFrom_attribution?
      rwa [← hloop]

end ListedBy

end Domain

end InvariantSynthesis
