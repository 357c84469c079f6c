import InvariantSynthesis.Proofs.BitSolver.Exact
import InvariantSynthesis.Proofs.Config.Numeral
import InvariantSynthesis.Proofs.Except

namespace InvariantSynthesis.Options

def limits : List String :=
  ["max-ranking-components", "max-ranking-refinements", "max-heap-targets", "node-limit"]

/-- The options of a table are known and go together, and their values can be used. -/
structure Consistent (o : Options) : Prop where
  flag_known : ∀ flag, o.isSet flag = true → flag ∈ knownFlags
  value_known : ∀ option, o.values.contains option = true → option ∈ knownValues
  one_domain : ∃! flag, flag ∈ domainFlags ∧ o.isSet flag = true
  monolithic : o.isSet "monolithic-ranking-function" = true →
    o.isSet "compute-ranking-functions" = true
  paths : o.isSet "sympath" = true →
    o.isSet "heap-interval" = true ∨ o.isSet "heap-zones" = true
  one_shape : ∀ a ∈ shapeFlags, ∀ b ∈ shapeFlags, o.isSet a = true → o.isSet b = true → a = b
  width : ∀ raw, o.values.get? "bitwidth" = some raw →
    ∃ n, Text.Numeral raw.toList n ∧ 2 ≤ n ∧ n ≤ 32
  limit : ∀ option ∈ limits, ∀ raw, o.values.get? option = some raw →
    ∃ n, Text.Numeral raw.toList n ∧ 0 < n

variable {o : Options} {option : String}

theorem find?_unknown_eq_none {α : Type} {t : Table α} {known : List String} :
    t.names.find? (· ∉ known) = none ↔ ∀ name, t.contains name = true → name ∈ known := by
  simp [Table.mem_names_iff]

theorem allKnown_eq_ok_iff {u : Unit} : o.allKnown = .ok u ↔
    (∀ flag, o.isSet flag = true → flag ∈ knownFlags) ∧
      ∀ option, o.values.contains option = true → option ∈ knownValues := by
  have hnone : o.allKnown = .ok u ↔
      (o.flags.names.find? (· ∉ knownFlags)).or (o.values.names.find? (· ∉ knownValues)) = none := by
    rw [allKnown]
    generalize (o.flags.names.find? _).or _ = unknown
    cases unknown <;> simp
  rw [hnone, Option.or_eq_none_iff, find?_unknown_eq_none, find?_unknown_eq_none]
  rfl

section flags

variable {flags : List String}

theorem single_eq_ok_iff (hflags : flags.Nodup) {r : Option String} : o.single flags = .ok r ↔
    ∀ flag, r = some flag ↔ flag ∈ flags ∧ o.isSet flag = true := by
  simp only [← List.mem_filter, single]
  have hset := hflags.filter o.isSet
  generalize flags.filter o.isSet = set at hset
  cases set with
  | nil =>
    rw [Except.ok.injEq, eq_comm, Option.eq_none_iff_forall_ne_some]
    simp
  | cons first rest =>
    cases rest with
    | nil =>
      rw [Except.ok.injEq, eq_comm]
      constructor
      · rintro rfl flag
        simp [eq_comm]
      · exact fun h => (h first).mpr List.mem_cons_self
    | cons second rest =>
      refine iff_of_false (fun h => by cases h) fun h => ?_
      have hfirst := (h first).mpr List.mem_cons_self
      have hsecond := (h second).mpr (List.mem_cons_of_mem _ List.mem_cons_self)
      obtain rfl : first = second := Option.some.inj (hfirst.symm.trans hsecond)
      exact (List.nodup_cons.mp hset).1 List.mem_cons_self

theorem exists_single_iff (hflags : flags.Nodup) : (∃ r, o.single flags = .ok r) ↔
    ∀ a ∈ flags, ∀ b ∈ flags, o.isSet a = true → o.isSet b = true → a = b := by
  simp only [single_eq_ok_iff hflags]
  constructor
  · rintro ⟨r, hr⟩ a ha b hb hsa hsb
    exact Option.some.inj (((hr a).mpr ⟨ha, hsa⟩).symm.trans ((hr b).mpr ⟨hb, hsb⟩))
  · intro h
    by_cases hset : ∃ flag ∈ flags, o.isSet flag = true
    · obtain ⟨flag, hmem, hset⟩ := hset
      refine ⟨some flag, fun b => ⟨fun hb => ?_, fun hb => ?_⟩⟩
      · obtain rfl := Option.some.inj hb
        exact ⟨hmem, hset⟩
      · rw [h flag hmem b hb.1 hset hb.2]
    · exact ⟨none, fun b => iff_of_false (by simp) fun hb => hset ⟨b, hb⟩⟩

theorem exists_single_some_iff (hflags : flags.Nodup) :
    (∃ flag, o.single flags = .ok (some flag)) ↔ ∃! flag, flag ∈ flags ∧ o.isSet flag = true := by
  simp only [single_eq_ok_iff hflags, Option.some.injEq]
  refine exists_congr fun found => ⟨fun h => ?_, fun h flag => ?_⟩
  · exact ⟨(h found).mp rfl, fun flag hflag => ((h flag).mpr hflag).symm⟩
  · exact ⟨fun hfound => hfound ▸ h.1, fun hflag => (h.2 flag hflag).symm⟩

end flags

theorem requires_eq_ok_iff {holds : Bool} {requirement : String} {u : Unit} :
    o.requires option holds requirement = .ok u ↔ (o.isSet option = true → holds = true) := by
  rw [requires]
  cases o.isSet option <;> cases holds <;> simp

theorem number_eq_ok_iff {default n : Nat} {allowed : Nat → Bool} :
    o.number option default allowed = .ok n ↔
      (o.values.get? option = none ∧ n = default) ∨
        ∃ raw, o.values.get? option = some raw ∧ Text.Numeral raw.toList n ∧ allowed n = true := by
  rw [number, natural?]
  cases o.values.get? option with
  | none =>
    show Except.ok default = .ok n ↔ _
    rw [Except.ok.injEq, eq_comm]
    simp
  | some raw =>
    simp only [← readNatural?_trim, Option.some.injEq, reduceCtorEq, false_and, false_or,
      exists_eq_left']
    cases readNatural? (Text.trim raw.toList) with
    | none => exact iff_of_false (fun h => by cases h) (by simp)
    | some m =>
      rw [Option.some.injEq]
      show (if allowed m = true then Except.ok m else
        .error (ConfigError.invalidValue option (toString m))) = .ok n ↔ _
      by_cases hm : allowed m = true
      · rw [if_pos hm, Except.ok.injEq]
        exact ⟨fun h => ⟨h, h ▸ hm⟩, And.left⟩
      · rw [if_neg hm]
        exact iff_of_false (fun h => by cases h) fun h => hm (h.1 ▸ h.2)

theorem exists_number_iff {default : Nat} {allowed : Nat → Bool} :
    (∃ n, o.number option default allowed = .ok n) ↔ ∀ raw, o.values.get? option = some raw →
      ∃ n, Text.Numeral raw.toList n ∧ allowed n = true := by
  simp only [number_eq_ok_iff]
  cases o.values.get? option <;> simp

theorem exists_width_iff {default : Nat} :
    (∃ n, o.number option default BitSolver.widthAllowed = .ok n) ↔
      ∀ raw, o.values.get? option = some raw → ∃ n, Text.Numeral raw.toList n ∧ 2 ≤ n ∧ n ≤ 32 := by
  simp only [exists_number_iff, BitSolver.widthAllowed_iff]

theorem exists_positive_iff {default : Nat} :
    (∃ n, o.number option default (fun n => decide (0 < n)) = .ok n) ↔
      ∀ raw, o.values.get? option = some raw → ∃ n, Text.Numeral raw.toList n ∧ 0 < n := by
  simp only [exists_number_iff, decide_eq_true_iff]

section domain

variable {selected requirement : String} {u : Unit}
  (hdomain : o.single domainFlags = .ok (some selected))
include hdomain

theorem eq_iff_isSet {flag : String} (hflag : flag ∈ domainFlags) :
    selected = flag ↔ o.isSet flag = true := by
  have hselected := (single_eq_ok_iff (by decide)).mp hdomain flag
  rw [Option.some.injEq] at hselected
  exact hselected.trans (and_iff_right hflag)

theorem requires_ranking_iff :
    o.requires option (selected = "compute-ranking-functions") requirement = .ok u ↔
      (o.isSet option = true → o.isSet "compute-ranking-functions" = true) := by
  rw [requires_eq_ok_iff, decide_eq_true_iff, eq_iff_isSet hdomain (by decide)]

theorem requires_heap_iff :
    o.requires option (selected = "heap-interval" || selected = "heap-zones") requirement = .ok u ↔
      (o.isSet option = true → o.isSet "heap-interval" = true ∨ o.isSet "heap-zones" = true) := by
  rw [requires_eq_ok_iff, Bool.or_eq_true, decide_eq_true_iff, decide_eq_true_iff,
    eq_iff_isSet hdomain (by decide), eq_iff_isSet hdomain (by decide)]

end domain

/-- A table that passes all checks is consistent, and it has passed the check of the width. -/
theorem consistent_of_config {c : Config} (h : o.config = .ok c) :
    o.Consistent ∧ o.number "bitwidth" 8 BitSolver.widthAllowed = .ok c.width := by
  rw [config] at h
  obtain ⟨⟨⟩, hknown, h⟩ := Except.exists_of_bind_ok h
  obtain ⟨r, hdomain, h⟩ := Except.exists_of_bind_ok h
  cases r with
  | none => cases h
  | some selected =>
    obtain ⟨⟨⟩, hmonolithic, h⟩ := Except.exists_of_bind_ok h
    obtain ⟨⟨⟩, hpaths, h⟩ := Except.exists_of_bind_ok h
    obtain ⟨shape, hshape, h⟩ := Except.exists_of_bind_ok h
    obtain ⟨width, hwidth, h⟩ := Except.exists_of_bind_ok h
    obtain ⟨components, hcomponents, h⟩ := Except.exists_of_bind_ok h
    obtain ⟨refinements, hrefinements, h⟩ := Except.exists_of_bind_ok h
    obtain ⟨targets, htargets, h⟩ := Except.exists_of_bind_ok h
    obtain ⟨nodes, hnodes, h⟩ := Except.exists_of_bind_ok h
    cases h
    obtain ⟨hflags, hvalues⟩ := allKnown_eq_ok_iff.mp hknown
    refine ⟨⟨hflags, hvalues, ?_, ?_, ?_, ?_, ?_, ?_⟩, hwidth⟩
    · exact (exists_single_some_iff (by decide)).mp ⟨selected, hdomain⟩
    · exact (requires_ranking_iff hdomain).mp hmonolithic
    · exact (requires_heap_iff hdomain).mp hpaths
    · exact (exists_single_iff (by decide)).mp ⟨shape, hshape⟩
    · exact exists_width_iff.mp ⟨width, hwidth⟩
    · simp only [limits, List.forall_mem_cons]
      exact ⟨exists_positive_iff.mp ⟨components, hcomponents⟩,
        exists_positive_iff.mp ⟨refinements, hrefinements⟩,
        exists_positive_iff.mp ⟨targets, htargets⟩, exists_positive_iff.mp ⟨nodes, hnodes⟩, by simp⟩

theorem Consistent.exists_config (h : o.Consistent) : ∃ c, o.config = .ok c := by
  have hlimit : ∀ option ∈ limits, ∀ default,
      ∃ n, o.number option default (fun n => decide (0 < n)) = .ok n :=
    fun option hoption default => exists_positive_iff.mpr (h.limit option hoption)
  obtain ⟨selected, hdomain⟩ := (exists_single_some_iff (by decide)).mpr h.one_domain
  obtain ⟨shape, hshape⟩ := (exists_single_iff (by decide)).mpr h.one_shape
  obtain ⟨width, hwidth⟩ : ∃ n, o.number "bitwidth" 8 BitSolver.widthAllowed = .ok n :=
    exists_width_iff.mpr h.width
  obtain ⟨components, hcomponents⟩ := hlimit "max-ranking-components" (by decide) 3
  obtain ⟨refinements, hrefinements⟩ := hlimit "max-ranking-refinements" (by decide) 20
  obtain ⟨targets, htargets⟩ := hlimit "max-heap-targets" (by decide) 4
  obtain ⟨nodes, hnodes⟩ := hlimit "node-limit" (by decide) 4194304
  -- Each check has its result, in the order in which they are made.
  apply Except.exists_bind_ok (allKnown_eq_ok_iff (u := ()).mpr ⟨h.flag_known, h.value_known⟩)
  apply Except.exists_bind_ok hdomain
  apply Except.exists_bind_ok ((requires_ranking_iff (u := ()) hdomain).mpr h.monolithic)
  apply Except.exists_bind_ok ((requires_heap_iff (u := ()) hdomain).mpr h.paths)
  apply Except.exists_bind_ok hshape
  apply Except.exists_bind_ok hwidth
  apply Except.exists_bind_ok hcomponents
  apply Except.exists_bind_ok hrefinements
  apply Except.exists_bind_ok htargets
  apply Except.exists_bind_ok hnodes
  exact ⟨_, rfl⟩

/-- A table describes a configuration exactly if it is consistent. The width of the configuration is
the number that the table gives for it, or 8, and a solver is made for the configuration that has the
integers of this width as its range. -/
theorem exists_config_iff_consistent (o : Options) :
    ((∃ c, o.config = .ok c) ↔ o.Consistent) ∧
      ∀ c, o.config = .ok c →
        (o.values.get? "bitwidth" = none → c.width = 8) ∧
        (∀ raw, o.values.get? "bitwidth" = some raw → Text.Numeral raw.toList c.width) ∧
        ∃ s, BitSolver.ofConfig c = .ok s ∧
          s.range = (-(2 ^ (c.width - 1)), 2 ^ (c.width - 1) - 1) := by
  refine ⟨⟨fun h => ?_, Consistent.exists_config⟩, fun c h => ?_⟩
  · obtain ⟨c, h⟩ := h
    exact (consistent_of_config h).1
  · have hwidth := number_eq_ok_iff.mp (consistent_of_config h).2
    have hallowed : BitSolver.widthAllowed c.width = true := by
      obtain ⟨-, h8⟩ | ⟨raw, -, -, hallowed⟩ := hwidth
      · rw [h8]
        rfl
      · exact hallowed
    refine ⟨fun hnone => ?_, fun raw hraw => ?_, ?_⟩
    · rw [hnone] at hwidth
      simpa using hwidth
    · obtain ⟨hnone, -⟩ | ⟨raw', hraw', hnumeral, -⟩ := hwidth
      · rw [hraw] at hnone
        cases hnone
      · obtain rfl : raw = raw' := Option.some.inj (hraw.symm.trans hraw')
        exact hnumeral
    · refine ⟨.fresh c.width c.nodeLimit, ?_, BitSolver.range_eq _⟩
      rw [BitSolver.ofConfig, if_pos hallowed]

/-- A table with blanks, a sign and a zero around the number that it gives. -/
def padded : Options where
  flags := .ofNames ["heap-zones", "octagons", "sympath"]
  values := .ofList [("bitwidth", "\t+012 "), ("node-limit", "1")]

theorem exists_config_iff_consistent_padded :
    padded.Consistent ∧ ∃ c s, padded.config = .ok c ∧ BitSolver.ofConfig c = .ok s ∧
      s.range = (-2048, 2047) := by
  have hwidth : padded.config.map (·.width) = .ok 12 := by decide +kernel
  obtain ⟨hconsistent, haccepted⟩ := exists_config_iff_consistent padded
  cases hc : padded.config with
  | error e =>
    rw [hc] at hwidth
    cases hwidth
  | ok c =>
    rw [hc] at hwidth
    have hwidth : c.width = 12 := Except.ok.inj hwidth
    obtain ⟨-, -, s, hs, hrange⟩ := haccepted c hc
    refine ⟨hconsistent.mp ⟨c, hc⟩, c, s, rfl, hs, ?_⟩
    rw [hrange, hwidth]
    rfl

end InvariantSynthesis.Options
