import InvariantSynthesis.Procedure.Tag
import InvariantSynthesis.Proofs.SsaName.Reading
import InvariantSynthesis.Proofs.Template.Substitution

namespace InvariantSynthesis

namespace Expr

variable (f g : String → String)

@[simp] theorem rename_bool (b : Bool) : (Expr.bool b).rename f = .bool b := rfl

@[simp] theorem rename_int (k : Int) : (Expr.int k).rename f = .int k := rfl

@[simp] theorem rename_var (n : String) (s : ValueSort) : (Expr.var n s).rename f = .var (f n) s :=
  rfl

@[simp] theorem rename_not (a : Expr) : (Expr.not a).rename f = .not (a.rename f) := rfl

@[simp] theorem rename_and (args : List Expr) :
    (Expr.and args).rename f = .and (args.map (rename f)) := by
  rw [rename, bind, bindAll_eq]
  rfl

@[simp] theorem rename_or (args : List Expr) :
    (Expr.or args).rename f = .or (args.map (rename f)) := by
  rw [rename, bind, bindAll_eq]
  rfl

@[simp] theorem rename_implies (a b : Expr) :
    (Expr.implies a b).rename f = .implies (a.rename f) (b.rename f) := rfl

@[simp] theorem rename_neg (a : Expr) : (Expr.neg a).rename f = .neg (a.rename f) := rfl

@[simp] theorem rename_add (args : List Expr) :
    (Expr.add args).rename f = .add (args.map (rename f)) := by
  rw [rename, bind, bindAll_eq]
  rfl

@[simp] theorem rename_sub (a b : Expr) :
    (Expr.sub a b).rename f = .sub (a.rename f) (b.rename f) := rfl

@[simp] theorem rename_mul (k : Int) (a : Expr) : (Expr.mul k a).rename f = .mul k (a.rename f) := rfl

@[simp] theorem rename_eq (a b : Expr) : (Expr.eq a b).rename f = .eq (a.rename f) (b.rename f) := rfl

@[simp] theorem rename_le (a b : Expr) : (Expr.le a b).rename f = .le (a.rename f) (b.rename f) := rfl

@[simp] theorem rename_lt (a b : Expr) : (Expr.lt a b).rename f = .lt (a.rename f) (b.rename f) := rfl

@[simp] theorem rename_ite (c a b : Expr) :
    (Expr.ite c a b).rename f = .ite (c.rename f) (a.rename f) (b.rename f) := rfl

theorem rename_rename (e : Expr) : (e.rename f).rename g = e.rename (fun n => g (f n)) := by
  induction e with
  | bool | int | var => rfl
  | not a ih | neg a ih | mul k a ih => simp [ih]
  | and args ih | or args ih | add args ih => simpa using ih
  | implies a b iha ihb | sub a b iha ihb | eq a b iha ihb | le a b iha ihb | lt a b iha ihb =>
    simp [iha, ihb]
  | ite c a b ihc iha ihb => simp [ihc, iha, ihb]

theorem sort_rename (e : Expr) : (e.rename f).sort = e.sort := by
  induction e with
  | ite c a b _ iha _ => exact iha
  | _ => simp [sort]

theorem occurrences_rename (e : Expr) :
    (e.rename f).occurrences = e.occurrences.map (fun v => (f v.1, v.2)) := by
  induction e with
  | bool | int | var => rfl
  | not a ih | neg a ih | mul k a ih => simp [occurrences, ih]
  | and args ih | or args ih | add args ih =>
    simp only [rename_and, rename_or, rename_add, occurrences, occurrencesAll_eq, List.flatMap_map,
      List.map_flatMap]
    exact List.flatMap_congr ih
  | implies a b iha ihb | sub a b iha ihb | eq a b iha ihb | le a b iha ihb | lt a b iha ihb =>
    simp [occurrences, iha, ihb]
  | ite c a b ihc iha ihb => simp [occurrences, ihc, iha, ihb]

theorem conjuncts_rename (items : List Expr) :
    conjuncts (items.map (rename f)) = (conjuncts items).map (List.map (rename f)) := by
  induction items with
  | nil => rfl
  | cons e rest ih =>
    cases e with
    | bool b => cases b <;> simp [conjuncts, ih]
    | and inner => cases h : conjuncts rest <;> simp [conjuncts, ih, h]
    | _ => cases h : conjuncts rest <;> simp [conjuncts, ih, h]

theorem rename_conj (items : List Expr) : (conj items).rename f = conj (items.map (rename f)) := by
  rw [conj, conj, conjuncts_rename]
  cases conjuncts items with
  | none => rfl
  | some args =>
    cases args with
    | nil => rfl
    | cons a rest => cases rest <;> simp

end Expr

namespace Table

variable {α : Type} {f : String → String}

def rekey (f : String → String) (l : List (String × α)) : List (String × α) :=
  l.map (fun p => (f p.1, p.2))

theorem lookup_rekey (hf : Function.Injective f) (l : List (String × α)) (n : String) :
    (rekey f l).lookup (f n) = l.lookup n := by
  induction l with
  | nil => rfl
  | cons p l ih =>
    obtain ⟨m, a⟩ := p
    rw [rekey, List.map_cons, ← rekey, List.lookup_cons, List.lookup_cons, ih]
    by_cases h : n = m
    · simp [h]
    · rw [beq_eq_false_iff_ne.mpr h, beq_eq_false_iff_ne.mpr (hf.ne h)]

theorem lookup_rekey_eq_none {x : String} (h : ∀ n, x ≠ f n) (l : List (String × α)) :
    (rekey f l).lookup x = none := by
  rw [List.lookup_eq_none_iff]
  intro p hp
  obtain ⟨q, -, rfl⟩ := List.mem_map.mp hp
  exact bne_iff_ne.mpr (h q.1)

theorem get?_ofList_rekey (hf : Function.Injective f) (l : List (String × α)) (n : String) :
    (ofList (rekey f l)).get? (f n) = (ofList l).get? n := by
  rw [get?_ofList_eq, get?_ofList_eq, rekey, ← List.map_reverse]
  exact lookup_rekey hf l.reverse n

theorem get?_ofList_rekey_eq_none {x : String} (h : ∀ n, x ≠ f n) (l : List (String × α)) :
    (ofList (rekey f l)).get? x = none := by
  rw [get?_ofList_eq, rekey, ← List.map_reverse]
  exact lookup_rekey_eq_none h l.reverse

def relabel (f : String → String) (t : Table α) : Table α := ofList (rekey f t.entries)

theorem get?_relabel (hf : Function.Injective f) (t : Table α) (n : String) :
    (t.relabel f).get? (f n) = t.get? n := by
  rw [relabel, get?_ofList_rekey hf]
  exact get?_ofList_of_mem_iff fun _ => mem_entries_iff

theorem ofList_rekey (hf : Function.Injective f) (l : List (String × α)) :
    ofList (rekey f l) = (ofList l).relabel f := by
  apply eq_of_get?
  intro x
  by_cases h : ∃ n, x = f n
  · obtain ⟨n, rfl⟩ := h
    rw [get?_ofList_rekey hf, get?_relabel hf]
  · rw [get?_ofList_rekey_eq_none fun n hn => h ⟨n, hn⟩, relabel,
      get?_ofList_rekey_eq_none fun n hn => h ⟨n, hn⟩]

end Table

theorem Expr.get?_symbols_rename {f : String → String} (hf : Function.Injective f) (e : Expr)
    (n : String) : (e.rename f).symbols.get? (f n) = e.symbols.get? n := by
  rw [symbols, symbols, occurrences_rename]
  exact Table.get?_ofList_rekey hf e.occurrences n

def LoopVar.rename (f : String → String) (v : LoopVar) : LoopVar := ⟨f v.lb, v.post.rename f, v.pointer⟩

/-- The same loop over variables with other names. -/
def LoopTemplate.rename (f : String → String) (l : LoopTemplate) : LoopTemplate :=
  { l with
    preGuard := l.preGuard.rename f
    postGuard := l.postGuard.rename f
    vars := l.vars.map (LoopVar.rename f)
    pathConds := l.pathConds.map (Expr.rename f)
    sorts := l.sorts.relabel f }

namespace LoopTemplate

variable {f : String → String}

theorem intVars_rename (hf : Function.Injective f) (l : LoopTemplate) :
    (l.rename f).intVars = l.intVars.map (LoopVar.rename f) := by
  rw [intVars, intVars, LoopTemplate.rename, List.filter_map]
  congr 1
  apply List.filter_congr
  intro v _
  simp only [Function.comp, LoopVar.rename, Expr.sort_rename, Table.get?_relabel hf]

theorem pointerVars_rename (l : LoopTemplate) :
    (l.rename f).pointerVars = l.pointerVars.map (LoopVar.rename f) := by
  rw [pointerVars, pointerVars, LoopTemplate.rename, List.filter_map]
  rfl

end LoopTemplate

section tagged

variable (tag : String)

theorem append_injective : Function.Injective (fun n : String => n ++ tag) := by
  intro m n h
  exact String.append_left_inj tag |>.mp h

theorem Equality.toExpr_tagged (e : Equality) :
    (e.tagged tag).toExpr = e.toExpr.rename (· ++ tag) := by
  rw [Equality.toExpr, Equality.toExpr, Equality.tagged, Expr.sort_rename]
  rfl

namespace Procedure

variable (p : Procedure)

theorem formula_tagged : (p.tagged tag).formula = p.formula.rename (· ++ tag) := by
  have hblock : ∀ b : Block, (b.tagged tag).equalities.map Equality.toExpr ++ (b.tagged tag).constraints =
      (b.equalities.map Equality.toExpr ++ b.constraints).map (Expr.rename (· ++ tag)) := by
    intro b
    simp [Block.tagged, Equality.toExpr_tagged, Function.comp_def]
  rw [formula, formula, Expr.rename_conj, tagged, List.flatMap_map, List.map_flatMap]
  simp only [hblock]

theorem enablingExpr_tagged :
    (p.tagged tag).enablingExpr = p.enablingExpr.rename (· ++ tag) := by
  rw [enablingExpr, enablingExpr, Expr.rename_conj]
  rfl

theorem loopSelect_tagged (b : Block) :
    (p.tagged tag).loopSelect (b.tagged tag) = (p.loopSelect b).rename (· ++ tag) := by
  show Expr.boolVar ("$guard#ls" ++ toString b.location ++ (p.tag ++ tag)) =
    .boolVar ("$guard#ls" ++ toString b.location ++ p.tag ++ tag)
  simp only [String.append_assoc]

theorem loopEnds_tagged :
    (p.tagged tag).loopEnds = p.loopEnds.map (fun e => (e.1, e.2.tagged tag)) := by
  rw [loopEnds, loopEnds, tagged, List.zipIdx_map, List.filterMap_map, List.map_filterMap]
  apply List.filterMap_congr
  rintro ⟨b, i⟩ _
  by_cases h : b.head.isSome = true <;> simp [Block.tagged, h]

theorem getElem?_tagged (i : Nat) :
    (p.tagged tag).blocks[i]? = (p.blocks[i]?).map (Block.tagged tag) :=
  List.getElem?_map

theorem lookup_foldl_addNew (l known : List TypedName) (n : String) :
    (l.foldl addNew known).lookup n = (known ++ l).lookup n := by
  induction l generalizing known with
  | nil => rw [List.foldl_nil, List.append_nil]
  | cons v l ih =>
    obtain ⟨m, s⟩ := v
    rw [List.foldl_cons, ih, addNew]
    split
    · rename_i hknown
      -- The name is bound already, so the new binding is not seen.
      obtain ⟨q, hq, hm⟩ := List.any_eq_true.mp hknown
      rw [List.lookup_append, List.lookup_append, List.lookup_cons]
      by_cases hn : n = m
      · have hmem : (n, q.2) ∈ known := by
          rw [hn, ← show q.1 = m from of_decide_eq_true hm]
          exact hq
        have hbound := lookup_isSome hmem
        obtain ⟨t, ht⟩ := Option.isSome_iff_exists.mp hbound
        rw [ht, Option.some_or, Option.some_or]
      · rw [beq_eq_false_iff_ne.mpr hn]
    · rw [List.append_assoc]
      rfl

theorem lookup_symbols (n : String) :
    p.symbols.lookup n = (p.inputs ++ p.blocks.flatMap Block.mentions).lookup n :=
  lookup_foldl_addNew _ _ n

theorem lookup_flatMap_symbols {f : String → String} (hf : Function.Injective f) (es : List Expr)
    (n : String) : ((es.map (Expr.rename f)).flatMap fun e => e.symbols.entries).lookup (f n) =
      (es.flatMap fun e => e.symbols.entries).lookup n := by
  induction es with
  | nil => rfl
  | cons e es ih =>
    rw [List.map_cons, List.flatMap_cons, List.flatMap_cons, List.lookup_append, List.lookup_append,
      ih, Table.lookup_entries, Table.lookup_entries, Expr.get?_symbols_rename hf]

theorem lookup_mentions (b : Block) (n : String) :
    (b.tagged tag).mentions.lookup (n ++ tag) = b.mentions.lookup n := by
  have hdefined : (b.tagged tag).equalities.map (fun e => (e.lhs, e.rhs.sort)) =
      Table.rekey (· ++ tag) (b.equalities.map fun e => (e.lhs, e.rhs.sort)) := by
    simp [Block.tagged, Equality.tagged, Expr.sort_rename, Table.rekey, Function.comp_def]
  have hcarried : (b.tagged tag).loopVars.map (fun v => (v.lb, v.post.sort)) =
      Table.rekey (· ++ tag) (b.loopVars.map fun v => (v.lb, v.post.sort)) := by
    simp [Block.tagged, LoopVar.tagged, Expr.sort_rename, Table.rekey, Function.comp_def]
  have hexprs : [(b.tagged tag).guard] ++ (b.tagged tag).equalities.map (·.rhs) ++
        (b.tagged tag).constraints ++ (b.tagged tag).cond.toList ++
        (b.tagged tag).loopVars.map (·.post) =
      ([b.guard] ++ b.equalities.map (·.rhs) ++ b.constraints ++ b.cond.toList ++
        b.loopVars.map (·.post)).map (Expr.rename (· ++ tag)) := by
    cases hcond : b.cond <;>
      simp [Block.tagged, Equality.tagged, LoopVar.tagged, Function.comp_def, hcond]
  have hf := append_injective tag
  rw [Block.mentions, Block.mentions, hdefined, hcarried, hexprs]
  simp only [List.lookup_append, Table.lookup_rekey hf, lookup_flatMap_symbols hf]

theorem lookup_flatMap_mentions (bs : List Block) (n : String) :
    ((bs.map (Block.tagged tag)).flatMap Block.mentions).lookup (n ++ tag) =
      (bs.flatMap Block.mentions).lookup n := by
  induction bs with
  | nil => rfl
  | cons b bs ih =>
    rw [List.map_cons, List.flatMap_cons, List.flatMap_cons, List.lookup_append, List.lookup_append,
      ih, lookup_mentions]

theorem lookup_symbols_tagged (n : String) :
    (p.tagged tag).symbols.lookup (n ++ tag) = p.symbols.lookup n := by
  rw [lookup_symbols, lookup_symbols, List.lookup_append, List.lookup_append]
  congr 1
  · exact Table.lookup_rekey (append_injective tag) p.inputs n
  · exact lookup_flatMap_mentions tag p.blocks n

end Procedure

theorem Block.tagged_tagged (a b : String) (k : Block) : (k.tagged a).tagged b = k.tagged (a ++ b) := by
  simp [Block.tagged, Function.comp_def, Equality.tagged, Assertion.tagged, LoopVar.tagged,
    Expr.rename_rename, String.append_assoc]

theorem Procedure.tagged_tagged (p : Procedure) (a b : String) : (p.tagged a).tagged b = p.tagged (a ++ b) := by
  simp [Procedure.tagged, Function.comp_def, Block.tagged_tagged, Expr.rename_rename, String.append_assoc]

namespace LoopSystem

variable (p : Procedure)

theorem get?_sortsOf_tagged (n : String) :
    (sortsOf [p.tagged tag]).get? (n ++ tag) = (sortsOf [p]).get? n := by
  rw [get?_sortsOf, get?_sortsOf, List.flatMap_singleton, List.flatMap_singleton,
    p.lookup_symbols_tagged]

theorem template?_tagged (i : Nat) (b : Block) (id : Nat) :
    template? (sortsOf [p.tagged tag]) (p.tagged tag) (i, b.tagged tag) id =
      (template? (sortsOf [p]) p (i, b) id).map (LoopTemplate.rename (· ++ tag)) := by
  have hsorts : Table.ofList ((b.tagged tag).loopVars.filterMap fun v =>
        ((sortsOf [p.tagged tag]).get? v.lb).map (v.lb, ·)) =
      (Table.ofList (b.loopVars.filterMap fun v =>
        ((sortsOf [p]).get? v.lb).map (v.lb, ·))).relabel (· ++ tag) := by
    rw [← Table.ofList_rekey (append_injective tag), Table.rekey, List.map_filterMap]
    simp only [Block.tagged, List.filterMap_map, Function.comp_def, LoopVar.tagged,
      get?_sortsOf_tagged, Option.map_map]
  have hconds : ∀ start, (((p.tagged tag).blocks.take i).drop start).filterMap (·.cond) =
      (((p.blocks.take i).drop start).filterMap (·.cond)).map (Expr.rename (· ++ tag)) := by
    intro start
    rw [Procedure.tagged, ← List.map_take, ← List.map_drop, List.filterMap_map, List.map_filterMap]
    rfl
  cases hhead : b.head with
  | none => simp [template?, Block.tagged, hhead]
  | some h =>
    cases hblock : p.blocks[h]? with
    | none => simp [template?, Block.tagged, hhead, p.getElem?_tagged, hblock]
    | some head =>
      simp only [template?, show (b.tagged tag).head = b.head from rfl, hhead, p.getElem?_tagged,
        hblock, Option.bind_eq_bind, Option.bind_some, Option.map_some, Option.pure_def, hsorts,
        hconds, LoopTemplate.rename, Expr.rename_conj, p.loopSelect_tagged]
      rfl

/-- The loops of the tagged procedure are the loops of the procedure with renamed variables. -/
theorem loops_tagged : (ofProcedures [p.tagged tag]).loops =
    (ofProcedures [p]).loops.map (LoopTemplate.rename (· ++ tag)) := by
  simp only [ofProcedures, List.flatMap_singleton, p.loopEnds_tagged, List.map_map,
    List.zipIdx_map, List.filterMap_map, List.map_filterMap]
  apply List.filterMap_congr
  intro e _
  exact template?_tagged tag p e.1.1 e.1.2 e.2

end LoopSystem

namespace Model

/-- The name to which the tag was appended, if it was. -/
def baseOf? (name : String) : Option String :=
  (SsaName.after? tag.toList.reverse name.toList.reverse).map (fun cs => String.ofList cs.reverse)

theorem baseOf?_eq_some_iff {name base : String} :
    baseOf? tag name = some base ↔ name = base ++ tag := by
  rw [baseOf?, Option.map_eq_some_iff]
  constructor
  · rintro ⟨cs, hcs, rfl⟩
    have hname := congrArg List.reverse (SsaName.after?_eq_some_iff.mp hcs)
    apply String.toList_injective
    simpa using hname
  · rintro rfl
    exact ⟨base.toList.reverse, SsaName.after?_eq_some_iff.mpr (by simp), by simp⟩

/-- The model that gives each name the value of the tagged name. -/
def untagged (m : Model) : Model :=
  Table.ofList (m.entries.filterMap fun v => (baseOf? tag v.1).map (·, v.2))

theorem get?_untagged (m : Model) (n : String) : (m.untagged tag).get? n = m.get? (n ++ tag) := by
  apply Table.get?_ofList_of_mem_iff
  intro a
  rw [List.mem_filterMap, ← Table.mem_entries_iff]
  constructor
  · rintro ⟨v, hv, hbase⟩
    obtain ⟨base, hname, heq⟩ := Option.map_eq_some_iff.mp hbase
    obtain ⟨rfl, rfl⟩ := Prod.mk.inj heq
    rw [← (baseOf?_eq_some_iff tag).mp hname]
    exact hv
  · intro hmem
    refine ⟨_, hmem, ?_⟩
    rw [(baseOf?_eq_some_iff tag).mpr rfl, Option.map_some]

theorem eval_rename_tag (m : Model) (e : Expr) :
    m.eval (e.rename (· ++ tag)) = (m.untagged tag).eval e := by
  apply eval_bind
  intro v _
  rw [get?_untagged, eval]

end Model

end tagged

/-- Tagging renames all that is analysed. The formula, the enabling expression, the assertions with
their guards, the variables that select at loop heads and the templates of the loops are those of the
procedure with the tag appended to every name; places, loop heads and the order of loops stay, and so
does the choice of integers and pointers among the variables of a loop. To tag twice is to tag once
with both tags, and a tagged formula has the value that the formula has where every variable is looked
up under its tagged name. -/
theorem Procedure.tagging_renames (p : Procedure) (tag : String) :
    (p.tagged tag).formula = p.formula.rename (· ++ tag) ∧
    (p.tagged tag).enablingExpr = p.enablingExpr.rename (· ++ tag) ∧
    (p.tagged tag).assertions.map (fun x => (x.1.location, x.1.source, x.1.guard, x.2)) =
      p.assertions.map (fun x => (x.1.location, x.1.source, x.1.guard.rename (· ++ tag),
        ⟨x.2.description, x.2.condition.rename (· ++ tag)⟩)) ∧
    (p.tagged tag).blocks.map (fun b => (b.location, b.source, b.head)) =
      p.blocks.map (fun b => (b.location, b.source, b.head)) ∧
    (p.tagged tag).loopEnds.map (fun x => (x.1, (p.tagged tag).loopSelect x.2)) =
      p.loopEnds.map (fun x => (x.1, (p.loopSelect x.2).rename (· ++ tag))) ∧
    (LoopSystem.ofProcedures [p.tagged tag]).loops =
      (LoopSystem.ofProcedures [p]).loops.map (LoopTemplate.rename (· ++ tag)) ∧
    (LoopSystem.ofProcedures [p.tagged tag]).loops.map (fun l => (l.intVars, l.pointerVars)) =
      (LoopSystem.ofProcedures [p]).loops.map (fun l => (l.intVars.map (LoopVar.rename (· ++ tag)),
        l.pointerVars.map (LoopVar.rename (· ++ tag)))) ∧
    (∀ tag', (p.tagged tag).tagged tag' = p.tagged (tag ++ tag')) ∧
    ∀ m : Model, (∀ n, (m.untagged tag).get? n = m.get? (n ++ tag)) ∧
      m.eval (p.tagged tag).formula = (m.untagged tag).eval p.formula := by
  refine ⟨p.formula_tagged tag, p.enablingExpr_tagged tag, ?_, ?_, ?_, LoopSystem.loops_tagged tag p,
    ?_, p.tagged_tagged tag, fun m => ⟨m.get?_untagged tag, ?_⟩⟩
  · simp only [assertions, tagged, List.map_flatMap, List.flatMap_map, List.map_map, Block.tagged]
    rfl
  · rw [tagged, List.map_map]
    rfl
  · rw [p.loopEnds_tagged, List.map_map]
    simp only [Function.comp_def, p.loopSelect_tagged]
  · rw [LoopSystem.loops_tagged, List.map_map]
    simp only [Function.comp_def, LoopTemplate.intVars_rename (append_injective tag),
      LoopTemplate.pointerVars_rename]
  · rw [p.formula_tagged, m.eval_rename_tag]

end InvariantSynthesis
