import MiniOb.Theorems.Checked
import MiniOb.Theorems.Join

/-! # Every condition is enforced

`condition_refers_single_table` and `create_multiple_selector` decide in two places what becomes of a condition, and
leave none out. -/

namespace MiniOb
open Catalog (TableMeta)
open Checks List DefaultConditionFilter NodeCreator
variable {p : Planning} {relations : List Name} {c c' : Condition}

/-! ### Conditions that a filter has been made from -/

/-- The condition as filters that were made from it before have left it: the text of a date may be overwritten. -/
def LeftBy (p : Planning) : Condition → Condition → Prop :=
  Relation.ReflTransGen fun c c' => ∃ table unset, c' = (init p.zone p.outer table unset c).2

def SameOperand (f f' : ConditionField) : Prop := f' = f ∨ ∃ v v', f = .value v ∧ f' = .value v'

theorem SameOperand.trans {f' f'' : ConditionField} (h : SameOperand f f') (h' : SameOperand f' f'') :
    SameOperand f f'' := by
  rcases h with rfl | ⟨v, v', rfl, rfl⟩
  · exact h'
  · rcases h' with rfl | ⟨w, w', -, rfl⟩
    · exact .inr ⟨v, v', rfl, rfl⟩
    · exact .inr ⟨v, w', rfl, rfl⟩

theorem sameOperand_rewriteDate (zone : TimeZone) (t : Day) (f : ConditionField) :
    SameOperand f (f.rewriteDate zone t) := by
  cases f with
  | value v => exact .inr ⟨v, _, rfl, rfl⟩
  | attr a refersOuter => exact .inl rfl
  | subquery q => exact .inl rfl

theorem init_operands (zone : TimeZone) (outer : Name → TableMeta) (table : TableMeta) (unset : Unset × Unset)
    (c : Condition) : SameOperand c.left (init zone outer table unset c).2.left ∧
      SameOperand c.right (init zone outer table unset c).2.right := by
  unfold init
  split
  · exact ⟨.inl rfl, .inl rfl⟩
  · split
    · exact ⟨.inl rfl, .inl rfl⟩
    · split
      · exact ⟨.inl rfl, .inl rfl⟩
      · split
        · exact ⟨.inl rfl, .inl rfl⟩
        · split
          · split
            · exact ⟨.inl rfl, .inl rfl⟩
            · rename_i t _
              exact ⟨sameOperand_rewriteDate zone t c.left, sameOperand_rewriteDate zone t c.right⟩
          · exact ⟨.inl rfl, .inl rfl⟩

theorem LeftBy.operands (h : LeftBy p c c') : SameOperand c.left c'.left ∧ SameOperand c.right c'.right := by
  induction h with
  | refl => exact ⟨.inl rfl, .inl rfl⟩
  | tail _ hstep ih =>
    obtain ⟨table, unset, rfl⟩ := hstep
    obtain ⟨hleft, hright⟩ := init_operands p.zone p.outer table unset _
    exact ⟨ih.1.trans hleft, ih.2.trans hright⟩

theorem SameOperand.placed {f f' : ConditionField} (h : SameOperand f f') (placed : Placed relations f) :
    Placed relations f' := by
  rcases h with rfl | ⟨v, v', rfl, rfl⟩
  · exact placed
  · trivial

theorem SameOperand.routed {f' : ConditionField} (h : SameOperand f f') (n : Nat) (table : Name) :
    f'.isAttr = f.isAttr ∧ matchOrOuter n table f' = matchOrOuter n table f := by
  rcases h with rfl | ⟨v, v', rfl, rfl⟩
  · exact ⟨rfl, rfl⟩
  · exact ⟨rfl, rfl⟩

theorem LeftBy.single (h : LeftBy p c c') (n : Nat) (table : Name) :
    conditionRefersSingleTable n c' table = conditionRefersSingleTable n c table := by
  obtain ⟨hleft, hright⟩ := h.operands
  obtain ⟨hl, hl'⟩ := hleft.routed n table
  obtain ⟨hr, hr'⟩ := hright.routed n table
  simp only [conditionRefersSingleTable, hl, hl', hr, hr']

/-! ### The parts of a statement -/

/-- A checked statement, or a subquery in it, at any time while it is executed. -/
inductive PartOf (p : Planning) (q : Selects) : Selects → Prop
  | self : PartOf p q q
  | subquery {s : Selects} {c : Condition} {sub : Subquery} : PartOf p q s → c ∈ s.conditions →
    c.left = .subquery sub ∨ c.right = .subquery sub → PartOf p q (subquery2selects sub)
  | planned {s : Selects} {conditions : List Condition} :
      PartOf p q s → List.Forall₂ (LeftBy p) s.conditions conditions →
    PartOf p q { s with conditions }

theorem PartOf.placed {q s : Selects} (h : PartOf p q s)
    (placed : q.relations ≠ [] ∧ PlacedAll q.relations q.conditions) :
    s.relations ≠ [] ∧ PlacedAll s.relations s.conditions := by
  induction h with
  | self => exact placed
  | @subquery s c sub _ hc hsub ih =>
    obtain ⟨hleft, hright⟩ := placedAll_iff.mp ih.2 _ hc
    obtain ⟨target, type, relations, conditions⟩ := sub
    rcases hsub with hsub | hsub
    · rw [hsub, Placed] at hleft
      exact hleft
    · rw [hsub, Placed] at hright
      exact hright
  | planned _ hconditions ih =>
    refine ⟨ih.1, placedAll_iff.mpr fun c' hc' => ?_⟩
    obtain ⟨c, hc, hleft⟩ : ∃ c ∈ _, LeftBy p c c' := exists_right hconditions.flip hc'
    obtain ⟨hl, hr⟩ := placedAll_iff.mp ih.2 c hc
    exact ⟨hleft.operands.1.placed hl, hleft.operands.2.placed hr⟩

/-! ### Routing -/

theorem Placed.attr {a : RelAttr} {refersOuter : Bool} (placed : Placed relations (.attr a refersOuter)) :
    (∀ table, matchOrOuter relations.length table (.attr a refersOuter) = true) ∨
      (refersOuter = false ∧ ∃ r ∈ relations, a.relationName = some r) := by
  cases refersOuter with
  | true => exact .inl fun table => Bool.or_true _
  | false =>
    rcases placed with h | hnamed | ⟨hone, hnone⟩
    · cases h
    · exact .inr ⟨rfl, hnamed⟩
    · refine .inl fun table => ?_
      simp [matchOrOuter, matchTable, hnone, hone]

theorem Placed.named {table field : Name} (placed : Placed relations (.attr ⟨some table, field⟩ false)) :
    table ∈ relations := by
  rcases placed with h | ⟨r, hr, hnamed⟩ | ⟨-, hnone⟩
  · cases h
  · cases hnamed
    exact hr
  · cases hnone

theorem matchOrOuter_named {a : RelAttr} {refersOuter : Bool} {r : Name} (named : a.relationName = some r) (n : Nat) :
    matchOrOuter n r (.attr a refersOuter) = true := by
  simp [matchOrOuter, matchTable, named]

theorem exists_fits (nonempty : relations ≠ []) (placed : Placed relations f) :
    ∃ r ∈ relations, f.isAttr = true → matchOrOuter relations.length r f = true := by
  obtain ⟨r, hr⟩ := exists_mem_of_ne_nil relations nonempty
  cases f with
  | value v => exact ⟨r, hr, fun h => by cases h⟩
  | subquery q => exact ⟨r, hr, fun h => by cases h⟩
  | attr a refersOuter =>
    rcases placed.attr with hall | ⟨-, r', hr', hnamed⟩
    · exact ⟨r, hr, fun _ => hall r⟩
    · exact ⟨r', hr', fun _ => matchOrOuter_named hnamed _⟩

/-- A condition of a checked statement becomes a filter of one of the tables, or connects two of them. -/
theorem routed (nonempty : relations ≠ []) (left : Placed relations c.left) (right : Placed relations c.right) :
    (∃ r ∈ relations, conditionRefersSingleTable relations.length c r = true) ∨
      ∃ jc, multipleCondition c = some jc ∧ jc.left.table ∈ relations ∧ jc.right.table ∈ relations ∧
        jc.left.table ≠ jc.right.table := by
  obtain ⟨l, r, comp⟩ := c
  obtain ⟨tl, htl, hl⟩ := exists_fits nonempty left
  obtain ⟨tr, htr, hr⟩ := exists_fits nonempty right
  cases hla : l.isAttr with
  | false => exact .inl ⟨tr, htr, by cases hra : r.isAttr <;> simp [conditionRefersSingleTable, hla, hra, hr]⟩
  | true =>
    cases hra : r.isAttr with
    | false => exact .inl ⟨tl, htl, by simp [conditionRefersSingleTable, hla, hra, hl hla]⟩
    | true =>
      cases l with
      | value v => cases hla
      | subquery q => cases hla
      | attr a aOuter =>
        cases r with
        | value v => cases hra
        | subquery q => cases hra
        | attr b bOuter =>
          rcases left.attr with hall | ⟨rfl, ra, hra', hna⟩
          · exact .inl ⟨tr, htr, by simp [conditionRefersSingleTable, ConditionField.isAttr, hall tr, hr rfl]⟩
          · rcases right.attr with hall | ⟨rfl, rb, hrb', hnb⟩
            · exact .inl
                ⟨ra, hra', by simp [conditionRefersSingleTable, ConditionField.isAttr, hall ra, matchOrOuter_named hna]⟩
            · by_cases hsame : ra = rb
              · subst hsame
                exact .inl ⟨ra, hra', by
                  simp [conditionRefersSingleTable, ConditionField.isAttr, matchOrOuter_named hna,
                    matchOrOuter_named hnb]⟩
              · obtain ⟨relationA, fieldA⟩ := a
                obtain ⟨relationB, fieldB⟩ := b
                cases hna
                cases hnb
                exact .inr ⟨_, if_pos hsame, hra', hrb', hsame⟩

/-! ### The schemas of the nodes -/

theorem indexOfField_isSome_iff {schema : TupleSchema} {column : ColumnRef} :
    (schema.indexOfField column).isSome = true ↔ ∃ f ∈ schema, f.column = column := by
  simp [TupleSchema.indexOfField]

def Grows (table : Name) (schema schema' : TupleSchema) : Prop :=
  (∀ f ∈ schema, f ∈ schema') ∧ ∀ f ∈ schema', f ∈ schema ∨ f.column.table = table

theorem Grows.refl (table : Name) (schema : TupleSchema) : Grows table schema schema :=
  ⟨fun _ h => h, fun _ h => .inl h⟩

theorem Grows.trans {table : Name} {s s' s'' : TupleSchema} (h : Grows table s s') (h' : Grows table s' s'') :
    Grows table s s'' :=
  ⟨fun f hf => h'.1 f (h.1 f hf), fun f hf => (h'.2 f hf).elim (h.2 f) .inr⟩

theorem Grows.found {table : Name} {s s' : TupleSchema} (h : Grows table s s') {column : ColumnRef}
    (found : (s.indexOfField column).isSome = true) : (s'.indexOfField column).isSome = true := by
  obtain ⟨f, hf, hcolumn⟩ := indexOfField_isSome_iff.mp found
  exact indexOfField_isSome_iff.mpr ⟨f, h.1 f hf, hcolumn⟩

variable {table : TableMeta} {schema schema' : TupleSchema} {f : ConditionField} {q : Selects}
  {filters : List DefaultConditionFilter}

/-- What a node for the table makes of a condition: a filter, or columns for the join. -/
structure Takes (p : Planning) (n : Nat) (table : TableMeta) (filters : List DefaultConditionFilter)
    (schema : TupleSchema) (c : Condition) : Prop where
  filter : conditionRefersSingleTable n c table.name = true → ∃ c' filter, LeftBy p c c' ∧ filter ∈ filters ∧
    (init p.zone p.outer table (p.memory table.name c') c').1 = .ok filter
  columns : conditionRefersSingleTable n c table.name = false → conditionRefersMultipleTables c = true →
    ∀ a refersOuter, c.left = .attr a refersOuter ∨ c.right = .attr a refersOuter → a.relationName = some table.name →
      (schema.indexOfField ⟨table.name, a.attributeName⟩).isSome = true

theorem Takes.more {n : Nat} {filters' : List DefaultConditionFilter} (h : Takes p n table filters schema c)
    (hfilters : ∀ f ∈ filters, f ∈ filters') (grows : Grows table.name schema schema') :
    Takes p n table filters' schema' c where
  filter hsingle := by
    obtain ⟨c', f, hleft, hf, hinit⟩ := h.filter hsingle
    exact ⟨c', f, hleft, hfilters f hf, hinit⟩
  columns hsingle hmultiple a refersOuter hf hnamed := grows.found (h.columns hsingle hmultiple a refersOuter hf hnamed)

structure NodeFor (p : Planning) (q : Selects) (name : Name) (node : SelectExeNode) : Prop where
  named : node.table.name = name
  only : ∀ f ∈ node.schema, f.column.table = name
  takes : ∀ c ∈ q.conditions, Takes p q.relations.length node.table node.filters node.schema c

/-- What a node makes of a condition as an earlier node has left it, it makes of the condition. -/
theorem Takes.before {n : Nat} (left : LeftBy p c c') (h : Takes p n table filters schema c') :
    Takes p n table filters schema c where
  filter hsingle := by
    obtain ⟨d, f, hd, hf, hinit⟩ := h.filter ((left.single n table.name).trans hsingle)
    exact ⟨d, f, left.trans hd, hf, hinit⟩
  columns hsingle hmultiple a refersOuter hf hnamed := by
    -- Both operands are attributes, so they are still the same.
    obtain ⟨l, r, comp⟩ := c
    obtain ⟨l', r', comp'⟩ := c'
    obtain ⟨hl, hr⟩ := left.operands
    have hattr : ∀ {f f' : ConditionField}, SameOperand f f' → f.isAttr = true → f' = f := by
      rintro f f' (rfl | ⟨v, v', rfl, rfl⟩) hf
      · rfl
      · cases hf
    have hboth : l.isAttr = true ∧ r.isAttr = true := by
      cases l <;> cases r <;> first | exact ⟨rfl, rfl⟩ | cases hmultiple
    obtain rfl : l' = l := hattr hl hboth.1
    obtain rfl : r' = r := hattr hr hboth.2
    exact h.columns ((left.single n table.name).trans hsingle) hmultiple a refersOuter hf hnamed

def joinSteps : List TupleSchema → TupleSchema → List JoinCondition → List (List JoinCondition)
  | [], _, _ => []
  | right :: rest, left, conditions =>
    let assigned := conditions.map (assignCondition left right)
    (assigned.filter Prod.snd).map Prod.fst :: joinSteps rest (left ++ right) (assigned.map Prod.fst)

theorem joinLoop_eq_joinSteps (std : StdHash) (range : EqualRange) :
    ∀ (sets : List TupleSet) (left : TupleSet) (conditions : List JoinCondition),
    joinLoop std range sets left conditions =
      (sets.zip (joinSteps (sets.map TupleSet.schema) left.schema conditions)).foldl
      (fun left step => hashJoin std range left step.1 step.2) left
  | [], _, _ => rfl
  | _ :: sets, _, _ => joinLoop_eq_joinSteps std range sets _ _

theorem multipleCondition_eq {jc : JoinCondition} (h : multipleCondition c = some jc) :
    c.left = .attr ⟨some jc.left.table, jc.left.field⟩ false ∧
      c.right = .attr ⟨some jc.right.table, jc.right.field⟩ false ∧ jc.left.table ≠ jc.right.table := by
  unfold multipleCondition at h
  split at h
  · rename_i hleft hright
    split at h
    · rename_i hne
      cases h
      exact ⟨hleft, hright, hne⟩
    · cases h
  · cases h

theorem NodeFor.provides {name : Name} {node : SelectExeNode} (h : NodeFor p q name node) :
    Provides (createMultipleSelector q) node.schema [name] where
  only f hf := mem_singleton.mpr (h.only f hf)
  all jc hjc column operand htable := by
    obtain ⟨c, hc, hcond⟩ := mem_filterMap.mp hjc
    obtain ⟨hleft, hright, hne⟩ := multipleCondition_eq hcond
    obtain rfl := mem_singleton.mp htable
    have hsingle : conditionRefersSingleTable q.relations.length c node.table.name = false := by
      simp only [conditionRefersSingleTable, hleft, hright, ConditionField.isAttr, matchOrOuter, matchTable]
      by_cases hl : jc.left.table = node.table.name
      · have hr : jc.right.table ≠ node.table.name := fun hr => hne (hl.trans hr.symm)
        simp [hl, hr]
      · simp [hl]
    have hmultiple : conditionRefersMultipleTables c = true := by
      simp [conditionRefersMultipleTables, hleft, hright, hne]
    have hcolumns := (h.takes c hc).columns hsingle hmultiple
    rw [h.named] at hcolumns
    rcases operand with rfl | rfl
    · exact hcolumns _ false (.inl hleft) rfl
    · exact hcolumns _ false (.inr hright) rfl

/-- `a (x INT)` and `b (y INT)`. -/
def aAndB : Database where
  findTable name := [⟨[97], [Catalog.trxField, ⟨[120], .ints, 4, 4, true, false⟩], [], [], 8⟩,
    ⟨[98], [Catalog.trxField, ⟨[121], .ints, 4, 4, true, false⟩], [], [], 8⟩].find? fun table => table.name == name
  named h := by simpa using find?_some h

end MiniOb
