import MiniOb.Theorems.Checked
import MiniOb.Theorems.Routing

/-! # Scopes of subqueries

On every way out `check_subquery` leaves the members of the checker as they were. It wants a table of the subquery in
each of the conditions, whatever tables they are compared with, and of an aggregate it wants nothing. -/

namespace MiniOb
open Catalog (TableMeta)
open Checks List

def operands (conditions : List Condition) : List ConditionField := conditions.flatMap fun c => [c.left, c.right]

/-- A subquery somewhere in a WHERE clause, with the FROM lists of the queries around it. -/
inductive Encloses (relations : List Name) (conditions : List Condition) : List Name → Subquery → Prop
  | here {q : Subquery} : .subquery q ∈ operands conditions → Encloses relations conditions relations q
  | deeper {outer : List Name} {q q' : Subquery} : Encloses relations conditions outer q →
      .subquery q' ∈ operands q.conditions → Encloses relations conditions (outer ++ q.relations) q'

def Selects.Unmarked (q : Selects) : Prop := ∀ outer p a refersOuter, Encloses q.relations q.conditions outer p →
  .attr a refersOuter ∈ operands p.conditions → refersOuter = false

namespace QueryChecker

namespace Member
variable (db : Database) {α β : Type} {x : Member α} {f : α → Member β} {e : Except Fault α} {g : α → Except Fault β}
  {s s' : Scope} {pop : Scope → Scope}

theorem bind_kept (hx : x s = kept e s') (hf : ∀ a, f a s' = kept (g a) s') : (x >>= f) s = kept (e >>= g) s' := by
  cases e with
  | error e => simp [bind, EStateM.bind, hx, kept, Except.bind]
  | ok a => simpa [bind, EStateM.bind, hx, kept, Except.bind] using hf a

theorem bind_ok {a : α} (hx : x s = .ok a s') : (x >>= f) s = f a s' := by simp [bind, EStateM.bind, hx]

theorem orPop_bind (hpop : pop s' = s) (hx : x s' = kept e s') (hf : ∀ a, f a s' = kept (g a) s) :
    (orPop x pop >>= f) s' = kept (e >>= g) s := by
  cases e with
  | error e => simp [bind, EStateM.bind, orPop, hx, kept, Except.bind, hpop]
  | ok a => simpa [bind, EStateM.bind, orPop, hx, kept, Except.bind] using hf a

/-- The end of a call that pushes tables, which may leave some of them behind when it fails. -/
def finished (result : Except Fault α) (after : α → Scope) (left : Scope) : EStateM.Result Fault Scope Unit :=
  match result with
  | .ok a => .ok () (after a)
  | .error e => .error e left

theorem orPop_finished {x : Member Unit} {f : Unit → Member β} {after : α → Scope} {left : Scope} (hpop : pop left = s)
    (hx : x s' = finished e after left) (hf : ∀ a, f () (after a) = kept (g a) s) :
    (orPop x pop >>= f) s' = kept (e >>= g) s := by
  cases e with
  | error err => simp [bind, EStateM.bind, orPop, hx, kept, finished, Except.bind, hpop]
  | ok a => simpa [bind, EStateM.bind, orPop, hx, kept, finished, Except.bind] using hf a

def lookup (db : Database) (relation : Name) : Except Fault TableMeta :=
  match db.findTable relation with
  | none => .error (.rc .schemaTableNotExist)
  | some table => .ok table

theorem pushTables_apply : ∀ (relations : List Name) (s : Scope), ∃ left : List TableMeta,
    pushTables db relations s = finished (relations.mapM (lookup db)) (·.foldl Scope.pushTable s)
    (left.foldl Scope.pushTable s)
  | [], s => ⟨[], rfl⟩
  | relation :: relations, s => by
    rw [pushTables, mapM_cons, lookup]
    cases hfind : db.findTable relation with
    | none => exact ⟨[], rfl⟩
    | some table =>
      obtain ⟨left, hleft⟩ := pushTables_apply relations (s.pushTable table)
      refine ⟨table :: left, ?_⟩
      show pushTables db relations (s.pushTable table) = _
      rw [hleft]
      cases relations.mapM (lookup db) <;> rfl

theorem foldl_pushTable (tables : List TableMeta) (s : Scope) : tables.foldl Scope.pushTable s = match s.locals with
    | none => { s with globals := s.globals ++ tables }
    | some locals => { s with locals := some (locals ++ tables) } := by
  induction tables generalizing s with
  | nil => rcases s with ⟨globals, _ | locals, nullable⟩ <;> simp
  | cons table tables ih => rcases s with ⟨globals, _ | locals, nullable⟩ <;> simp [ih, Scope.pushTable]

theorem checkFromRelations_apply (relations : List Name) (s : Scope) : ∃ left : List TableMeta,
    checkFromRelationsAndInitTables db relations s =
      finished (checkFromRelations db relations) (·.foldl Scope.pushTable s) (left.foldl Scope.pushTable s) := by
  unfold checkFromRelationsAndInitTables checkFromRelations
  split
  · exact ⟨[], rfl⟩
  · exact pushTables_apply db relations s

theorem checkSubqueryWhereFields_eq (target : SubqueryTarget) (conditions : List Condition)
    {globals locals : List TableMeta} (nullable : Bool) (check : Scope → Member (List Condition))
    {result : Except Fault (List Condition)}
    (hcheck : check ⟨globals ++ locals, some locals, false⟩ ⟨globals ++ locals, some locals, false⟩ =
      kept result ⟨globals ++ locals, some locals, false⟩) :
    checkSubqueryWhereFields db target conditions check ⟨globals, some locals, nullable⟩ = kept (do
      checkIdentifiers locals conditions
      let type ← resultType db target
      let conditions ← result
      return (type, conditions)) ⟨globals, some locals, nullable⟩ := by
  have hpop : popMatchFuncAndGlobalTable locals.length nullable ⟨globals ++ locals, some locals, false⟩ =
      ⟨globals, some locals, nullable⟩ := by simp [popMatchFuncAndGlobalTable]
  refine orPop_bind hpop rfl fun _ => orPop_bind hpop rfl fun type => orPop_bind hpop hcheck fun conditions => ?_
  exact congrArg _ hpop

mutual

theorem checkField_eq (field : ConditionField) (comp : CompOp) (left : Bool) (s : Scope) :
    checkField db s comp left field s = kept (QueryChecker.checkField db s comp left field) s := by
  match field with
  | .value v => rfl
  | .attr a refersOuter => rfl
  | .subquery q =>
    rw [checkField, QueryChecker.checkField]
    refine (bind_kept (g := fun q' => .ok (ConditionField.subquery q')) (checkSubquery_eq q comp left s)
      fun q' => rfl).trans ?_
    cases QueryChecker.checkSubquery db s comp left q <;> rfl
termination_by structural field

theorem checkSubquery_eq (q : SubqueryOf ConditionField) (comp : CompOp) (left : Bool) (s : Scope) :
    checkSubquery db comp left q s = kept (QueryChecker.checkSubquery db s comp left q) s := by
  match q with
  | ⟨target, type, relations, conditions⟩ =>
    rw [checkSubquery, QueryChecker.checkSubquery]
    refine bind_kept rfl fun _ => ?_
    obtain ⟨left, hfrom⟩ := checkFromRelations_apply db relations { s with locals := some [] }
    simp only [foldl_pushTable, nil_append] at hfrom
    have hpop : ∀ locals, popLocalTables s.locals { s with locals := locals } = s := fun _ => rfl
    refine orPop_finished (hpop (some left)) hfrom fun locals => orPop_bind (hpop (some locals)) rfl fun target' => ?_
    have hwhere := checkSubqueryWhereFields_eq db target' conditions s.nullable
      (fun marked => checkWhereFields db marked target'.isAgg conditions)
      (checkWhereFields_eq conditions ⟨s.globals ++ locals, some locals, false⟩)
    refine (orPop_bind (hpop (some locals)) hwhere (g := fun p => .ok ⟨target', p.1, relations, p.2⟩)
      fun p => rfl).trans ?_
    simp only [bind_assoc, pure_bind]
    rfl
termination_by structural q

theorem checkCondition_eq (c : ConditionOf ConditionField) {isAgg : Bool} (s : Scope) :
    checkCondition db s isAgg c s = kept (QueryChecker.checkCondition db s isAgg c) s := by
  match c with
  | ⟨left, right, comp⟩ =>
    rw [checkCondition, QueryChecker.checkCondition]
    exact bind_kept rfl fun _ => bind_kept (checkField_eq left comp true s) fun left' =>
      bind_kept (checkField_eq right comp false s) fun right' => rfl
termination_by structural c

theorem checkWhereFields_eq (conditions : List (ConditionOf ConditionField)) {isAgg : Bool} (s : Scope) :
    checkWhereFields db s isAgg conditions s = kept (QueryChecker.checkWhereFields db s isAgg conditions) s := by
  match conditions with
  | [] => rfl
  | c :: conditions =>
    rw [checkWhereFields, QueryChecker.checkWhereFields]
    exact bind_kept (checkCondition_eq c s) fun c' => bind_kept (checkWhereFields_eq conditions s)
      fun conditions' => rfl
termination_by structural conditions

end

theorem checkFields_eq (q : Selects) :
    ∃ s, checkFields db q ⟨[], none, q.relations.length ≤ 1⟩ = kept (QueryChecker.checkFields db q) s := by
  obtain ⟨left, hfrom⟩ := checkFromRelations_apply db q.relations ⟨[], none, q.relations.length ≤ 1⟩
  simp only [foldl_pushTable, nil_append] at hfrom
  rw [QueryChecker.checkFields]
  cases htables : checkFromRelations db q.relations with
  | error e =>
    refine ⟨⟨left, none, q.relations.length ≤ 1⟩, ?_⟩
    simp [checkFields, bind, EStateM.bind, hfrom, htables, finished, kept, Except.bind]
  | ok tables =>
    rw [htables] at hfrom
    refine ⟨⟨tables, none, q.relations.length ≤ 1⟩, (bind_ok hfrom).trans ?_⟩
    exact bind_kept (checkWhereFields_eq db q.conditions _) fun conditions => bind_kept rfl fun _ =>
        bind_kept rfl fun _ =>
      bind_kept rfl fun _ => rfl

end Member

variable {db : Database} {s : Scope} {isAgg : Bool} {conditions out : List Condition}

theorem operand_checked (h : checkWhereFields db s isAgg conditions = .ok out) {field : ConditionField}
    (hfield : field ∈ operands out) :
    ∃ before ∈ operands conditions, ∃ comp left, checkField db s comp left before = .ok field := by
  rw [checkWhereFields_eq_mapM, mapM_eq_ok] at h
  obtain ⟨c', hc', hside⟩ := mem_flatMap.mp hfield
  obtain ⟨c, hc, hcheck⟩ := exists_right h.flip hc'
  obtain ⟨hleft, hright⟩ := checkCondition_ok hcheck
  rcases mem_pair.mp hside with rfl | rfl
  · exact ⟨c.left, mem_flatMap.mpr ⟨c, hc, mem_cons_self⟩, _, _, hleft⟩
  · exact ⟨c.right, mem_flatMap.mpr ⟨c, hc, by simp⟩, _, _, hright⟩

/-- The subquery that becomes this one when it is checked inside of these queries. -/
def Becomes (db : Database) (outer : List Name) (q q' : Subquery) : Prop :=
  ∃ globals locals : List TableMeta, globals.map TableMeta.name = outer ∧ locals.map TableMeta.name = q'.relations ∧
    q.relations = q'.relations ∧ ∃ isAgg, checkWhereFields db ⟨globals ++ locals, some locals, false⟩ isAgg
      q.conditions = .ok q'.conditions

theorem subquery_becomes (h : checkWhereFields db s isAgg conditions = .ok out) {q' : Subquery}
    (hq' : .subquery q' ∈ operands out) :
    ∃ q, .subquery q ∈ operands conditions ∧ Becomes db (s.globals.map TableMeta.name) q q' := by
  obtain ⟨field, hfield, comp, left, hcheck⟩ := operand_checked h hq'
  cases field with
  | value v => cases hcheck
  | attr a refersOuter =>
    obtain ⟨matched, -, hmatched⟩ := map_eq_ok.mp hcheck
    cases hmatched
  | subquery q =>
    obtain ⟨_, hq, ⟨⟩⟩ := map_eq_ok.mp hcheck
    obtain ⟨locals, hlocals, hrelations, hwhere⟩ := checkSubquery_ok hq
    exact ⟨q, hfield, s.globals, locals, rfl, hrelations ▸ (checkFromRelations_ok hlocals).2, hrelations, _, hwhere⟩

theorem encloses_becomes (h : checkWhereFields db s isAgg conditions = .ok out) {outer : List Name} {q' : Subquery}
    (hq' : Encloses (s.globals.map TableMeta.name) out outer q') :
    ∃ q, Encloses (s.globals.map TableMeta.name) conditions outer q ∧ Becomes db outer q q' := by
  induction hq' with
  | here hmem =>
    obtain ⟨q, hq, hbecomes⟩ := subquery_becomes h hmem
    exact ⟨q, .here hq, hbecomes⟩
  | deeper hmem hq' ih =>
    obtain ⟨q, hq, globals, locals, rfl, hlocals, hrelations, isAgg, hwhere⟩ := ih
    obtain ⟨p, hp, hbecomes⟩ := subquery_becomes hwhere hq'
    rw [map_append, hlocals] at hbecomes
    exact ⟨p, hrelations ▸ .deeper hq hp, hbecomes⟩

theorem attr_marked {globals locals : List TableMeta} {a : RelAttr} {refersOuter : Bool}
    (h : checkWhereFields db ⟨globals ++ locals, some locals, false⟩ isAgg conditions = .ok out)
    (hfresh : ∀ a refersOuter, .attr a refersOuter ∈ operands conditions → refersOuter = false)
    (ha : .attr a refersOuter ∈ operands out) :
    ∃ r, a.relationName = some r ∧ (refersOuter = true ↔ r ∉ locals.map TableMeta.name) ∧
      (refersOuter = true → r ∈ globals.map TableMeta.name) := by
  obtain ⟨field, hfield, comp, left, hcheck⟩ := operand_checked h ha
  cases field with
  | value v => cases hcheck
  | subquery q =>
    obtain ⟨_, -, hmatched⟩ := map_eq_ok.mp hcheck
    cases hmatched
  | attr before marked =>
    obtain rfl := hfresh before marked hfield
    obtain ⟨matched, hmatched, heq⟩ := map_eq_ok.mp hcheck
    obtain ⟨type, htype, rfl⟩ := map_eq_ok.mp hmatched
    obtain ⟨r, found, hr, hfound, -⟩ := nonNullableRelattrMatchAnyTable_ok htype
    have hglobal := findField_table hfound
    cases heq
    have hmark : (!relationIn r locals) = true ↔ r ∉ locals.map TableMeta.name := by
      rw [Bool.not_eq_true', ← Bool.not_eq_true, relationIn_iff]
    rw [rewriteAttr_mark rfl hr hglobal, Bool.false_or]
    refine ⟨r, hr, hmark, fun hout => ?_⟩
    rw [map_append] at hglobal
    exact (mem_append.mp hglobal).resolve_right (hmark.mp hout)

/-- Whatever a call of `check_subquery` returns, the members are as they were before it. In a query that passes, an
    attribute in the WHERE clause of a subquery is marked exactly if its table is not of the subquery, and then it is of
    a query around it. -/
theorem scopes_kept (db : Database) :
    (∀ s comp left q, Member.checkSubquery db comp left q s = Member.kept (checkSubquery db s comp left q) s) ∧
      ∀ q q' s, q.Unmarked → Member.checkFields db q ⟨[], none, q.relations.length ≤ 1⟩ = .ok q' s →
        ∀ outer p a refersOuter, Encloses q'.relations q'.conditions outer p →
          .attr a refersOuter ∈ operands p.conditions →
          ∃ r, a.relationName = some r ∧ (refersOuter = true ↔ r ∉ p.relations) ∧ (refersOuter = true → r ∈ outer) := by
  refine ⟨fun s comp left q => Member.checkSubquery_eq db q comp left s,
    fun q q' s hfresh hrun outer p a refersOuter hp ha => ?_⟩
  obtain ⟨s', hs'⟩ := Member.checkFields_eq db q
  rw [hrun] at hs'
  have hok : checkFields db q = .ok q' := by
    cases h : checkFields db q <;> rw [h] at hs' <;> cases hs'
    rfl
  obtain ⟨tables, htables, hrelations, hconditions⟩ := checkFields_ok hok
  obtain ⟨-, hnames⟩ := checkFromRelations_ok htables
  rw [hrelations, ← hnames] at hp
  obtain ⟨p₀, hp₀, globals, locals, rfl, hlocals, -, isAgg, hwhere⟩ := encloses_becomes hconditions hp
  rw [hnames] at hp₀
  rw [← hlocals]
  exact attr_marked hwhere (fun a refersOuter => hfresh _ p₀ a refersOuter hp₀) ha

/-- `b.y > a.x`. -/
def greaterOuter : Condition := ⟨.attr ⟨some [98], [121]⟩ false, .attr ⟨some [97], [120]⟩ false, .greatThan⟩

/-- `SELECT a.x FROM a WHERE a.x IN (SELECT b.y FROM b WHERE b.y > a.x)`. -/
def correlatedSelects : Selects where
  attributes := [⟨some [97], [120]⟩]
  aggs := []
  relations := [[97]]
  conditions := [⟨.attr ⟨some [97], [120]⟩ false,
    .subquery ⟨.attribute ⟨some [98], [121]⟩, .undefined, [[98]], [greaterOuter]⟩, .condIn⟩]
  groupBy := []
  orders := []

theorem scopes_kept_correlated : ∃ q' s, Member.checkFields aAndB correlatedSelects ⟨[], none, true⟩ = .ok q' s ∧
    ∀ outer p a refersOuter, Encloses q'.relations q'.conditions outer p → .attr a refersOuter ∈ operands p.conditions →
      ∃ r, a.relationName = some r ∧ (refersOuter = true ↔ r ∉ p.relations) ∧ (refersOuter = true → r ∈ outer) := by
  have hencloses : ∀ outer p, Encloses correlatedSelects.relations correlatedSelects.conditions outer p →
      p.conditions = [greaterOuter] := by
    intro outer p hp
    induction hp with
    | here hmem =>
      simp [operands, correlatedSelects] at hmem
      rw [hmem]
    | deeper _ hmem ih => simp [operands, ih, greaterOuter] at hmem
  refine ⟨_, _, rfl, (scopes_kept aAndB).2 correlatedSelects _ _ (fun outer p a refersOuter hp ha => ?_) rfl⟩
  simp [operands, hencloses outer p hp, greaterOuter] at ha
  rcases ha with ⟨-, h⟩ | ⟨-, h⟩ <;> exact h

variable {locals : List TableMeta}

def Scope.inner (outer locals : List TableMeta) : Scope := ⟨outer ++ locals, some locals, false⟩

/-- The table of an operand, with the name filled in if it is missing. -/
def Scope.relationOf (s : Scope) : ConditionField → Option Name
  | .attr a refersOuter => (s.rewriteAttr a refersOuter).1.relationName
  | _ => none

/-- The tables of the subquery, and those that one of the conditions compares with one of them. -/
def Scope.Augmented (s : Scope) (locals : List TableMeta) (conditions : List Condition) (r : Name) : Prop :=
  relationIn r locals = true ∨ ∃ c ∈ conditions, ∃ l, relationIn l locals = true ∧
    (s.relationOf c.left = some r ∧ s.relationOf c.right = some l ∨ s.relationOf c.left = some l ∧
      s.relationOf c.right = some r)

/-- An attribute of the condition, if it has any, is of one of the tables. -/
def Scope.Refers (s : Scope) (tables : Name → Prop) (c : Condition) : Prop :=
  c.left.isAttr = true ∨ c.right.isAttr = true → ∃ r, tables r ∧
    (s.relationOf c.left = some r ∨ s.relationOf c.right = some r)

def Scope.Meaningful (s : Scope) (locals : List TableMeta) (conditions : List Condition) : Prop :=
  ∀ c ∈ conditions, s.Refers (s.Augmented locals conditions) c

/-- All other checks of the conditions succeed: the tables and fields they name exist. -/
def InScope (db : Database) (s : Scope) (conditions : List Condition) : Prop := ∀ c ∈ conditions, checkIn c = .ok () ∧
  (∃ left, checkField db s c.comp true c.left = .ok left) ∧ ∃ right, checkField db s c.comp false c.right = .ok right

def Accepts (db : Database) (s : Scope) (isAgg : Bool) (conditions : List Condition) : Prop :=
  ∃ out, checkWhereFields db s isAgg conditions = .ok out

theorem checkField_relation (locals : List TableMeta) (hs : s.nullable = false) {comp : CompOp} {left : Bool}
    {field out : ConditionField} (h : checkField db s comp left field = .ok out) :
    out.isAttr = field.isAttr ∧ Scope.refersAny locals out = (s.relationOf field).any (relationIn · locals) := by
  cases field with
  | value v =>
    cases h
    exact ⟨rfl, rfl⟩
  | attr a refersOuter =>
    obtain ⟨matched, hmatched, rfl⟩ := map_eq_ok.mp h
    rw [Scope.relattrMatchTable, hs] at hmatched
    obtain ⟨type, -, rfl⟩ := map_eq_ok.mp hmatched
    exact ⟨rfl, rfl⟩
  | subquery q =>
    obtain ⟨q', -, rfl⟩ := map_eq_ok.mp h
    exact ⟨rfl, rfl⟩

theorem makesSense_iff (hs : s.nullable = false) {c : Condition} {left right : ConditionField}
    (hleft : checkField db s c.comp true c.left = .ok left)
    (hright : checkField db s c.comp false c.right = .ok right) :
    Scope.makesSense locals ⟨left, right, c.comp⟩ = true ↔ s.Refers (relationIn · locals = true) c := by
  obtain ⟨hattr, hrefers⟩ := checkField_relation locals hs hleft
  obtain ⟨hattr', hrefers'⟩ := checkField_relation locals hs hright
  simp only [Scope.makesSense, Scope.Refers, hattr, hattr', hrefers, hrefers', Bool.or_eq_true, Bool.and_eq_true,
    Bool.not_eq_true', Option.any_eq_true]
  constructor
  · rintro ((⟨hleft, hright⟩ | ⟨r, hr, hin⟩) | ⟨r, hr, hin⟩) hany
    · simp [hleft, hright] at hany
    · exact ⟨r, hin, .inl hr⟩
    · exact ⟨r, hin, .inr hr⟩
  · intro h
    by_cases hany : c.left.isAttr = true ∨ c.right.isAttr = true
    · obtain ⟨r, hin, hr | hr⟩ := h hany
      · exact .inl (.inr ⟨r, hr, hin⟩)
      · exact .inr ⟨r, hr, hin⟩
    · exact .inl (.inl (by simpa using hany))

theorem accepts_iff (hs : s.nullable = false) (hlocals : s.locals = some locals) (h : InScope db s conditions) :
    Accepts db s isAgg conditions ↔ isAgg = true ∨ ∀ c ∈ conditions, s.Refers (relationIn · locals = true) c := by
  have hone : ∀ c ∈ conditions, (∃ c', checkCondition db s isAgg c = .ok c') ↔
      isAgg = true ∨ s.Refers (relationIn · locals = true) c := by
    intro c hc
    obtain ⟨hin, ⟨left, hleft⟩, right, hright⟩ := h c hc
    rw [checkCondition, hin, hleft, hright, ← makesSense_iff hs hleft hright]
    simp only [bind, Except.bind, hlocals, Option.any_some]
    cases isAgg <;> cases Scope.makesSense locals ⟨left, right, c.comp⟩ <;> simp [pure, Except.pure]
  rw [Accepts, checkWhereFields_eq_mapM, mapM_succeeds_iff, forall₂_congr hone]
  cases isAgg <;> simp

/-- In the scope of a subquery the check agrees with the augmented tables, for an aggregate if the conditions make
    sense, otherwise if they refer to the tables of the subquery whenever they make sense. -/
theorem accepts_meaningful_iff {outer : List TableMeta} (h : InScope db (.inner outer locals) conditions) :
    ((Accepts db (.inner outer locals) isAgg conditions ↔ (Scope.inner outer locals).Meaningful locals conditions) ∧
      ∀ conditions', conditions.Perm conditions' →
        (Accepts db (.inner outer locals) isAgg conditions ↔ Accepts db (.inner outer locals) isAgg conditions')) ↔
    (isAgg = true → (Scope.inner outer locals).Meaningful locals conditions) ∧
      (isAgg = false → (Scope.inner outer locals).Meaningful locals conditions →
        ∀ c ∈ conditions, (Scope.inner outer locals).Refers (relationIn · locals = true) c) := by
  have hperm : ∀ conditions', conditions.Perm conditions' →
      (Accepts db (.inner outer locals) isAgg conditions ↔ Accepts db (.inner outer locals) isAgg conditions') := by
    intro conditions' hperm
    rw [accepts_iff rfl rfl h, accepts_iff rfl rfl fun c hc => h c (hperm.mem_iff.mpr hc)]
    simp only [hperm.mem_iff]
  have hlocal : (∀ c ∈ conditions, (Scope.inner outer locals).Refers (relationIn · locals = true) c) →
      (Scope.inner outer locals).Meaningful locals conditions := by
    intro hall c hc hattr
    obtain ⟨r, hr, hside⟩ := hall c hc hattr
    exact ⟨r, .inl hr, hside⟩
  rw [and_iff_left hperm, accepts_iff rfl rfl h]
  cases isAgg with
  | false => simpa using ⟨fun h => h.mpr, fun h => ⟨hlocal, h⟩⟩
  | true => simp

/-- The tables `a` and `b` of a database, with the columns `x` and `y`. -/
def tableA : TableMeta := ⟨[97], [Catalog.trxField, ⟨[120], .ints, 4, 4, true, false⟩], [], [], 8⟩

def tableB : TableMeta := ⟨[98], [Catalog.trxField, ⟨[121], .ints, 4, 4, true, false⟩], [], [], 8⟩

/-- `a.x > 1`. -/
def outerGreater : Condition := ⟨.attr ⟨some [97], [120]⟩ false, .value ⟨.ints, [1, 0, 0, 0]⟩, .greatThan⟩

theorem accepts_greaterOuter : Accepts aAndB (.inner [tableA] [tableB]) false [greaterOuter] ↔
    (Scope.inner [tableA] [tableB]).Meaningful [tableB] [greaterOuter] := by
  have hscope : InScope aAndB (.inner [tableA] [tableB]) [greaterOuter] := fun c hc => by
    obtain rfl := mem_singleton.mp hc
    exact ⟨rfl, ⟨_, rfl⟩, _, rfl⟩
  refine ((accepts_meaningful_iff hscope).mpr ⟨fun h => absurd h Bool.false_ne_true, fun _ _ c hc _ => ?_⟩).1
  obtain rfl := mem_singleton.mp hc
  exact ⟨[98], rfl, .inl rfl⟩

/-- `(SELECT b.y FROM b WHERE a.x > 1 AND b.y > a.x)` makes sense and is refused; `(SELECT MAX(b.y) FROM b WHERE a.x >
    1)` makes none and passes. -/
theorem correlated_misjudged :
    ((Scope.inner [tableA] [tableB]).Meaningful [tableB] [outerGreater, greaterOuter] ∧
      checkWhereFields aAndB (.inner [tableA] [tableB]) false [outerGreater, greaterOuter] = .error (.rc .sqlSyntax)) ∧
    ¬(Scope.inner [tableA] [tableB]).Meaningful [tableB] [outerGreater] ∧
      Accepts aAndB (.inner [tableA] [tableB]) true [outerGreater] := by
  refine ⟨⟨fun c hc _ => ?_, rfl⟩, fun h => ?_, _, rfl⟩
  · have hcompared : (Scope.inner [tableA] [tableB]).Augmented [tableB] [outerGreater, greaterOuter] [97] :=
      .inr ⟨greaterOuter, by simp, [98], rfl, .inr ⟨rfl, rfl⟩⟩
    rcases mem_pair.mp hc with rfl | rfl
    · exact ⟨[97], hcompared, .inl rfl⟩
    · exact ⟨[97], hcompared, .inr rfl⟩
  · obtain ⟨r, haugmented, hr | hr⟩ := h outerGreater mem_cons_self (.inl rfl)
    · cases hr
      rcases haugmented with hin | ⟨c, hc, l, hl, ⟨-, hside⟩ | ⟨-, hside⟩⟩
      · exact absurd hin (by decide)
      · obtain rfl := mem_singleton.mp hc
        cases hside
      · obtain rfl := mem_singleton.mp hc
        cases hside
    · cases hr

end QueryChecker

end MiniOb
