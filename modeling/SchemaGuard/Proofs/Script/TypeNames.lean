import SchemaGuard.Proofs.Script.Names

/-!
The types that emitted guards name: parameters of the factory around, types of the schema, and types
of the script language. A name is read as a parameter if the factory declares one so, else as a type
of the schema, and only then as one of the language. It is captured if it is not read as what was
meant.
-/

set_option autoImplicit false
set_option relaxedAutoImplicit false

namespace SchemaGuard

/-- What a name is to be read as where a type is written. -/
inductive TypeName where
  | parameter (name : String)
  | defined (name : String)
  | builtin (name : String)
  deriving DecidableEq, Repr

def TypeName.text : TypeName → String
  | .parameter name | .defined name | .builtin name => name

mutual
def TypeRef.typeNames : TypeRef → List TypeName
  | .primitive .bytes => [.builtin "number"]
  | .primitive p => [.builtin p.name]
  | .named name => [.defined name]
  | .parameter name => [.parameter name]
  | .generic name args => .defined name :: TypeRef.typeNamesOfAll args
  | .sequence inner => inner.typeNames
  | .map inner => .builtin "string" :: inner.typeNames
  | .tuple elements => TypeRef.typeNamesOfAll elements
  | .nullable inner => .builtin "null" :: inner.typeNames

def TypeRef.typeNamesOfAll : List TypeRef → List TypeName
  | [] => []
  | t :: ts => t.typeNames ++ TypeRef.typeNamesOfAll ts
end

private theorem TypeRef.mem_typeNamesOfAll {ts : List TypeRef} {n : TypeName} :
    n ∈ typeNamesOfAll ts ↔ ∃ t ∈ ts, n ∈ t.typeNames := by
  induction ts with
  | nil => simp [typeNamesOfAll]
  | cons t ts ih => simp [typeNamesOfAll, ih]

def typeKeywords : List String := ["boolean", "null", "number", "string", "undefined", "unknown"]

def Schema.typeNamed? (s : Schema) (params : List String) (name : String) : Option TypeName :=
  if name ∈ params then some (.parameter name)
  else if name ∈ s.types.map Definition.name then some (.defined name)
  else if name ∈ "Record" :: typeKeywords then some (.builtin name)
  else none

section

variable {s : Schema} {params : List String} {name : String}

private theorem Schema.typeNamed?_parameter (h : name ∈ params) :
    s.typeNamed? params name = some (.parameter name) := if_pos h

private theorem Schema.typeNamed?_defined (h : name ∈ s.types.map Definition.name) :
    s.typeNamed? params name = some (.defined name) ↔ name ∉ params := by
  unfold typeNamed?
  split
  · next hparam => simp [hparam]
  · next hparam => simp [hparam]

private theorem Schema.typeNamed?_keyword (w : s.WellFormed)
    (hparams : ∀ p ∈ params, Identifier.isUsable p) (h : name ∈ typeKeywords) :
    s.typeNamed? params name = some (.builtin name) := by
  have hreserved : ∀ name ∈ typeKeywords, Identifier.isUsable name = false := by decide
  have unlike : ∀ {other}, Identifier.isUsable other = true → other ≠ name := by
    rintro _ husable rfl
    rw [hreserved _ h] at husable
    cases husable
  have hparam : name ∉ params := fun hmem => unlike (hparams name hmem) rfl
  have htype : name ∉ s.types.map Definition.name := fun hmem => by
    obtain ⟨d, hd, hname⟩ := List.mem_map.mp hmem
    exact unlike (w.typeNames d hd) hname
  rw [typeNamed?, if_neg hparam, if_neg htype, if_pos (List.mem_cons_of_mem _ h)]

private theorem Schema.typeNamed?_record : s.typeNamed? [] "Record" = some (.builtin "Record") ↔
    "Record" ∉ s.types.map Definition.name := by
  unfold typeNamed?
  split
  · next h => cases h
  · split
    · next h => simp [h]
    · next h => simpa using h

private theorem TypeRef.IsLegal.typeNamed? (w : s.WellFormed)
    (hparams : ∀ p ∈ params, Identifier.isUsable p) {t : TypeRef} (ht : t.IsLegal s params) :
    ∀ n ∈ t.typeNames, s.typeNamed? params n.text = some n := by
  have keyword : ∀ {name}, name ∈ typeKeywords → s.typeNamed? params name = some (.builtin name) :=
    Schema.typeNamed?_keyword w hparams
  have defined : ∀ {name found}, s.Names params name found →
      s.typeNamed? params name = some (.defined name) := fun ⟨hscope, d, hd, hname, _⟩ =>
    (Schema.typeNamed?_defined (hname ▸ List.mem_map_of_mem hd)).mpr hscope
  have all : ∀ {ts : List TypeRef},
      (∀ t ∈ ts, ∀ n ∈ t.typeNames, s.typeNamed? params n.text = some n) →
      ∀ n ∈ typeNamesOfAll ts, s.typeNamed? params n.text = some n := fun hts n hn => by
    obtain ⟨t, ht, hn⟩ := mem_typeNamesOfAll.mp hn
    exact hts t ht n hn
  induction t with
  | primitive p =>
    cases p <;> exact List.forall_mem_singleton.mpr (keyword (by decide))
  | named name => exact List.forall_mem_singleton.mpr (defined ht.named)
  | generic name args ih =>
    obtain ⟨hname, hargs⟩ := ht.generic
    exact List.forall_mem_cons.mpr ⟨defined hname, all fun t ht => ih t ht (hargs t ht)⟩
  | sequence inner ih => exact ih ht.sequence
  | parameter name =>
    exact List.forall_mem_singleton.mpr (Schema.typeNamed?_parameter ht.parameter)
  | map inner ih =>
    exact List.forall_mem_cons.mpr ⟨keyword (by decide), ih ht.map⟩
  | tuple elements ih => exact all fun t ht' => ih t ht' (ht.tuple t ht')
  | nullable inner ih =>
    exact List.forall_mem_cons.mpr ⟨keyword (by decide), ih ht.nullable⟩

end

namespace Script

mutual
def Expr.arrowTypes : Expr → List ArrowType
  | .bool _ | .null | .number _ | .string _ | .name _ => []
  | .index a b | .relate _ a b | .both a b | .either a b => a.arrowTypes ++ b.arrowTypes
  | .property e _ | .typeOf e | .not e | .parens e | .fill _ e => e.arrowTypes
  | .call function args => function.arrowTypes ++ Expr.allArrowTypes args
  | .arrow _ type body => type :: body.arrowTypes

def Expr.allArrowTypes : List Expr → List ArrowType
  | [] => []
  | e :: es => e.arrowTypes ++ Expr.allArrowTypes es
end

mutual
def Stmt.arrowTypes : Stmt → List ArrowType
  | .rejectIf e | .give e | .bind _ e => e.arrowTypes
  | .switch e cases => e.arrowTypes ++ Stmt.caseArrowTypes cases

def Stmt.allArrowTypes : List Stmt → List ArrowType
  | [] => []
  | s :: rest => s.arrowTypes ++ Stmt.allArrowTypes rest

def Stmt.caseArrowTypes : List (String × List Stmt) → List ArrowType
  | [] => []
  | (_, body) :: rest => Stmt.allArrowTypes body ++ Stmt.caseArrowTypes rest
end

def ArrowType.typeNames : ArrowType → List TypeName
  | .untyped => []
  | .unknown => [.builtin "unknown"]
  | .guard t => .builtin "unknown" :: t.typeNames
  | .boolean => [.builtin "unknown", .builtin "boolean"]

def Subject.typeNames : Subject → List TypeName
  | .type t => t.typeNames
  | .record => [.builtin "Record", .builtin "string", .builtin "unknown"]

def Lazy.typeNames (l : Lazy) : List TypeName :=
  .builtin "unknown" :: .builtin "undefined" :: l.type.typeNames

/-- The names of types in an item, those that it declares as its parameters apart. -/
def Item.typeNames : Item → List TypeName
  | .guard _ _ _ subject body => .builtin "unknown" :: subject.typeNames
      ++ (Stmt.allArrowTypes body).flatMap ArrowType.typeNames
  | .factory _ _ type params lazies body => .builtin "unknown" :: .defined type
      :: params.map .parameter ++ lazies.flatMap Lazy.typeNames
      ++ (Stmt.allArrowTypes body).flatMap ArrowType.typeNames
  | .constant _ init => init.arrowTypes.flatMap ArrowType.typeNames

def Item.typeParams : Item → List String
  | .factory _ _ _ params _ _ => params
  | .guard .. | .constant .. => []

/-- A name in the item is read as another type than the one meant. -/
def Item.Captures (s : Schema) (item : Item) (n : TypeName) : Prop :=
  n ∈ item.typeNames ∧ s.typeNamed? item.typeParams n.text ≠ some n

private def AreLegal (s : Schema) (params : List String) (types : List ArrowType) : Prop :=
  ∀ t, .guard t ∈ types → t.IsLegal s params

section

variable {s : Schema} {params : List String} {types types' : List ArrowType}

@[simp] private theorem areLegal_nil : AreLegal s params [] := by simp [AreLegal]

@[simp] private theorem areLegal_append :
    AreLegal s params (types ++ types') ↔ AreLegal s params types ∧ AreLegal s params types' := by
  simp [AreLegal, or_imp, forall_and]

@[simp] private theorem areLegal_cons {type : ArrowType} : AreLegal s params (type :: types) ↔
    (∀ t, type = .guard t → t.IsLegal s params) ∧ AreLegal s params types := by
  simp [AreLegal, or_imp, forall_and, eq_comm]

end

private theorem allArrowTypes_append (a b : List Stmt) :
    Stmt.allArrowTypes (a ++ b) = Stmt.allArrowTypes a ++ Stmt.allArrowTypes b := by
  induction a with
  | nil => rfl
  | cons s a ih => simp [Stmt.allArrowTypes, ih]

private theorem arrowTypes_any (e : Expr) (es : List Expr) :
    (Expr.any e es).arrowTypes = e.arrowTypes ++ Expr.allArrowTypes es := by
  induction es generalizing e with
  | nil => simp [Expr.any, Expr.allArrowTypes]
  | cons f fs ih => simp [Expr.any, ih, Expr.arrowTypes, Expr.allArrowTypes]

private theorem arrowTypes_isOneOf (x : String) (names : List String) :
    (Expr.isOneOf (.name x) names).arrowTypes = [] := by
  cases names with
  | nil => rfl
  | cons s rest =>
    have hrest : Expr.allArrowTypes (rest.map fun s => Expr.equals (.name x) (.string s)) = [] := by
      induction rest with
      | nil => rfl
      | cons s rest ih => exact ih
    rw [Expr.isOneOf, arrowTypes_any, hrest]
    rfl

section

variable {c : Context} {params : List String} {constants lazies : List Binding}

mutual
private theorem IsChecker.areLegal {t : TypeRef} {e : Expr} : IsChecker c constants lazies t e →
    t.IsLegal c.schema params → AreLegal c.schema params e.arrowTypes
  | .primitive, _ | .parameter _, _ | .monomorphic .., _ | .self .., _ | .constant .., _ => by
    simp [Expr.arrowTypes, Context.guardName]
  | .fill _ _ _ _ hes, ht => by simpa [Expr.arrowTypes] using hes.areLegal ht.generic.2
  | .function _ _ hbody, ht => by
    simpa [Expr.arrowTypes, ht] using hbody.areLegal ht (by simp [Expr.arrowTypes])

private theorem AreCheckers.areLegal {ts : List TypeRef} {es : List Expr} :
    AreCheckers c constants lazies ts es → (∀ t ∈ ts, t.IsLegal c.schema params) →
    AreLegal c.schema params (Expr.allArrowTypes es)
  | .nil, _ => by simp [Expr.allArrowTypes]
  | .cons he hes, hts => by
    obtain ⟨ht, hts⟩ := List.forall_mem_cons.mp hts
    exact areLegal_append.mpr ⟨he.areLegal ht, hes.areLegal hts⟩

private theorem IsCondition.areLegal {t : TypeRef} {e condition : Expr} :
    IsCondition c constants lazies t e condition → t.IsLegal c.schema params →
    AreLegal c.schema params e.arrowTypes → AreLegal c.schema params condition.arrowTypes
  | .primitive _, _, he => by simpa [Expr.equals, Expr.arrowTypes] using he
  | .checker _ hcheck, ht, he => by
    simpa [Expr.arrowTypes, Expr.allArrowTypes, he] using hcheck.areLegal ht
  | .sequence _ hbody, ht, he => by
    have hbody := hbody.areLegal ht.sequence (by simp [Expr.arrowTypes])
    simpa [Expr.isArray, Expr.every, Expr.arrowTypes, Expr.allArrowTypes, he] using hbody
  | .map _ hbody, ht, he => by
    have hbody := hbody.areLegal ht.map (by simp [Expr.arrowTypes])
    simpa [Context.isRecord, Context.guardName, Expr.valuesOf, Expr.every, Expr.arrowTypes,
      Expr.allArrowTypes, he] using hbody
  | .tuple hbody, ht, he => by
    refine hbody.areLegal ht.tuple he ?_
    simpa [Expr.isArray, Expr.equals, Expr.arrowTypes, Expr.allArrowTypes] using he
  | .nullable hbody, ht, he => by
    simpa [Expr.equals, Expr.arrowTypes, he] using hbody.areLegal ht.nullable he

private theorem IsTuple.areLegal {e found body : Expr} {i : Nat} {ts : List TypeRef} :
    IsTuple c constants lazies e i found ts body → (∀ t ∈ ts, t.IsLegal c.schema params) →
    AreLegal c.schema params e.arrowTypes → AreLegal c.schema params found.arrowTypes →
    AreLegal c.schema params body.arrowTypes
  | .nil, _, _, hfound => hfound
  | .cons hcondition hbody, hts, he, hfound => by
    obtain ⟨ht, hts⟩ := List.forall_mem_cons.mp hts
    have hcondition := hcondition.areLegal ht (by simpa [Expr.arrowTypes] using he)
    exact hbody.areLegal hts he (areLegal_append.mpr ⟨hfound, hcondition⟩)
end

private theorem areLegal_recordCheck (x : String) :
    AreLegal c.schema params (Stmt.allArrowTypes [recordCheck c (.name x)]) := by
  simp [recordCheck, Context.isRecord, Context.guardName, Stmt.allArrowTypes, Stmt.arrowTypes,
    Expr.arrowTypes, Expr.allArrowTypes]

private theorem areLegal_closedKeys (s : Schema) (shape : ShapePolicy) (x : String)
    (allowed : List String) : AreLegal s params (Stmt.allArrowTypes (match shape with
      | .closed => [closedKeys (.name x) allowed]
      | .opened => [])) := by
  cases shape with
  | opened => simp [Stmt.allArrowTypes]
  | closed =>
    cases allowed with
    | nil =>
      simp [closedKeys, Expr.keysOf, Stmt.allArrowTypes, Stmt.arrowTypes, Expr.arrowTypes,
        Expr.allArrowTypes]
    | cons key rest =>
      simp [closedKeys, Expr.keysOf, Expr.every, arrowTypes_isOneOf, Stmt.allArrowTypes,
        Stmt.arrowTypes, Expr.arrowTypes, Expr.allArrowTypes]

private theorem IsFieldCheck.areLegal {x : String} {f : Field} {s : Stmt}
    (h : IsFieldCheck c constants lazies (.name x) f s) (hf : f.type.IsLegal c.schema params) :
    AreLegal c.schema params s.arrowTypes := by
  obtain ⟨condition, hcondition, rfl⟩ := h
  have hcondition := hcondition.areLegal hf (by simp [Expr.arrowTypes])
  cases hrequired : f.required <;>
    simpa [Stmt.arrowTypes, Expr.owns, Expr.arrowTypes, Expr.allArrowTypes] using hcondition

private theorem IsObjectBody.areLegal {x : String} {fields : List Field} {body : List Stmt}
    (h : IsObjectBody c constants lazies x fields body)
    (hfields : ∀ f ∈ fields, f.type.IsLegal c.schema params) :
    AreLegal c.schema params (Stmt.allArrowTypes body) := by
  obtain ⟨checks, hchecks, rfl⟩ := h
  have hlegal : AreLegal c.schema params (Stmt.allArrowTypes checks) := by
    induction hchecks with
    | nil => simp [Stmt.allArrowTypes]
    | cons hs _ ih =>
      obtain ⟨hf, hfields⟩ := List.forall_mem_cons.mp hfields
      exact areLegal_append.mpr ⟨hs.areLegal hf, ih hfields⟩
  have hlast : AreLegal c.schema params (Stmt.allArrowTypes [.give (.bool true)]) := by
    simp [Stmt.allArrowTypes, Stmt.arrowTypes, Expr.arrowTypes]
  rw [← List.singleton_append, allArrowTypes_append, allArrowTypes_append, allArrowTypes_append]
  simp only [areLegal_append]
  exact ⟨⟨⟨areLegal_recordCheck x, areLegal_closedKeys c.schema _ x _⟩, hlegal⟩, hlast⟩

private theorem areLegal_cases {variants : List Variant} {cases : List (String × List Stmt)}
    (h : List.Forall₂ (fun v case => case.1 = v.tag ∧
      IsObjectBody c constants lazies payloadKey v.fields case.2) variants cases)
    (hvariants : ∀ v ∈ variants, ∀ f ∈ v.fields, f.type.IsLegal c.schema params) :
    AreLegal c.schema params (Stmt.caseArrowTypes cases) := by
  induction h with
  | nil => simp [Stmt.caseArrowTypes]
  | cons hcase _ ih =>
    obtain ⟨hv, hvariants⟩ := List.forall_mem_cons.mp hvariants
    exact areLegal_append.mpr ⟨hcase.2.areLegal hv, ih hvariants⟩

private theorem IsBody.areLegal {d : Definition} {body : List Stmt}
    (h : IsBody c constants lazies d body) (hd : ∀ t ∈ d.references, t.IsLegal c.schema params) :
    AreLegal c.schema params (Stmt.allArrowTypes body) := by
  cases h with
  | struct hbody => exact hbody.areLegal (Definition.forall_references_struct.mp hd)
  | @union d cases hcases =>
    have hlegal := areLegal_cases hcases (Definition.forall_references_union.mp hd)
    rw [← List.singleton_append, allArrowTypes_append, allArrowTypes_append]
    simp only [areLegal_append]
    refine ⟨⟨areLegal_recordCheck subjectName, areLegal_closedKeys c.schema _ subjectName _⟩, ?_⟩
    simpa [Stmt.allArrowTypes, Stmt.arrowTypes, Expr.arrowTypes] using hlegal
  | enum => simp [Stmt.allArrowTypes, Stmt.arrowTypes, arrowTypes_isOneOf]
  | @«alias» d condition hcondition =>
    have htarget := hd d.target (by simp [Definition.references])
    have hlegal := hcondition.areLegal htarget (by simp [Expr.arrowTypes])
    simpa [Stmt.allArrowTypes, Stmt.arrowTypes] using hlegal

end

/-- The type that a factory is for, with its parameters. -/
def Item.type? : Item → Option (String × List String)
  | .factory _ _ type params _ _ => some (type, params)
  | .guard .. | .constant .. => none

section

variable {s : Schema} {options : Options} {params : List String}

private theorem AreLegal.typeNamed? (w : s.WellFormed)
    (hparams : ∀ p ∈ params, Identifier.isUsable p)
    {types : List ArrowType} (h : AreLegal s params types) :
    ∀ n ∈ types.flatMap ArrowType.typeNames, s.typeNamed? params n.text = some n := by
  have keyword : ∀ {name}, name ∈ typeKeywords → s.typeNamed? params name = some (.builtin name) :=
    Schema.typeNamed?_keyword w hparams
  intro n hn
  obtain ⟨type, htype, hn⟩ := List.mem_flatMap.mp hn
  cases type with
  | untyped => cases hn
  | unknown =>
    obtain rfl := List.mem_singleton.mp hn
    exact keyword (by decide)
  | guard t =>
    rcases List.mem_cons.mp hn with rfl | hn
    · exact keyword (by decide)
    · exact (h t htype).typeNamed? w hparams n hn
  | boolean => rcases List.mem_pair.mp hn with rfl | rfl <;> exact keyword (by decide)

private theorem typeNames_prelude (options : Options) :
    (prelude options).map (fun item => (item.typeParams, item.typeNames)) =
      [([], [.builtin "unknown", .builtin "Record", .builtin "string", .builtin "unknown"]),
        ([], [.builtin "unknown", .builtin "boolean"]),
        ([], [.builtin "unknown", .builtin "number"]),
        ([], [.builtin "unknown", .builtin "string"]),
        ([], [.builtin "unknown", .builtin "number"])] := rfl

private theorem captured_of_mem_prelude (w : s.WellFormed) {item : Item}
    (hitem : item ∈ prelude options) {n : TypeName} (h : item.Captures s n) :
    n = .builtin "Record" ∧ "Record" ∈ s.types.map Definition.name := by
  have hlisted : ∀ names ∈ (prelude options).map fun item => (item.typeParams, item.typeNames),
      names.1 = [] ∧ ∀ n ∈ names.2, n = .builtin "Record" ∨ n ∈ typeKeywords.map .builtin := by
    rw [typeNames_prelude]
    decide
  obtain ⟨hparams, hnames⟩ : item.typeParams = [] ∧ ∀ n ∈ item.typeNames, _ :=
    hlisted _ (List.mem_map_of_mem hitem)
  obtain ⟨hn, hread⟩ := h
  rw [hparams] at hread
  rcases hnames n hn with rfl | hkeyword
  · exact ⟨rfl, Decidable.not_not.mp (mt Schema.typeNamed?_record.mpr hread)⟩
  · obtain ⟨name, hname, rfl⟩ := List.mem_map.mp hkeyword
    exact absurd (Schema.typeNamed?_keyword w (by simp) hname) hread

private theorem IsItem.captured (w : s.WellFormed) {constants : List Binding}
    {cells : List String} {d : Definition} (hd : d ∈ s.types) {item : Item}
    (hitem : IsItem s options constants cells d item) {n : TypeName} (h : item.Captures s n) :
    item.type? = some (d.name, d.params) ∧ n = .defined d.name ∧ d.name ∈ d.params := by
  have hparams := w.paramNames d hd
  have hname : d.name ∈ s.types.map Definition.name := List.mem_map_of_mem hd
  have legal : ∀ t ∈ d.references, t.IsLegal s d.params := w.references d hd
  have keyword : ∀ {name}, name ∈ typeKeywords →
      s.typeNamed? d.params name = some (.builtin name) := Schema.typeNamed?_keyword w hparams
  obtain ⟨hmem, hread⟩ := h
  cases hitem with
  | guard hgeneric hbody =>
    have hnone : d.params = [] := by simpa [Definition.isGeneric] using hgeneric
    have hbodyNames := (hbody.areLegal legal).typeNamed? w hparams n
    rw [hnone] at keyword hbodyNames
    refine absurd ?_ hread
    rcases List.mem_append.mp hmem with hmem | hmem
    · rcases List.mem_pair.mp hmem with rfl | rfl
      · exact keyword (by decide)
      · exact (Schema.typeNamed?_defined hname).mpr List.not_mem_nil
    · exact hbodyNames hmem
  | @factory _ lazies body hgeneric _ _ hsites hbody =>
    have hlazies : ∀ l ∈ lazies.map fun b => Lazy.mk b.name b.site, ∀ n ∈ l.typeNames,
        s.typeNamed? d.params n.text = some n := List.forall_mem_map.mpr fun b hb =>
      List.forall_mem_cons.mpr ⟨keyword (by decide), List.forall_mem_cons.mpr
        ⟨keyword (by decide), (hsites b hb).typeNamed? w hparams⟩⟩
    -- All but the subject are read as what they are.
    have hrest : n = .defined d.name ∨ s.typeNamed? d.params n.text = some n := by
      rcases List.mem_append.mp hmem with hmem | hmem
      · rcases List.mem_append.mp hmem with hmem | hmem
        · rcases List.mem_cons.mp hmem with rfl | hmem
          · exact .inr (keyword (by decide))
          · rcases List.mem_cons.mp hmem with rfl | hmem
            · exact .inl rfl
            · obtain ⟨p, hp, rfl⟩ := List.mem_map.mp hmem
              exact .inr (Schema.typeNamed?_parameter hp)
        · obtain ⟨l, hl, hn⟩ := List.mem_flatMap.mp hmem
          exact .inr (hlazies l hl n hn)
      · exact .inr ((hbody.areLegal legal).typeNamed? w hparams n hmem)
    obtain rfl := hrest.resolve_right hread
    exact ⟨rfl, rfl, Decidable.not_not.mp (mt (Schema.typeNamed?_defined hname).mpr hread)⟩

private theorem Item.captures_of_type? {item : Item} {type : String}
    (h : item.type? = some (type, params)) (hparam : type ∈ params) :
    item.Captures s (.defined type) := by
  cases item with
  | guard | constant => cases h
  | factory exported name type params lazies body =>
    cases h
    refine ⟨by simp [Item.typeNames], ?_⟩
    change s.typeNamed? params type ≠ some (.defined type)
    rw [Schema.typeNamed?_parameter hparam]
    simp

private theorem Item.captures_record {item : Item} (hitem : item ∈ prelude options)
    (hn : .builtin "Record" ∈ item.typeNames) (h : "Record" ∈ s.types.map Definition.name) :
    item.Captures s (.builtin "Record") := by
  have hparams : ∀ params ∈ (prelude options).map Item.typeParams, params = [] := by
    simp [prelude, Item.typeParams]
  refine ⟨hn, ?_⟩
  rw [hparams _ (List.mem_map_of_mem hitem)]
  exact fun hread => Schema.typeNamed?_record.mp hread h

end

section

variable {r : ResolvedSchema} {options : Options}

private theorem mem_prelude_or_type_of_captures {item : Item}
    (hitem : item ∈ guardModule r.schema options) {n : TypeName} (h : item.Captures r.schema n) :
    (item ∈ prelude options ∧ n = .builtin "Record" ∧
      "Record" ∈ r.schema.types.map Definition.name) ∨
    ∃ d ∈ r.types, item.type? = some (d.name, d.params) ∧ n = .defined d.name ∧
      d.name ∈ d.params := by
  obtain ⟨items, constants, cells, hemitted, hmodule⟩ :=
    guardModule_eq r.schema r.wellFormed options
  rw [hmodule, List.append_assoc] at hitem
  rcases List.mem_append.mp hitem with hitem | hitem
  · exact .inl ⟨hitem, captured_of_mem_prelude r.wellFormed hitem h⟩
  · rcases List.mem_append.mp hitem with hitem | hitem
    · obtain ⟨d, hd, hof⟩ := exists_left hemitted.items.flip hitem
      exact .inr ⟨d, hd, hof.captured r.wellFormed hd h⟩
    · obtain ⟨b, hb, rfl⟩ := List.mem_map.mp hitem
      obtain ⟨before, after, hsplit⟩ := List.append_of_mem hb
      obtain ⟨name, args, d, es, hsite, _, _, _, hinit, hes⟩ :=
        hemitted.inits before b after hsplit
      have hargs := (hsite ▸ hemitted.sites b hb).generic.2
      have hlegal : AreLegal r.schema [] b.init.arrowTypes := by
        rw [hinit]
        simpa [Expr.arrowTypes] using hes.areLegal hargs
      exact absurd (hlegal.typeNamed? r.wellFormed (by simp) n h.1) h.2

private theorem exists_type? (options : Options) {d : Definition} (hd : d ∈ r.types)
    (hgeneric : d.isGeneric = true) :
    ∃ item ∈ guardModule r.schema options, item.type? = some (d.name, d.params) := by
  obtain ⟨items, constants, cells, hemitted, hmodule⟩ :=
    guardModule_eq r.schema r.wellFormed options
  obtain ⟨item, hitem, hof⟩ := exists_left hemitted.items hd
  refine ⟨item, by simp [hmodule, hitem], ?_⟩
  cases hof with
  | guard hmonomorphic => simp [hgeneric] at hmonomorphic
  | factory => rfl

private theorem exists_recordGuard (r : ResolvedSchema) (options : Options) :
    ∃ item ∈ guardModule r.schema options,
      item ∈ prelude options ∧ .builtin "Record" ∈ item.typeNames := by
  obtain ⟨items, constants, cells, _, hmodule⟩ := guardModule_eq r.schema r.wellFormed options
  rw [hmodule]
  exact ⟨_, List.mem_cons_self, List.mem_cons_self, by simp [Item.typeNames, Subject.typeNames]⟩

end

/-- Names of types that the module of a schema has captured are `Record`, where the prelude tells
records by it and a type of the schema has this name, and in a factory the name of its own type,
where a parameter of the type has the same name. No other name of a type is captured. -/
theorem guardModule_captures_iff (r : ResolvedSchema) (options : Options) :
    (∀ item ∈ guardModule r.schema options, ∀ n, item.Captures r.schema n ↔
      (item ∈ prelude options ∧ n ∈ item.typeNames ∧ n = .builtin "Record" ∧
        ∃ d ∈ r.types, d.name = "Record") ∨
      ∃ d ∈ r.types, item.type? = some (d.name, d.params) ∧ n = .defined d.name ∧
        d.name ∈ d.params) ∧
    ((∀ item ∈ guardModule r.schema options, ∀ n, ¬ item.Captures r.schema n) ↔
      ∀ d ∈ r.types, d.name ≠ "Record" ∧ d.name ∉ d.params) := by
  refine ⟨fun item hitem n => ⟨fun h => ?_, ?_⟩, fun h d hd => ⟨fun hrecord => ?_, fun hown => ?_⟩,
    fun h item hitem n hcaptures => ?_⟩
  · exact (mem_prelude_or_type_of_captures hitem h).imp
      (fun ⟨hprelude, hn, hrecord⟩ => ⟨hprelude, h.1, hn, List.mem_map.mp hrecord⟩) id
  · rintro (⟨hprelude, hmem, rfl, hrecord⟩ | ⟨d, _, htype, rfl, hown⟩)
    · exact Item.captures_record hprelude hmem (List.mem_map.mpr hrecord)
    · exact Item.captures_of_type? htype hown
  · obtain ⟨item, hitem, hprelude, hmem⟩ := exists_recordGuard r options
    exact h item hitem _ (Item.captures_record hprelude hmem (hrecord ▸ List.mem_map_of_mem hd))
  · have hgeneric : d.isGeneric = true := by
      simpa [Definition.isGeneric] using List.ne_nil_of_mem hown
    obtain ⟨item, hitem, htype⟩ := exists_type? options hd hgeneric
    exact h item hitem _ (Item.captures_of_type? htype hown)
  · rcases mem_prelude_or_type_of_captures hitem hcaptures with
      ⟨_, _, hrecord⟩ | ⟨d, hd, _, _, hown⟩
    · obtain ⟨d, hd, hname⟩ := List.mem_map.mp hrecord
      exact (h d hd).1 hname
    · exact (h d hd).2 hown

/-- A type with a parameter named like itself, beside a type named like that of records. -/
def collection : ResolvedSchema where
  schema.types := [.struct ⟨"Crate", ["Crate"], [⟨"content", .parameter "Crate", true⟩]⟩,
    .enum ⟨"Record", ["single", "album"]⟩]
  noErrors := by decide

def nesting : ResolvedSchema where
  schema.types := [.struct ⟨"Crate", ["T"], [⟨"content", .parameter "T", true⟩,
    ⟨"inner", .nullable (.generic "Crate" [.sequence (.parameter "T")]), false⟩]⟩]
  noErrors := by decide

theorem guardModule_captures_iff_collection :
    (∃ item ∈ guardModule collection.schema {},
      item.Captures collection.schema (.defined "Crate")) ∧
    ∀ item ∈ guardModule nesting.schema {}, ∀ n, ¬ item.Captures nesting.schema n := by
  constructor
  · obtain ⟨item, hitem, htype⟩ := exists_type? (r := collection) {} List.mem_cons_self rfl
    exact ⟨item, hitem, ((guardModule_captures_iff collection {}).1 item hitem _).mpr
      (.inr ⟨_, List.mem_cons_self, htype, rfl, by decide⟩)⟩
  · exact (guardModule_captures_iff nesting {}).2.mpr (by decide)

/-- In the module of the collection the guard that the factory makes finds its subject to be a
`Crate<Crate>`, where `Crate` is read as the parameter, and the guard of records finds its subject
to be a `Record`, which is read as the enum. -/
theorem guardModule_types_captured :
    (∃ item ∈ guardModule collection.schema {}, item.type? = some ("Crate", ["Crate"]) ∧
      item.Captures collection.schema (.defined "Crate")) ∧
    ∃ item ∈ guardModule collection.schema {}, item.name = "isa_record" ∧
      item.Captures collection.schema (.builtin "Record") := by
  constructor
  · obtain ⟨item, hitem, htype⟩ := exists_type? (r := collection) {} List.mem_cons_self rfl
    exact ⟨item, hitem, htype, Item.captures_of_type? htype (by decide)⟩
  · refine ⟨_, List.mem_of_getElem? (i := 0) rfl, rfl, ?_⟩
    exact Item.captures_record List.mem_cons_self (by decide) (by decide)

end Script

end SchemaGuard
