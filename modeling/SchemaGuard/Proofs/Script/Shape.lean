import SchemaGuard.Guard.Emitter
import SchemaGuard.Proofs.Schema.References
import SchemaGuard.Proofs.Script.Module

/-!
The shape of emitted guards, apart from the order in which they are emitted: which expressions are
checkers of a reference and conditions on a subject, which statements are the body of a definition,
and what a module made of them is. Variables may have any names that nothing else has.
-/

set_option autoImplicit false
set_option relaxedAutoImplicit false

namespace SchemaGuard

def TypeRef.isStructural : TypeRef → Bool
  | .sequence _ | .map _ | .tuple _ | .nullable _ => true
  | _ => false

/-- The parameters of a scope themselves are no closed arguments. -/
theorem Scope.anyMentionsParameter {scope : Scope} {args : List TypeRef} (hargs : args ≠ [])
    (h : scope.isIdentity args) : TypeRef.anyMentionsParameter args = true := by
  obtain rfl := eq_of_beq h
  obtain ⟨p, params, hparams⟩ := List.exists_cons_of_ne_nil (by simpa using hargs)
  rw [hparams]
  rfl

namespace Script

/-- The name of a generated variable. -/
def IsVariable (x : String) : Prop := ∃ n : Nat, x = "x" ++ toString n

theorem IsVariable.head {x : String} (h : IsVariable x) : x.toList.head? = some 'x' := by
  obtain ⟨n, rfl⟩ := h
  rw [String.toList_append]
  rfl

section

variable (c : Context) (constants lazies : List Binding)

mutual
/-- The expression is a checker of the reference, where the instantiations in `constants` and
`lazies` are bound. -/
inductive IsChecker : TypeRef → Expr → Prop
  | primitive {p : Primitive} : IsChecker (.primitive p) (c.guardName p.name)
  | parameter {name : String} {i : Nat} : c.scope.index? name = some i →
    IsChecker (.parameter name) (.name (checkerName name))
  | monomorphic {t : TypeRef} {name : String} {d : Definition} : t.target? = some (name, []) →
    c.schema.monomorphic? name = some d → IsChecker t (c.guardName d.name)
  | self {name : String} {args : List TypeRef} : args ≠ [] → c.scope.owner = some name →
    c.scope.isIdentity args → IsChecker (.generic name args) (.name selfName)
  | constant {name : String} {args : List TypeRef} {b : Binding} : args ≠ [] →
    TypeRef.anyMentionsParameter args = false → b ∈ constants → b.site = .generic name args →
    IsChecker (.generic name args) (.name b.name)
  | fill {name : String} {args : List TypeRef} {d : Definition} {b : Binding} {es : List Expr} :
    TypeRef.anyMentionsParameter args = true → c.schema.generic? name args = some d →
    b ∈ lazies → b.site = .generic name args → AreCheckers args es →
    IsChecker (.generic name args)
      (.parens (.fill b.name (.call (.name (c.options.factoryName d.name)) es)))
  | function {t : TypeRef} {x : String} {body : Expr} : t.isStructural → IsVariable x →
    IsCondition t (.name x) body → IsChecker t (.parens (.arrow x (.guard t) body))

inductive AreCheckers : List TypeRef → List Expr → Prop
  | nil : AreCheckers [] []
  | cons {t : TypeRef} {e : Expr} {ts : List TypeRef} {es : List Expr} : IsChecker t e →
    AreCheckers ts es → AreCheckers (t :: ts) (e :: es)

/-- The second expression is the condition that the first one, the subject, has the type. -/
inductive IsCondition : TypeRef → Expr → Expr → Prop
  | primitive {p : Primitive} {e : Expr} : p ≠ .bytes →
    IsCondition (.primitive p) e (.equals (.typeOf e) (.string p.name))
  | checker {t : TypeRef} {e check : Expr} : t.isStructural = false → IsChecker t check →
    IsCondition t e (.call check [e])
  | sequence {inner : TypeRef} {e body : Expr} {x : String} : IsVariable x →
    IsCondition inner (.name x) body →
    IsCondition (.sequence inner) e (.both e.isArray (e.every x .unknown body))
  | map {inner : TypeRef} {e body : Expr} {x : String} : IsVariable x →
    IsCondition inner (.name x) body →
    IsCondition (.map inner) e (.both (c.isRecord e) (e.valuesOf.every x .unknown body))
  | tuple {elements : List TypeRef} {e body : Expr} :
    IsTuple e 0 (.both e.isArray (.equals (.property e "length") (.number elements.length)))
      elements body →
    IsCondition (.tuple elements) e body
  | nullable {inner : TypeRef} {e body : Expr} : IsCondition inner e body →
    IsCondition (.nullable inner) e (.parens (.either (.equals e .null) body))

/-- The condition `found`, with those on the items of `e` from a number on. -/
inductive IsTuple : Expr → Nat → Expr → List TypeRef → Expr → Prop
  | nil {e found : Expr} {i : Nat} : IsTuple e i found [] found
  | cons {e found condition body : Expr} {i : Nat} {t : TypeRef} {ts : List TypeRef} :
    IsCondition t (.index e (.number i)) condition →
    IsTuple e (i + 1) (.both found condition) ts body → IsTuple e i found (t :: ts) body
end

def IsFieldCheck (e : Expr) (f : Field) (s : Stmt) : Prop :=
  ∃ condition, IsCondition c constants lazies f.type (.index e (.string f.name)) condition ∧
    s = .rejectIf
      (if f.required then .either (.not (.owns e (.string f.name))) (.not (.parens condition))
      else .both (.owns e (.string f.name)) (.not (.parens condition)))

def IsObjectBody (x : String) (fields : List Field) (body : List Stmt) : Prop :=
  ∃ checks, List.Forall₂ (IsFieldCheck c constants lazies (.name x)) fields checks ∧
    body = recordCheck c (.name x)
      :: (match c.options.shape with
        | .closed => [closedKeys (.name x) (fields.map Field.name)]
        | .opened => [])
      ++ checks ++ [.give (.bool true)]

/-- The statements accept exactly the values of the definition. -/
inductive IsBody : Definition → List Stmt → Prop
  | struct {d : Struct} {body : List Stmt} :
    IsObjectBody c constants lazies subjectName d.fields body → IsBody (.struct d) body
  | union {d : Union} {cases : List (String × List Stmt)} :
    List.Forall₂ (fun v case => case.1 = v.tag ∧
      IsObjectBody c constants lazies payloadKey v.fields case.2) d.variants cases →
    IsBody (.union d) (recordCheck c (.name subjectName)
      :: (match c.options.shape with
        | .closed => [closedKeys (.name subjectName) [tagKey, payloadKey]]
        | .opened => [])
      ++ [.bind payloadKey (.index (.name subjectName) (.string payloadKey)),
        .switch (.index (.name subjectName) (.string tagKey)) cases])
  | enum {d : Enum} : IsBody (.enum d) [.give (.isOneOf (.name subjectName) d.members)]
  | alias {d : Alias} {condition : Expr} :
    IsCondition c constants lazies d.target (.name subjectName) condition →
    IsBody (.alias d) [.give condition]

end

variable {c : Context} {constants lazies : List Binding}

def Context.outermost (c : Context) : Context := { c with scope := Scope.empty }

mutual
private theorem IsChecker.closed {t : TypeRef} {e : Expr} : IsChecker c constants lazies t e →
    t.mentionsParameter = false → IsChecker c.outermost constants [] t e
  | .primitive, _ => .primitive
  | .parameter _, ht => by simp [TypeRef.mentionsParameter] at ht
  | .monomorphic htarget hd, _ => .monomorphic htarget hd
  | .self hargs _ hidentity, ht => by
    rw [TypeRef.mentionsParameter, Scope.anyMentionsParameter hargs hidentity] at ht
    cases ht
  | .constant hargs hclosed hmem hsite, _ => .constant hargs hclosed hmem hsite
  | .fill hopen _ _ _ _, ht => by
    rw [TypeRef.mentionsParameter, hopen] at ht
    cases ht
  | .function hstructural hx hbody, ht => .function hstructural hx (hbody.closed ht)

theorem AreCheckers.closed {ts : List TypeRef} {es : List Expr} :
    AreCheckers c constants lazies ts es → TypeRef.anyMentionsParameter ts = false →
    AreCheckers c.outermost constants [] ts es
  | .nil, _ => .nil
  | .cons he hes, hts => by
    obtain ⟨ht, hts⟩ := Bool.or_eq_false_iff.mp hts
    exact .cons (he.closed ht) (hes.closed hts)

private theorem IsCondition.closed {t : TypeRef} {e condition : Expr} :
    IsCondition c constants lazies t e condition → t.mentionsParameter = false →
    IsCondition c.outermost constants [] t e condition
  | .primitive hp, _ => .primitive hp
  | .checker hstructural hcheck, ht => .checker hstructural (hcheck.closed ht)
  | .sequence hx hbody, ht => .sequence hx (hbody.closed ht)
  | .map hx hbody, ht => .map hx (hbody.closed ht)
  | .tuple hbody, ht => .tuple (hbody.closed ht)
  | .nullable hbody, ht => .nullable (hbody.closed ht)

private theorem IsTuple.closed {e found body : Expr} {i : Nat} {ts : List TypeRef} :
    IsTuple c constants lazies e i found ts body → TypeRef.anyMentionsParameter ts = false →
    IsTuple c.outermost constants [] e i found ts body
  | .nil, _ => .nil
  | .cons hcondition hbody, hts => by
    obtain ⟨ht, hts⟩ := Bool.or_eq_false_iff.mp hts
    exact .cons (hcondition.closed ht) (hbody.closed hts)
end

mutual
private theorem IsChecker.grouped {t : TypeRef} {e : Expr} :
    IsChecker c constants lazies t e → e.level = 6 ∧ e.grouped = true
  | .primitive | .parameter _ | .monomorphic .. | .self .. | .constant .. => ⟨rfl, rfl⟩
  | .fill _ _ _ _ hes => ⟨rfl, by simp [Expr.grouped, hes.grouped]⟩
  | .function _ _ hbody => ⟨rfl, (hbody.grouped rfl rfl).2⟩

theorem AreCheckers.grouped {ts : List TypeRef} {es : List Expr} :
    AreCheckers c constants lazies ts es → Expr.allGrouped es = true
  | .nil => rfl
  | .cons he hes => by
    rw [Expr.allGrouped, he.grouped.2, hes.grouped]
    rfl

private theorem IsCondition.grouped {t : TypeRef} {e condition : Expr} :
    IsCondition c constants lazies t e condition → e.level = 6 → e.grouped = true →
    2 ≤ condition.level ∧ condition.grouped = true
  | .primitive _, hlevel, he => by
    simp [Expr.equals, Expr.grouped, hlevel, he]
  | .checker _ hcheck, hlevel, he => by
    obtain ⟨hcheckLevel, hcheck⟩ := hcheck.grouped
    simp [Expr.grouped, Expr.allGrouped, hcheckLevel, hcheck, he]
  | .sequence _ hbody, hlevel, he => by
    have hbody := (hbody.grouped rfl rfl).2
    simp [Expr.isArray, Expr.every, Expr.grouped, Expr.allGrouped, hlevel, he, hbody]
  | .map _ hbody, hlevel, he => by
    have hbody := (hbody.grouped rfl rfl).2
    simp [Context.isRecord, Context.guardName, Expr.valuesOf, Expr.every, Expr.grouped,
      Expr.allGrouped, he, hbody]
  | .tuple hbody, hlevel, he => by
    refine hbody.grouped hlevel he ?_ ?_
    · simp
    · simp [Expr.isArray, Expr.equals, Expr.grouped, Expr.allGrouped, hlevel, he]
  | .nullable hbody, hlevel, he => by
    obtain ⟨hbodyLevel, hbody⟩ := hbody.grouped hlevel he
    simp [Expr.equals, Expr.grouped, hlevel, he, hbodyLevel, hbody]

private theorem IsTuple.grouped {e found body : Expr} {i : Nat} {ts : List TypeRef} :
    IsTuple c constants lazies e i found ts body → e.level = 6 → e.grouped = true →
    2 ≤ found.level → found.grouped = true → 2 ≤ body.level ∧ body.grouped = true
  | .nil, _, _, hlevel, hfound => ⟨hlevel, hfound⟩
  | .cons hcondition hbody, hlevel, he, hfoundLevel, hfound => by
    obtain ⟨hconditionLevel, hcondition⟩ :=
      hcondition.grouped rfl (by simp [Expr.grouped, hlevel, he])
    refine hbody.grouped hlevel he (Nat.le_refl 2) ?_
    simp [Expr.grouped, hfoundLevel, hfound, hconditionLevel, hcondition]
end

private theorem grouped_any : ∀ (es : List Expr) (e : Expr), 1 ≤ e.level → e.grouped = true →
    (∀ f ∈ es, 2 ≤ f.level ∧ f.grouped = true) →
    1 ≤ (Expr.any e es).level ∧ (Expr.any e es).grouped = true
  | [], _, hlevel, he, _ => ⟨hlevel, he⟩
  | f :: fs, e, hlevel, he, hes => by
    obtain ⟨hf, hgrouped⟩ := hes f List.mem_cons_self
    refine grouped_any fs (.either e f) (Nat.le_refl 1) ?_ fun g hg =>
      hes g (List.mem_cons_of_mem f hg)
    simp [Expr.grouped, hlevel, he, hf, hgrouped]

private theorem grouped_isOneOf (x : String) (names : List String) :
    (Expr.isOneOf (.name x) names).grouped = true := by
  cases names with
  | nil => rfl
  | cons s rest =>
    have hequals : ∀ s : String, (Expr.equals (.name x) (.string s)).grouped = true := by
      simp [Expr.equals, Expr.grouped]
    refine (grouped_any _ _ (by simp [Expr.equals]) (hequals s) fun f hf => ?_).2
    obtain ⟨s', _, rfl⟩ := List.mem_map.mp hf
    exact ⟨by simp [Expr.equals], hequals s'⟩

private theorem grouped_closedKeys (x : String) (allowed : List String) :
    (closedKeys (.name x) allowed).grouped = true := by
  cases allowed with
  | nil => simp [closedKeys, Stmt.grouped, Expr.grouped, Expr.keysOf, Expr.allGrouped]
  | cons s rest =>
    have h := grouped_isOneOf "k" (s :: rest)
    simp [closedKeys, Stmt.grouped, Expr.every, Expr.grouped, Expr.keysOf, Expr.allGrouped, h]

def IsPlain (body : List Stmt) : Prop := ∀ s ∈ body, s.grouped = true ∧ ∀ x e, s ≠ .bind x e

private theorem IsPlain.append {a b : List Stmt} (ha : IsPlain a) (hb : IsPlain b) :
    IsPlain (a ++ b) :=
  fun s hs => (List.mem_append.mp hs).elim (ha s) (hb s)

private theorem isPlain_recordCheck (x : String) : IsPlain [recordCheck c (.name x)] := by
  simp [IsPlain, recordCheck, Context.isRecord, Context.guardName, Stmt.grouped, Expr.grouped,
    Expr.allGrouped]

private theorem isPlain_closedKeys (shape : ShapePolicy) (x : String) (allowed : List String) :
    IsPlain (match shape with
      | .closed => [closedKeys (.name x) allowed]
      | .opened => []) := by
  cases shape with
  | opened => simp [IsPlain]
  | closed =>
    intro s hs
    obtain rfl := List.mem_singleton.mp hs
    refine ⟨grouped_closedKeys x allowed, fun y e => ?_⟩
    cases allowed <;> simp [closedKeys]

private theorem isPlain_fieldCheck {x : String} {f : Field} {s : Stmt}
    (h : IsFieldCheck c constants lazies (.name x) f s) : IsPlain [s] := by
  obtain ⟨condition, hcondition, rfl⟩ := h
  have hgrouped := (hcondition.grouped rfl (by simp [Expr.grouped])).2
  cases hreq : f.required <;>
    simp [IsPlain, Stmt.grouped, Expr.grouped, Expr.allGrouped, Expr.owns, hgrouped]

private theorem IsObjectBody.isPlain {x : String} {fields : List Field} {body : List Stmt}
    (h : IsObjectBody c constants lazies x fields body) : IsPlain body := by
  obtain ⟨checks, hchecks, rfl⟩ := h
  have hplain : IsPlain checks := by
    induction hchecks with
    | nil => simp [IsPlain]
    | cons hs _ ih => exact (isPlain_fieldCheck hs).append ih
  have hlast : IsPlain [.give (.bool true)] := by simp [IsPlain, Stmt.grouped, Expr.grouped]
  exact (((isPlain_recordCheck x).append (isPlain_closedKeys _ x _)).append hplain).append hlast

private theorem IsPlain.boundBy {body : List Stmt} (h : IsPlain body) : Stmt.boundBy body = [] := by
  refine List.filterMap_eq_nil_iff.mpr fun s hs => ?_
  cases s with
  | bind x e => exact absurd rfl ((h _ hs).2 x e)
  | _ => rfl

private theorem casesGrouped_of_forall₂ {variants : List Variant}
    {cases : List (String × List Stmt)}
    (h : List.Forall₂ (fun v case => case.1 = v.tag ∧
      IsObjectBody c constants lazies payloadKey v.fields case.2) variants cases) :
    Stmt.casesGrouped cases = true := by
  induction h with
  | nil => rfl
  | cons hcase _ ih =>
    rw [Stmt.casesGrouped, ih, allGrouped_iff.mpr fun s hs => (hcase.2.isPlain s hs).1]
    rfl

theorem IsBody.isWellFormed {d : Definition} {body : List Stmt}
    (h : IsBody c constants lazies d body) :
    Stmt.allGrouped body = true ∧ (subjectName :: Stmt.boundBy body).Nodup := by
  have plain : ∀ {body : List Stmt}, IsPlain body →
      Stmt.allGrouped body = true ∧ (subjectName :: Stmt.boundBy body).Nodup := fun hbody =>
    ⟨allGrouped_iff.mpr fun s hs => (hbody s hs).1, by simp [hbody.boundBy]⟩
  cases h with
  | struct hbody => exact plain hbody.isPlain
  | @union d cases hcases =>
    have hhead := (isPlain_recordCheck (c := c) subjectName).append
      (isPlain_closedKeys c.options.shape subjectName [tagKey, payloadKey])
    have hgrouped := casesGrouped_of_forall₂ hcases
    constructor
    · refine allGrouped_iff.mpr fun s hs => ?_
      rcases List.mem_append.mp hs with hs | hs
      · exact (hhead s hs).1
      · rcases List.mem_pair.mp hs with rfl | rfl <;> simp [Stmt.grouped, Expr.grouped, hgrouped]
    · have hbound := congrArg (· ++ [payloadKey]) hhead.boundBy
      rw [boundBy_append]
      exact hbound ▸ (by decide : [subjectName, payloadKey].Nodup)
  | enum =>
    refine plain ?_
    simp [IsPlain, Stmt.grouped, grouped_isOneOf]
  | «alias» hcondition =>
    refine plain ?_
    simp [IsPlain, Stmt.grouped, (hcondition.grouped rfl (by simp [Expr.grouped])).2]

end Script

end SchemaGuard
