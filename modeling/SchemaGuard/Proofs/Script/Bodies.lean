import SchemaGuard.Proofs.Script.Conditions

/-!
Bodies of guards. The statements of a body accept a value just as the definition does, if the
conditions in them decide the references on the parts of the value that the definition inspects.
-/

set_option autoImplicit false
set_option relaxedAutoImplicit false

namespace SchemaGuard.Script

open Script.Module (eval exec execCases)

def Returns (P : Program) (T : Typing) (run : Option (Option Value × Store)) (b : Bool) : Prop :=
  ∃ σ T', run = some (some (.bool b), σ) ∧ T.Grows T' ∧ Ready P T' σ

variable {P : Program} {T T' : Typing} {env : Env} {σ : Store} {e : Expr} {p b : Bool}
  {rest : List Stmt}

private theorem Returns.of_grows {run : Option (Option Value × Store)} (h : Returns P T' run p)
    (hgrows : T.Grows T') : Returns P T run p := by
  obtain ⟨σ', T'', hrun, hgrows', hs⟩ := h
  exact ⟨σ', T'', hrun, hgrows.trans hgrows', hs⟩

private theorem returns_give (h : Answers P T (eval P.code env e σ) p) :
    Returns P T (exec P.code env (.give e :: rest) σ) p := by
  obtain ⟨σ', T', hrun, hgrows, hs⟩ := h
  exact ⟨σ', T', exec_give hrun, hgrows, hs⟩

private theorem returns_rejectIf (h : Answers P T (eval P.code env e σ) (!p))
    (hrest : p = true → ∀ T' σ', T.Grows T' → Ready P T' σ' →
      Returns P T' (exec P.code env rest σ') b) :
    Returns P T (exec P.code env (.rejectIf e :: rest) σ) (p && b) := by
  obtain ⟨σ', T', hrun, hgrows, hs⟩ := h
  cases p with
  | false => exact ⟨σ', T', exec_reject hrun, hgrows, hs⟩
  | true =>
    rw [exec_pass hrun, Bool.true_and]
    exact (hrest rfl T' σ' hgrows hs).of_grows hgrows

namespace Value

def member (members : List (String × Json)) (key : String) : Value :=
  match members.lookup key with
  | some v => .json v
  | none => .undefined

private theorem isData_member (members : List (String × Json)) (key : String) :
    (member members key).IsData := by
  unfold member
  split <;> trivial

end Value

private theorem denotes_index_of_some {members : List (String × Json)} {key : String} {v : Json}
    (he : Denotes P env e (.json (.object members))) (h : members.lookup key = some v) :
    Denotes P env (.index e (.string key)) (.json v) := by
  refine fun σ => eval_index (he σ) (eval_string key) ?_
  simp [Value.string, index?, h]

private theorem denotes_index {members : List (String × Json)} {key : String}
    (he : Denotes P env e (.json (.object members))) (hkey : key ∉ inheritedKeys) :
    Denotes P env (.index e (.string key)) (.member members key) := by
  refine fun σ => eval_index (he σ) (eval_string key) ?_
  cases h : members.lookup key <;> simp [Value.string, Value.member, index?, h, hkey]

section

variable (s : Scene P T)

private theorem Scene.returns_recordCheck {v : Value} (hdata : v.IsData) (he : Denotes P s.env e v)
    (hs : Ready P T σ) (hrest : v.isRecord = true → ∀ T' σ', T.Grows T' → Ready P T' σ' →
      Returns P T' (exec P.code s.env rest σ') b) :
    Returns P T (exec P.code s.env (recordCheck s.context e :: rest) σ) (v.isRecord && b) :=
  returns_rejectIf (answers_not (answers_isRecord s.frame hdata he hs)) hrest

private theorem Scene.answers_closedKeys {members : List (String × Json)}
    (he : Denotes P s.env e (.json (.object members))) (hs : Ready P T σ) (allowed : List String) :
    ∃ condition, closedKeys e allowed = .rejectIf condition ∧
      Answers P T (eval P.code s.env condition σ)
        (!members.all fun m => allowed.any fun key => m.1 == key) := by
  have hkeys := denotes_keysOf s.frame he
  cases allowed with
  | nil =>
    refine ⟨_, rfl, ?_⟩
    have hlength : Denotes P s.env (.relate .different (.property e.keysOf "length") (.number 0))
        (.bool !(members.all fun m => List.any [] fun key => m.1 == key)) := by
      refine fun σ => eval_relate (eval_property (hkeys σ) rfl) (eval_number 0) ?_
      cases members with
      | nil => simp [relate?, strictEqual?, Value.number, Number.value]
      | cons m members =>
        have hne : ¬ ((members.length : ℚ) + 1 = 0) := by positivity
        simp [relate?, strictEqual?, Value.number, Number.value, hne]
    exact hlength.answers hs
  | cons key allowed =>
    refine ⟨_, rfl, ?_⟩
    have hevery : Answers P T (eval P.code s.env
        (e.keysOf.every "k" .untyped (.isOneOf (.name "k") (key :: allowed))) σ)
        ((members.map fun m => Json.string m.1).all fun y =>
          (key :: allowed).any (Value.json y).isString) :=
      answers_every hkeys hs fun y _ T' σ' _ hs' =>
        (denotes_isOneOf (Value.isData_json y) (denotes_name "k" _) _).answers hs'
    rw [List.all_map] at hevery
    exact answers_not hevery

private theorem Scene.returns_closedKeys {members : List (String × Json)}
    (he : Denotes P s.env e (.json (.object members))) (hs : Ready P T σ) (shape : ShapePolicy)
    (allowed : List String) (hrest : ∀ T' σ', T.Grows T' → Ready P T' σ' →
      Returns P T' (exec P.code s.env rest σ') b) :
    Returns P T (exec P.code s.env ((match shape with
        | .closed => [closedKeys e allowed]
        | .opened => []) ++ rest) σ)
      ((shape != .closed || members.all fun m => allowed.any fun key => m.1 == key) && b) := by
  cases shape with
  | opened => exact hrest T σ (.refl T) hs
  | closed =>
    obtain ⟨condition, heq, hcondition⟩ := s.answers_closedKeys he hs allowed
    change Returns P T (exec P.code s.env (closedKeys e allowed :: rest) σ)
      ((members.all fun m => allowed.any fun key => m.1 == key) && b)
    rw [heq]
    exact returns_rejectIf hcondition fun _ => hrest

private theorem Scene.answers_fieldCheck {x : String} {members : List (String × Json)}
    (he : Denotes P s.env (.name x) (.json (.object members))) (hs : Ready P T σ) {f : Field}
    {statement : Stmt} (h : IsFieldCheck s.context s.constants s.lazies (.name x) f statement)
    {check : TypeRef → Validator} (hcheck : ∀ y, members.lookup f.name = some y →
      HoldsAt P y (s.closed f.type) (check f.type)) :
    ∃ condition, statement = .rejectIf condition ∧ Answers P T (eval P.code s.env condition σ)
      (!match members.lookup f.name with
        | some v => check f.type v
        | none => !f.required) := by
  obtain ⟨condition, hcondition, rfl⟩ := h
  refine ⟨_, rfl, ?_⟩
  have howns := denotes_owns s.frame he f.name
  cases hlookup : members.lookup f.name with
  | none =>
    rw [hlookup] at howns
    cases hrequired : f.required with
    | true =>
      obtain ⟨σ', T', hrun, hgrows, hs'⟩ := (denotes_not howns).answers hs
      exact ⟨σ', T', eval_either_true hrun, hgrows, hs'⟩
    | false => exact answers_both_false (howns.answers hs)
  | some y =>
    rw [hlookup] at howns
    have hfails : ∀ T' σ', T.Grows T' → Ready P T' σ' →
        Answers P T' (eval P.code s.env (.not (.parens condition)) σ') (!check f.type y) :=
      fun T' σ' hgrows hs' => answers_not (answers_parens (hcheck y hlookup T' σ' (s.grows hgrows)
        f.type _ condition hs' rfl hcondition (denotes_index_of_some he hlookup)))
    cases f.required with
    | true => exact answers_either ((denotes_not howns).answers hs) fun _ => hfails
    | false => exact answers_both (howns.answers hs) fun _ => hfails

private theorem Scene.returns_fieldChecks {x : String} {members : List (String × Json)}
    (he : Denotes P s.env (.name x) (.json (.object members))) {fields : List Field}
    {checks : List Stmt}
    (h : List.Forall₂ (IsFieldCheck s.context s.constants s.lazies (.name x)) fields checks)
    {check : TypeRef → Validator} (hcheck : ∀ f ∈ fields, ∀ y, members.lookup f.name = some y →
      HoldsAt P y (s.closed f.type) (check f.type)) :
    ∀ T' σ', T.Grows T' → Ready P T' σ' →
      Returns P T' (exec P.code s.env (checks ++ [.give (.bool true)]) σ') (fields.all fun f =>
        match members.lookup f.name with
        | some v => check f.type v
        | none => !f.required) := by
  induction h with
  | nil => exact fun _ _ _ hs => returns_give (.of_eq (eval_bool true) hs)
  | @cons f statement fields checks hf _ ih =>
    intro T' σ' hgrows hs
    obtain ⟨condition, rfl, hcondition⟩ :=
      (s.grows hgrows).answers_fieldCheck he hs hf fun y hy => hcheck f List.mem_cons_self y hy
    have hrest := ih fun f' hf' => hcheck f' (List.mem_cons_of_mem f hf')
    exact returns_rejectIf hcondition fun _ T'' σ'' hgrows' hs' =>
      hrest T'' σ'' (hgrows.trans hgrows') hs'

def Value.meets (shape : ShapePolicy) (check : TypeRef → Validator) (fields : List Field) :
    Value → Bool
  | .json (.object members) => Field.allAccept shape check fields members
  | _ => false

private theorem Scene.returns_objectBody {x : String} {v : Value} (hdata : v.IsData)
    (he : Denotes P s.env (.name x) v) (hs : Ready P T σ) {fields : List Field} {body : List Stmt}
    (h : IsObjectBody s.context s.constants s.lazies x fields body) {check : TypeRef → Validator}
    (hcheck : ∀ f ∈ fields, ∀ members y, v = .json (.object members) →
      members.lookup f.name = some y → HoldsAt P y (s.closed f.type) (check f.type)) :
    Returns P T (exec P.code s.env body σ) (v.meets P.guards.shape check fields) := by
  obtain ⟨checks, hchecks, rfl⟩ := h
  have hmeets : v.meets P.guards.shape check fields
      = (v.isRecord && v.meets P.guards.shape check fields) := by
    cases v with
    | json v => cases v <;> simp [Value.isRecord, Value.meets]
    | _ => rfl
  rw [hmeets, List.append_assoc, List.cons_append]
  refine s.returns_recordCheck hdata he hs fun hrecord T' σ' hgrows hs' => ?_
  obtain ⟨members, rfl⟩ : ∃ members, v = .json (.object members) := by
    cases v with
    | json v =>
      cases v with
      | object members => exact ⟨members, rfl⟩
      | _ => cases hrecord
    | _ => cases hrecord
  have hchecks := s.returns_fieldChecks he hchecks fun f hf y hy => hcheck f hf members y rfl hy
  have hclosed := (s.grows hgrows).returns_closedKeys he hs' s.context.options.shape
    (fields.map Field.name) fun T'' σ'' hgrows' hs'' =>
      hchecks T'' σ'' (hgrows.trans hgrows') hs''
  have hkeys : (members.all fun m => (fields.map Field.name).any fun key => m.1 == key)
      = members.all fun m => fields.any fun f => f.name == m.1 := by
    simp [List.any_map, Function.comp_def, Bool.beq_comm]
  have hshape : P.guards.shape = s.context.options.shape := P.shape.symm
  rw [hkeys] at hclosed
  rw [Value.meets, Field.allAccept, hshape]
  exact hclosed

private theorem strictEqual?_string {v : Value} (hdata : v.IsData) (text : String) :
    strictEqual? v (.string text) = some (v.isString text) := by
  cases v with
  | undefined => rfl
  | json v => cases v <;> rfl
  | _ => cases hdata

private theorem Scene.returns_cases {variants : List Variant} {cases : List (String × List Stmt)}
    (h : List.Forall₂ (fun variant case => case.1 = variant.tag ∧
      IsObjectBody s.context s.constants s.lazies payloadKey variant.fields case.2) variants cases)
    {tag payload : Value} (htag : tag.IsData) (hpayload : payload.IsData)
    (he : Denotes P s.env (.name payloadKey) payload) (hs : Ready P T σ)
    (check : TypeRef → Validator)
    (hcheck : ∀ variant, variants.find? (fun variant => tag.isString variant.tag) = some variant →
      ∀ f ∈ variant.fields, ∀ members y, payload = .json (.object members) →
        members.lookup f.name = some y → HoldsAt P y (s.closed f.type) (check f.type)) :
    Returns P T (execCases P.code s.env
        (cases.dropWhile fun c => strictEqual? tag (.string c.1) != some true) σ)
      (match variants.find? fun variant => tag.isString variant.tag with
        | some variant => payload.meets P.guards.shape check variant.fields
        | none => false) := by
  induction h with
  | nil => exact ⟨σ, T, execCases_nil, .refl T, hs⟩
  | @cons variant case variants cases hcase _ ih =>
    obtain ⟨hname, hbody⟩ := hcase
    cases hmatches : tag.isString variant.tag with
    | true =>
      have hstop : (strictEqual? tag (.string case.1) != some true) = false := by
        rw [strictEqual?_string htag, hname, hmatches]
        rfl
      have hfind : (variant :: variants).find? (fun variant => tag.isString variant.tag)
          = some variant := List.find?_cons_of_pos hmatches
      obtain ⟨σ', T', hrun, hgrows, hs'⟩ :=
        s.returns_objectBody hpayload he hs hbody (hcheck variant hfind)
      rw [List.dropWhile_cons, if_neg (by simp [hstop]), hfind]
      exact ⟨σ', T', execCases_cons hrun, hgrows, hs'⟩
    -- The case is passed over, as the variant is by the validator.
    | false =>
      have hpass : (strictEqual? tag (.string case.1) != some true) = true := by
        rw [strictEqual?_string htag, hname, hmatches]
        rfl
      have hfind : (variant :: variants).find? (fun variant => tag.isString variant.tag)
          = variants.find? fun variant => tag.isString variant.tag :=
        List.find?_cons_of_neg (by simp [hmatches])
      rw [List.dropWhile_cons, if_pos hpass, hfind]
      exact ih fun variant' hvariant' => hcheck variant' (hfind.trans hvariant')

private theorem lookup_of_member {members : List (String × Json)} {key : String} {v : Json}
    (h : Value.member members key = .json v) : members.lookup key = some v := by
  unfold Value.member at h
  split at h
  · next w hw => rw [hw, Value.json.inj h]
  · cases h

private theorem variant?_eq (d : Union) (tag : String) :
    d.variants.find? (fun variant => (Value.json (.string tag)).isString variant.tag)
      = d.variant? tag := by
  unfold Union.variant? Value.isString
  congr 1
  funext variant
  exact Bool.beq_comm

private theorem find?_isString_eq_none (d : Union) {v : Value}
    (hv : ∀ text, v.isString text = false) :
    d.variants.find? (fun variant => v.isString variant.tag) = none := by
  simp [hv]

private theorem variant?_of_find? {d : Union} {members : List (String × Json)} {variant : Variant}
    (h : d.variants.find? (fun variant => (Value.member members tagKey).isString variant.tag)
      = some variant) :
    ∃ tag, members.lookup tagKey = some (.string tag) ∧ d.variant? tag = some variant := by
  cases htag : Value.member members tagKey with
  | json v =>
    cases v with
    | string tag =>
      rw [htag, variant?_eq] at h
      exact ⟨tag, lookup_of_member htag, h⟩
    | _ =>
      rw [htag, find?_isString_eq_none d fun _ => rfl] at h
      cases h
  | _ =>
    rw [htag, find?_isString_eq_none d fun _ => rfl] at h
    cases h

private theorem union_accepts_eq {shape : ShapePolicy} {check : TypeRef → Validator} (d : Union)
    (members : List (String × Json)) :
    d.accepts shape check (.object members)
      = ((shape != .closed || members.all fun m => [tagKey, payloadKey].any fun key => m.1 == key)
        && match d.variants.find? fun v => (Value.member members tagKey).isString v.tag with
          | some variant => (Value.member members payloadKey).meets shape check variant.fields
          | none => false) := by
  have hkeys : (members.all fun m => [tagKey, payloadKey].any fun key => m.1 == key)
      = members.all fun m => m.1 == tagKey || m.1 == payloadKey := by
    simp
  rw [Union.accepts, hkeys]
  congr 1
  unfold Value.member
  cases members.lookup tagKey with
  | none => rw [find?_isString_eq_none d fun _ => rfl]
  | some tag =>
    cases tag with
    | string tag =>
      simp only [variant?_eq]
      cases d.variant? tag with
      | none => rfl
      | some variant =>
        cases members.lookup payloadKey with
        | none => rfl
        | some payload => cases payload <;> rfl
    | _ => rw [find?_isString_eq_none d fun _ => rfl]

end

private theorem enum_accepts_eq (names : List String) (v : Json) :
    (names.any (Value.json v).isString) = match v with
      | .string member => names.contains member
      | _ => false := by
  cases v with
  | string member =>
    simp only [List.contains_eq_any_beq]
    rfl
  | _ => simp [Value.isString]

variable (s : Scene P T)

/-- A body accepts the value as the definition does, if conditions decide the references in it on
the parts of the value that it inspects. -/
theorem Scene.returns_body {d : Definition} {body : List Stmt}
    (h : IsBody s.context s.constants s.lazies d body) {v : Json} (hs : Ready P T σ)
    {check : TypeRef → Validator}
    (hcheck : ∀ t x, d.Inspects v t x → HoldsAt P x (s.closed t) (check t)) :
    Returns P T (exec P.code ((subjectName, .value (.json v)) :: s.env) body σ)
      (d.accepts P.guards.shape check v) := by
  let inner := s.bind isLocal_subjectName (.value (.json v))
  have hsubject : Denotes P inner.env (.name subjectName) (.json v) := denotes_name subjectName _
  have hdata := Value.isData_json v
  cases h with
  | @struct d _ hbody =>
    have hreturns := inner.returns_objectBody hdata hsubject hs hbody
      fun f hf members y hv hy => hcheck f.type y (by cases hv; exact .field hf hy)
    cases v <;> exact hreturns
  | @union d cases hcases =>
    rw [List.cons_append]
    cases v with
    | object members =>
      let payload := Value.member members payloadKey
      have hpayload := denotes_index hsubject (show payloadKey ∉ inheritedKeys by decide)
      have hne : subjectName ≠ payloadKey := by decide
      have htag := denotes_index (hsubject.bind hne (.value payload))
        (show tagKey ∉ inheritedKeys by decide)
      have hshape : P.guards.shape = s.context.options.shape := P.shape.symm
      rw [Definition.accepts, union_accepts_eq, hshape]
      refine inner.returns_recordCheck hdata hsubject hs fun _ T' σ' hgrows hs' => ?_
      refine (inner.grows hgrows).returns_closedKeys hsubject hs' _ _ fun T'' σ'' hgrows' hs'' => ?_
      have hrun : exec P.code inner.env [.bind payloadKey _, .switch _ cases] σ'' = _ :=
        (exec_bind (hpayload σ'')).trans (exec_switch (htag σ''))
      let place := ((inner.grows hgrows).grows hgrows').bind isLocal_payloadKey (.value payload)
      have hreturns := place.returns_cases hcases (Value.isData_member members tagKey)
        (Value.isData_member members payloadKey) (denotes_name payloadKey payload) hs''
        check fun variant hvariant f hf inside y hinside hy => by
          obtain ⟨tag, htag, hvariant⟩ := variant?_of_find? hvariant
          exact hcheck f.type y (.payload htag hvariant (lookup_of_member hinside) hf hy)
      rw [hshape] at hreturns
      exact hrun ▸ hreturns
    | _ => exact inner.returns_recordCheck (b := false) hdata hsubject hs fun h => by cases h
  | @enum d =>
    have hanswers := (denotes_isOneOf hdata hsubject d.members).answers hs
    rw [enum_accepts_eq] at hanswers
    cases v <;> exact returns_give hanswers
  | @«alias» d condition hcondition =>
    exact returns_give
      (hcheck d.target v .target T σ inner d.target _ condition hs rfl hcondition hsubject)

end SchemaGuard.Script
