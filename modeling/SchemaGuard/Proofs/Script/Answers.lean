import SchemaGuard.Proofs.Script.Checkers

/-!
Answers of expressions: what the operators and the built-in functions answer on values that reading
JSON gives, and what the guards of the prelude answer.
-/

set_option autoImplicit false
set_option relaxedAutoImplicit false

namespace SchemaGuard.Script

open Script.Module (eval apply every)

/-- The store is sound and all constants have been declared. -/
abbrev Ready (P : Program) (T : Typing) (σ : Store) : Prop := Sound P T P.constants.length σ

def Answers (P : Program) (T : Typing) (run : Option (Value × Store)) (b : Bool) : Prop :=
  ∃ σ T', run = some (.bool b, σ) ∧ T.Grows T' ∧ Ready P T' σ

def Denotes (P : Program) (env : Env) (e : Expr) (v : Value) : Prop :=
  ∀ σ, eval P.code env e σ = some (v, σ)

variable {P : Program} {T T' : Typing} {env : Env} {σ : Store} {a b e : Expr} {p q : Bool}
  {v : Value}

theorem Answers.of_eq {run : Option (Value × Store)} (hrun : run = some (.bool p, σ))
    (hs : Ready P T σ) : Answers P T run p := ⟨σ, T, hrun, .refl T, hs⟩

theorem Answers.of_grows {run : Option (Value × Store)} (h : Answers P T' run p)
    (hgrows : T.Grows T') : Answers P T run p := by
  obtain ⟨σ', T'', hrun, hgrows', hs⟩ := h
  exact ⟨σ', T'', hrun, hgrows.trans hgrows', hs⟩

theorem answers_not (ha : Answers P T (eval P.code env a σ) p) :
    Answers P T (eval P.code env (.not a) σ) (!p) := by
  obtain ⟨σ', T', hrun, hgrows, hs⟩ := ha
  exact ⟨σ', T', eval_not hrun, hgrows, hs⟩

theorem answers_parens (ha : Answers P T (eval P.code env a σ) p) :
    Answers P T (eval P.code env (.parens a) σ) p := by
  rwa [eval_parens]

theorem answers_both (ha : Answers P T (eval P.code env a σ) p)
    (hb : p = true → ∀ T' σ', T.Grows T' → Ready P T' σ' →
      Answers P T' (eval P.code env b σ') q) :
    Answers P T (eval P.code env (.both a b) σ) (p && q) := by
  obtain ⟨σ', T', hrun, hgrows, hs⟩ := ha
  cases p with
  | false => exact ⟨σ', T', eval_both_false hrun, hgrows, hs⟩
  | true =>
    rw [eval_both_true hrun, Bool.true_and]
    exact (hb rfl T' σ' hgrows hs).of_grows hgrows

theorem answers_both_false (ha : Answers P T (eval P.code env a σ) false) :
    Answers P T (eval P.code env (.both a b) σ) false := by
  obtain ⟨σ', T', hrun, hgrows, hs⟩ := ha
  exact ⟨σ', T', eval_both_false hrun, hgrows, hs⟩

theorem answers_either (ha : Answers P T (eval P.code env a σ) p)
    (hb : p = false → ∀ T' σ', T.Grows T' → Ready P T' σ' →
      Answers P T' (eval P.code env b σ') q) :
    Answers P T (eval P.code env (.either a b) σ) (p || q) := by
  obtain ⟨σ', T', hrun, hgrows, hs⟩ := ha
  cases p with
  | true => exact ⟨σ', T', eval_either_true hrun, hgrows, hs⟩
  | false =>
    rw [eval_either_false hrun, Bool.false_or]
    exact (hb rfl T' σ' hgrows hs).of_grows hgrows

theorem denotes_name (x : String) (v : Value) : Denotes P ((x, .value v) :: env) (.name x) v :=
  fun _ => eval_name (Env.read?_value List.lookup_cons_self)

theorem Denotes.bind {x y : String} (h : Denotes P env (.name x) v) (hne : x ≠ y) (slot : Slot) :
    Denotes P ((y, slot) :: env) (.name x) v := by
  intro σ
  have hx := h σ
  rw [eval, Env.read?] at hx ⊢
  rw [Module.lookup_cons_of_ne hne]
  exact hx

namespace Value

/-- What reading JSON gives, or what is found where it has no such key. -/
def IsData : Value → Prop
  | .undefined | .json _ => True
  | _ => False

theorem isData_json (v : Json) : (json v).IsData := trivial

def isArray : Value → Bool
  | .json (.array _) => true
  | _ => false

def isRecord : Value → Bool
  | .json (.object _) => true
  | _ => false

def isNull : Value → Bool
  | .json .null => true
  | _ => false

end Value

theorem denotes_equals_null (hdata : v.IsData) (he : Denotes P env e v) :
    Denotes P env (.equals e .null) (.bool v.isNull) := by
  refine fun σ => eval_relate (he σ) eval_null ?_
  cases v with
  | undefined => rfl
  | json v => cases v <;> rfl
  | _ => cases hdata

private theorem denotes_different_null (hdata : v.IsData) (he : Denotes P env e v) :
    Denotes P env (.relate .different e .null) (.bool !v.isNull) := by
  refine fun σ => eval_relate (he σ) eval_null ?_
  cases v with
  | undefined => rfl
  | json v => cases v <;> rfl
  | _ => cases hdata

private theorem denotes_equals_typeOf {type : String} (htype : typeOf? v = some type)
    (he : Denotes P env e v) (name : String) :
    Denotes P env (.equals (.typeOf e) (.string name)) (.bool (type == name)) :=
  fun σ => eval_relate (eval_typeOf (he σ) htype) (eval_string name) rfl

theorem denotes_not (he : Denotes P env e (.bool p)) : Denotes P env (.not e) (.bool !p) :=
  fun σ => eval_not (he σ)

theorem denotes_both (ha : Denotes P env a (.bool p)) (hb : Denotes P env b (.bool q)) :
    Denotes P env (.both a b) (.bool (p && q)) := by
  intro σ
  cases p with
  | false => exact eval_both_false (ha σ)
  | true => rw [eval_both_true (ha σ), hb σ, Bool.true_and]

private theorem denotes_either (ha : Denotes P env a (.bool p)) (hb : Denotes P env b (.bool q)) :
    Denotes P env (.either a b) (.bool (p || q)) := by
  intro σ
  cases p with
  | true => exact eval_either_true (ha σ)
  | false => rw [eval_either_false (ha σ), hb σ, Bool.false_or]

theorem Denotes.answers (he : Denotes P env e (.bool p)) (hs : Ready P T σ) :
    Answers P T (eval P.code env e σ) p := .of_eq (he σ) hs

section

variable {scope : Scope} {types : List TypeRef} {lazies : List Binding} {checkers : List Value}

theorem Frame.base (P : Program) (T : Typing) (hparams : scope.params = []) :
    Frame P T scope [] [] [] P.code.env where
  outer _ _ h := P.lookup_outer h
  constants _ _ h := P.lookup_constant h
  distinct := hparams ▸ .nil
  arity := hparams ▸ rfl
  params _ _ _ h := by simp [Scope.index?, hparams] at h
  self _ _ h := absurd hparams h
  cells _ h := by cases h
  spelled _ h := by cases h

variable (hframe : Frame P T scope types lazies checkers env)

include hframe

private theorem Frame.denotes_global {x : String} {f : Builtin}
    (h : (x, .value (.builtin f)) ∈ globals) :
    Denotes P env (.name x) (.builtin f) :=
  fun _ => eval_name (Env.read?_value (hframe.outer _ _ (List.mem_append_right _ h)))

theorem denotes_isArray (he : Denotes P env e v) : Denotes P env e.isArray (.bool v.isArray) := by
  intro σ
  have harray := hframe.denotes_global (x := "Array") (f := .array) (by simp [globals])
  refine (eval_call (eval_property (harray σ) rfl) (evalAll_cons (he σ) evalAll_nil)).trans ?_
  refine apply_builtin (by simp) ?_
  cases v with
  | json v => cases v <;> rfl
  | _ => rfl

theorem denotes_keysOf {members : List (String × Json)}
    (he : Denotes P env e (.json (.object members))) :
    Denotes P env e.keysOf (.json (.array (members.map fun m => .string m.1))) := by
  intro σ
  have hobject := hframe.denotes_global (x := "Object") (f := .object) (by simp [globals])
  refine (eval_call (eval_property (hobject σ) rfl) (evalAll_cons (he σ) evalAll_nil)).trans ?_
  exact apply_builtin (by simp) rfl

theorem denotes_valuesOf {members : List (String × Json)}
    (he : Denotes P env e (.json (.object members))) :
    Denotes P env e.valuesOf (.json (.array (members.map Prod.snd))) := by
  intro σ
  have hobject := hframe.denotes_global (x := "Object") (f := .object) (by simp [globals])
  refine (eval_call (eval_property (hobject σ) rfl) (evalAll_cons (he σ) evalAll_nil)).trans ?_
  exact apply_builtin (by simp) rfl

theorem denotes_owns {members : List (String × Json)}
    (he : Denotes P env e (.json (.object members))) (key : String) :
    Denotes P env (e.owns (.string key)) (.bool (members.lookup key).isSome) := by
  intro σ
  have hobject := hframe.denotes_global (x := "Object") (f := .object) (by simp [globals])
  have hcall := eval_property (eval_property (eval_property (hobject σ)
    (w := .builtin .objectPrototype) (p := "prototype") rfl)
    (w := .builtin .hasOwnProperty) (p := "hasOwnProperty") rfl)
    (w := .builtin .callHasOwnProperty) (p := "call") rfl
  refine (eval_call hcall
    (evalAll_cons (he σ) (evalAll_cons (eval_string key) evalAll_nil))).trans ?_
  exact apply_builtin (by simp) rfl

end

private theorem answers_every_from {x : String} {body : Expr} {check : Validator} {list : List Json}
    (rest : List Json) (i : Nat) (hs : Ready P T σ)
    (hbody : ∀ y ∈ rest, ∀ T' σ', T.Grows T' → Ready P T' σ' →
      Answers P T' (eval P.code ((x, .value (.json y)) :: env) body σ') (check y)) :
    Answers P T (every P.code (.closure env x (.expr body)) list i rest σ) (rest.all check) := by
  induction rest generalizing T σ i with
  | nil => exact .of_eq every_nil hs
  | cons y rest ih =>
    obtain ⟨σ', T', hrun, hgrows, hs'⟩ := hbody y List.mem_cons_self T σ (.refl T) hs
    have happly : apply P.code (.closure env x (.expr body))
        [.json y, .number i, .json (.array list)] σ = some (.bool (check y), σ') :=
      apply_arrow.trans hrun
    rw [List.all_cons]
    cases hy : check y with
    | false =>
      rw [hy] at happly
      exact ⟨σ', T', every_false happly, hgrows, hs'⟩
    | true =>
      rw [hy] at happly
      rw [every_true happly, Bool.true_and]
      refine (ih (i + 1) hs' fun z hz T'' σ'' hgrows' hs'' => ?_).of_grows hgrows
      exact hbody z (List.mem_cons_of_mem y hz) T'' σ'' (hgrows.trans hgrows') hs''

/-- Every item is looked at in turn, until one fails. -/
theorem answers_every {items : List Json} {x : String} {type : ArrowType} {body : Expr}
    {check : Validator} (he : Denotes P env e (.json (.array items))) (hs : Ready P T σ)
    (hbody : ∀ y ∈ items, ∀ T' σ', T.Grows T' → Ready P T' σ' →
      Answers P T' (eval P.code ((x, .value (.json y)) :: env) body σ') (check y)) :
    Answers P T (eval P.code env (e.every x type body) σ) (items.all check) := by
  have hproperty : eval P.code env (.property e "every") σ
      = some (.builtin (.every items), σ) := eval_property (he σ) rfl
  rw [Expr.every, eval_call hproperty (evalAll_cons (eval_arrow x type) evalAll_nil), apply_every]
  exact answers_every_from items 0 hs hbody

def Value.isString (s : String) : Value → Bool
  | .json (.string t) => t == s
  | _ => false

private theorem denotes_equals_string (hdata : v.IsData) (he : Denotes P env e v) (s : String) :
    Denotes P env (.equals e (.string s)) (.bool (v.isString s)) := by
  refine fun σ => eval_relate (he σ) (eval_string s) ?_
  cases v with
  | undefined => rfl
  | json v => cases v <;> rfl
  | _ => cases hdata

private theorem denotes_any (hdata : v.IsData) (he : Denotes P env e v) (names : List String)
    (ha : Denotes P env a (.bool p)) :
    Denotes P env (Expr.any a (names.map fun s => .equals e (.string s)))
      (.bool (p || names.any v.isString)) := by
  induction names generalizing a p with
  | nil => simpa [Expr.any] using ha
  | cons s names ih =>
    rw [List.map_cons, Expr.any, List.any_cons, ← Bool.or_assoc]
    exact ih (denotes_either ha (denotes_equals_string hdata he s))

theorem denotes_isOneOf (hdata : v.IsData) (he : Denotes P env e v) (names : List String) :
    Denotes P env (.isOneOf e names) (.bool (names.any v.isString)) := by
  cases names with
  | nil => exact fun σ => eval_bool false
  | cons s names => exact denotes_any hdata he names (denotes_equals_string hdata he s)

section

variable {name x : String} {exported : Bool} {subject : Subject} {condition : Expr}

private theorem answers_prelude
    (hitem : .guard exported name x subject [.give condition] ∈ prelude P.options)
    (hcondition : Answers P T (eval P.code ((x, .value v) :: P.code.env) condition σ) p) :
    Answers P T (apply P.code (.function name) [v] σ) p := by
  obtain ⟨σ', T', hrun, hgrows, hs⟩ := hcondition
  have hitem := P.item?_functions (P.mem_functions_of_prelude hitem)
  exact ⟨σ', T', apply_guard hitem (exec_give hrun), hgrows, hs⟩

private theorem frame_prelude (P : Program) (T : Typing) {x : String} (hx : IsLocal x)
    (slot : Slot) : Frame P T Scope.empty [] [] [] ((x, slot) :: P.code.env) :=
  (Frame.base P T rfl).bind hx slot

private theorem isLocal_v : IsLocal "v" := ⟨'v', by decide, by decide⟩

private theorem isLocal_b : IsLocal "b" := ⟨'b', by decide, by decide⟩

private def typeName : Value → String
  | .undefined => "undefined"
  | .json (.bool _) => "boolean"
  | .json (.number _) => "number"
  | .json (.string _) => "string"
  | _ => "object"

private theorem typeOf?_eq (hdata : v.IsData) : typeOf? v = some (typeName v) := by
  cases v with
  | undefined => rfl
  | json v => cases v <;> rfl
  | _ => cases hdata

private theorem answers_record (hdata : v.IsData) (hs : Ready P T σ) :
    Answers P T (apply P.code (.function (P.options.guardName "record")) [v] σ) v.isRecord := by
  refine answers_prelude (p := v.isRecord) List.mem_cons_self (Denotes.answers ?_ hs)
  have hv : Denotes P (("v", .value v) :: P.code.env) (.name "v") v := denotes_name "v" v
  have hrecord := denotes_both (denotes_both
    (denotes_equals_typeOf (typeOf?_eq hdata) hv "object") (denotes_different_null hdata hv))
    (denotes_not (denotes_isArray (frame_prelude P T isLocal_v _) hv))
  have heq : v.isRecord = (((typeName v == "object") && !v.isNull) && !v.isArray) := by
    cases v with
    | undefined => rfl
    | json v => cases v <;> rfl
    | _ => cases hdata
  rw [heq]
  exact hrecord

private theorem typeName_eq_accepts {p : Primitive} (hp : p ≠ .bytes) (v : Json) :
    (typeName (.json v) == p.name) = p.accepts v := by
  cases p with
  | bytes => exact absurd rfl hp
  | _ => cases v <;> rfl

theorem denotes_primitive {q : Primitive} (hq : q ≠ .bytes) {v : Json}
    (he : Denotes P env e (.json v)) :
    Denotes P env (.equals (.typeOf e) (.string q.name)) (.bool (q.accepts v)) :=
  typeName_eq_accepts hq v ▸ denotes_equals_typeOf (typeOf?_eq (Value.isData_json v)) he q.name

theorem answers_isRecord {scope : Scope} {types : List TypeRef} {lazies : List Binding}
    {checkers : List Value} (hframe : Frame P T scope types lazies checkers env) (hdata : v.IsData)
    (he : Denotes P env e v) (hs : Ready P T σ) :
    Answers P T (eval P.code env ((P.context scope).isRecord e) σ) v.isRecord := by
  have hfunction : eval P.code env (.name (P.options.guardName "record")) σ
      = some (.function (P.options.guardName "record"), σ) :=
    hframe.eval_function (P.preludeName_mem List.mem_cons_self)
  have hcall := eval_call hfunction (evalAll_cons (he σ) evalAll_nil)
  exact hcall ▸ answers_record hdata hs

private def isByte : Json → Bool
  | .number n => n.isByte
  | _ => false

private theorem isByte_eq (n : Number) : n.isByte
    = (decide (n.value.den = 1) && (decide (0 ≤ n.value) && decide (n.value ≤ 255))) := by
  rw [Bool.eq_iff_iff, Number.isByte_iff]
  simp only [Bool.and_eq_true, decide_eq_true_eq]
  constructor
  · rintro ⟨k, hk, hle⟩
    rw [hk]
    exact ⟨Rat.den_natCast k, by positivity, by exact_mod_cast hle⟩
  · rintro ⟨hden, hnonneg, hle⟩
    have hvalue : (n.value.num : ℚ) = n.value := Rat.den_eq_one_iff n.value |>.mp hden
    rw [← hvalue] at hnonneg hle ⊢
    obtain ⟨k, hk⟩ := Int.eq_ofNat_of_zero_le (show 0 ≤ n.value.num by exact_mod_cast hnonneg)
    rw [hk] at hle ⊢
    exact ⟨k, by simp, by exact_mod_cast hle⟩

private theorem answers_isByte (y : Json) (hs : Ready P T σ) :
    Answers P T (eval P.code (("b", .value (.json y)) :: ("v", .value v) :: P.code.env)
      (.both (.call (.property (.name "Number") "isInteger") [.name "b"])
        (.both (.relate .atLeast (.name "b") (.number 0))
          (.relate .atMost (.name "b") (.number 255)))) σ) (isByte y) := by
  have hframe := (frame_prelude P T isLocal_v (.value v)).bind isLocal_b (.value (.json y))
  have hb : Denotes P (("b", .value (.json y)) :: ("v", .value v) :: P.code.env) (.name "b")
      (.json y) := denotes_name "b" _
  have hnumber := hframe.denotes_global (x := "Number") (f := .number) (by simp [globals])
  have hinteger : ∀ integer : Bool, Builtin.call? .isInteger [.json y] = some (.bool integer) →
      Denotes P (("b", .value (.json y)) :: ("v", .value v) :: P.code.env)
        (.call (.property (.name "Number") "isInteger") [.name "b"]) (.bool integer) := by
    intro integer hcall σ
    exact (eval_call (eval_property (hnumber σ) rfl) (evalAll_cons (hb σ) evalAll_nil)).trans
      (apply_builtin (by simp) hcall)
  cases y with
  | number n =>
    have hle : Denotes P _ (.relate .atMost (.name "b") (.number 255))
        (.bool (decide (n.value ≤ 255))) := fun σ => eval_relate (hb σ) (eval_number 255) rfl
    have hge : Denotes P _ (.relate .atLeast (.name "b") (.number 0))
        (.bool (decide (0 ≤ n.value))) := fun σ => eval_relate (hb σ) (eval_number 0) rfl
    rw [isByte, isByte_eq]
    exact (denotes_both (hinteger _ rfl) (denotes_both hge hle)).answers hs
  | _ => exact answers_both_false ((hinteger false rfl).answers hs)

private theorem answers_bytes (v : Json) (hs : Ready P T σ) :
    Answers P T (apply P.code (.function (P.options.guardName Primitive.bytes.name)) [.json v] σ)
      (Primitive.bytes.accepts v) := by
  have hitem : _ ∈ prelude P.options := List.getLast_mem (List.cons_ne_nil _ _)
  refine answers_prelude hitem ?_
  have hv : Denotes P (("v", .value (.json v)) :: P.code.env) (.name "v") (.json v) :=
    denotes_name "v" _
  have harray := denotes_isArray (frame_prelude P T isLocal_v (.value (.json v))) hv
  cases v with
  | array items =>
    exact answers_both (harray.answers hs) fun _ T' σ' _ hs' =>
      answers_every hv hs' fun y _ T'' σ'' _ hs'' => answers_isByte y hs''
  | _ => exact answers_both_false (harray.answers hs)

theorem answers_primitive (q : Primitive) (v : Json) (hs : Ready P T σ) :
    Answers P T (apply P.code (.function (P.options.guardName q.name)) [.json v] σ)
      (q.accepts v) := by
  by_cases hq : q = .bytes
  · subst hq
    exact answers_bytes v hs
  · have hitem : .guard P.options.exported (P.options.guardName q.name) "v" (.type (.primitive q))
        [.give (.equals (.typeOf (.name "v")) (.string q.name))] ∈ prelude P.options := by
      cases q with
      | bytes => exact absurd rfl hq
      | _ => simp [prelude]
    exact answers_prelude hitem ((denotes_primitive hq (denotes_name "v" _)).answers hs)

end

end SchemaGuard.Script
