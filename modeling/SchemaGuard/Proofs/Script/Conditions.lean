import SchemaGuard.Proofs.Script.Answers

/-!
Conditions decide references. A function that stands for a reference answers what the validator of
the reference does, and so does a condition that a subject has the type of the reference; each
follows from the parts of the reference on the parts of the value.
-/

set_option autoImplicit false
set_option relaxedAutoImplicit false

namespace SchemaGuard.Script

open Script.Module (eval apply)

/-- A place where references of a definition are evaluated. -/
structure Scene (P : Program) (T : Typing) where
  scope : Scope
  types : List TypeRef
  constants : List Binding
  lazies : List Binding
  checkers : List Value
  env : Env
  frame : Frame P T scope types lazies checkers env
  stand : AllStand P T checkers types
  declared : constants ⊆ P.constants

namespace Scene

variable {P : Program} {T T' : Typing} (s : Scene P T)

def closed (t : TypeRef) : TypeRef := t.substitute s.scope.params s.types

def context : Context := P.context s.scope

def grows (h : T.Grows T') : Scene P T' :=
  { s with frame := s.frame.grows h, stand := s.stand.grows h }

def bind {x : String} (hx : IsLocal x) (slot : Slot) : Scene P T :=
  { s with env := (x, slot) :: s.env, frame := s.frame.bind hx slot }

end Scene

/-- Whatever function stands for the reference answers on the value as the validator does. -/
def AppliesAt (P : Program) (v : Json) (t : TypeRef) (w : Validator) : Prop :=
  ∀ T σ f, Ready P T σ → Stands P T f t → Answers P T (apply P.code f [.json v] σ) (w v)

/-- Whatever condition the value is put under for the reference answers as the validator does. -/
def HoldsAt (P : Program) (v : Json) (t : TypeRef) (w : Validator) : Prop :=
  ∀ T σ (s : Scene P T) u e condition, Ready P T σ → s.closed u = t →
    IsCondition s.context s.constants s.lazies u e condition → Denotes P s.env e (.json v) →
    Answers P T (eval P.code s.env condition σ) (w v)

def HoldsInPlace (P : Program) (v : Json) (t : TypeRef) (w : Validator) : Prop :=
  ∀ T σ (s : Scene P T) u e condition, Ready P T σ → u.isStructural = true → s.closed u = t →
    IsCondition s.context s.constants s.lazies u e condition → Denotes P s.env e (.json v) →
    Answers P T (eval P.code s.env condition σ) (w v)

variable {P : Program} {T : Typing} {σ : Store} {v : Json} {t : TypeRef} {w : Validator}

private theorem Scene.answers_checker (s : Scene P T) (hs : Ready P T σ) {u : TypeRef}
    {check e : Expr}
    (hcheck : IsChecker s.context s.constants s.lazies u check) (he : Denotes P s.env e (.json v))
    (h : AppliesAt P v (s.closed u) w) :
    Answers P T (eval P.code s.env (.call check [e]) σ) (w v) := by
  have hdeclared : ∀ b ∈ s.constants, ∃ i < P.constants.length, P.constants[i]? = some b := by
    intro b hb
    obtain ⟨i, hi⟩ := List.getElem?_of_mem (s.declared hb)
    exact ⟨i, (List.getElem?_eq_some_iff.mp hi).1, hi⟩
  obtain ⟨f, σ', T', hf, hgrows, hs', hstands⟩ := hcheck.yields hdeclared s.frame s.stand hs
  rw [eval_call hf (evalAll_cons (he σ') evalAll_nil)]
  exact (h T' σ' f hs' hstands).of_grows hgrows

theorem holdsAt_of_appliesAt (hstructural : t.isStructural = false) (h : AppliesAt P v t w)
    (hprimitive : ∀ p, t = .primitive p → w v = p.accepts v) : HoldsAt P v t w := by
  intro T σ s u e condition hs hclosed hcondition he
  have structural : u.isStructural = true → False := fun hu => by
    rw [TypeRef.isStructural_of_substitute hu hclosed] at hstructural
    cases hstructural
  cases hcondition with
  | primitive hp =>
    rw [hprimitive _ hclosed.symm]
    exact (denotes_primitive hp he).answers hs
  | checker _ hcheck => exact s.answers_checker hs hcheck he (hclosed ▸ h)
  | sequence | map | tuple | nullable => exact absurd rfl structural

theorem appliesAt_of_inPlace (hstructural : t.isStructural = true) (h : HoldsInPlace P v t w) :
    AppliesAt P v t w := by
  intro T σ f hs hf
  cases hf with
  | given | primitive | applied => cases hstructural
  | monomorphic htarget _ =>
    cases t with
    | named | generic => cases hstructural
    | _ => cases htarget
  | @arrow u _ scope types constants lazies checkers env x body hu hall hframe hconstants hx hbody
      hclosed =>
    let s : Scene P T := ⟨scope, types, constants, lazies, checkers, env, hframe, hall, hconstants⟩
    rw [apply_arrow]
    exact h T σ (s.bind hx.isLocal (.value (.json v))) u (.name x) body hs hu hclosed hbody
      (denotes_name x _)

theorem holdsAt_of_inPlace (hstructural : t.isStructural = true) (h : HoldsInPlace P v t w) :
    HoldsAt P v t w := by
  intro T σ s u e condition hs hclosed hcondition he
  cases hcondition with
  | primitive hp =>
    rw [← hclosed] at hstructural
    cases hstructural
  | checker _ hcheck =>
    exact s.answers_checker hs hcheck he (hclosed ▸ appliesAt_of_inPlace hstructural h)
  | sequence hx hbody => exact h T σ s _ e _ hs rfl hclosed (.sequence hx hbody) he
  | map hx hbody => exact h T σ s _ e _ hs rfl hclosed (.map hx hbody) he
  | tuple hbody => exact h T σ s _ e _ hs rfl hclosed (.tuple hbody) he
  | nullable hbody => exact h T σ s _ e _ hs rfl hclosed (.nullable hbody) he

theorem holdsInPlace_sequence {inner : TypeRef} {check : Validator}
    (hw : w v = match v with
      | .array items => items.all check
      | _ => false)
    (h : ∀ items, v = .array items → ∀ x ∈ items, HoldsAt P x inner check) :
    HoldsInPlace P v (.sequence inner) w := by
  intro T σ s u e condition hs _ hclosed hcondition he
  rw [hw]
  cases hcondition with
  | @sequence u _ body x hx hbody =>
    obtain rfl : s.closed u = inner := TypeRef.sequence.inj hclosed
    have harray := denotes_isArray s.frame he
    cases v with
    | array items =>
      refine answers_both (harray.answers hs) fun _ T' σ' hgrows hs' =>
        answers_every he hs' fun y hy T'' σ'' hgrows' hs'' => ?_
      exact h items rfl y hy T'' σ'' ((s.grows (hgrows.trans hgrows')).bind hx.isLocal _) u _ body
        hs'' rfl hbody (denotes_name x _)
    | _ => exact answers_both_false (harray.answers hs)
  | primitive | map | tuple | nullable => cases hclosed
  | checker hstructural _ => simp_all

theorem holdsInPlace_map {inner : TypeRef} {check : Validator}
    (hw : w v = match v with
      | .object members => members.all fun m => check m.2
      | _ => false)
    (h : ∀ members, v = .object members → ∀ m ∈ members, HoldsAt P m.2 inner check) :
    HoldsInPlace P v (.map inner) w := by
  intro T σ s u e condition hs _ hclosed hcondition he
  rw [hw]
  cases hcondition with
  | @map u _ body x hx hbody =>
    obtain rfl : s.closed u = inner := TypeRef.map.inj hclosed
    have hrecord : Answers P T (eval P.code s.env (s.context.isRecord e) σ) _ :=
      answers_isRecord s.frame (Value.isData_json v) he hs
    cases v with
    | object members =>
      change Answers P T _ (members.all (check ∘ Prod.snd))
      rw [← List.all_map]
      refine answers_both hrecord fun _ T' σ' hgrows hs' =>
        answers_every (denotes_valuesOf s.frame he) hs' fun y hy T'' σ'' hgrows' hs'' => ?_
      obtain ⟨m, hm, rfl⟩ := List.mem_map.mp hy
      exact h members rfl m hm T'' σ'' ((s.grows (hgrows.trans hgrows')).bind hx.isLocal _) u _ body
        hs'' rfl hbody (denotes_name x _)
    | _ => exact answers_both_false hrecord
  | primitive | sequence | tuple | nullable => cases hclosed
  | checker hstructural _ => simp_all

theorem holdsInPlace_nullable {inner : TypeRef} {check : Validator}
    (hw : w v = match v with
      | .null => true
      | v => check v)
    (h : HoldsAt P v inner check) : HoldsInPlace P v (.nullable inner) w := by
  intro T σ s u e condition hs _ hclosed hcondition he
  cases hcondition with
  | @nullable u _ body hbody =>
    obtain rfl : s.closed u = inner := TypeRef.nullable.inj hclosed
    have hor : w v = ((Value.json v).isNull || check v) := by
      rw [hw]
      cases v <;> rfl
    rw [hor]
    exact answers_parens (answers_either
      ((denotes_equals_null (Value.isData_json v) he).answers hs)
      fun _ T' σ' hgrows hs' => h T' σ' (s.grows hgrows) u e body hs' rfl hbody he)
  | primitive | sequence | map | tuple => cases hclosed
  | checker hstructural _ => simp_all

private theorem answers_tuple_false (s : Scene P T) {e found body : Expr} {i : Nat}
    {us : List TypeRef} (h : IsTuple s.context s.constants s.lazies e i found us body)
    (hfound : Answers P T (eval P.code s.env found σ) false) :
    Answers P T (eval P.code s.env body σ) false := by
  induction us generalizing i found with
  | nil =>
    cases h
    exact hfound
  | cons u us ih =>
    cases h with
    | cons _ hrest => exact ih hrest (answers_both_false hfound)

private theorem answers_tuple (s : Scene P T) {e found body : Expr} {i : Nat} {us : List TypeRef}
    (h : IsTuple s.context s.constants s.lazies e i found us body) {items xs : List Json}
    (hxs : items.drop i = xs) {pairs : List (TypeRef × Validator)}
    (hus : us.map s.closed = pairs.map Prod.fst) (hlength : pairs.length = xs.length)
    (hholds : ∀ q ∈ pairs.zip xs, HoldsAt P q.2 q.1.1 q.1.2)
    (he : Denotes P s.env e (.json (.array items))) {p : Bool}
    (hfound : Answers P T (eval P.code s.env found σ) p) :
    Answers P T (eval P.code s.env body σ) (p && (pairs.zip xs).all fun q => q.1.2 q.2) := by
  induction us generalizing i found p pairs xs with
  | nil =>
    obtain rfl : pairs = [] := by simpa using hus.symm
    cases h
    simpa using hfound
  | cons u us ih =>
    obtain ⟨pair, pairs, rfl⟩ : ∃ q rest, pairs = q :: rest := by
      cases pairs with
      | nil => simp at hus
      | cons q rest => exact ⟨q, rest, rfl⟩
    obtain ⟨x, xs, rfl⟩ : ∃ x rest, xs = x :: rest := by
      cases xs with
      | nil => simp at hlength
      | cons x rest => exact ⟨x, rest, rfl⟩
    simp only [List.map_cons, List.cons.injEq] at hus
    cases h with
    | @cons _ _ condition _ _ _ _ hcondition hrest =>
      have hitem : items[i]? = some x := by
        have := congrArg (fun l => l[0]?) hxs
        simpa using this
      have hindex : Denotes P s.env (.index e (.number i)) (.json x) := by
        refine fun σ => eval_index (he σ) (eval_number i) ?_
        simp [Value.number, index?, hitem]
      have hdrop : items.drop (i + 1) = xs := by
        rw [← List.tail_drop, hxs, List.tail_cons]
      have hboth : Answers P T (eval P.code s.env (.both found condition) σ) (p && pair.2 x) :=
        answers_both hfound fun _ T' σ' hgrows hs' => hholds (pair, x) (by simp) T' σ'
          (s.grows hgrows) u _ condition hs' hus.1 hcondition hindex
      have hall := ih hrest hdrop hus.2 (by simpa using hlength)
        (fun q hq => hholds q (by simp [hq])) hboth
      simpa [Bool.and_assoc] using hall

theorem holdsInPlace_tuple {pairs : List (TypeRef × Validator)}
    (hw : w v = match v with
      | .array items => pairs.length == items.length
          && (pairs.zip items).all fun q => q.1.2 q.2
      | _ => false)
    (h : ∀ items, v = .array items → ∀ q ∈ pairs.zip items, HoldsAt P q.2 q.1.1 q.1.2) :
    HoldsInPlace P v (.tuple (pairs.map Prod.fst)) w := by
  intro T σ s u e condition hs _ hclosed hcondition he
  rw [hw]
  cases hcondition with
  | @tuple us _ body hbody =>
    have hus : us.map s.closed = pairs.map Prod.fst := by
      rw [← TypeRef.tuple.inj hclosed, TypeRef.substituteAll_eq_map]
      rfl
    have hcount : us.length = pairs.length := by simpa using congrArg List.length hus
    have harray := denotes_isArray s.frame he
    cases v with
    | array items =>
      have hsize : Denotes P s.env (.equals (.property e "length") (.number us.length))
          (.bool (pairs.length == items.length)) := by
        refine fun σ => eval_relate (eval_property (he σ) rfl) (eval_number us.length) ?_
        have hequal : ((items.length : ℚ) = us.length) ↔ pairs.length = items.length := by
          rw [hcount, Nat.cast_inj]
          exact eq_comm
        refine congrArg some ?_
        rw [Bool.eq_iff_iff, beq_iff_eq, ← hequal]
        exact decide_eq_true_iff
      have hfound := (denotes_both harray hsize).answers hs
      by_cases hlength : pairs.length = items.length
      · have := answers_tuple s hbody (List.drop_zero) hus hlength (h items rfl) he hfound
        simpa [Value.isArray] using this
      · have hfalse : (pairs.length == items.length) = false := by simpa using hlength
        change Answers P T _ (pairs.length == items.length && _)
        rw [hfalse] at hfound ⊢
        exact answers_tuple_false s hbody hfound
    | _ => exact answers_tuple_false s hbody (answers_both_false (harray.answers hs))
  | primitive | sequence | map | nullable => cases hclosed
  | checker hstructural _ => simp_all

end SchemaGuard.Script
