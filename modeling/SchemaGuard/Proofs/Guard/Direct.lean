import SchemaGuard.Proofs.Guard.Totality

/-!
Checks made in place and checkers supplied. A guard looks at a reference in place, or hands out a
checker for it that is called later and then finds the scope by the name of its owner. Here calls
are run as guards run them: only as far as their answers need, over any schema and any checkers, so
that a run may also go on forever. Whichever of the two ways a reference is looked at, the run ends
or not alike, and with the same answer; and over a resolved schema it does end.
-/

set_option autoImplicit false
set_option relaxedAutoImplicit false

namespace SchemaGuard

namespace Schema

/-- The scope that a checker stands in when it is called: that of the definition now found under the
name of the owner, or the empty one. -/
def scopeOf (s : Schema) (owner : Option String) : Scope :=
  ((owner.bind s.find?).map Scope.of).getD Scope.empty

/-- The scope is empty, or that of a definition that the schema has under its name. -/
def HasScope (s : Schema) (scope : Scope) : Prop :=
  scope = Scope.empty ∨ ∃ d, s.find? d.name = some d ∧ scope = Scope.of d

private theorem HasScope.scopeOf_owner {s : Schema} {scope : Scope} (h : s.HasScope scope) :
    s.scopeOf scope.owner = scope := by
  obtain rfl | ⟨d, hfind, rfl⟩ := h
  · rfl
  · simp [scopeOf, Scope.of, hfind]

private theorem WellFormed.hasScope_iff {s : Schema} (w : s.WellFormed) {scope : Scope} :
    s.HasScope scope ↔ scope = Scope.empty ∨ ∃ d ∈ s.types, scope = Scope.of d := by
  simp only [HasScope, find?_eq_some_iff w.types_nodup, and_true]

end Schema

section

variable {α : Type} {p q : α → Option Bool}

private theorem allM_cons (a : α) (as : List α) :
    (a :: as).allM p = (p a).bind fun passed => if passed then as.allM p else some false := by
  rw [List.allM]
  cases p a with
  | none => rfl
  | some passed => cases passed <;> rfl

private theorem allM_of_some {as : List α} {r : α → Bool} (h : ∀ a ∈ as, p a = some (r a)) :
    as.allM p = some (as.all r) := by
  induction as with
  | nil => rfl
  | cons a as ih =>
    obtain ⟨ha, has⟩ := List.forall_mem_cons.mp h
    rw [allM_cons, ha, Option.bind_some, ih has, List.all_cons]
    cases r a <;> rfl

def Compatible (a b : Option Bool) : Prop := ∀ x ∈ a, ∀ y ∈ b, x = y

theorem Compatible.refl (a : Option Bool) : Compatible a a := by
  intro x hx y hy
  exact Option.some.inj (hx.symm.trans hy)

private theorem compatible_allM {as : List α} (h : ∀ a, Compatible (p a) (q a)) :
    Compatible (as.allM p) (as.allM q) := by
  induction as with
  | nil => exact .refl _
  | cons a as ih =>
    intro x hx y hy
    rw [allM_cons] at hx hy
    obtain ⟨passed, hpassed, hx⟩ := Option.bind_eq_some_iff.mp hx
    obtain ⟨passed', hpassed', hy⟩ := Option.bind_eq_some_iff.mp hy
    obtain rfl := h a passed hpassed passed' hpassed'
    cases passed with
    | true => exact ih x hx y hy
    | false => exact Compatible.refl _ x hx y hy

end

/-- Looks for other keys first under the closed policy, then at the fields in order, up to the first
one that fails. -/
def Field.attempt (shape : ShapePolicy) (check : TypeRef → Json → Option Bool)
    (fields : List Field) (members : List (String × Json)) : Option Bool :=
  if shape != .closed || members.all fun m => fields.any fun f => f.name == m.1 then
    fields.allM fun f =>
      match members.lookup f.name with
      | some v => check f.type v
      | none => some !f.required
  else some false

def Union.attempt (shape : ShapePolicy) (check : TypeRef → Json → Option Bool) (u : Union)
    (v : Json) : Option Bool :=
  match v with
  | .object members =>
    if shape != .closed || members.all fun m => m.1 == tagKey || m.1 == payloadKey then
      match members.lookup tagKey with
      | some (.string tag) =>
        match u.variant? tag, members.lookup payloadKey with
        | some variant, some (.object payload) =>
          Field.attempt shape check variant.fields payload
        | _, _ => some false
      | _ => some false
    else some false
  | _ => some false

def Definition.attempt (shape : ShapePolicy) (check : TypeRef → Json → Option Bool) :
    Definition → Json → Option Bool
  | .struct d, v =>
    match v with
    | .object members => Field.attempt shape check d.fields members
    | _ => some false
  | .union d, v => d.attempt shape check v
  | .enum d, v =>
    match v with
    | .string member => some (d.members.contains member)
    | _ => some false
  | .alias d, v => check d.target v

section

variable {shape : ShapePolicy} {check check' : TypeRef → Json → Option Bool}

private theorem compatible_ite (c : Prop) [Decidable c] {a b : Option Bool} (h : Compatible a b)
    (other : Option Bool) : Compatible (if c then a else other) (if c then b else other) := by
  split
  · exact h
  · exact .refl _

private theorem Field.compatible_attempt (h : ∀ t v, Compatible (check t v) (check' t v))
    (fields : List Field) (members : List (String × Json)) :
    Compatible (attempt shape check fields members) (attempt shape check' fields members) := by
  refine compatible_ite _ (compatible_allM fun f => ?_) _
  split
  · exact h _ _
  · exact .refl _

private theorem Definition.compatible_attempt (h : ∀ t v, Compatible (check t v) (check' t v))
    (d : Definition) (v : Json) :
    Compatible (d.attempt shape check v) (d.attempt shape check' v) := by
  cases d with
  | struct d =>
    cases v with
    | object members => exact Field.compatible_attempt h d.fields members
    | _ => exact .refl _
  | union d =>
    cases v with
    | object members =>
      refine compatible_ite _ ?_ _
      split
      · split
        · exact Field.compatible_attempt h _ _
        · exact .refl _
      · exact .refl _
    | _ => exact .refl _
  | enum d => exact .refl _
  | «alias» d => exact h d.target v

variable {accept : TypeRef → Validator}

private theorem Field.attempt_of_some {fields : List Field} {members : List (String × Json)}
    (h : ∀ f ∈ fields, ∀ x, members.lookup f.name = some x →
      check f.type x = some (accept f.type x)) :
    attempt shape check fields members = some (allAccept shape accept fields members) := by
  rw [attempt, allAccept]
  split
  · next hkeys =>
    rw [hkeys, Bool.true_and]
    refine allM_of_some fun f hf => ?_
    cases hx : members.lookup f.name with
    | none => rfl
    | some x => exact h f hf x hx
  · next hkeys => simp [hkeys]

private theorem Union.attempt_of_some {d : Union} {v : Json}
    (h : ∀ t x, (Definition.union d).Inspects v t x → check t x = some (accept t x)) :
    d.attempt shape check v = some (d.accepts shape accept v) := by
  cases v with
  | object members =>
    rw [attempt, accepts]
    split
    · next hkeys =>
      rw [hkeys, Bool.true_and]
      cases htag : members.lookup tagKey with
      | none => rfl
      | some w =>
        cases w with
        | string tag =>
          dsimp only
          cases hvariant : d.variant? tag with
          | none => rfl
          | some variant =>
            cases hpayload : members.lookup payloadKey with
            | none => rfl
            | some w =>
              cases w with
              | object payload =>
                exact Field.attempt_of_some fun f hf x hx =>
                  h f.type x (.payload htag hvariant hpayload hf hx)
              | _ => rfl
        | _ => rfl
    · next hkeys => simp [hkeys]
  | _ => rfl

private theorem Definition.attempt_of_some {d : Definition} {v : Json}
    (h : ∀ t x, d.Inspects v t x → check t x = some (accept t x)) :
    d.attempt shape check v = some (d.accepts shape accept v) := by
  cases d with
  | struct d =>
    cases v with
    | object members =>
      exact Field.attempt_of_some fun f hf x hx => h f.type x (.field hf hx)
    | _ => rfl
  | union d => exact Union.attempt_of_some h
  | enum d => cases v <;> rfl
  | «alias» d => exact h d.target v .target

end

namespace Call

open Checker

/-- What a call comes to, where some calls are known to have answers: it asks for these in order and
stops as soon as it has its own. -/
def attempt (s : Schema) (shape : ShapePolicy) (known : Call → Option Bool) : Call → Option Bool
  | .check (.given w) v => some (w v)
  | .check (.primitive p) v => some (p.accepts v)
  | .check (.applied name env) v =>
    match s.find? name with
    | some d => known (.definition d env v)
    | none => some false
  | .check (.structural t scope env) v => known (.reference t (s.scopeOf scope.owner) env v)
  | .check .never _ => some false
  | .definition d env v =>
    d.attempt shape (fun t x => known (.reference t (Scope.of d) env x)) v
  | .reference (.primitive p) _ _ v => some (p.accepts v)
  | .reference (.parameter name) scope env v =>
    match (scope.index? name).bind fun i => env[i]? with
    | some c => known (.check c v)
    | none => some false
  | .reference (.named name) _ _ v =>
    match s.monomorphic? name with
    | some d => known (.definition d [] v)
    | none => some false
  | .reference (.generic name args) scope env v =>
    known (.check (supplied s scope env (.generic name args)) v)
  | .reference (.sequence inner) scope env v =>
    match v with
    | .array items => items.allM fun x => known (.reference inner scope env x)
    | _ => some false
  | .reference (.map inner) scope env v =>
    match v with
    | .object members => members.allM fun m => known (.reference inner scope env m.2)
    | _ => some false
  | .reference (.tuple elements) scope env v =>
    match v with
    | .array items =>
      if elements.length == items.length then
        (elements.zip items).allM fun p => known (.reference p.1 scope env p.2)
      else some false
    | _ => some false
  | .reference (.nullable inner) scope env v =>
    match v with
    | .null => some true
    | v => known (.reference inner scope env v)

/-- The run of a call ends with an answer: the runs of some calls do, and these are enough. -/
inductive Answers (s : Schema) (shape : ShapePolicy) : Call → Bool → Prop
  | intro {call : Call} {b : Bool} (known : Call → Option Bool) :
    (∀ made, ∀ answer ∈ known made, Answers s shape made answer) →
    attempt s shape known call = some b → Answers s shape call b

variable {s : Schema} {shape : ShapePolicy}

private theorem compatible_attempt {known known' : Call → Option Bool}
    (h : ∀ made, Compatible (known made) (known' made)) (call : Call) :
    Compatible (attempt s shape known call) (attempt s shape known' call) := by
  cases call with
  | check c v =>
    cases c with
    | applied name env =>
      simp only [attempt]
      cases s.find? name with
      | none => exact .refl _
      | some d => exact h _
    | structural t scope env => exact h _
    | _ => exact .refl _
  | definition d env v => exact Definition.compatible_attempt (fun t x => h _) d v
  | reference t scope env v =>
    cases t with
    | primitive p => exact .refl _
    | parameter name =>
      simp only [attempt]
      cases (scope.index? name).bind fun i => env[i]? with
      | none => exact .refl _
      | some c => exact h _
    | named name =>
      simp only [attempt]
      cases s.monomorphic? name with
      | none => exact .refl _
      | some d => exact h _
    | generic name args => exact h _
    | sequence inner =>
      cases v with
      | array items => exact compatible_allM fun x => h _
      | _ => exact .refl _
    | map inner =>
      cases v with
      | object members => exact compatible_allM fun m => h _
      | _ => exact .refl _
    | tuple elements =>
      cases v with
      | array items => exact compatible_ite _ (compatible_allM fun p => h _) _
      | _ => exact .refl _
    | nullable inner =>
      cases v with
      | null => exact .refl _
      | _ => exact h _

/-- A run does not end with two answers. -/
theorem Answers.unique {call : Call} {b b' : Bool} (h : Answers s shape call b)
    (h' : Answers s shape call b') : b = b' := by
  induction h generalizing b' with
  | intro known _ hb ih =>
    obtain ⟨known', hknown', hb'⟩ := h'
    have hcompatible : ∀ made, Compatible (known made) (known' made) :=
      fun made x hx y hy => ih made x hx (hknown' made y hy)
    exact compatible_attempt hcompatible _ _ hb _ hb'

variable {call call' : Call} {b : Bool}

private theorem answers_iff_of_handing (h : ∀ known, attempt s shape known call = known call') :
    Answers s shape call b ↔ Answers s shape call' b := by
  constructor
  · rintro ⟨known, hknown, hb⟩
    rw [h] at hb
    exact hknown call' b hb
  · intro hcall'
    classical
    refine .intro (fun made => if made = call' then some b else none) (fun made answer => ?_) ?_
    · split
      · rintro ⟨⟩
        subst made
        exact hcall'
      · rintro ⟨⟩
    · rw [h, if_pos rfl]

private theorem answers_iff_of_some {answer : Bool}
    (h : ∀ known, attempt s shape known call = some answer) :
    Answers s shape call b ↔ b = answer := by
  constructor
  · rintro ⟨known, _, hb⟩
    exact Option.some.inj (hb.symm.trans (h known))
  · rintro rfl
    exact .intro (fun _ => none) (fun _ _ h => nomatch h) (h _)

section

variable (s shape) (env : List Checker) (v : Json)

private theorem answers_never : Answers s shape (.check .never v) b ↔ b = false :=
  answers_iff_of_some fun _ => rfl

variable {d : Definition} {name : String}

private theorem answers_applied (hfind : s.find? name = some d) :
    Answers s shape (.check (.applied name env) v) b ↔ Answers s shape (.definition d env v) b :=
  answers_iff_of_handing fun _ => by simp only [attempt, hfind]

private theorem answers_structural {scope : Scope} (hscope : s.HasScope scope) (t : TypeRef) :
    Answers s shape (.check (.structural t scope env) v) b ↔
      Answers s shape (.reference t scope env v) b :=
  answers_iff_of_handing fun _ => by simp only [attempt, hscope.scopeOf_owner]

private theorem answers_reference_iff_supplied {scope : Scope} (hscope : s.HasScope scope)
    (t : TypeRef) :
    Answers s shape (.reference t scope env v) b ↔
      Answers s shape (.check (supplied s scope env t) v) b := by
  cases t with
  | primitive p =>
    exact (answers_iff_of_some fun _ => rfl).trans (answers_iff_of_some fun _ => rfl).symm
  | parameter name =>
    rw [supplied_parameter]
    cases hc : (scope.index? name).bind fun i => env[i]? with
    | none =>
      rw [Option.getD_none, answers_never]
      exact answers_iff_of_some fun _ => by simp only [attempt, hc]
    | some c => exact answers_iff_of_handing fun _ => by simp only [attempt, hc, Option.getD_some]
  | named name =>
    rw [supplied_named]
    cases hd : s.monomorphic? name with
    | none =>
      rw [Option.map_none, Option.getD_none, answers_never]
      exact answers_iff_of_some fun _ => by simp only [attempt, hd]
    | some d =>
      have hfind := Schema.find?_name (Schema.monomorphic?_eq_some.mp hd).1
      rw [Option.map_some, Option.getD_some, answers_applied s shape [] v hfind]
      exact answers_iff_of_handing fun _ => by simp only [attempt, hd]
  | generic name args => exact answers_iff_of_handing fun _ => rfl
  | sequence inner => exact (answers_structural s shape env v hscope _).symm
  | map inner => exact (answers_structural s shape env v hscope _).symm
  | tuple elements => exact (answers_structural s shape env v hscope _).symm
  | nullable inner => exact (answers_structural s shape env v hscope _).symm

end

end Call

/-- All scopes that a checker remembers are scopes of the schema. -/
inductive Checker.IsPlaced (s : Schema) : Checker → Prop
  | given (w : Validator) : IsPlaced s (.given w)
  | primitive (p : Primitive) : IsPlaced s (.primitive p)
  | applied {name : String} {env : List Checker} : (∀ c ∈ env, IsPlaced s c) →
    IsPlaced s (.applied name env)
  | structural {t : TypeRef} {scope : Scope} {env : List Checker} : s.HasScope scope →
    (∀ c ∈ env, IsPlaced s c) → IsPlaced s (.structural t scope env)
  | never : IsPlaced s .never

private theorem Checker.isPlaced_supplied {s : Schema} {scope : Scope} (hscope : s.HasScope scope)
    {env : List Checker} (henv : ∀ c ∈ env, c.IsPlaced s) (t : TypeRef) :
    (supplied s scope env t).IsPlaced s := by
  induction t with
  | primitive p => exact .primitive p
  | named name =>
    rw [supplied_named]
    cases s.monomorphic? name with
    | none => exact .never
    | some d => exact .applied (by simp)
  | generic name args ih =>
    rw [supplied_generic]
    cases s.generic? name args with
    | none => exact .never
    | some d =>
      refine .applied fun c hc => ?_
      obtain ⟨t, ht, rfl⟩ := List.mem_map.mp hc
      exact ih t ht
  | parameter name =>
    rw [supplied_parameter]
    cases hc : (scope.index? name).bind fun i => env[i]? with
    | none => exact .never
    | some c =>
      obtain ⟨i, _, hi⟩ := Option.bind_eq_some_iff.mp hc
      exact henv c (List.mem_of_getElem? hi)
  | sequence inner _ => exact .structural hscope henv
  | map inner _ => exact .structural hscope henv
  | tuple elements _ => exact .structural hscope henv
  | nullable inner _ => exact .structural hscope henv

namespace Call

open Checker

def IsPlaced (s : Schema) : Call → Prop
  | .check c _ => c.IsPlaced s
  | .definition d env _ => s.find? d.name = some d ∧ ∀ c ∈ env, c.IsPlaced s
  | .reference _ scope env _ => s.HasScope scope ∧ ∀ c ∈ env, c.IsPlaced s

variable {s : Schema} {shape : ShapePolicy} {call made : Call}

private theorem IsPlaced.makes (h : call.IsPlaced s) (hmade : Makes s call made) :
    made.IsPlaced s := by
  cases hmade with
  | applied hfind =>
    cases h with
    | applied henv => exact ⟨Schema.find?_name hfind, henv⟩
  | structural =>
    cases h with
    | structural hscope henv => exact ⟨hscope, henv⟩
  | body _ => exact ⟨.inr ⟨_, h.1, rfl⟩, h.2⟩
  | parameter _ hc => exact h.2 _ (List.mem_of_getElem? hc)
  | named hd => exact ⟨Schema.find?_name (Schema.monomorphic?_eq_some.mp hd).1, by simp⟩
  | generic => exact isPlaced_supplied h.1 h.2 _
  | sequence _ => exact h
  | map _ => exact h
  | tuple _ => exact h
  | nullable => exact h

private theorem attempt_of_some (h : call.IsPlaced s) {known : Call → Option Bool}
    {answers : Call → Bool}
    (hknown : ∀ made, Makes s call made → known made = some (answers made)) :
    attempt s shape known call = some (answer s shape answers call) := by
  cases call with
  | check c v =>
    cases c with
    | applied name env =>
      simp only [attempt, answer]
      cases hfind : s.find? name with
      | none => rfl
      | some d => exact hknown _ (.applied hfind)
    | structural t scope env =>
      cases h with
      | structural hscope _ =>
        simp only [attempt, answer, hscope.scopeOf_owner]
        exact hknown _ .structural
    | _ => rfl
  | definition d env v => exact Definition.attempt_of_some fun t x hx => hknown _ (.body hx)
  | reference t scope env v =>
    cases t with
    | primitive p => rfl
    | parameter name =>
      simp only [attempt, answer]
      cases hc : (scope.index? name).bind fun i => env[i]? with
      | none => rfl
      | some c =>
        obtain ⟨i, hi, hc⟩ := Option.bind_eq_some_iff.mp hc
        exact hknown _ (.parameter hi hc)
    | named name =>
      simp only [attempt, answer]
      cases hd : s.monomorphic? name with
      | none => rfl
      | some d => exact hknown _ (.named hd)
    | generic name args => exact hknown _ .generic
    | sequence inner =>
      cases v with
      | array items => exact allM_of_some fun x hx => hknown _ (.sequence hx)
      | _ => rfl
    | map inner =>
      cases v with
      | object members => exact allM_of_some fun m hm => hknown _ (.map hm)
      | _ => rfl
    | tuple elements =>
      cases v with
      | array items =>
        simp only [attempt, answer]
        split
        -- A list of another length is rejected before any element is looked at.
        · next hlength =>
          rw [hlength, Bool.true_and]
          exact allM_of_some fun p hp => hknown _ (.tuple hp)
        · next hlength => simp [hlength]
      | _ => rfl
    | nullable inner =>
      cases v with
      | null => rfl
      | _ => exact hknown _ .nullable

private theorem Ends.answers {b : Bool} (h : Ends s shape call b) (hplaced : call.IsPlaced s) :
    Answers s shape call b := by
  induction h with
  | @intro call answers _ ih =>
    classical
    refine .intro (fun made => if Makes s call made then some (answers made) else none)
      (fun made answer => ?_) (attempt_of_some hplaced fun made hmade => if_pos hmade)
    split
    · next hmade =>
      rintro ⟨⟩
      exact ih made hmade (hplaced.makes hmade)
    · rintro ⟨⟩

end Call

namespace Guards

open Checker Call

/-- A reference checked in place and the checker supplied for it agree, in every scope of a schema
and whatever checkers stand for the parameters: the run of one ends with an answer just if that of
the other does, and there are no two answers. Over a resolved schema, with functions from outside
for the parameters, it ends, with the answer of the validator of the reference, which is also the
validator supplied for it. -/
theorem direct_agrees_with_supplied :
    (∀ (s : Schema) (shape : ShapePolicy) (scope : Scope) (env : List Checker) (t : TypeRef)
        (v : Json), s.HasScope scope →
      (∀ b, Answers s shape (.reference t scope env v) b ↔
        Answers s shape (.check (supplied s scope env t) v) b) ∧
      ∀ b b', Answers s shape (.reference t scope env v) b →
        Answers s shape (.check (supplied s scope env t) v) b' → b = b') ∧
    ∀ (g : Guards) (scope : Scope) (ws : List Validator) (t : TypeRef) (v : Json),
      (scope = Scope.empty ∨ ∃ d ∈ g.schema.types, scope = Scope.of d) →
      Answers g.schema g.shape (.reference t scope (ws.map .given) v) (g.reference scope ws t v) ∧
      supply (g.backend ws) g.schema scope t v = g.reference scope ws t v := by
  refine ⟨fun s shape scope env t v hscope => ⟨fun b => ?_, fun b b' hdirect hsupplied => ?_⟩,
    fun g scope ws t v hscope => ⟨?_, by rw [supply_backend]⟩⟩
  · exact answers_reference_iff_supplied s shape env v hscope t
  · exact hdirect.unique ((answers_reference_iff_supplied s shape env v hscope t).mpr hsupplied)
  · have hplaced : ∀ c ∈ ws.map Checker.given, c.IsPlaced g.schema := by
      intro c hc
      obtain ⟨w, _, rfl⟩ := List.mem_map.mp hc
      exact .given w
    have hends := ends_reference_of_supplied (g.ends_supplied_given scope ws t v)
    exact hends.answers ⟨g.wellFormed.hasScope_iff.mpr hscope, hplaced⟩

def knot : Schema := ⟨[.alias ⟨"A", [], .named "A"⟩]⟩

def tied : TypeRef := .tuple [.primitive .string, .named "A"]

/-- The first part of the pair fails, so its second part is not looked at. -/
theorem direct_agrees_with_supplied_tied :
    knot.HasScope Scope.empty ∧
      Answers knot .closed (.reference tied Scope.empty [] (.array [.null, .null])) false ∧
      Answers knot .closed
        (.check (supplied knot Scope.empty [] tied) (.array [.null, .null])) false ∧
      nest ∈ nests.schema.types ∧ ∀ v, Answers nestSchema .closed
        (.reference (.generic "Nest" [.sequence (.parameter "T")]) (Scope.of nest)
          [.given fun _ => true] v)
        (nests.reference (Scope.of nest) [fun _ => true]
          (.generic "Nest" [.sequence (.parameter "T")]) v) := by
  have hempty : knot.HasScope Scope.empty := .inl rfl
  have hnest : nest ∈ nests.schema.types := List.mem_cons_self
  let known : Call → Option Bool
    | .reference (.primitive p) _ _ v => some (p.accepts v)
    | _ => none
  have hknown : ∀ made, ∀ answer ∈ known made, Answers knot .closed made answer := by
    intro made answer hmem
    unfold known at hmem
    split at hmem
    · exact (answers_iff_of_some fun _ => rfl).mpr (Option.some.inj hmem).symm
    · cases hmem
  have hdirect : Answers knot .closed
      (.reference tied Scope.empty [] (.array [.null, .null])) false := .intro known hknown rfl
  have hsupplied := ((direct_agrees_with_supplied.1 knot .closed Scope.empty [] tied
    (.array [.null, .null]) hempty).1 false).mp hdirect
  exact ⟨hempty, hdirect, hsupplied, hnest, fun v =>
    (direct_agrees_with_supplied.2 nests (Scope.of nest) [fun _ => true] _ v
      (.inr ⟨nest, hnest, rfl⟩)).1⟩

end Guards

end SchemaGuard
