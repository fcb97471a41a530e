import SchemaGuard.Proofs.Guard.Unfolding

/-!
The calls that guards make of each other while they run, without any bound on them. A checker is
kept as what it was made from, so that it can be called later: a function from outside, or a piece
of the schema with the checkers for the parameters in scope. `Call.answer` is the body of a call
with the answers of the calls in it left open, `Call.Makes` says which calls these are, and
`Call.Ends` puts the two together: a call ends if all calls in it end.
-/

set_option autoImplicit false
set_option relaxedAutoImplicit false

namespace SchemaGuard

/-- A checker, as what it was made from. -/
inductive Checker where
  /-- A function from outside that always answers. -/
  | given (w : Validator)
  | primitive (p : Primitive)
  /-- The definition of a name, with checkers for its parameters. -/
  | applied (name : String) (env : List Checker)
  /-- A reference, with checkers for the parameters in scope. -/
  | structural (t : TypeRef) (scope : Scope) (env : List Checker)
  | never

namespace Checker

def backend (env : List Checker) : Backend Id Checker where
  primitive p := primitive p
  guard d := applied d.name []
  param i _ := env[i]?.getD never
  apply inst args := applied inst.definition.name args
  structural t scope := structural t scope env
  never := never

/-- The checker that a reference in a scope is given. -/
def supplied (s : Schema) (scope : Scope) (env : List Checker) (t : TypeRef) : Checker :=
  supply (backend env) s scope t

section Supplied

variable {s : Schema} {scope : Scope} {env : List Checker}

theorem supplied_parameter (name : String) : supplied s scope env (.parameter name)
    = ((scope.index? name).bind fun i => env[i]?).getD never := by
  rw [supplied, supply]
  cases scope.index? name <;> rfl

theorem supplied_named (name : String) : supplied s scope env (.named name)
    = ((s.monomorphic? name).map fun d => applied d.name []).getD never := by
  rw [supplied, supply, Backend.monomorphic]
  cases s.monomorphic? name <;> rfl

theorem supplied_generic (name : String) (args : List TypeRef) :
    supplied s scope env (.generic name args)
      = ((s.generic? name args).map fun d =>
          applied d.name (args.map (supplied s scope env))).getD never := by
  cases args with
  | nil =>
    rw [supplied, supply, Schema.generic?_nil, Backend.monomorphic]
    cases s.monomorphic? name <;> rfl
  | cons t ts =>
    rw [supplied, supply_cons, Schema.instantiation?]
    cases s.generic? name (t :: ts) <;> rfl

end Supplied

end Checker

/-- A function of the guards at work on a value. -/
inductive Call where
  | check (c : Checker) (v : Json)
  /-- The body of a definition, with checkers for its parameters. -/
  | definition (d : Definition) (env : List Checker) (v : Json)
  /-- A reference, with checkers for the parameters in scope. -/
  | reference (t : TypeRef) (scope : Scope) (env : List Checker) (v : Json)

namespace Call

open Checker

/-- A call makes another one, unless it has an answer before. -/
inductive Makes (s : Schema) : Call → Call → Prop
  | applied {name : String} {d : Definition} {env : List Checker} {v : Json} :
    s.find? name = some d → Makes s (.check (.applied name env) v) (.definition d env v)
  | structural {t : TypeRef} {scope : Scope} {env : List Checker} {v : Json} :
    Makes s (.check (.structural t scope env) v) (.reference t scope env v)
  | body {d : Definition} {env : List Checker} {v x : Json} {t : TypeRef} :
    d.Inspects v t x → Makes s (.definition d env v) (.reference t (Scope.of d) env x)
  | parameter {name : String} {scope : Scope} {env : List Checker} {v : Json} {i : Nat}
    {c : Checker} : scope.index? name = some i → env[i]? = some c →
    Makes s (.reference (.parameter name) scope env v) (.check c v)
  | named {name : String} {scope : Scope} {env : List Checker} {v : Json} {d : Definition} :
    s.monomorphic? name = some d →
    Makes s (.reference (.named name) scope env v) (.definition d [] v)
  | generic {name : String} {args : List TypeRef} {scope : Scope} {env : List Checker} {v : Json} :
    Makes s (.reference (.generic name args) scope env v)
      (.check (supplied s scope env (.generic name args)) v)
  | sequence {inner : TypeRef} {scope : Scope} {env : List Checker} {items : List Json} {x : Json} :
    x ∈ items →
    Makes s (.reference (.sequence inner) scope env (.array items)) (.reference inner scope env x)
  | map {inner : TypeRef} {scope : Scope} {env : List Checker} {members : List (String × Json)}
    {key : String} {x : Json} : (key, x) ∈ members →
    Makes s (.reference (.map inner) scope env (.object members)) (.reference inner scope env x)
  | tuple {elements : List TypeRef} {scope : Scope} {env : List Checker} {items : List Json}
    {t : TypeRef} {x : Json} : (t, x) ∈ elements.zip items →
    Makes s (.reference (.tuple elements) scope env (.array items)) (.reference t scope env x)
  | nullable {inner : TypeRef} {scope : Scope} {env : List Checker} {v : Json} :
    Makes s (.reference (.nullable inner) scope env v) (.reference inner scope env v)

def answer (s : Schema) (shape : ShapePolicy) (answers : Call → Bool) : Call → Bool
  | .check (.given w) v => w v
  | .check (.primitive p) v => p.accepts v
  | .check (.applied name env) v =>
    match s.find? name with
    | some d => answers (.definition d env v)
    | none => false
  | .check (.structural t scope env) v => answers (.reference t scope env v)
  | .check .never _ => false
  | .definition d env v =>
    d.accepts shape (fun t x => answers (.reference t (Scope.of d) env x)) v
  | .reference (.primitive p) _ _ v => p.accepts v
  | .reference (.parameter name) scope env v =>
    match (scope.index? name).bind fun i => env[i]? with
    | some c => answers (.check c v)
    | none => false
  | .reference (.named name) _ _ v =>
    match s.monomorphic? name with
    | some d => answers (.definition d [] v)
    | none => false
  | .reference (.generic name args) scope env v =>
    answers (.check (supplied s scope env (.generic name args)) v)
  | .reference (.sequence inner) scope env v =>
    match v with
    | .array items => items.all fun x => answers (.reference inner scope env x)
    | _ => false
  | .reference (.map inner) scope env v =>
    match v with
    | .object members => members.all fun m => answers (.reference inner scope env m.2)
    | _ => false
  | .reference (.tuple elements) scope env v =>
    match v with
    | .array items => elements.length == items.length
        && (elements.zip items).all fun p => answers (.reference p.1 scope env p.2)
    | _ => false
  | .reference (.nullable inner) scope env v =>
    match v with
    | .null => true
    | v => answers (.reference inner scope env v)

variable {s : Schema} {shape : ShapePolicy}

private theorem answer_congr {call : Call} {answers answers' : Call → Bool}
    (h : ∀ made, Makes s call made → answers made = answers' made) :
    answer s shape answers call = answer s shape answers' call := by
  cases call with
  | check c v =>
    cases c with
    | applied name env =>
      simp only [answer]
      cases hfind : s.find? name with
      | none => rfl
      | some d => exact h _ (.applied hfind)
    | structural t scope env => exact h _ .structural
    | _ => rfl
  | definition d env v =>
    exact Definition.accepts_congr fun t x hx => h _ (.body hx)
  | reference t scope env v =>
    cases t with
    | primitive p => rfl
    | parameter name =>
      simp only [answer]
      cases hc : (scope.index? name).bind fun i => env[i]? with
      | none => rfl
      | some c =>
        obtain ⟨i, hi, hc⟩ := Option.bind_eq_some_iff.mp hc
        exact h _ (.parameter hi hc)
    | named name =>
      simp only [answer]
      cases hd : s.monomorphic? name with
      | none => rfl
      | some d => exact h _ (.named hd)
    | generic name args => exact h _ .generic
    | sequence inner =>
      cases v with
      | array items => exact all_congr_of_mem fun x hx => h _ (.sequence hx)
      | _ => rfl
    | map inner =>
      cases v with
      | object members => exact all_congr_of_mem fun m hm => h _ (.map hm)
      | _ => rfl
    | tuple elements =>
      cases v with
      | array items =>
        simp only [answer]
        congr 1
        exact all_congr_of_mem fun p hp => h _ (.tuple hp)
      | _ => rfl
    | nullable inner =>
      cases v with
      | null => rfl
      | _ => exact h _ .nullable

/-- A call ends with an answer: all calls that it makes end, and the answer follows from theirs. -/
inductive Ends (s : Schema) (shape : ShapePolicy) : Call → Bool → Prop
  | intro {call : Call} (answers : Call → Bool) :
    (∀ made, Makes s call made → Ends s shape made (answers made)) →
    Ends s shape call (answer s shape answers call)

theorem Ends.chain_breaks {call : Call} {b : Bool} (h : Ends s shape call b)
    (chain : Nat → Call) (hstart : chain 0 = call) : ∃ i, ¬ Makes s (chain i) (chain (i + 1)) := by
  induction h generalizing chain with
  | @intro call answers _ ih =>
    by_cases hmade : Makes s (chain 0) (chain 1)
    · rw [hstart] at hmade
      obtain ⟨i, hi⟩ := ih (chain 1) hmade (fun i => chain (i + 1)) rfl
      exact ⟨i + 1, hi⟩
    · exact ⟨0, hmade⟩

theorem Ends.unique {call : Call} {b b' : Bool} (h : Ends s shape call b)
    (h' : Ends s shape call b') : b = b' := by
  induction h generalizing b' with
  | intro answers _ ih =>
    obtain ⟨answers', hmade'⟩ := h'
    exact answer_congr fun made hmade => ih made hmade (hmade' made hmade)

variable {scope : Scope} {env : List Checker} {v : Json} {b : Bool}

private theorem Ends.of {call : Call} (answers : Call → Bool)
    (hmade : ∀ made, Makes s call made → Ends s shape made (answers made))
    (hb : answer s shape answers call = b) : Ends s shape call b :=
  hb ▸ .intro answers hmade

theorem ends_given (w : Validator) : Ends s shape (.check (.given w) v) (w v) :=
  .of (fun _ => false) (fun _ hmade => nomatch hmade) rfl

theorem ends_never : Ends s shape (.check .never v) false :=
  .of (fun _ => false) (fun _ hmade => nomatch hmade) rfl

theorem ends_primitive (p : Primitive) : Ends s shape (.check (.primitive p) v) (p.accepts v) :=
  .of (fun _ => false) (fun _ hmade => nomatch hmade) rfl

theorem ends_applied_iff {name : String} {d : Definition} (hfind : s.find? name = some d) :
    Ends s shape (.check (.applied name env) v) b ↔ Ends s shape (.definition d env v) b := by
  constructor
  · rintro ⟨answers, hmade⟩
    simp only [answer, hfind]
    exact hmade _ (.applied hfind)
  · intro h
    refine .of (fun _ => b) (fun made hmade => ?_) (by simp only [answer, hfind])
    cases hmade with
    | applied hfind' =>
      obtain rfl := Option.some.inj (hfind.symm.trans hfind')
      exact h

theorem ends_structural_iff {t : TypeRef} :
    Ends s shape (.check (.structural t scope env) v) b ↔
      Ends s shape (.reference t scope env v) b := by
  constructor
  · rintro ⟨answers, hmade⟩
    exact hmade _ .structural
  · intro h
    refine .of (fun _ => b) (fun made hmade => ?_) rfl
    cases hmade
    exact h

theorem ends_definition {d : Definition} {check : TypeRef → Validator}
    (h : ∀ t x, d.Inspects v t x → Ends s shape (.reference t (Scope.of d) env x) (check t x)) :
    Ends s shape (.definition d env v) (d.accepts shape check v) := by
  let answers : Call → Bool
    | .reference t _ _ x => check t x
    | _ => false
  refine .of answers (fun made hmade => ?_) rfl
  cases hmade with
  | body hx => exact h _ _ hx

theorem ends_sequence {inner : TypeRef} {check : Validator} {items : List Json}
    (h : ∀ x ∈ items, Ends s shape (.reference inner scope env x) (check x)) :
    Ends s shape (.reference (.sequence inner) scope env (.array items)) (items.all check) := by
  let answers : Call → Bool
    | .reference _ _ _ x => check x
    | _ => false
  refine .of answers (fun made hmade => ?_) rfl
  cases hmade with
  | sequence hx => exact h _ hx

theorem ends_map {inner : TypeRef} {check : Validator} {members : List (String × Json)}
    (h : ∀ m ∈ members, Ends s shape (.reference inner scope env m.2) (check m.2)) :
    Ends s shape (.reference (.map inner) scope env (.object members))
      (members.all fun m => check m.2) := by
  let answers : Call → Bool
    | .reference _ _ _ x => check x
    | _ => false
  refine .of answers (fun made hmade => ?_) rfl
  cases hmade with
  | map hx => exact h _ hx

theorem ends_tuple {elements : List TypeRef} {check : TypeRef → Validator} {items : List Json}
    (h : ∀ p ∈ elements.zip items, Ends s shape (.reference p.1 scope env p.2) (check p.1 p.2)) :
    Ends s shape (.reference (.tuple elements) scope env (.array items))
      (elements.length == items.length && (elements.zip items).all fun p => check p.1 p.2) := by
  let answers : Call → Bool
    | .reference t _ _ x => check t x
    | _ => false
  refine .of answers (fun made hmade => ?_) rfl
  cases hmade with
  | tuple hp => exact h _ hp

theorem ends_nullable {inner : TypeRef} {check : Validator} :
    Ends s shape (.reference inner scope env v) (check v) →
    Ends s shape (.reference (.nullable inner) scope env v)
      (match v with
        | .null => true
        | v => check v) := by
  intro h
  refine .of (fun _ => check v) (fun made hmade => ?_) (by cases v <;> rfl)
  cases hmade
  exact h

/-- Where the checker that a reference is given ends, so does the reference looked at in place. -/
theorem ends_reference_of_supplied {t : TypeRef}
    (h : Ends s shape (.check (supplied s scope env t) v) b) :
    Ends s shape (.reference t scope env v) b := by
  cases t with
  | primitive p =>
    obtain rfl := h.unique (ends_primitive p)
    exact .of (fun _ => false) (fun _ hmade => nomatch hmade) rfl
  | parameter name =>
    rw [supplied_parameter] at h
    refine .of (fun _ => b) (fun made hmade => ?_) ?_
    · cases hmade with
      | parameter hi hc =>
        rw [hi, Option.bind_some, hc] at h
        exact h
    · simp only [answer]
      cases hc : (scope.index? name).bind fun i => env[i]? with
      | none =>
        rw [hc] at h
        exact (h.unique ends_never).symm
      | some c => rfl
  | named name =>
    rw [supplied_named] at h
    refine .of (fun _ => b) (fun made hmade => ?_) ?_
    · cases hmade with
      | named hd =>
        rw [hd] at h
        obtain ⟨hfind, _⟩ := Schema.monomorphic?_eq_some.mp hd
        exact (ends_applied_iff (Schema.find?_name hfind)).mp h
    · simp only [answer]
      cases hd : s.monomorphic? name with
      | none =>
        rw [hd] at h
        exact (h.unique ends_never).symm
      | some d => rfl
  | generic name args =>
    refine .of (fun _ => b) (fun made hmade => ?_) rfl
    cases hmade
    exact h
  | sequence inner => exact ends_structural_iff.mp h
  | map inner => exact ends_structural_iff.mp h
  | tuple elements => exact ends_structural_iff.mp h
  | nullable inner => exact ends_structural_iff.mp h

end Call

end SchemaGuard
