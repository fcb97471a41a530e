import SchemaGuard.Guard.Validator
import SchemaGuard.Proofs.Guard.Induction
import SchemaGuard.Proofs.Json.Depth

/-!
The bound on unfolding is never reached: where a resolved schema is unfolded as often as the depth
of a value asks for, unfolding more often changes nothing. So guards satisfy the equations by which
they are defined, with no bound in them.
-/

set_option autoImplicit false
set_option relaxedAutoImplicit false

namespace SchemaGuard

theorem all_congr_of_mem {α : Type} {p q : α → Bool} {xs : List α} (h : ∀ x ∈ xs, p x = q x) :
    xs.all p = xs.all q := by
  rw [Bool.eq_iff_iff, List.all_eq_true, List.all_eq_true]
  exact forall₂_congr fun x hx => by rw [h x hx]

private theorem Field.allAccept_mono {shape : ShapePolicy} {check check' : TypeRef → Validator}
    {fields : List Field} {members : List (String × Json)}
    (h : ∀ f ∈ fields, ∀ x, members.lookup f.name = some x →
      check f.type x = true → check' f.type x = true)
    (haccept : Field.allAccept shape check fields members = true) :
    Field.allAccept shape check' fields members = true := by
  simp only [Field.allAccept, Bool.and_eq_true, List.all_eq_true] at haccept ⊢
  refine ⟨haccept.1, fun f hf => ?_⟩
  have hfield := haccept.2 f hf
  cases hx : members.lookup f.name with
  | none => simpa [hx] using hfield
  | some x =>
    rw [hx] at hfield
    exact h f hf x hx hfield

namespace Definition

/-- The body of a definition checks `x`, which is the value or a part of it, against a reference. -/
inductive Inspects : Definition → Json → TypeRef → Json → Prop
  | field {d : Struct} {members : List (String × Json)} {f : Field} {x : Json} :
    f ∈ d.fields → members.lookup f.name = some x →
    Inspects (.struct d) (.object members) f.type x
  | payload {d : Union} {members payload : List (String × Json)} {tag : String}
    {variant : Variant} {f : Field} {x : Json} :
    members.lookup tagKey = some (.string tag) → d.variant? tag = some variant →
    members.lookup payloadKey = some (.object payload) →
    f ∈ variant.fields → payload.lookup f.name = some x →
    Inspects (.union d) (.object members) f.type x
  | target {d : Alias} {v : Json} : Inspects (.alias d) v d.target v

variable {d : Definition} {v x : Json} {t : TypeRef}

theorem Inspects.mem_references (h : d.Inspects v t x) : t ∈ d.references := by
  cases h with
  | field hf _ => simpa [references, fieldLists] using ⟨_, hf, rfl⟩
  | payload _ hvariant _ hf _ =>
    have hmem := List.mem_of_find?_eq_some hvariant
    simp only [references, fieldLists, List.mem_map, List.mem_flatten]
    exact ⟨_, ⟨_, ⟨_, hmem, rfl⟩, hf⟩, rfl⟩
  | target => simp [references]

theorem Inspects.depth_lt (h : d.Inspects v t x) (hd : ∀ a, d ≠ .alias a) :
    x.depth < v.depth := by
  cases h with
  | field _ hx => exact Json.depth_lt_of_lookup hx
  | payload _ _ hpayload _ hx =>
    exact Nat.lt_trans (Json.depth_lt_of_lookup hx) (Json.depth_lt_of_lookup hpayload)
  | target => exact absurd rfl (hd _)

private theorem Inspects.depth_le (h : d.Inspects v t x) : x.depth ≤ v.depth := by
  by_cases halias : ∃ a, d = .alias a
  · obtain ⟨a, rfl⟩ := halias
    cases h
    exact Nat.le_refl _
  · exact Nat.le_of_lt (h.depth_lt fun a ha => halias ⟨a, ha⟩)

theorem accepts_mono {shape : ShapePolicy} {check check' : TypeRef → Validator}
    (h : ∀ t x, d.Inspects v t x → check t x = true → check' t x = true)
    (haccept : d.accepts shape check v = true) : d.accepts shape check' v = true := by
  cases d with
  | struct d =>
    cases v with
    | object members =>
      exact Field.allAccept_mono (fun f hf x hx => h f.type x (.field hf hx)) haccept
    | _ => exact haccept
  | union d =>
    cases v with
    | object members =>
      simp only [accepts, Union.accepts, Bool.and_eq_true] at haccept ⊢
      refine ⟨haccept.1, ?_⟩
      have hvariant := haccept.2
      split at hvariant
      · next tag htag =>
        split at hvariant
        · next variant payload hlookup hpayload =>
          exact Field.allAccept_mono
            (fun f hf x hx => h f.type x (.payload htag hlookup hpayload hf hx)) hvariant
        · cases hvariant
      · cases hvariant
    | _ => exact haccept
  | enum d => exact haccept
  | «alias» a => exact h a.target v .target haccept

theorem accepts_congr {shape : ShapePolicy} {check check' : TypeRef → Validator}
    (h : ∀ t x, d.Inspects v t x → check t x = check' t x) :
    d.accepts shape check v = d.accepts shape check' v := by
  rw [Bool.eq_iff_iff]
  exact ⟨accepts_mono fun t x hx ht => h t x hx ▸ ht,
    accepts_mono fun t x hx ht => (h t x hx).symm ▸ ht⟩

end Definition

namespace TypeRef

variable {s : Schema} {unfolded : Definition → List Validator → Validator} {scope : Scope}
  {env : List Validator}

private theorem validators_eq_map (ts : List TypeRef) :
    validators s unfolded scope env ts = ts.map (accepts s unfolded scope env) := by
  induction ts with
  | nil => rfl
  | cons t ts ih => rw [validators, ih, List.map_cons]

private theorem acceptsEach_eq (ts : List TypeRef) (xs : List Json) :
    acceptsEach s unfolded scope env ts xs
      = (ts.length == xs.length
        && (ts.zip xs).all fun p => p.1.accepts s unfolded scope env p.2) := by
  induction ts generalizing xs with
  | nil => cases xs <;> rfl
  | cons t ts ih =>
    cases xs with
    | nil => rfl
    | cons x xs =>
      rw [acceptsEach, ih]
      simp [Bool.and_left_comm]

variable {name : String} {v : Json} {items : List Json}

private theorem accepts_parameter : accepts s unfolded scope env (.parameter name) v
    = match scope.index? name with
      | some i => match env[i]? with
        | some check => check v
        | none => false
      | none => false := rfl

private theorem accepts_named : accepts s unfolded scope env (.named name) v
    = match s.monomorphic? name with
      | some d => unfolded d [] v
      | none => false := rfl

private theorem accepts_generic {args : List TypeRef} :
    accepts s unfolded scope env (.generic name args) v
    = match s.generic? name args with
      | some d => unfolded d (args.map (accepts s unfolded scope env)) v
      | none => false := by
  rw [← validators_eq_map]
  rfl

private theorem accepts_sequence {inner : TypeRef} :
    accepts s unfolded scope env (.sequence inner) (.array items)
      = items.all fun x => accepts s unfolded scope env inner x := rfl

private theorem accepts_map {inner : TypeRef} {members : List (String × Json)} :
    accepts s unfolded scope env (.map inner) (.object members)
      = members.all fun m => accepts s unfolded scope env inner m.2 := rfl

private theorem accepts_tuple {elements : List TypeRef} :
    accepts s unfolded scope env (.tuple elements) (.array items)
      = (elements.length == items.length
        && (elements.zip items).all fun p => p.1.accepts s unfolded scope env p.2) :=
  acceptsEach_eq elements items

end TypeRef

section Supply

variable {γ : Type} (b : Backend Id γ) (s : Schema) (scope : Scope)

private theorem supplyAll_eq_map (ts : List TypeRef) :
    supplyAll b s scope ts = ts.map (supply b s scope) := by
  induction ts with
  | nil => rfl
  | cons t ts ih =>
    rw [supplyAll, ih]
    rfl

theorem supply_cons (name : String) (t : TypeRef) (ts : List TypeRef) :
    supply b s scope (.generic name (t :: ts))
      = match s.instantiation? scope name (t :: ts) with
        | some inst => b.apply inst ((t :: ts).map (supply b s scope))
        | none => b.never := by
  rw [supply]
  cases s.instantiation? scope name (t :: ts) with
  | none => rfl
  | some inst =>
    change b.apply inst (supply b s scope t :: supplyAll b s scope ts)
      = b.apply inst (supply b s scope t :: ts.map (supply b s scope))
    rw [supplyAll_eq_map]

end Supply

namespace Schema

variable {s : Schema} {shape : ShapePolicy}

private def Agree (depth : Nat) (pair : Validator × Validator) : Prop :=
  ∀ v : Json, v.depth < depth → pair.1 v = pair.2 v

private def referencePair (s : Schema) (shape : ShapePolicy) (more n : Nat) (scope : Scope)
    (env : List (Validator × Validator)) (t : TypeRef) : Validator × Validator :=
  (t.accepts s (s.accepts shape n) scope (env.map Prod.fst),
    t.accepts s (s.accepts shape (n + more)) scope (env.map Prod.snd))

private def definitionPair (s : Schema) (shape : ShapePolicy) (more n : Nat) (d : Definition)
    (env : List (Validator × Validator)) : Validator × Validator :=
  (s.accepts shape n d (env.map Prod.fst), s.accepts shape (n + more) d (env.map Prod.snd))

private theorem guarded_agree (s : Schema) (shape : ShapePolicy) (more : Nat) :
    Guarded s (referencePair s shape more) (definitionPair s shape more) Agree where
  zero := fun _ hv => absurd hv (Nat.not_lt_zero _)
  weaken h := fun v hv => h v (Nat.lt_succ_of_lt hv)
  primitive := fun _ _ => rfl
  parameter {n scope env name depth} h v hv := by
    simp only [referencePair, TypeRef.accepts_parameter]
    cases hi : scope.index? name with
    | none => rfl
    | some i =>
      cases hx : env[i]? with
      | none => simp [hx]
      | some x => simpa [hx] using h i x hi hx v hv
  named {n scope env name depth} h v hv := by
    simp only [referencePair, TypeRef.accepts_named]
    cases hd : s.monomorphic? name with
    | none => rfl
    | some d => exact h d hd v hv
  generic {n scope env name args depth} h v hv := by
    simp only [referencePair, TypeRef.accepts_generic]
    cases hd : s.generic? name args with
    | none => rfl
    | some d =>
      have hagree := h d hd v hv
      simp only [definitionPair, List.map_map] at hagree
      exact hagree
  sequence h v hv := by
    cases v with
    | array items =>
      simp only [referencePair, TypeRef.accepts_sequence]
      refine all_congr_of_mem fun x hx => h x ?_
      have := Json.depth_lt_of_mem_items hx
      omega
    | _ => rfl
  map h v hv := by
    cases v with
    | object members =>
      simp only [referencePair, TypeRef.accepts_map]
      refine all_congr_of_mem fun m hm => h m.2 ?_
      have := Json.depth_lt_of_mem_members hm
      omega
    | _ => rfl
  tuple h v hv := by
    cases v with
    | array items =>
      simp only [referencePair, TypeRef.accepts_tuple]
      refine congrArg (_ && ·)
        (all_congr_of_mem fun p hp => h p.1 (List.of_mem_zip hp).1 p.2 ?_)
      have := Json.depth_lt_of_mem_items (List.of_mem_zip hp).2
      omega
    | _ => rfl
  nullable h v hv := by
    cases v with
    | null => rfl
    | _ => exact h _ hv
  -- Parts of the value are less deep, so they need one unfolding less.
  body {n d env depth} hfind hlength hd h v hv := by
    have hmore : n + 1 + more = n + more + 1 := by omega
    simp only [definitionPair, hmore]
    refine Definition.accepts_congr fun t x hx => h t hx.mem_references x ?_
    have := hx.depth_lt hd
    omega
  target {n a env depth} hfind hlength h v hv := by
    have hmore : n + 1 + more = n + more + 1 := by omega
    simp only [definitionPair, hmore]
    exact h v hv

private theorem accepts_succ (n : Nat) (d : Definition) (env : List Validator) :
    s.accepts shape (n + 1) d env
      = d.accepts shape (TypeRef.accepts s (s.accepts shape n) (Scope.of d) env) := rfl

variable {depth n m : Nat} {pairs : List (Validator × Validator)}

private theorem accepts_eq_of_le (w : s.WellFormed) (shape : ShapePolicy)
    (hn : (expansionLimit + 2) * depth ≤ n) (hm : n ≤ m) {d : Definition}
    (hfind : s.find? d.name = some d) (hlength : pairs.length = d.params.length)
    (hpairs : ∀ x ∈ pairs, Agree depth x) {v : Json} (hv : v.depth < depth) :
    s.accepts shape n d (pairs.map Prod.fst) v = s.accepts shape m d (pairs.map Prod.snd) v := by
  obtain ⟨more, rfl⟩ := Nat.exists_eq_add_of_le hm
  exact (guarded_agree s shape more).fine_definition
    (fun _ a ha => w.aliases a (mem_of_find? ha)) depth n d pairs hn hfind hlength hpairs v hv

private theorem reference_accepts_eq_of_le (w : s.WellFormed) (shape : ShapePolicy)
    (hn : (expansionLimit + 2) * depth ≤ n) (hm : n ≤ m) (scope : Scope)
    (hpairs : ∀ x ∈ pairs, Agree depth x) (t : TypeRef) {v : Json} (hv : v.depth < depth) :
    t.accepts s (s.accepts shape n) scope (pairs.map Prod.fst) v
      = t.accepts s (s.accepts shape m) scope (pairs.map Prod.snd) v := by
  obtain ⟨more, rfl⟩ := Nat.exists_eq_add_of_le hm
  exact (guarded_agree s shape more).fine_reference
    (fun _ a ha => w.aliases a (mem_of_find? ha)) hn hpairs t v hv

end Schema

namespace Guards

variable (g : Guards) (scope : Scope) (env : List Validator)

theorem wellFormed : g.schema.WellFormed := g.resolved.wellFormed

theorem acyclic (name : String) (a : Alias) (h : g.schema.find? name = some (.alias a)) :
    g.schema.isCyclic a = false :=
  g.wellFormed.aliases a (Schema.mem_of_find? h)

private theorem map_fst_pair {α β γ : Type} (f : α → β) (f' : α → γ) (xs : List α) :
    (xs.map fun x => (f x, f' x)).map Prod.fst = xs.map f :=
  List.map_map ..

private theorem map_snd_pair {α β γ : Type} (f : α → β) (f' : α → γ) (xs : List α) :
    (xs.map fun x => (f x, f' x)).map Prod.snd = xs.map f' :=
  List.map_map ..

private def twice (env : List Validator) : List (Validator × Validator) := env.map fun w => (w, w)

private theorem agree_twice {depth : Nat} (env : List Validator) :
    ∀ x ∈ twice env, Schema.Agree depth x := by
  intro x hx v _
  obtain ⟨w, _, rfl⟩ := List.mem_map.mp hx
  rfl

private theorem fst_twice (env : List Validator) : (twice env).map Prod.fst = env :=
  (map_fst_pair ..).trans (List.map_id env)

private theorem snd_twice (env : List Validator) : (twice env).map Prod.snd = env :=
  (map_snd_pair ..).trans (List.map_id env)

private theorem unfoldings_mono {x v : Json} (h : x.depth ≤ v.depth) :
    unfoldings x ≤ unfoldings v :=
  Nat.mul_le_mul_left _ (Nat.succ_le_succ h)

private theorem reference_eq_of_le {n : Nat} {v : Json} (hn : unfoldings v ≤ n) (t : TypeRef) :
    t.accepts g.schema (g.schema.accepts g.shape n) scope env v = g.reference scope env t v := by
  have h := Schema.reference_accepts_eq_of_le g.wellFormed g.shape (Nat.le_refl _) hn scope
    (agree_twice env) t (Nat.lt_succ_self v.depth)
  rw [fst_twice, snd_twice] at h
  exact h.symm

private theorem definition_accepts_eq_of_le {n : Nat} {v : Json} (hn : unfoldings v ≤ n)
    (d : Definition) :
    d.accepts g.shape (TypeRef.accepts g.schema (g.schema.accepts g.shape n) (Scope.of d) env) v
      = d.accepts g.shape (g.reference (Scope.of d) env) v :=
  Definition.accepts_congr fun t _ hx =>
    g.reference_eq_of_le _ _ (Nat.le_trans (unfoldings_mono hx.depth_le) hn) t

theorem applied_eq {d : Definition} (hfind : g.schema.find? d.name = some d)
    (hlength : env.length = d.params.length) (v : Json) :
    g.applied d env v = d.accepts g.shape (g.reference (Scope.of d) env) v := by
  have h := Schema.accepts_eq_of_le g.wellFormed g.shape
    (Nat.le_refl _) (Nat.le_succ (unfoldings v)) hfind (by simpa [twice] using hlength)
    (agree_twice env) (Nat.lt_succ_self v.depth)
  rw [fst_twice, snd_twice, Schema.accepts_succ,
    g.definition_accepts_eq_of_le env (Nat.le_refl (unfoldings v))] at h
  exact h

theorem applied_alias {a : Alias} (hfind : g.schema.find? a.name = some (.alias a))
    (hlength : env.length = a.params.length) (v : Json) :
    g.applied (.alias a) env v = g.reference (Scope.of (.alias a)) env a.target v :=
  g.applied_eq env (d := .alias a) hfind hlength v

theorem reference_parameter (name : String) : g.reference scope env (.parameter name)
    = ((scope.index? name).bind fun i => env[i]?).getD fun _ => false := by
  funext v
  simp only [reference, TypeRef.accepts_parameter]
  cases scope.index? name with
  | none => rfl
  | some i => cases hx : env[i]? <;> simp [hx]

theorem reference_named (name : String) : g.reference scope env (.named name)
    = ((g.schema.monomorphic? name).map fun d => g.applied d []).getD fun _ => false := by
  funext v
  simp only [reference, TypeRef.accepts_named]
  cases g.schema.monomorphic? name <;> rfl

theorem reference_generic (name : String) (args : List TypeRef) :
    g.reference scope env (.generic name args)
      = ((g.schema.generic? name args).map fun d =>
          g.applied d (args.map (g.reference scope env))).getD fun _ => false := by
  funext v
  simp only [reference, TypeRef.accepts_generic]
  cases hd : g.schema.generic? name args with
  | none => rfl
  | some d =>
    obtain ⟨hfind, hparams⟩ := Schema.generic?_eq_some.mp hd
    -- The validators of the arguments differ on values deeper than `v`, which are never met.
    let pairs := args.map fun t =>
      (t.accepts g.schema (g.schema.accepts g.shape (unfoldings v)) scope env,
        g.reference scope env t)
    have hpairs : ∀ x ∈ pairs, Schema.Agree (v.depth + 1) x := by
      intro x hx y hy
      obtain ⟨t, _, rfl⟩ := List.mem_map.mp hx
      exact g.reference_eq_of_le _ _ (unfoldings_mono (Nat.le_of_lt_succ hy)) t
    have h := Schema.accepts_eq_of_le g.wellFormed g.shape (Nat.le_refl _)
      (Nat.le_refl _) (Schema.find?_name hfind) (by simp [pairs, hparams]) hpairs
      (Nat.lt_succ_self v.depth)
    rw [map_fst_pair, map_snd_pair] at h
    exact h

theorem reference_sequence (inner : TypeRef) (v : Json) :
    g.reference scope env (.sequence inner) v
      = match v with
        | .array items => items.all (g.reference scope env inner)
        | _ => false := by
  cases v with
  | array items =>
    simp only [reference, TypeRef.accepts_sequence]
    exact all_congr_of_mem fun x hx => g.reference_eq_of_le _ _
      (unfoldings_mono (Nat.le_of_lt (Json.depth_lt_of_mem_items hx))) inner
  | _ => rfl

theorem reference_map (inner : TypeRef) (v : Json) :
    g.reference scope env (.map inner) v
      = match v with
        | .object members => members.all fun m => g.reference scope env inner m.2
        | _ => false := by
  cases v with
  | object members =>
    simp only [reference, TypeRef.accepts_map]
    exact all_congr_of_mem fun m hm => g.reference_eq_of_le _ _
      (unfoldings_mono (Nat.le_of_lt (Json.depth_lt_of_mem_members hm))) inner
  | _ => rfl

theorem reference_tuple (elements : List TypeRef) (v : Json) :
    g.reference scope env (.tuple elements) v
      = match v with
        | .array items => elements.length == items.length
            && (elements.zip items).all fun p => g.reference scope env p.1 p.2
        | _ => false := by
  cases v with
  | array items =>
    simp only [reference, TypeRef.accepts_tuple]
    refine congrArg (elements.length == items.length && ·) (all_congr_of_mem fun p hp => ?_)
    exact g.reference_eq_of_le _ _
      (unfoldings_mono (Nat.le_of_lt (Json.depth_lt_of_mem_items (List.of_mem_zip hp).2))) p.1
  | _ => rfl

theorem reference_nullable (inner : TypeRef) (v : Json) :
    g.reference scope env (.nullable inner) v
      = match v with
        | .null => true
        | v => g.reference scope env inner v := by
  cases v <;> rfl

theorem supply_backend (t : TypeRef) :
    supply (g.backend env) g.schema scope t = g.reference scope env t := by
  induction t with
  | primitive p => rfl
  | named name =>
    rw [supply, reference_named, Backend.monomorphic]
    cases g.schema.monomorphic? name <;> rfl
  | generic name args ih =>
    cases args with
    | nil =>
      rw [supply, reference_generic, Schema.generic?_nil, Backend.monomorphic]
      cases g.schema.monomorphic? name <;> rfl
    | cons t ts =>
      rw [supply_cons, reference_generic, List.map_congr_left ih, Schema.instantiation?]
      cases g.schema.generic? name (t :: ts) <;> rfl
  | parameter name =>
    rw [supply, reference_parameter]
    cases scope.index? name <;> rfl
  | sequence inner _ => rfl
  | map inner _ => rfl
  | tuple elements _ => rfl
  | nullable inner _ => rfl

/-- The validator of a reference that stands in no definition. -/
theorem validatorFor_eq_ok_iff {t : TypeRef} {w : Validator} : g.validatorFor t = .ok w ↔
    g.resolved.checkUse t = .ok () ∧ w = g.reference Scope.empty [] t := by
  unfold validatorFor
  cases g.resolved.checkUse t with
  | error errors => simp
  | ok u => simp [supply_backend, eq_comm]

theorem guard_eq_ok_iff {name : String} {w : Validator} : g.guard name = .ok w ↔
    ∃ d, g.schema.monomorphic? name = some d ∧ w = g.applied d [] := by
  unfold guard Schema.monomorphic?
  cases g.schema.find? name with
  | none => simp
  | some d => cases hgeneric : d.isGeneric <;> simp [Option.filter, hgeneric, eq_comm]

theorem instantiate_eq_ok_iff {name : String} {ws : List Validator} {w : Validator} :
    g.instantiate name ws = .ok w ↔ ∃ d, g.schema.find? name = some d ∧ d.isGeneric = true ∧
      ws.length = d.params.length ∧ w = g.applied d ws := by
  unfold instantiate genericDefinition
  cases g.schema.find? name with
  | none => simp [bind, Except.bind]
  | some d =>
    cases hgeneric : d.isGeneric with
    | false => simp [bind, Except.bind, hgeneric]
    | true =>
      by_cases hlength : ws.length = d.params.length
      · simp [bind, Except.bind, pure, Except.pure, hgeneric, hlength, @eq_comm _ w]
      · simp [bind, Except.bind, hgeneric, hlength]

end Guards

end SchemaGuard
