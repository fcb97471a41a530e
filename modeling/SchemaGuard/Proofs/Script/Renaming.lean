import SchemaGuard.Proofs.Script.Repeats

/-!
Expressions that differ in the names of generated variables only. The variables of a definition are
counted from one, so what is emitted for a reference depends on where in a definition that happens;
but emitted from another count it is the same up to these names.
-/

set_option autoImplicit false
set_option relaxedAutoImplicit false

namespace SchemaGuard.Script

/-- The names of a module, which stay, and the counts from which variables are counted before and
after. -/
structure Renaming where
  declared : List String
  before : Nat
  after : Nat

/-- The one variable is as far from the count before as the other one is from the count after. -/
def Renaming.Moves (ρ : Renaming) (x y : String) : Prop :=
  ∃ i j : Nat, x = "x" ++ toString i ∧ y = "x" ++ toString j ∧ i + ρ.after = j + ρ.before

/-- Inside functions with these pairs of parameters, the innermost first, the one name on one side
means the parameter that the other one means on the other side. -/
def Paired : List (String × String) → String → String → Prop
  | [], _, _ => False
  | (a, b) :: env, x, y => x = a ∧ y = b ∨ x ≠ a ∧ y ≠ b ∧ Paired env x y

/-- The names mean the same parameter, or are one name that no variable is given or that is
declared in the module. -/
def Renaming.Keeps (ρ : Renaming) (env : List (String × String)) (x y : String) : Prop :=
  Paired env x y ∨ x = y ∧ (IsVariable x → x ∈ ρ.declared)

section

variable (ρ : Renaming)

mutual
/-- The expressions are the same up to the names of generated variables, each of which is renamed
wherever the function that binds it goes, and all of which are moved as far. -/
inductive Renamed : List (String × String) → Expr → Expr → Prop
  | bool {env : List (String × String)} (b : Bool) : Renamed env (.bool b) (.bool b)
  | null {env : List (String × String)} : Renamed env .null .null
  | number {env : List (String × String)} (n : Nat) : Renamed env (.number n) (.number n)
  | string {env : List (String × String)} (s : String) : Renamed env (.string s) (.string s)
  | name {env : List (String × String)} {x y : String} : ρ.Keeps env x y →
    Renamed env (.name x) (.name y)
  | index {env : List (String × String)} {a a' b b' : Expr} : Renamed env a a' →
    Renamed env b b' → Renamed env (.index a b) (.index a' b')
  | property {env : List (String × String)} {e e' : Expr} (property : String) :
    Renamed env e e' → Renamed env (.property e property) (.property e' property)
  | call {env : List (String × String)} {f f' : Expr} {es es' : List Expr} : Renamed env f f' →
    AllRenamed env es es' → Renamed env (.call f es) (.call f' es')
  | typeOf {env : List (String × String)} {e e' : Expr} : Renamed env e e' →
    Renamed env (.typeOf e) (.typeOf e')
  | not {env : List (String × String)} {e e' : Expr} : Renamed env e e' →
    Renamed env (.not e) (.not e')
  | relate {env : List (String × String)} {a a' b b' : Expr} (r : Relation) : Renamed env a a' →
    Renamed env b b' → Renamed env (.relate r a b) (.relate r a' b')
  | both {env : List (String × String)} {a a' b b' : Expr} : Renamed env a a' →
    Renamed env b b' → Renamed env (.both a b) (.both a' b')
  | either {env : List (String × String)} {a a' b b' : Expr} : Renamed env a a' →
    Renamed env b b' → Renamed env (.either a b) (.either a' b')
  | parens {env : List (String × String)} {e e' : Expr} : Renamed env e e' →
    Renamed env (.parens e) (.parens e')
  | arrow {env : List (String × String)} {x y : String} {e e' : Expr} (type : ArrowType) :
    x = y ∧ ¬ IsVariable x ∨ ρ.Moves x y → Renamed ((x, y) :: env) e e' →
    Renamed env (.arrow x type e) (.arrow y type e')
  | fill {env : List (String × String)} {x : String} {e e' : Expr} :
    ρ.Keeps env x x → Renamed env e e' → Renamed env (.fill x e) (.fill x e')

inductive AllRenamed : List (String × String) → List Expr → List Expr → Prop
  | nil {env : List (String × String)} : AllRenamed env [] []
  | cons {env : List (String × String)} {e e' : Expr} {es es' : List Expr} : Renamed env e e' →
    AllRenamed env es es' → AllRenamed env (e :: es) (e' :: es')
end

end

example : Renamed ⟨[], 0, 2⟩ [] (.arrow "x1" .untyped (.name "x1"))
    (.arrow "x3" .untyped (.name "x3")) :=
  .arrow .untyped (.inr ⟨1, 3, rfl, rfl, rfl⟩) (.name (.inl (.inl ⟨rfl, rfl⟩)))

variable {ρ : Renaming} {env : List (String × String)}

private theorem Renamed.fixed {x : String} (h : IsVariable x → x ∈ ρ.declared) :
    Renamed ρ env (.name x) (.name x) := .name (.inr ⟨rfl, h⟩)

private theorem Renamed.innermost {x y : String} :
    Renamed ρ ((x, y) :: env) (.name x) (.name y) := .name (.inl (.inl ⟨rfl, rfl⟩))

theorem Renamed.plain {x : String} (h : x.toList.head? ≠ some 'x') :
    Renamed ρ env (.name x) (.name x) := .fixed fun hx => absurd hx.head h

private theorem Renamed.single {f f' e e' : Expr} (hf : Renamed ρ env f f')
    (he : Renamed ρ env e e') : Renamed ρ env (.call f [e]) (.call f' [e']) :=
  .call hf (.cons he .nil)

private theorem Renamed.isArray {e e' : Expr} (he : Renamed ρ env e e') :
    Renamed ρ env e.isArray e'.isArray :=
  .single (.property _ (.plain (by decide))) he

private theorem Renamed.valuesOf {e e' : Expr} (he : Renamed ρ env e e') :
    Renamed ρ env e.valuesOf e'.valuesOf :=
  .single (.property _ (.plain (by decide))) he

private theorem Renamed.every {e e' body body' : Expr} {x y : String} (he : Renamed ρ env e e')
    (hx : ρ.Moves x y) (type : ArrowType)
    (hbody : Renamed ρ ((x, y) :: env) body body') :
    Renamed ρ env (e.every x type body) (e'.every y type body') :=
  .single (.property _ he) (.arrow type (.inr hx) hbody)

private theorem Renamed.applied {subject subject' : Option Expr} {check check' : Expr}
    (hsubject : Option.Rel (Renamed ρ env) subject subject')
    (hcheck : Renamed ρ env check check') :
    Renamed ρ env (applied subject check) (applied subject' check') := by
  cases hsubject with
  | none => exact hcheck
  | some he => exact .single hcheck he

def Binding.key (b : Binding) : TypeRef × String := (b.site, b.name)

private theorem bound?_congr {bindings bindings' : List Binding}
    (h : bindings.map Binding.key = bindings'.map Binding.key) (site : TypeRef) :
    bound? bindings site = bound? bindings' site := by
  have hkeys : ∀ bindings : List Binding, bound? bindings site =
      ((bindings.map Binding.key).find? fun k => k.1 == site).map Prod.snd := by
    intro bindings
    rw [bound?, List.find?_map, Option.map_map]
    rfl
  rw [hkeys, hkeys, h]

namespace Emission

/-- The states differ in nothing but initial values and the counts of variables, which are as far
apart as those of the renaming. -/
structure Like (ρ : Renaming) (s s' : Emission) : Prop where
  constants : s.constants.map Binding.key = s'.constants.map Binding.key
  lazies : s.lazies.map (List.map Binding.key) = s'.lazies.map (List.map Binding.key)
  taken : s.taken = s'.taken
  used : s.used + ρ.after = s'.used + ρ.before

variable {ρ : Renaming} {s s' : Emission}

private theorem Like.isLazy (h : s.Like ρ s') (inst : Instantiation) :
    s.isLazy inst = s'.isLazy inst := by
  have hsome := congrArg Option.isSome h.lazies
  rw [Option.isSome_map, Option.isSome_map] at hsome
  rw [Emission.isLazy, Emission.isLazy, hsome]

private theorem Like.getD_lazies (h : s.Like ρ s') :
    (s.lazies.getD []).map Binding.key = (s'.lazies.getD []).map Binding.key := by
  have hget : ∀ o : Option (List Binding), (o.getD []).map Binding.key
      = (o.map (List.map Binding.key)).getD [] := fun o => by cases o <;> rfl
  rw [hget, hget, h.lazies]

private theorem Like.bindings (h : s.Like ρ s') (inst : Instantiation) :
    (s.bindings inst).map Binding.key = (s'.bindings inst).map Binding.key := by
  rw [Emission.bindings, Emission.bindings, h.isLazy]
  split
  · exact h.getD_lazies
  · exact h.constants

private theorem Like.store (h : s.Like ρ s') (inst : Instantiation) {b b' : Binding}
    (hkey : b.key = b'.key) : (s.store inst b).Like ρ (s'.store inst b') := by
  have htaken : b.name :: s.taken = b'.name :: s'.taken := by
    rw [h.taken, show b.name = b'.name from congrArg Prod.snd hkey]
  rw [Emission.store, Emission.store, h.isLazy]
  split
  · refine ⟨h.constants, ?_, htaken, h.used⟩
    simp [withLazy, h.getD_lazies, hkey]
  · exact ⟨by simp [withConstant, h.constants, hkey], h.lazies, htaken, h.used⟩

private theorem Kept.names (h : s.Kept True s') : s.names ⊆ s'.names :=
  List.map_subset _ (List.append_subset.mpr
    ⟨fun _ hb => List.mem_append_left _ (h.constants.subset hb),
      fun _ hb => List.mem_append_right _ ((h.lazies trivial).subset hb)⟩)

private theorem mem_names_of_bound? {inst : Instantiation} {name : String}
    (h : bound? (s.bindings inst) inst.site = some name) : name ∈ s.names := by
  obtain ⟨b, hb, _, rfl⟩ := bound?_eq_some h
  refine List.mem_map_of_mem (List.mem_append.mpr ?_)
  rw [bindings] at hb
  split at hb
  · exact .inr hb
  · exact .inl hb

end Emission

/-- In states that differ in initial values and counts only, the steps give results that are related
and leave such states; the names bound then are among those declared. -/
def Parallel (ρ : Renaming) {α : Type} (step step' : Emit α) (result : α → α → Prop) : Prop :=
  ∀ s s' : Emission, s.Like ρ s' → (step s).2.names ⊆ ρ.declared →
    result (step s).1 (step' s').1 ∧ (step s).2.Like ρ (step' s').2

section

variable {ρ : Renaming}

namespace Parallel

variable {α β : Type} {result : α → α → Prop}

private theorem pure {a a' : α} (h : result a a') :
    Parallel ρ (Pure.pure a) (Pure.pure a') result :=
  fun _ _ hlike _ => ⟨h, hlike⟩

private theorem bind {step step' : Emit α} {next next' : α → Emit β} {result' : β → β → Prop}
    (h : Parallel ρ step step' result) (hkeeps : ∀ a, Repeats True (next a) (next a))
    (hnext : ∀ a a', result a a' → Parallel ρ (next a) (next' a') result') :
    Parallel ρ (step >>= next) (step' >>= next') result' := by
  intro s s' hlike hnames
  have hfirst : (step s).2.names ⊆ ρ.declared :=
    fun _ h => hnames (((hkeeps _).keeps (step s).2).names h)
  obtain ⟨hresult, hlike⟩ := h s s' hlike hfirst
  exact hnext _ _ hresult _ _ hlike hnames

private theorem giving {step step' : Emit α} {f f' : α → β} {result' : β → β → Prop}
    (h : Parallel ρ step step' result) (hf : ∀ a a', result a a' → result' (f a) (f' a')) :
    Parallel ρ (step >>= fun a => Pure.pure (f a)) (step' >>= fun a => Pure.pure (f' a)) result' :=
  h.bind (fun a => .pure (f a)) fun a a' ha => .pure (hf a a' ha)

end Parallel

private theorem parallel_freshVariable : Parallel ρ freshVariable freshVariable ρ.Moves := by
  intro s s' hlike _
  have hused : s.used + 1 + ρ.after = s'.used + 1 + ρ.before := by
    have := hlike.used
    omega
  exact ⟨⟨s.used + 1, s'.used + 1, rfl, rfl, hused⟩,
    ⟨hlike.constants, hlike.lazies, hlike.taken, hused⟩⟩

variable {env : List (String × String)}

private theorem parallel_instantiate (options : Options) (inst : Instantiation) {es es' : List Expr}
    (hes : AllRenamed ρ env es es') :
    Parallel ρ (instantiate options inst es) (instantiate options inst es')
      (Renamed ρ env) := by
  intro s s' hlike hnames
  have hinit : Renamed ρ env
      (.call (.name (options.factoryName inst.definition.name)) es)
      (.call (.name (options.factoryName inst.definition.name)) es') :=
    .call (.plain (by simp [Options.factoryName, String.toList_append])) hes
  have haccess : ∀ {name init init'}, name ∈ ρ.declared → Renamed ρ env init init' →
      Renamed ρ env (s.access inst name init) (s'.access inst name init') := by
    intro name init init' hname hinit
    rw [Emission.access, Emission.access, hlike.isLazy]
    split
    · exact .parens (.fill (.inr ⟨rfl, fun _ => hname⟩) hinit)
    · exact .fixed fun _ => hname
  have hbound := bound?_congr (hlike.bindings inst) inst.site
  rw [instantiate_eq] at hnames ⊢
  rw [instantiate_eq, ← hbound]
  split at hnames
  · next hself =>
    simp only [hself, if_true]
    exact ⟨.plain (by decide), hlike⟩
  · next hself =>
    simp only [hself, Bool.false_eq_true, if_false]
    cases hname : bound? (s.bindings inst) inst.site with
    | some name =>
      simp only [hname] at hnames ⊢
      exact ⟨haccess (hnames (Emission.mem_names_of_bound? hname)) hinit, hlike⟩
    | none =>
      simp only [hname] at hnames ⊢
      let b := s.newBinding options inst.site
        (.call (.name (options.factoryName inst.definition.name)) es)
      let b' := s'.newBinding options inst.site
        (.call (.name (options.factoryName inst.definition.name)) es')
      have hstored : bound? ((s.store inst b).bindings inst) inst.site = some b.name := by
        rw [Emission.bindings_store]
        exact bound?_concat hname
      have hkey : b.key = b'.key := by
        simp only [Binding.key, b, b', Emission.newBinding, hlike.taken]
      have hsame : b'.name = b.name := (congrArg Prod.snd hkey).symm
      refine ⟨?_, hlike.store inst hkey⟩
      change Renamed ρ env (s.access inst b.name _) (s'.access inst b'.name _)
      rw [hsame]
      exact haccess (hnames (Emission.mem_names_of_bound? hstored)) hinit

section

variable (c : Context)

private theorem parallel_onSubject {t : TypeRef} {condition : Expr → Emit Expr}
    (hkeeps : ∀ e, Repeats True (condition e) (condition e))
    (h : ∀ env e e', Renamed ρ env e e' →
      Parallel ρ (condition e) (condition e') (Renamed ρ env))
    {subject subject' : Option Expr}
    (hsubject : Option.Rel (Renamed ρ env) subject subject') :
    Parallel ρ (onSubject t subject condition) (onSubject t subject' condition)
      (Renamed ρ env) := by
  cases hsubject with
  | some he => exact h env _ _ he
  | none =>
    refine parallel_freshVariable.bind (fun x => (hkeeps _).giving _) fun x x' hx => ?_
    exact (h ((x, x') :: env) _ _ .innermost).giving fun _ _ hbody =>
      .parens (.arrow _ (.inr hx) hbody)

theorem parallel_arguments {ts : List TypeRef}
    (h : ∀ t ∈ ts, Parallel ρ (reference c t none) (reference c t none)
      (Renamed ρ env)) :
    Parallel ρ (arguments c ts) (arguments c ts) (AllRenamed ρ env) := by
  induction ts with
  | nil => exact .pure .nil
  | cons t ts ih =>
    obtain ⟨ht, hts⟩ := List.forall_mem_cons.mp h
    rw [arguments]
    refine ht.bind (fun _ => (repeats_all c ts).giving _) fun e e' he => ?_
    exact (ih hts).giving fun _ _ hes => .cons he hes

private theorem parallel_tuple {e e' : Expr} (he : Renamed ρ env e e') {ts : List TypeRef}
    (h : ∀ t ∈ ts, ∀ e e', Renamed ρ env e e' →
      Parallel ρ (reference c t (some e)) (reference c t (some e')) (Renamed ρ env))
    (i : Nat) {found found' : Expr} (hfound : Renamed ρ env found found') :
    Parallel ρ (tuple c e i found ts) (tuple c e' i found' ts) (Renamed ρ env) := by
  induction ts generalizing i found found' with
  | nil => exact .pure hfound
  | cons t ts ih =>
    obtain ⟨ht, hts⟩ := List.forall_mem_cons.mp h
    rw [tuple, tuple]
    refine (ht _ _ (.index he (.number i))).bind (fun _ => ?_) fun _ _ hbody => ?_
    · exact repeats_tuple c c.scope (fun u _ => repeats_same c u) _ _
    · exact ih hts (i + 1) (.both hfound hbody)

/-- From two counts, a reference is emitted the same up to names of variables. -/
theorem parallel_reference (hdeclared : Emitter.reservedNames c.schema c.options ⊆ ρ.declared)
    (t : TypeRef) {subject subject' : Option Expr}
    (hsubject : Option.Rel (Renamed ρ env) subject subject') :
    Parallel ρ (reference c t subject) (reference c t subject') (Renamed ρ env) := by
  have hprimitive : ∀ {env} (p : Primitive),
      Renamed ρ env (c.guardName p.name) (c.guardName p.name) := fun p =>
    .fixed fun _ => hdeclared (List.mem_append_right _ (List.mem_cons_of_mem _
      (List.mem_map_of_mem (by cases p <;> decide))))
  have hrecord : ∀ {env e e'}, Renamed ρ env e e' →
      Renamed ρ env (c.isRecord e) (c.isRecord e') := fun he =>
    .single (.fixed fun _ => hdeclared (List.mem_append_right _ List.mem_cons_self)) he
  have hnever : ∀ {env}, Renamed ρ env never never :=
    .parens (.arrow _ (.inl ⟨rfl, fun hx => absurd hx.head (by decide)⟩) (.bool false))
  have hmonomorphic : ∀ {env} (name : String),
      Renamed ρ env (c.monomorphic name) (c.monomorphic name) := by
    intro env name
    rw [Context.monomorphic]
    split
    · next d hd =>
      have hmem := Schema.mem_of_find? (Schema.monomorphic?_eq_some.mp hd).1
      exact .fixed fun _ => hdeclared (List.mem_append_left _
        (List.mem_flatMap.mpr ⟨d, hmem, List.mem_cons_self⟩))
    · exact hnever
  induction t generalizing env subject subject' with
  | primitive p =>
    cases hsubject with
    | none => exact .pure (hprimitive p)
    | some he =>
      cases p with
      | bytes => exact .pure (.single (hprimitive .bytes) he)
      | _ => exact .pure (.relate _ (.typeOf he) (.string _))
  | named name => exact .pure (.applied hsubject (hmonomorphic name))
  | generic name args ih =>
    cases args with
    | nil => exact .pure (.applied hsubject (hmonomorphic name))
    | cons t ts =>
      have hnone : Option.Rel (Renamed ρ env) none none := .none
      obtain ⟨ht, hts⟩ := List.forall_mem_cons.mp fun u hu => ih u hu hnone
      rw [reference, reference]
      split
      · exact .pure (.applied hsubject hnever)
      · next inst _ =>
        have hconcrete : ¬ True → inst.concrete = true := fun h => absurd trivial h
        refine ht.bind (fun arg => (repeats_all c ts).bind fun args =>
          (repeats_instantiate c.options hconcrete (arg :: args)).giving _) fun e e' he => ?_
        refine (parallel_arguments c hts).bind (fun args =>
          (repeats_instantiate c.options hconcrete (e :: args)).giving _) fun es es' hes => ?_
        exact (parallel_instantiate c.options inst (.cons he hes)).giving fun _ _ hcheck =>
          .applied hsubject hcheck
  | sequence inner ih =>
    rw [reference, reference]
    refine parallel_onSubject
      (fun _ => repeats_freshVariable.bind fun _ => (repeats_same c _ _).giving _)
      (fun env e e' he => ?_) hsubject
    refine parallel_freshVariable.bind (fun _ => (repeats_same c _ _).giving _) fun x x' hx => ?_
    exact (ih (.some .innermost)).giving fun _ _ hbody =>
      .both he.isArray (he.every hx _ hbody)
  | parameter name =>
    refine .pure (.applied hsubject ?_)
    split
    · exact .plain (by simp [checkerName, String.toList_append])
    · exact hnever
  | map inner ih =>
    rw [reference, reference]
    refine parallel_onSubject
      (fun _ => repeats_freshVariable.bind fun _ => (repeats_same c _ _).giving _)
      (fun env e e' he => ?_) hsubject
    refine parallel_freshVariable.bind (fun _ => (repeats_same c _ _).giving _) fun x x' hx => ?_
    exact (ih (.some .innermost)).giving fun _ _ hbody =>
      .both (hrecord he) (he.valuesOf.every hx _ hbody)
  | tuple elements ih =>
    rw [reference, reference]
    refine parallel_onSubject
      (fun _ => repeats_tuple c c.scope (fun u _ => repeats_same c u) _ _)
      (fun env e e' he => ?_) hsubject
    exact parallel_tuple c he (fun t ht e e' he => ih t ht (.some he)) 0
      (.both he.isArray (.relate _ (.property _ he) (.number _)))
  | nullable inner ih =>
    rw [reference, reference]
    refine parallel_onSubject (fun _ => (repeats_same c _ _).giving _) (fun env e e' he => ?_)
      hsubject
    exact (ih (.some he)).giving fun _ _ hbody => .parens (.either (.relate _ he .null) hbody)

end

end

end SchemaGuard.Script
