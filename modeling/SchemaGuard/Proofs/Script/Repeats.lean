import SchemaGuard.Proofs.Script.Emitted

/-!
Emission once more. Whatever a step of emission has stored is looked up under its use site from then
on, so where all of it is still there the same step with the same count of variables gives the same
and stores nothing. What mentions no parameter is emitted alike in every scope.
-/

set_option autoImplicit false
set_option relaxedAutoImplicit false

namespace SchemaGuard

theorem TypeRef.mentionsParameter_of_mem {ts : List TypeRef}
    (hts : anyMentionsParameter ts = false) {t : TypeRef} (ht : t ∈ ts) :
    t.mentionsParameter = false := by
  simp only [anyMentionsParameter_eq_any, List.any_eq_false] at hts
  simpa using hts t ht

private theorem Schema.instantiation?_closed (s : Schema) (scope scope' : Scope) (name : String)
    {args : List TypeRef} (hargs : args ≠ [])
    (hclosed : TypeRef.anyMentionsParameter args = false) :
    s.instantiation? scope name args = s.instantiation? scope' name args := by
  have hidentity : ∀ scope : Scope, scope.isIdentity args = false := fun scope => by
    by_contra h
    rw [Scope.anyMentionsParameter hargs (by simpa using h)] at hclosed
    cases hclosed
  simp only [instantiation?, hidentity, Bool.and_false]

namespace Script

namespace Emission

/-- What `s` has stored is in `s'` at the same places, the variables of the factory included if all
of it is asked for. -/
structure Kept (whole : Prop) (s s' : Emission) : Prop where
  constants : s.constants <+: s'.constants
  lazies : whole → s.lazies.getD [] <+: s'.lazies.getD []
  factory : whole → s'.lazies.isSome = s.lazies.isSome

variable {whole : Prop} {s s' s'' : Emission}

theorem Kept.refl (s : Emission) : s.Kept whole s :=
  ⟨List.prefix_rfl, fun _ => List.prefix_rfl, fun _ => rfl⟩

theorem Kept.trans (h : s.Kept whole s') (h' : s'.Kept whole s'') : s.Kept whole s'' :=
  ⟨h.constants.trans h'.constants, fun hw => (h.lazies hw).trans (h'.lazies hw),
    fun hw => (h'.factory hw).trans (h.factory hw)⟩

theorem Kept.of_whole (h : s.Kept True s') : s.Kept whole s' :=
  ⟨h.constants, fun _ => h.lazies trivial, fun _ => h.factory trivial⟩

theorem Kept.counted (h : s.Kept whole s') (n : Nat) : s.Kept whole { s' with used := n } :=
  ⟨h.constants, h.lazies, h.factory⟩

def isLazy (s : Emission) (inst : Instantiation) : Bool := s.lazies.isSome && !inst.concrete

def bindings (s : Emission) (inst : Instantiation) : List Binding :=
  if s.isLazy inst then s.lazies.getD [] else s.constants

def store (s : Emission) (inst : Instantiation) (b : Binding) : Emission :=
  if s.isLazy inst then s.withLazy b else s.withConstant b

def access (s : Emission) (inst : Instantiation) (name : String) (init : Expr) : Expr :=
  if s.isLazy inst then .parens (.fill name init) else .name name

private theorem isLazy_store (s : Emission) (inst : Instantiation) (b : Binding) :
    (s.store inst b).isLazy inst = s.isLazy inst := by
  unfold store
  split
  · next h => simp_all [isLazy, withLazy]
  · rfl

theorem bindings_store (s : Emission) (inst : Instantiation) (b : Binding) :
    (s.store inst b).bindings inst = s.bindings inst ++ [b] := by
  rw [bindings, isLazy_store, bindings, store]
  split <;> rfl

theorem used_store (s : Emission) (inst : Instantiation) (b : Binding) :
    (s.store inst b).used = s.used := by
  unfold store
  split <;> rfl

theorem taken_store (s : Emission) (inst : Instantiation) (b : Binding) :
    (s.store inst b).taken = b.name :: s.taken := by
  unfold store
  split <;> rfl

theorem names_store (s : Emission) (inst : Instantiation) (b : Binding) :
    (s.store inst b).names.Perm (b.name :: s.names) := by
  unfold store
  split
  · simpa only [names, withLazy, Option.getD_some, List.map_append, List.map_singleton,
      ← List.append_assoc] using List.perm_append_singleton b.name _
  · simp [names, withConstant, List.perm_middle]

theorem Kept.store (s : Emission) (inst : Instantiation) (b : Binding) :
    s.Kept whole (s.store inst b) := by
  unfold Emission.store
  split
  · next h =>
    obtain ⟨lazies, hlazies⟩ := Option.isSome_iff_exists.mp (Bool.and_eq_true_iff.mp h).1
    refine ⟨List.prefix_rfl, fun _ => ?_, fun _ => ?_⟩
    · exact List.prefix_append _ _
    · simp [withLazy, hlazies]
  · exact ⟨List.prefix_append _ _, fun _ => List.prefix_rfl, fun _ => rfl⟩

end Emission

/-- An instantiation is looked up first, and stored if it is not there. -/
theorem instantiate_eq (options : Options) (inst : Instantiation) (es : List Expr) (s : Emission) :
    instantiate options inst es s =
      if inst.recursive then (.name selfName, s)
      else
        let init := Expr.call (.name (options.factoryName inst.definition.name)) es
        match bound? (s.bindings inst) inst.site with
        | some name => (s.access inst name init, s)
        | none =>
          let b := s.newBinding options inst.site init
          (s.access inst b.name init, s.store inst b) := by
  let init := Expr.call (.name (options.factoryName inst.definition.name)) es
  have hconstant : instantiate.constant options inst s init s =
      match bound? s.constants inst.site with
      | some name => (.name name, s)
      | none => (.name (s.newBinding options inst.site init).name,
        s.withConstant (s.newBinding options inst.site init)) := by
    unfold instantiate.constant
    cases bound? s.constants inst.site <;> rfl
  have hget : ∀ f : Emission → Emit Expr, (get >>= f : Emit Expr) s = f s s := fun _ => rfl
  cases hself : inst.recursive with
  | true => simp only [instantiate, hself, if_true]; rfl
  | false =>
    simp only [instantiate, hself, Bool.false_eq_true, if_false, hget]
    cases hlazies : s.lazies with
    | none =>
      simp only [Emission.bindings, Emission.access, Emission.store, Emission.isLazy, hlazies,
        Option.isSome_none, Bool.false_and, Bool.false_eq_true, if_false]
      exact hconstant
    | some lazies =>
      cases hconcrete : inst.concrete with
      | true =>
        simp only [Emission.bindings, Emission.access, Emission.store, Emission.isLazy, hlazies,
          hconcrete, Bool.not_true, Bool.and_false, Bool.false_eq_true, if_false, if_true]
        exact hconstant
      | false =>
        simp only [Emission.bindings, Emission.access, Emission.store, Emission.isLazy, hlazies,
          hconcrete, Option.isSome_some, Bool.not_false, Bool.and_self, if_true,
          Bool.false_eq_true, if_false, Option.getD_some]
        cases bound? lazies inst.site with
        | some name => rfl
        | none =>
          simp only [Emission.withLazy, hlazies, Option.getD_some]
          rfl

private theorem bound?_of_prefix {bindings bindings' : List Binding} (h : bindings <+: bindings')
    {site : TypeRef} {name : String} (hbound : bound? bindings site = some name) :
    bound? bindings' site = some name := by
  obtain ⟨more, rfl⟩ := h
  obtain ⟨b, hb, rfl⟩ := Option.map_eq_some_iff.mp hbound
  rw [bound?, List.find?_append, hb]
  rfl

theorem bound?_concat {bindings : List Binding} {b : Binding}
    (h : bound? bindings b.site = none) : bound? (bindings ++ [b]) b.site = some b.name := by
  have hnone : bindings.find? (fun b' => b'.site == b.site) = none := by simpa [bound?] using h
  simp [bound?, hnone]

private theorem Emission.Kept.bound? {whole : Prop} {s s' : Emission} (h : s.Kept whole s')
    {inst : Instantiation} (hinst : ¬ whole → inst.concrete = true) {name : String}
    (hbound : bound? (s.bindings inst) inst.site = some name) :
    s'.isLazy inst = s.isLazy inst ∧ Script.bound? (s'.bindings inst) inst.site = some name := by
  have hlazy : s'.isLazy inst = s.isLazy inst := by
    by_cases hw : whole
    · rw [isLazy, isLazy, h.factory hw]
    · simp [isLazy, hinst hw]
  refine ⟨hlazy, bound?_of_prefix ?_ hbound⟩
  rw [bindings, bindings, hlazy]
  split
  · next hs =>
    refine h.lazies (Classical.byContradiction fun hw => ?_)
    simp [isLazy, hinst hw] at hs
  · exact h.constants

/-- The step loses nothing that is stored; and where all is there that it has stored, and as many
variables have been used as before it, `again` gives what the step gave and stores nothing. -/
structure Repeats (whole : Prop) {α : Type} (step again : Emit α) : Prop where
  keeps : ∀ s : Emission, s.Kept True (step s).2
  again : ∀ s s' : Emission, (step s).2.Kept whole s' → s'.used = s.used →
    again s' = ((step s).1, { s' with used := (step s).2.used })

section

variable {whole : Prop}

namespace Repeats

variable {α β : Type}

theorem pure (a : α) : Repeats whole (Pure.pure a) (Pure.pure a) where
  keeps s := .refl s
  again s s' _ hused := by
    change (a, s') = (a, { s' with used := s.used })
    rw [← hused]

theorem bind {step again : Emit α} {next nextAgain : α → Emit β} (h : Repeats whole step again)
    (hnext : ∀ a, Repeats whole (next a) (nextAgain a)) :
    Repeats whole (step >>= next) (again >>= nextAgain) where
  keeps s := (h.keeps s).trans ((hnext _).keeps _)
  again s s' hkept hused := by
    have hfirst := h.again s s' (((hnext _).keeps _).of_whole.trans hkept) hused
    have hrest := (hnext (step s).1).again (step s).2 { s' with used := (step s).2.used }
      (hkept.counted _) rfl
    change nextAgain (again s').1 (again s').2 = _
    rw [hfirst]
    exact hrest

theorem giving {step again : Emit α} (f : α → β) (h : Repeats whole step again) :
    Repeats whole (step >>= fun a => Pure.pure (f a)) (again >>= fun a => Pure.pure (f a)) :=
  h.bind fun a => .pure (f a)

end Repeats

theorem repeats_freshVariable : Repeats whole freshVariable freshVariable where
  keeps _ := ⟨List.prefix_rfl, fun _ => List.prefix_rfl, fun _ => rfl⟩
  again s s' _ hused := by
    change ("x" ++ toString (s'.used + 1), { s' with used := s'.used + 1 })
      = ("x" ++ toString (s.used + 1), { s' with used := s.used + 1 })
    rw [hused]

theorem repeats_instantiate (options : Options) {inst : Instantiation}
    (hinst : ¬ whole → inst.concrete = true) (es : List Expr) :
    Repeats whole (instantiate options inst es) (instantiate options inst es) where
  keeps s := by
    rw [instantiate_eq]
    split
    · exact .refl s
    · dsimp only
      split
      · exact .refl s
      · exact .store s inst _
  again s s' hkept hused := by
    have hsame : { s' with used := s.used } = s' := by rw [← hused]
    rw [instantiate_eq] at hkept ⊢
    rw [instantiate_eq]
    split at hkept
    · next hself => simp only [hself, if_true, hsame]
    · next hself =>
      simp only [hself, Bool.false_eq_true, if_false]
      cases hbound : bound? (s.bindings inst) inst.site with
      | some name =>
        simp only [hbound] at hkept ⊢
        obtain ⟨hlazy, hbound'⟩ := hkept.bound? hinst hbound
        simp only [hbound', Emission.access, hlazy, hsame]
      | none =>
        simp only [hbound] at hkept ⊢
        let b := s.newBinding options inst.site
          (.call (.name (options.factoryName inst.definition.name)) es)
        have hstored : bound? ((s.store inst b).bindings inst) inst.site = some b.name := by
          rw [Emission.bindings_store]
          exact bound?_concat hbound
        obtain ⟨hlazy, hbound'⟩ := hkept.bound? hinst hstored
        rw [Emission.isLazy_store] at hlazy
        simp only [hbound', Emission.access, hlazy, Emission.used_store, hsame]
        rfl

private theorem repeats_onSubject {t : TypeRef} {condition again : Expr → Emit Expr}
    (h : ∀ e, Repeats whole (condition e) (again e)) (subject : Option Expr) :
    Repeats whole (onSubject t subject condition) (onSubject t subject again) := by
  cases subject with
  | some e => exact h e
  | none => exact repeats_freshVariable.bind fun x => (h _).giving _

section

variable (c : Context) (scope : Scope)

theorem repeats_arguments {ts : List TypeRef}
    (h : ∀ t ∈ ts,
      Repeats whole (reference c t none) (reference { c with scope := scope } t none)) :
    Repeats whole (arguments c ts) (arguments { c with scope := scope } ts) := by
  induction ts with
  | nil => exact .pure _
  | cons t ts ih =>
    obtain ⟨ht, hts⟩ := List.forall_mem_cons.mp h
    rw [arguments, arguments]
    exact ht.bind fun _ => (ih hts).giving _

theorem repeats_tuple {e : Expr} {ts : List TypeRef}
    (h : ∀ t ∈ ts, ∀ subject,
      Repeats whole (reference c t subject) (reference { c with scope := scope } t subject))
    (i : Nat) (found : Expr) :
    Repeats whole (tuple c e i found ts) (tuple { c with scope := scope } e i found ts) := by
  induction ts generalizing i found with
  | nil => exact .pure _
  | cons t ts ih =>
    obtain ⟨ht, hts⟩ := List.forall_mem_cons.mp h
    rw [tuple, tuple]
    exact (ht _).bind fun _ => ih hts _ _

/-- A reference is emitted again as it was, in the same scope, or in another one and with only the
constants kept if it mentions no parameter. -/
theorem repeats_reference (hscope : whole → scope = c.scope) (t : TypeRef)
    (hclosed : ¬ whole → t.mentionsParameter = false) (subject : Option Expr) :
    Repeats whole (reference c t subject) (reference { c with scope := scope } t subject) := by
  have all : ∀ {ts : List TypeRef}, (¬ whole → TypeRef.anyMentionsParameter ts = false) →
      ∀ t ∈ ts, ¬ whole → t.mentionsParameter = false :=
    fun hts _ ht hw => TypeRef.mentionsParameter_of_mem (hts hw) ht
  induction t generalizing subject with
  | primitive p => cases subject <;> cases p <;> exact .pure _
  | named name => exact .pure _
  | generic name args ih =>
    cases args with
    | nil => exact .pure _
    | cons t ts =>
      obtain ⟨ht, hts⟩ := List.forall_mem_cons.mp fun u hu => ih u hu (all hclosed u hu) none
      have hinst : c.schema.instantiation? scope name (t :: ts)
          = c.schema.instantiation? c.scope name (t :: ts) := by
        by_cases hw : whole
        · rw [hscope hw]
        · exact c.schema.instantiation?_closed _ _ _ (List.cons_ne_nil t ts) (hclosed hw)
      rw [reference, reference, hinst]
      split
      · exact .pure _
      · next inst h =>
        have hconcrete : ¬ whole → inst.concrete = true := by
          intro hw
          obtain ⟨d, _, rfl⟩ := Option.map_eq_some_iff.mp h
          have hnone : TypeRef.anyMentionsParameter (t :: ts) = false := hclosed hw
          simp [hnone]
        exact ht.bind fun _ => (repeats_arguments c scope hts).bind fun _ =>
          (repeats_instantiate _ hconcrete _).giving _
  | sequence inner ih =>
    rw [reference, reference]
    exact repeats_onSubject (fun _ => repeats_freshVariable.bind fun _ => (ih hclosed _).giving _)
      subject
  | parameter name =>
    have hw : whole := Classical.byContradiction fun hw => Bool.noConfusion (hclosed hw)
    rw [hscope hw]
    exact .pure _
  | map inner ih =>
    rw [reference, reference]
    exact repeats_onSubject (fun _ => repeats_freshVariable.bind fun _ => (ih hclosed _).giving _)
      subject
  | tuple elements ih =>
    rw [reference, reference]
    exact repeats_onSubject (fun _ => repeats_tuple c scope
      (fun t ht subject => ih t ht (all hclosed t ht) subject) 0 _) subject
  | nullable inner ih =>
    rw [reference, reference]
    exact repeats_onSubject (fun _ => (ih hclosed _).giving _) subject

end

end

section

variable (c : Context)

theorem repeats_same (t : TypeRef) (subject : Option Expr) :
    Repeats True (reference c t subject) (reference c t subject) :=
  repeats_reference c c.scope (fun _ => rfl) t (fun h => absurd trivial h) subject

theorem repeats_all (ts : List TypeRef) : Repeats True (arguments c ts) (arguments c ts) :=
  repeats_arguments c c.scope fun t _ => repeats_same c t none

theorem repeats_fieldChecks (e : Expr) (fields : List Field) :
    Repeats True (fieldChecks c e fields) (fieldChecks c e fields) := by
  induction fields with
  | nil => exact .pure _
  | cons f rest ih =>
    rw [fieldChecks]
    exact (repeats_same c _ _).bind fun _ => ih.giving _

private theorem repeats_objectBody (x : String) (fields : List Field) :
    Repeats True (objectBody c x fields) (objectBody c x fields) :=
  (repeats_fieldChecks c _ fields).giving _

theorem repeats_caseBodies (variants : List Variant) :
    Repeats True (caseBodies c variants) (caseBodies c variants) := by
  induction variants with
  | nil => exact .pure _
  | cons v rest ih =>
    rw [caseBodies]
    exact (repeats_objectBody c _ _).bind fun _ => ih.giving _

private theorem repeats_definitionBody (d : Definition) :
    Repeats True (definitionBody c d) (definitionBody c d) := by
  cases d with
  | struct d => exact repeats_objectBody c _ _
  | union d => exact (repeats_caseBodies c _).giving _
  | enum d => exact .pure _
  | «alias» d => exact (repeats_same c _ _).giving _

end

/-- The state in which the body of a definition is emitted. -/
def Emission.enter (s : Emission) (d : Definition) : Emission :=
  { s with used := 0, lazies := if d.isGeneric then some [] else s.lazies }

/-- The state that the body of a definition is emitted to. -/
def bodyState (schema : Schema) (options : Options) (d : Definition) (s : Emission) : Emission :=
  (definitionBody ⟨schema, options, Scope.of d⟩ d (s.enter d)).2

section

variable {schema : Schema} {options : Options} {s : Emission}

private theorem bodyState_kept (d : Definition) :
    (s.enter d).Kept True (bodyState schema options d s) :=
  (repeats_definitionBody ⟨schema, options, Scope.of d⟩ d).keeps (s.enter d)

theorem bodyState_lazies {d : Definition} (hgeneric : d.isGeneric = false) (hs : s.lazies = none) :
    (bodyState schema options d s).lazies = none := by
  have hfactory : (bodyState schema options d s).lazies.isSome = (s.enter d).lazies.isSome :=
    (bodyState_kept d).factory trivial
  simpa [Emission.enter, hgeneric, hs] using hfactory

theorem definitionItem_state (d : Definition) (hs : s.lazies = none) :
    (definitionItem schema options d s).2
      = { bodyState schema options d s with lazies := none } := by
  cases hgeneric : d.isGeneric with
  | true =>
    have henter : s.enter d = { s with used := 0, lazies := some [] } := by
      simp [Emission.enter, hgeneric]
    rw [definitionItem_factory hgeneric, bodyState, henter]
  | false =>
    have henter : s.enter d = { s with used := 0 } := by simp [Emission.enter, hgeneric]
    have hnone : (bodyState schema options d s).lazies = none := bodyState_lazies hgeneric hs
    rw [definitionItem_guard hgeneric, ← hnone, bodyState, henter]

theorem definitionItem_again {d : Definition} (hgeneric : d.isGeneric = false)
    (hs : s.lazies = none) {s' : Emission} (hs' : s'.lazies = none)
    (hkept : (definitionItem schema options d s).2.constants <+: s'.constants) :
    (definitionItem schema options d s').1 = (definitionItem schema options d s).1 := by
  have henter : ∀ s : Emission, s.enter d = { s with used := 0 } := fun s => by
    simp [Emission.enter, hgeneric]
  have hnone : (bodyState schema options d s).lazies = none := bodyState_lazies hgeneric hs
  rw [definitionItem_state d hs] at hkept
  have hstored : (bodyState schema options d s).Kept True (s'.enter d) :=
    ⟨hkept, fun _ => by simp [hnone], fun _ => by simp [hnone, henter, hs']⟩
  have hbody := (repeats_definitionBody ⟨schema, options, Scope.of d⟩ d).again _ _ hstored rfl
  rw [henter, henter] at hbody
  rw [definitionItem_guard hgeneric, definitionItem_guard hgeneric, hbody]

end

theorem Emitter.emit_eq (e : Emitter) (d : Definition) : e.emit d =
    { e with
      blocks := e.blocks ++ [⟨.type d.name, [(definitionItem e.schema e.options d e.emission).1]⟩]
      emission := (definitionItem e.schema e.options d e.emission).2 } := rfl

theorem Emitter.lazies_emit {e : Emitter} (he : e.emission.lazies = none) (d : Definition) :
    (e.emit d).emission.lazies = none := by
  rw [emit_eq, definitionItem_state d he]

theorem Emitter.foldl_emit_kept (ds : List Definition) {e : Emitter}
    (he : e.emission.lazies = none) :
    let e' := ds.foldl Emitter.emit e
    e'.schema = e.schema ∧ e'.options = e.options ∧ e'.emission.lazies = none ∧
      e.emission.constants <+: e'.emission.constants := by
  induction ds generalizing e with
  | nil => exact ⟨rfl, rfl, he, List.prefix_rfl⟩
  | cons d ds ih =>
    obtain ⟨hschema, hoptions, hlazies, hconstants⟩ := ih (lazies_emit he d)
    refine ⟨hschema, hoptions, hlazies, List.IsPrefix.trans ?_ hconstants⟩
    rw [emit_eq, definitionItem_state d he]
    exact (bodyState_kept d).constants

end Script

end SchemaGuard
