import SchemaGuard.Proofs.Script.Hoisting
import SchemaGuard.Proofs.Script.Renaming
import SchemaGuard.Proofs.Script.Visits

/-!
What is reused is what would have been built. An instantiation is looked up by its use site alone,
while its initial value also depends on the definition around it, on how many variables that has
used, and on what was stored before. Every value that is stored comes from emitting the arguments of
its site, with all that this has stored still there; so emitting them again, in whichever definition
meets the site next, can differ in the names of variables only.
-/

set_option autoImplicit false
set_option relaxedAutoImplicit false

namespace SchemaGuard.Script

section

variable {c : Context}

/-- The initial value applies the factory of the site to what emission of its arguments gives from
some state, and what this has stored is in `s`. -/
def IsComposed (whole : Prop) (c : Context) (s : Emission) (b : Binding) : Prop :=
  ∃ name args d s', b.site = .generic name args ∧ c.schema.generic? name args = some d ∧
    b.init = .call (.name (c.options.factoryName d.name)) (arguments c args s').1 ∧
    (arguments c args s').2.Kept whole s

private theorem IsComposed.of_whole {whole : Prop} {s : Emission} {b : Binding}
    (h : IsComposed True c s b) : IsComposed whole c s b := by
  obtain ⟨name, args, d, s₁, hsite, hd, hinit, hs⟩ := h
  exact ⟨name, args, d, s₁, hsite, hd, hinit, hs.of_whole⟩

/-- Constants are composed in some scope, from arguments that mention no parameter, and variables of
the factory in this one. All names are taken. -/
structure Emission.Accounted (c : Context) (s : Emission) : Prop where
  taken : Emitter.reservedNames c.schema c.options ++ s.names ⊆ s.taken
  parameters : s.lazies = none → c.scope.params = []
  constants : ∀ b ∈ s.constants, b.site.mentionsParameter = false ∧
    ∃ scope, IsComposed False { c with scope := scope } s b
  lazies : ∀ b ∈ s.lazies.getD [], IsComposed True c s b

private theorem IsComposed.kept {whole : Prop} {s s' : Emission} {b : Binding}
    (h : IsComposed whole c s b) (hkept : s.Kept whole s') : IsComposed whole c s' b := by
  obtain ⟨name, args, d, s₁, hsite, hd, hinit, hs⟩ := h
  exact ⟨name, args, d, s₁, hsite, hd, hinit, hs.trans hkept⟩

namespace Emission

variable {s : Emission} {inst : Instantiation} {b : Binding}

private theorem Accounted.store (h : s.Accounted c)
    (hclosed : s.isLazy inst = false → b.site.mentionsParameter = false)
    (hb : IsComposed True c (s.store inst b) b) : (s.store inst b).Accounted c := by
  have hkept : ∀ whole, s.Kept whole (s.store inst b) := fun _ => .store s inst b
  refine ⟨?_, fun hnone => h.parameters ?_, fun b' hb' => ?_, fun b' hb' => ?_⟩
  · rw [taken_store]
    refine List.append_subset.mpr ⟨fun x hx => ?_, fun x hx => ?_⟩
    · exact List.mem_cons_of_mem _ (h.taken (List.mem_append_left _ hx))
    · rcases List.mem_cons.mp ((names_store s inst b).mem_iff.mp hx) with rfl | hx
      · exact List.mem_cons_self
      · exact List.mem_cons_of_mem _ (h.taken (List.mem_append_right _ hx))
  · have hfactory := (hkept True).factory trivial
    rw [hnone] at hfactory
    simpa using hfactory.symm
  · have hcases : b' ∈ s.constants ∨ s.isLazy inst = false ∧ b' = b := by
      unfold Emission.store at hb'
      split at hb'
      · exact .inl hb'
      · next hlazy => simpa [withConstant, hlazy] using hb'
    rcases hcases with hb' | ⟨hlazy, rfl⟩
    · obtain ⟨hclosed, scope, hcomposed⟩ := h.constants b' hb'
      exact ⟨hclosed, scope, hcomposed.kept (hkept False)⟩
    · exact ⟨hclosed hlazy, c.scope, hb.of_whole⟩
  · have hcases : b' ∈ s.lazies.getD [] ∨ b' = b := by
      unfold Emission.store at hb'
      split at hb'
      · simpa [withLazy] using hb'
      · exact .inl hb'
    rcases hcases with hb' | rfl
    · exact (h.lazies b' hb').kept (hkept True)
    · exact hb

end Emission

private def Accounts (c : Context) {α : Type} (step : Emit α) : Prop :=
  ∀ s : Emission, s.Accounted c → (step s).2.Accounted c

namespace Accounts

variable {α β : Type}

private theorem pure (a : α) : Accounts c (Pure.pure a) := fun _ h => h

private theorem bind {step : Emit α} {next : α → Emit β} (h : Accounts c step)
    (hnext : ∀ a, Accounts c (next a)) : Accounts c (step >>= next) :=
  fun s hs => hnext _ _ (h s hs)

private theorem giving {step : Emit α} (f : α → β) (h : Accounts c step) :
    Accounts c (step >>= fun a => Pure.pure (f a)) := h.bind fun a => .pure (f a)

end Accounts

private theorem accounts_freshVariable : Accounts c freshVariable := by
  intro s hs
  have hkept : ∀ whole, s.Kept whole (freshVariable s).2 := fun _ =>
    (freshVariable_kept s).of_whole
  refine ⟨hs.taken, hs.parameters, fun b hb => ?_, fun b hb => (hs.lazies b hb).kept (hkept True)⟩
  obtain ⟨hclosed, scope, hcomposed⟩ := hs.constants b hb
  exact ⟨hclosed, scope, hcomposed.kept (hkept False)⟩

private theorem accounted_instantiate {name : String} {args : List TypeRef} {inst : Instantiation}
    (hinst : c.schema.instantiation? c.scope name args = some inst)
    (hlegal : ∀ t ∈ args, t.IsLegal c.schema c.scope.params) {s : Emission}
    (h : (arguments c args s).2.Accounted c) :
    (instantiate c.options inst (arguments c args s).1 (arguments c args s).2).2.Accounted c := by
  obtain ⟨d, hd, rfl⟩ := Option.map_eq_some_iff.mp hinst
  rw [instantiate_eq]
  split
  · exact h
  · dsimp only
    split
    · exact h
    · refine h.store (fun hlazy => ?_) ⟨name, args, d, s, rfl, hd, rfl, .store _ _ _⟩
      -- Outside factories no parameter is declared, so none is mentioned.
      change TypeRef.anyMentionsParameter args = false
      by_contra hopen
      have hnone : (arguments c args s).2.lazies = none := by
        simpa [Emission.isLazy, hopen] using hlazy
      have hparams := h.parameters hnone
      refine hopen (TypeRef.anyMentionsParameter_eq_any args ▸ List.any_eq_false.mpr fun t ht => ?_)
      simp [(hparams ▸ hlegal t ht).mentionsParameter]

private theorem accounts_onSubject {t : TypeRef} {condition : Expr → Emit Expr}
    (h : ∀ e, Accounts c (condition e)) (subject : Option Expr) :
    Accounts c (onSubject t subject condition) := by
  cases subject with
  | some e => exact h e
  | none => exact accounts_freshVariable.bind fun x => (h _).giving _

private theorem accounts_arguments {ts : List TypeRef}
    (h : ∀ t ∈ ts, Accounts c (reference c t none)) :
    Accounts c (arguments c ts) := by
  induction ts with
  | nil => exact .pure _
  | cons t ts ih =>
    obtain ⟨ht, hts⟩ := List.forall_mem_cons.mp h
    rw [arguments]
    exact ht.bind fun _ => (ih hts).giving _

private theorem accounts_tuple {e : Expr} {ts : List TypeRef}
    (h : ∀ t ∈ ts, ∀ subject, Accounts c (reference c t subject)) (i : Nat) (found : Expr) :
    Accounts c (tuple c e i found ts) := by
  induction ts generalizing i found with
  | nil => exact .pure _
  | cons t ts ih =>
    obtain ⟨ht, hts⟩ := List.forall_mem_cons.mp h
    rw [tuple]
    exact (ht _).bind fun _ => ih hts _ _

private theorem accounts_reference (w : c.schema.WellFormed) (t : TypeRef)
    (legal : t.IsLegal c.schema c.scope.params) (subject : Option Expr) :
    Accounts c (reference c t subject) := by
  induction t generalizing subject with
  | primitive p => cases subject <;> cases p <;> exact .pure _
  | named name => exact .pure _
  | generic name args ih =>
    obtain ⟨hnames, hlegal⟩ := legal.generic
    by_cases hargs : args = []
    · subst hargs
      exact .pure _
    · obtain ⟨d, hd⟩ := hnames.generic? w
      obtain ⟨inst, hinst⟩ : ∃ inst, c.schema.instantiation? c.scope name args = some inst := by
        rw [Schema.instantiation?, hd]
        exact ⟨_, rfl⟩
      intro s hs
      rw [reference_generic hargs hinst]
      exact accounted_instantiate hinst hlegal
        (accounts_arguments (fun t ht => ih t ht (hlegal t ht) none) s hs)
  | sequence inner ih =>
    rw [reference]
    exact accounts_onSubject (fun _ => accounts_freshVariable.bind fun _ =>
      (ih legal.sequence _).giving _) subject
  | parameter name => exact .pure _
  | map inner ih =>
    rw [reference]
    exact accounts_onSubject (fun _ => accounts_freshVariable.bind fun _ =>
      (ih legal.map _).giving _) subject
  | tuple elements ih =>
    rw [reference]
    exact accounts_onSubject (fun _ => accounts_tuple (fun t ht subject =>
      ih t ht (legal.tuple t ht) subject) 0 _) subject
  | nullable inner ih =>
    rw [reference]
    exact accounts_onSubject (fun _ => (ih legal.nullable _).giving _) subject

private theorem accounts_fieldChecks (w : c.schema.WellFormed) (e : Expr) {fields : List Field}
    (legal : ∀ f ∈ fields, f.type.IsLegal c.schema c.scope.params) :
    Accounts c (fieldChecks c e fields) := by
  induction fields with
  | nil => exact .pure _
  | cons f rest ih =>
    obtain ⟨hf, hrest⟩ := List.forall_mem_cons.mp legal
    rw [fieldChecks]
    exact (accounts_reference w f.type hf _).bind fun _ => (ih hrest).giving _

private theorem accounts_caseBodies (w : c.schema.WellFormed) {variants : List Variant}
    (legal : ∀ v ∈ variants, ∀ f ∈ v.fields, f.type.IsLegal c.schema c.scope.params) :
    Accounts c (caseBodies c variants) := by
  induction variants with
  | nil => exact .pure _
  | cons v rest ih =>
    obtain ⟨hv, hrest⟩ := List.forall_mem_cons.mp legal
    rw [caseBodies]
    exact ((accounts_fieldChecks w _ hv).giving _).bind fun _ => (ih hrest).giving _

private theorem accounts_definitionBody (w : c.schema.WellFormed) {d : Definition}
    (legal : ∀ t ∈ d.references, t.IsLegal c.schema c.scope.params) :
    Accounts c (definitionBody c d) := by
  cases d with
  | struct d =>
    exact (accounts_fieldChecks w _ (Definition.forall_references_struct.mp legal)).giving _
  | union d =>
    exact (accounts_caseBodies w (Definition.forall_references_union.mp legal)).giving _
  | enum d => exact .pure _
  | «alias» d =>
    have htarget := legal d.target (by simp [Definition.references])
    exact (accounts_reference w d.target htarget _).giving _

private theorem Emission.Accounted.inside {p : Point} (h : p.state.Accounted c) :
    p.inside.2.Accounted c := by
  obtain ⟨t, subject, s⟩ := p
  cases subject with
  | some e => exact h
  | none => exact accounts_freshVariable s h

private theorem Visits.accounted (w : c.schema.WellFormed) {d : Definition}
    (legal : ∀ t ∈ d.references, t.IsLegal c.schema c.scope.params) {s : Emission}
    (hs : s.Accounted c) {p : Point} (h : Visits c d s p) :
    p.type.IsLegal c.schema c.scope.params ∧ p.state.Accounted c := by
  induction h with
  | @field d' before after f hd hfields =>
    subst hd
    have hall := Definition.forall_references_struct.mp legal
    rw [hfields] at hall
    obtain ⟨hbefore, hf⟩ := List.forall_mem_append.mp hall
    exact ⟨hf f List.mem_cons_self, accounts_fieldChecks w _ hbefore s hs⟩
  | @payload u first rest v before after f hd hvariants hfields =>
    subst hd
    have hall := Definition.forall_references_union.mp legal
    rw [hvariants] at hall
    obtain ⟨hfirst, hv⟩ := List.forall_mem_append.mp hall
    have hv := hv v List.mem_cons_self
    rw [hfields] at hv
    obtain ⟨hbefore, hf⟩ := List.forall_mem_append.mp hv
    exact ⟨hf f List.mem_cons_self,
      accounts_fieldChecks w _ hbefore _ (accounts_caseBodies w hfirst s hs)⟩
  | target hd =>
    subst hd
    exact ⟨legal _ (by simp [Definition.references]), hs⟩
  | argument hp hinst ih =>
    obtain ⟨hlegal, hstate⟩ := ih
    obtain ⟨hbefore, ht⟩ := List.forall_mem_append.mp hlegal.generic.2
    exact ⟨ht _ List.mem_cons_self, accounts_arguments
      (fun u hu => accounts_reference w u (hbefore u hu) none) _ hstate⟩
  | sequence hp htype ih =>
    obtain ⟨hlegal, hstate⟩ := ih
    exact ⟨(htype ▸ hlegal).sequence, accounts_freshVariable _ hstate.inside⟩
  | map hp htype ih =>
    obtain ⟨hlegal, hstate⟩ := ih
    exact ⟨(htype ▸ hlegal).map, accounts_freshVariable _ hstate.inside⟩
  | element hp htype ih =>
    obtain ⟨hlegal, hstate⟩ := ih
    obtain ⟨hbefore, ht⟩ := List.forall_mem_append.mp (htype ▸ hlegal).tuple
    exact ⟨ht _ List.mem_cons_self, accounts_tuple
      (fun u hu subject => accounts_reference w u (hbefore u hu) subject) _ _ _ hstate.inside⟩
  | nullable hp htype ih =>
    obtain ⟨hlegal, hstate⟩ := ih
    exact ⟨(htype ▸ hlegal).nullable, hstate.inside⟩

private theorem Visits.exists_of_mem_applications (w : c.schema.WellFormed) {d : Definition}
    (legal : ∀ t ∈ d.references, t.IsLegal c.schema c.scope.params) {s : Emission}
    (hs : s.Accounted c) {t : TypeRef} (ht : t ∈ d.applications) :
    ∃ p, Visits c d s p ∧ p.type = t := by
  have hreferences : ∀ u ∈ d.references, ∃ p, Visits c d s p ∧ p.type = u := by
    cases hd : d with
    | struct d' =>
      refine Definition.forall_references_struct.mpr fun f hf => ?_
      obtain ⟨before, after, hfields⟩ := List.append_of_mem hf
      exact ⟨_, .field rfl hfields, rfl⟩
    | union d' =>
      refine Definition.forall_references_union.mpr fun v hv f hf => ?_
      obtain ⟨first, rest, hvariants⟩ := List.append_of_mem hv
      obtain ⟨before, after, hfields⟩ := List.append_of_mem hf
      exact ⟨_, .payload rfl hvariants hfields, rfl⟩
    | enum d' => simp [Definition.references, Definition.fieldLists]
    | «alias» d' =>
      refine List.forall_mem_singleton.mpr ⟨_, .target rfl, rfl⟩
  obtain ⟨u, hu, ht⟩ := List.mem_flatMap.mp ht
  refine TypeRef.forall_applications (P := fun t => ∃ p, Visits c d s p ∧ p.type = t)
    ?_ ?_ ?_ ?_ ?_ (hreferences u hu) t ht
  · rintro name args ⟨⟨_, subject, s'⟩, hp, rfl⟩ t ht
    obtain ⟨before, after, rfl⟩ := List.append_of_mem ht
    obtain ⟨d', hd'⟩ := (hp.accounted w legal hs).1.generic.1.generic? w
    exact ⟨_, hp.argument (by rw [Schema.instantiation?, hd']; rfl), rfl⟩
  · rintro t ⟨p, hp, htype⟩
    exact ⟨_, hp.sequence htype, rfl⟩
  · rintro t ⟨p, hp, htype⟩
    exact ⟨_, hp.map htype, rfl⟩
  · rintro ts ⟨p, hp, htype⟩ t ht
    obtain ⟨before, after, rfl⟩ := List.append_of_mem ht
    exact ⟨_, hp.element htype, rfl⟩
  · rintro t ⟨p, hp, htype⟩
    exact ⟨_, hp.nullable htype, rfl⟩

private theorem Emission.Accounted.renamed {s : Emission} {args : List TypeRef}
    (h : (arguments c args s).2.Accounted c) {name : String} {inst : Instantiation}
    (hinst : c.schema.instantiation? c.scope name args = some inst) {b : Binding}
    (hb : ((arguments c args s).2.bindings inst).find? (fun b => b.site == inst.site) = some b) :
    ∃ after, Renamed ⟨(arguments c args s).2.taken, s.used, after⟩ []
      (.call (.name (c.options.factoryName inst.definition.name)) (arguments c args s).1)
      b.init := by
  obtain ⟨d, hd, rfl⟩ := Option.map_eq_some_iff.mp hinst
  have hsite : b.site = .generic name args := by simpa using List.find?_some hb
  obtain ⟨whole, scope, hscope, hclosed, hcomposed⟩ : ∃ whole scope, (whole → c.scope = scope) ∧
      (¬ whole → TypeRef.anyMentionsParameter args = false) ∧
      IsComposed whole { c with scope := scope } (arguments c args s).2 b := by
    have hmem := List.mem_of_find?_eq_some hb
    rw [Emission.bindings] at hmem
    split at hmem
    · exact ⟨True, c.scope, fun _ => rfl, fun h => absurd trivial h, h.lazies b hmem⟩
    · obtain ⟨hclosed, scope, hcomposed⟩ := h.constants b hmem
      rw [hsite] at hclosed
      exact ⟨False, scope, False.elim, fun _ => hclosed, hcomposed⟩
  obtain ⟨name', args', d', s', hsite', hd', hinit, hkept⟩ := hcomposed
  obtain ⟨rfl, rfl⟩ := TypeRef.generic.inj (hsite'.symm.trans hsite)
  obtain rfl : d' = d := Option.some.inj (hd'.symm.trans hd)
  have hdeclared := (List.append_subset.mp h.taken).1
  have hnames := (List.append_subset.mp h.taken).2
  -- The state that both emissions of the arguments are taken in, but for the count.
  let now := (arguments c args' s).2
  have hcomposed := (repeats_all c args').again s { now with used := s.used }
    ((Emission.Kept.refl now).counted _) rfl
  have hstored := (repeats_arguments { c with scope := scope } c.scope fun t ht =>
    repeats_reference { c with scope := scope } c.scope hscope t
      (fun hw => TypeRef.mentionsParameter_of_mem (hclosed hw) ht) none).again s'
      { now with used := s'.used }
      (hkept.counted _) rfl
  let ρ : Renaming := ⟨now.taken, s.used, s'.used⟩
  have hparallel : Parallel ρ (arguments c args') (arguments c args') (AllRenamed ρ []) :=
    parallel_arguments c fun t _ => parallel_reference c hdeclared t .none
  have hall := (hparallel { now with used := s.used } { now with used := s'.used }
    ⟨rfl, rfl, rfl, Nat.add_comm _ _⟩ (by rw [hcomposed]; exact hnames)).1
  rw [hcomposed, hstored] at hall
  rw [hinit]
  exact ⟨s'.used, .call (.plain (by simp [Options.factoryName, String.toList_append])) hall⟩

/-- The application refers to what is stored for it, if anything is, and stores nothing; the initial
value of that is the one that it has composed, up to names of variables. -/
def Reuses (c : Context) (p : Point) : Prop :=
  ∀ name args, p.type = .generic name args → args ≠ [] → ∀ inst,
    c.schema.instantiation? c.scope name args = some inst → inst.recursive = false →
    let composed := arguments c args p.state
    let init := Expr.call (.name (c.options.factoryName inst.definition.name)) composed.1
    ∀ b, (composed.2.bindings inst).find? (fun b => b.site == inst.site) = some b →
      reference c p.type p.subject p.state
          = (applied p.subject (composed.2.access inst b.name init), composed.2) ∧
        ∃ after, Renamed ⟨composed.2.taken, p.state.used, after⟩ [] init b.init

private theorem Visits.reuses (w : c.schema.WellFormed) {d : Definition}
    (legal : ∀ t ∈ d.references, t.IsLegal c.schema c.scope.params) {s : Emission}
    (hs : s.Accounted c) {p : Point} (h : Visits c d s p) : Reuses c p := by
  obtain ⟨t, subject, s'⟩ := p
  obtain ⟨hlegal, hstate⟩ := h.accounted w legal hs
  rintro name args rfl hargs inst hinst hself composed init b hb
  have haccounted : composed.2.Accounted c := accounts_arguments
    (fun t ht => accounts_reference w t (hlegal.generic.2 t ht) none) s' hstate
  have hbound : bound? (composed.2.bindings inst) inst.site = some b.name := by
    rw [bound?, hb]
    rfl
  have hinstantiate : instantiate c.options inst composed.1 composed.2
      = (composed.2.access inst b.name init, composed.2) := by
    rw [instantiate_eq, hself, if_neg Bool.false_ne_true]
    simp only [hbound]
    rfl
  refine ⟨?_, haccounted.renamed hinst hb⟩
  rw [reference_generic hargs hinst]
  exact congrArg (fun r => (applied subject r.1, r.2)) hinstantiate

end

section

variable {schema : Schema} {options : Options}

private theorem Emission.Accounted.of_constants {scope scope' : Scope} {s s' : Emission}
    (h : s.Accounted ⟨schema, options, scope⟩) (hconstants : s'.constants = s.constants)
    (htaken : s'.taken = s.taken) (hlazies : s'.lazies.getD [] = [])
    (hparams : s'.lazies = none → scope'.params = []) :
    s'.Accounted ⟨schema, options, scope'⟩ := by
  have hkept : s.Kept False s' := ⟨hconstants ▸ List.prefix_rfl, False.elim, False.elim⟩
  have hnames : s'.names ⊆ s.names := by
    rw [names, names, hconstants, hlazies, List.append_nil, List.map_append]
    exact List.subset_append_left _ _
  refine ⟨?_, hparams, fun b hb => ?_, by simp [hlazies]⟩
  · rw [htaken]
    obtain ⟨hreserved, hold⟩ := List.append_subset.mp h.taken
    exact List.append_subset.mpr ⟨hreserved, List.Subset.trans hnames hold⟩
  · obtain ⟨hclosed, scope, hcomposed⟩ := h.constants b (hconstants ▸ hb)
    exact ⟨hclosed, scope, hcomposed.kept hkept⟩

private theorem accounted_start : (Emitter.start schema options).emission.Accounted
    ⟨schema, options, Scope.empty⟩ where
  taken := by simp [Emitter.start, Emission.names]
  parameters _ := rfl
  constants := by simp [Emitter.start]
  lazies := by simp [Emitter.start]

variable {s : Emission} (h : s.Accounted ⟨schema, options, Scope.empty⟩) (hs : s.lazies = none)

include h hs

private theorem accounted_enter (d : Definition) :
    (s.enter d).Accounted ⟨schema, options, Scope.of d⟩ := by
  refine h.of_constants rfl rfl ?_ fun hnone => ?_
  · rw [Emission.enter, hs]
    split <;> rfl
  · cases hgeneric : d.isGeneric with
    | true => simp [Emission.enter, hgeneric] at hnone
    | false => simpa [Definition.isGeneric, Scope.of] using hgeneric

private theorem accounted_definitionItem (w : schema.WellFormed) {d : Definition}
    (hd : d ∈ schema.types) :
    (definitionItem schema options d s).2.Accounted ⟨schema, options, Scope.empty⟩ := by
  have hbody : (bodyState schema options d s).Accounted ⟨schema, options, Scope.of d⟩ :=
    accounts_definitionBody w (w.references d hd) _ (accounted_enter h hs d)
  rw [definitionItem_state d hs]
  exact hbody.of_constants rfl rfl rfl fun _ => rfl

omit h hs in
private theorem accounted_foldl_emit (w : schema.WellFormed) {ds : List Definition}
    (hds : ds ⊆ schema.types) {e : Emitter} (hschema : e.schema = schema)
    (hoptions : e.options = options) (he : e.emission.lazies = none)
    (h : e.emission.Accounted ⟨schema, options, Scope.empty⟩) :
    (ds.foldl Emitter.emit e).emission.Accounted ⟨schema, options, Scope.empty⟩ := by
  induction ds generalizing e with
  | nil => exact h
  | cons d ds ih =>
    obtain ⟨hd, hds⟩ := List.cons_subset.mp hds
    refine ih hds hschema hoptions (Emitter.lazies_emit he d) ?_
    rw [Emitter.emit_eq, hschema, hoptions]
    exact accounted_definitionItem h he w hd

end

/-- Whichever definitions of a schema have been emitted, whatever is applied in the body of the next
one is met in it; where an instantiation is found stored then, nothing is stored and its initial
value is the one that has just been composed, up to names of variables. All that is stored, the
variables of the factory as well, stays as and where it is, and constants do so for good. A guard
that is emitted again, whatever comes between, is the same block. -/
theorem Emitter.reuses_what_it_composes (r : ResolvedSchema) (options : Options)
    {ds : List Definition} (hds : ds ⊆ r.types) {d : Definition} (hd : d ∈ r.types) :
    let e := ds.foldl Emitter.emit (Emitter.start r.schema options)
    let c : Context := ⟨r.schema, options, Scope.of d⟩
    let before := e.emission.enter d
    let after := bodyState r.schema options d e.emission
    before.constants = e.emission.constants ∧
      (∀ t ∈ d.applications, ∃ p, Visits c d before p ∧ p.type = t) ∧
      (∀ p, Visits c d before p →
        let next := (reference c p.type p.subject p.state).2
        Reuses c p ∧ before.Kept True p.state ∧ p.state.Kept True next ∧ next.Kept True after) ∧
      (e.emit d).emission = { after with lazies := none } ∧
      (∀ more : List Definition,
        e.emission.constants <+: (more.foldl Emitter.emit e).emission.constants) ∧
      (d.isGeneric = false → ∃ block, (e.emit d).blocks = e.blocks ++ [block] ∧
        ∀ more : List Definition,
          let e' := more.foldl Emitter.emit (e.emit d)
          (e'.emit d).blocks = e'.blocks ++ [block]) := by
  intro e c before after
  obtain ⟨hschema, hoptions, hlazies, -⟩ :=
    Emitter.foldl_emit_kept ds (e := Emitter.start r.schema options) rfl
  have haccounted : e.emission.Accounted ⟨r.schema, options, Scope.empty⟩ :=
    accounted_foldl_emit r.wellFormed hds rfl rfl rfl accounted_start
  have hbefore : before.Accounted c := accounted_enter haccounted hlazies d
  have legal := r.wellFormed.references d hd
  refine ⟨rfl, fun t ht => Visits.exists_of_mem_applications r.wellFormed legal hbefore ht,
    fun p hp => ?_, ?_, fun more => (Emitter.foldl_emit_kept more hlazies).2.2.2,
    fun hgeneric => ⟨_, rfl, ?_⟩⟩
  · obtain ⟨hfrom, hto⟩ := hp.kept
    exact ⟨hp.reuses r.wellFormed legal hbefore, hfrom, (repeats_same c _ _).keeps _, hto⟩
  · rw [Emitter.emit_eq]
    change (definitionItem e.schema e.options d e.emission).2 = _
    rw [show e.schema = r.schema from hschema, show e.options = options from hoptions]
    exact definitionItem_state d hlazies
  · intro more e'
    obtain ⟨hschema', hoptions', hlazies', hconstants⟩ :=
      Emitter.foldl_emit_kept more (Emitter.lazies_emit hlazies d)
    have hagain : (definitionItem e'.schema e'.options d e'.emission).1
        = (definitionItem e.schema e.options d e.emission).1 := by
      rw [show e'.schema = e.schema from hschema', show e'.options = e.options from hoptions']
      exact definitionItem_again hgeneric hlazies hlazies' hconstants
    exact congrArg (fun item => e'.blocks ++ [⟨.type d.name, [item]⟩]) hagain

def parcel : Definition :=
  .alias ⟨"Parcel", [], .generic "Box" [.sequence (.primitive .string)]⟩

def parcels : Definition :=
  .alias ⟨"Parcels", [], .sequence (.generic "Box" [.sequence (.primitive .string)])⟩

def post : ResolvedSchema := ⟨⟨[box, parcel, parcels]⟩, by decide⟩

def stringsChecker (x y : String) : Expr :=
  .parens (.arrow x (.guard (.sequence (.primitive .string)))
    (.both (Expr.name x).isArray
      ((Expr.name x).every y .unknown (.equals (.typeOf (.name y)) (.string "string")))))

theorem Emitter.reuses_what_it_composes_post :
    let e := [parcel].foldl Emitter.emit (Emitter.start post.schema {})
    let composed := Expr.call (.name "make_isa_Box") [stringsChecker "x2" "x3"]
    let stored := Expr.call (.name "make_isa_Box") [stringsChecker "x1" "x2"]
    e.emission.constants.map Binding.init = [stored] ∧
      ∃ after, Renamed ⟨e.emission.taken, 1, after⟩ [] composed stored := by
  intro e composed stored
  refine ⟨rfl, ?_⟩
  let c : Context := ⟨post.schema, {}, Scope.of parcels⟩
  let args : List TypeRef := [.sequence (.primitive .string)]
  let before := e.emission.enter parcels
  have htarget : Visits c parcels before
      ⟨.sequence (.generic "Box" args), some (.name subjectName), before⟩ := .target rfl
  have hparcel : [parcel] ⊆ post.types := by decide
  have hreuses := ((Emitter.reuses_what_it_composes post {} hparcel
    (show parcels ∈ post.types by decide)).2.2.1 _ (htarget.sequence rfl)).1
  obtain ⟨after, h⟩ := (hreuses "Box" args rfl (List.cons_ne_nil _ _) _ rfl rfl _ rfl).2
  have hcomposed : ∀ s : Emission, (arguments c args s).1
      = [stringsChecker ("x" ++ toString (s.used + 1)) ("x" ++ toString (s.used + 2))] :=
    fun _ => rfl
  refine ⟨after, ?_⟩
  rw [show composed = .call (.name "make_isa_Box") (arguments c args (freshVariable before).2).1 by
    rw [hcomposed, show (freshVariable before).2.used = 1 from rfl]; rfl]
  exact h

end SchemaGuard.Script
