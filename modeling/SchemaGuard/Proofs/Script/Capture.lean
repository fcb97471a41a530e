import SchemaGuard.Proofs.Script.Names

/-!
What the emitted code binds for itself: the subjects of guards, the checkers handed to factories,
and the variables of functions inside. No name that a module declares is one of these, or one of the
globals that guards read, unless it is the guard prefix alone: the name of an instantiation of which
nothing but underscores is left.
-/

set_option autoImplicit false
set_option relaxedAutoImplicit false

namespace SchemaGuard.Script

mutual
def Expr.binders : Expr → List String
  | .bool _ | .null | .number _ | .string _ | .name _ => []
  | .index a b | .relate _ a b | .both a b | .either a b => a.binders ++ b.binders
  | .property e _ | .typeOf e | .not e | .parens e | .fill _ e => e.binders
  | .call function args => function.binders ++ Expr.allBinders args
  | .arrow x _ body => x :: body.binders

def Expr.allBinders : List Expr → List String
  | [] => []
  | e :: es => e.binders ++ Expr.allBinders es
end

mutual
def Stmt.binders : Stmt → List String
  | .rejectIf e | .give e => e.binders
  | .bind x e => x :: e.binders
  | .switch e cases => e.binders ++ Stmt.caseBinders cases

def Stmt.allBinders : List Stmt → List String
  | [] => []
  | s :: rest => s.binders ++ Stmt.allBinders rest

def Stmt.caseBinders : List (String × List Stmt) → List String
  | [] => []
  | (_, body) :: rest => Stmt.allBinders body ++ Stmt.caseBinders rest
end

def Item.binders : Item → List String
  | .guard _ _ param _ body => param :: Stmt.allBinders body
  | .factory _ _ _ params _ body =>
    params.map checkerName ++ selfName :: subjectName :: Stmt.allBinders body
  | .constant _ init => init.binders

private theorem allBinders_append (a b : List Stmt) :
    Stmt.allBinders (a ++ b) = Stmt.allBinders a ++ Stmt.allBinders b := by
  induction a with
  | nil => rfl
  | cons s a ih => simp [Stmt.allBinders, ih]

private theorem binders_any (e : Expr) (es : List Expr) :
    (Expr.any e es).binders = e.binders ++ Expr.allBinders es := by
  induction es generalizing e with
  | nil => simp [Expr.any, Expr.allBinders]
  | cons f fs ih => simp [Expr.any, ih, Expr.binders, Expr.allBinders]

private theorem binders_isOneOf (x : String) (names : List String) :
    (Expr.isOneOf (.name x) names).binders = [] := by
  cases names with
  | nil => rfl
  | cons s rest =>
    have hrest : Expr.allBinders (rest.map fun s => Expr.equals (.name x) (.string s)) = [] := by
      induction rest with
      | nil => rfl
      | cons s rest ih => exact ih
    rw [Expr.isOneOf, binders_any, hrest]
    rfl

/-- The name is `x` and a number. -/
def isNumbered (x : String) : Bool :=
  match x.toList with
  | 'x' :: d :: rest => (d :: rest).all Char.isDigit
  | _ => false

private theorem isNumbered_iff {x : String} : isNumbered x = true ↔
    ∃ digits, digits ≠ [] ∧ (∀ d ∈ digits, d.isDigit = true) ∧ x.toList = 'x' :: digits := by
  unfold isNumbered
  constructor
  · intro h
    split at h
    · next d rest hx => exact ⟨d :: rest, List.cons_ne_nil d rest, List.all_eq_true.mp h, hx⟩
    · cases h
  · rintro ⟨digits, hsome, hdigits, hx⟩
    obtain ⟨d, rest, rfl⟩ := List.exists_cons_of_ne_nil hsome
    rw [hx]
    exact List.all_eq_true.mpr hdigits

private theorem IsVariable.isNumbered {x : String} (h : IsVariable x) : isNumbered x = true := by
  obtain ⟨n, rfl⟩ := h
  refine isNumbered_iff.mpr ⟨Nat.toDigits 10 n, Nat.toDigits_ne_nil, fun d hd => ?_, ?_⟩
  · exact Nat.isDigit_of_mem_toDigits (by omega) (by omega) hd
  · simp

/-- The name is one that the emitted code binds or reads besides what the module declares: a fixed
one, that of a generated variable, or that of a checker for a parameter. -/
def IsOwn (schema : Schema) (x : String) : Prop :=
  x ∈ Options.locals ∨ isNumbered x = true ∨
    ∃ d ∈ schema.types, ∃ p ∈ d.params, x = checkerName p

section

variable {c : Context} {constants lazies : List Binding}

mutual
private theorem IsChecker.binders {t : TypeRef} {e : Expr} :
    IsChecker c constants lazies t e → ∀ x ∈ e.binders, IsVariable x
  | .primitive | .parameter _ | .monomorphic .. | .self .. | .constant .. => by
    simp [Expr.binders, Context.guardName]
  | .fill _ _ _ _ hes => by simpa [Expr.binders] using hes.binders
  | .function _ hx hbody => by simpa [Expr.binders, hx] using hbody.binders rfl

private theorem AreCheckers.binders {ts : List TypeRef} {es : List Expr} :
    AreCheckers c constants lazies ts es → ∀ x ∈ Expr.allBinders es, IsVariable x
  | .nil => by simp [Expr.allBinders]
  | .cons he hes => List.forall_mem_append.mpr ⟨he.binders, hes.binders⟩

private theorem IsCondition.binders {t : TypeRef} {e condition : Expr} :
    IsCondition c constants lazies t e condition → e.binders = [] →
    ∀ x ∈ condition.binders, IsVariable x
  | .primitive _, he => by simp [Expr.equals, Expr.binders, he]
  | .checker _ hcheck, he => by
    simpa [Expr.binders, Expr.allBinders, he] using hcheck.binders
  | .sequence hx hbody, he => by
    simpa [Expr.isArray, Expr.every, Expr.binders, Expr.allBinders, he, hx] using hbody.binders rfl
  | .map hx hbody, he => by
    simpa [Context.isRecord, Context.guardName, Expr.valuesOf, Expr.every, Expr.binders,
      Expr.allBinders, he, hx] using hbody.binders rfl
  | .tuple hbody, he => by
    refine hbody.binders he ?_
    simp [Expr.isArray, Expr.equals, Expr.binders, Expr.allBinders, he]
  | .nullable hbody, he => by
    simpa [Expr.equals, Expr.binders, he] using hbody.binders he

private theorem IsTuple.binders {e found body : Expr} {i : Nat} {ts : List TypeRef} :
    IsTuple c constants lazies e i found ts body → e.binders = [] →
    (∀ x ∈ found.binders, IsVariable x) → ∀ x ∈ body.binders, IsVariable x
  | .nil, _, hfound => hfound
  | .cons hcondition hbody, he, hfound => by
    have hcondition := hcondition.binders (by simp [Expr.binders, he])
    exact hbody.binders he (List.forall_mem_append.mpr ⟨hfound, hcondition⟩)
end

private def BindsLocals (body : List Stmt) : Prop :=
  ∀ x ∈ Stmt.allBinders body, x ∈ Options.locals ∨ IsVariable x

private theorem BindsLocals.append {a b : List Stmt} (ha : BindsLocals a) (hb : BindsLocals b) :
    BindsLocals (a ++ b) := by
  unfold BindsLocals
  rw [allBinders_append]
  exact List.forall_mem_append.mpr ⟨ha, hb⟩

private theorem bindsLocals_recordCheck (x : String) : BindsLocals [recordCheck c (.name x)] := by
  simp [BindsLocals, recordCheck, Context.isRecord, Context.guardName, Stmt.allBinders,
    Stmt.binders, Expr.binders, Expr.allBinders]

private theorem bindsLocals_closedKeys (shape : ShapePolicy) (x : String) (allowed : List String) :
    BindsLocals (match shape with
      | .closed => [closedKeys (.name x) allowed]
      | .opened => []) := by
  cases shape with
  | opened => simp [BindsLocals, Stmt.allBinders]
  | closed =>
    cases allowed with
    | nil =>
      simp [BindsLocals, closedKeys, Expr.keysOf, Stmt.allBinders, Stmt.binders, Expr.binders,
        Expr.allBinders]
    | cons s rest =>
      simp [BindsLocals, closedKeys, Expr.keysOf, Expr.every, binders_isOneOf, Stmt.allBinders,
        Stmt.binders, Expr.binders, Expr.allBinders, Options.locals]

private theorem bindsLocals_fieldCheck {x : String} {f : Field} {s : Stmt}
    (h : IsFieldCheck c constants lazies (.name x) f s) : BindsLocals [s] := by
  obtain ⟨condition, hcondition, rfl⟩ := h
  have hvariables := hcondition.binders (by simp [Expr.binders])
  intro y hy
  refine .inr (hvariables y ?_)
  cases hrequired : f.required <;>
    simpa [hrequired, Stmt.allBinders, Stmt.binders, Expr.owns, Expr.binders, Expr.allBinders]
      using hy

private theorem IsObjectBody.bindsLocals {x : String} {fields : List Field} {body : List Stmt}
    (h : IsObjectBody c constants lazies x fields body) : BindsLocals body := by
  obtain ⟨checks, hchecks, rfl⟩ := h
  have hfields : BindsLocals checks := by
    induction hchecks with
    | nil => simp [BindsLocals, Stmt.allBinders]
    | cons hs _ ih => exact (bindsLocals_fieldCheck hs).append ih
  have hlast : BindsLocals [.give (.bool true)] := by
    simp [BindsLocals, Stmt.allBinders, Stmt.binders, Expr.binders]
  exact (((bindsLocals_recordCheck x).append (bindsLocals_closedKeys _ x _)).append hfields).append
    hlast

private theorem binders_cases {variants : List Variant} {cases : List (String × List Stmt)}
    (h : List.Forall₂ (fun v case => case.1 = v.tag ∧
      IsObjectBody c constants lazies payloadKey v.fields case.2) variants cases) :
    ∀ x ∈ Stmt.caseBinders cases, x ∈ Options.locals ∨ IsVariable x := by
  induction h with
  | nil => simp [Stmt.caseBinders]
  | cons hcase _ ih => exact List.forall_mem_append.mpr ⟨hcase.2.bindsLocals, ih⟩

private theorem IsBody.bindsLocals {d : Definition} {body : List Stmt}
    (h : IsBody c constants lazies d body) : BindsLocals body := by
  cases h with
  | struct hbody => exact hbody.bindsLocals
  | @union d cases hcases =>
    have hlast : BindsLocals [.bind payloadKey (.index (.name subjectName) (.string payloadKey)),
        .switch (.index (.name subjectName) (.string tagKey)) cases] := by
      have hpayload : payloadKey ∈ Options.locals := by decide
      simpa [BindsLocals, Stmt.allBinders, Stmt.binders, Expr.binders, hpayload] using
        binders_cases hcases
    exact ((bindsLocals_recordCheck subjectName).append
      (bindsLocals_closedKeys _ subjectName _)).append hlast
  | enum => simp [BindsLocals, Stmt.allBinders, Stmt.binders, binders_isOneOf]
  | «alias» hcondition =>
    intro x hx
    have hvariables := hcondition.binders rfl
    exact .inr (hvariables x (by simpa [Stmt.allBinders, Stmt.binders] using hx))

end

variable {options : Options} {r : ResolvedSchema}

private theorem binders_prelude (options : Options) :
    (prelude options).map Item.binders = [["v"], ["v"], ["v"], ["v"], ["v", "b"]] := rfl

private theorem isOwn_of_mem_binders {item : Item} (hitem : item ∈ guardModule r.schema options)
    {x : String} (hx : x ∈ item.binders) : IsOwn r.schema x := by
  have own : ∀ {x : String}, x ∈ Options.locals ∨ IsVariable x → IsOwn r.schema x := fun h =>
    h.elim .inl fun h => .inr (.inl h.isNumbered)
  obtain ⟨items, constants, cells, hemitted, hmodule⟩ :=
    guardModule_eq r.schema r.wellFormed options
  rw [hmodule] at hitem
  rcases List.mem_append.mp hitem with hitem | hitem
  · rcases List.mem_append.mp hitem with hitem | hitem
    · have hlocals : ∀ names ∈ [["v"], ["v"], ["v"], ["v"], ["v", "b"]], ∀ x ∈ names,
          x ∈ Options.locals := by decide
      have hmem := List.mem_map_of_mem (f := Item.binders) hitem
      exact .inl (hlocals _ (binders_prelude options ▸ hmem) x hx)
    · obtain ⟨d, hd, h⟩ := exists_left hemitted.items.flip hitem
      have hsubject : subjectName ∈ Options.locals := by decide
      have hself : selfName ∈ Options.locals := by decide
      cases h with
      | guard _ hbody =>
        rcases List.mem_cons.mp hx with rfl | hx
        · exact .inl hsubject
        · exact own (hbody.bindsLocals x hx)
      | factory _ _ _ _ hbody =>
        rcases List.mem_append.mp hx with hx | hx
        · obtain ⟨p, hp, rfl⟩ := List.mem_map.mp hx
          exact .inr (.inr ⟨d, hd, p, hp, rfl⟩)
        · rcases List.mem_cons.mp hx with rfl | hx
          · exact .inl hself
          · rcases List.mem_cons.mp hx with rfl | hx
            · exact .inl hsubject
            · exact own (hbody.bindsLocals x hx)
  · obtain ⟨b, hb, rfl⟩ := List.mem_map.mp hitem
    obtain ⟨before, after, hsplit⟩ := List.append_of_mem hb
    obtain ⟨name, args, d, es, _, _, _, _, hinit, hes⟩ := hemitted.inits before b after hsplit
    refine own (.inr (hes.binders x ?_))
    simpa [Item.binders, hinit, Expr.binders] using hx

/-- No name that the module declares is one of those that the emitted code has for itself. -/
structure Module.IsUncaptured (schema : Schema) (m : Module) : Prop where
  /-- What is declared has none of the names that the emitted code binds or reads for itself. -/
  own : ∀ x ∈ Module.declared m, ¬ IsOwn schema x
  /-- Nothing that is bound inside an item hides what is declared. -/
  binders : ∀ item ∈ m, ∀ x ∈ item.binders, x ∉ Module.declared m
  /-- The variables of a factory hide nothing that the module declares. -/
  lazies : ∀ item ∈ m, ∀ x ∈ item.lazyNames, x ∉ m.map Item.name

private theorem not_isOwn_factoryName (schema : Schema) (options : Options) (type : String) :
    ¬ IsOwn schema (options.factoryName type) := by
  have hhead : (options.factoryName type).toList.head? = some 'm' := by
    simp [Options.factoryName]
  rintro (hlocal | hnumbered | ⟨d, _, p, _, hchecker⟩)
  · have hnone : ∀ x ∈ Options.locals, x.toList.head? ≠ some 'm' := by decide
    exact hnone _ hlocal hhead
  · obtain ⟨digits, _, _, hx⟩ := isNumbered_iff.mp hnumbered
    rw [hx] at hhead
    cases hhead
  · simp [hchecker, checkerName] at hhead

private theorem not_isNumbered_guardName (hgiven : options.guardPrefix ≠ "") {text : String}
    (htext : Identifier.isPlain text = true) : isNumbered (options.guardName text) = false := by
  rw [Bool.eq_false_iff]
  intro hnumbered
  obtain ⟨digits, _, hdigits, hx⟩ := isNumbered_iff.mp hnumbered
  obtain ⟨c, rest, hlist, hc, _⟩ := Identifier.isPlain_iff.mp htext
  cases hlist' : options.guardPrefix.toList with
  | nil => exact hgiven (String.toList_inj.mp hlist')
  | cons first more =>
    have hsplit : first :: (more ++ c :: rest) = 'x' :: digits := by
      simpa [Options.guardName, hlist, hlist'] using hx
    have hdigit : c.isDigit = true := by
      refine hdigits c ?_
      rw [← (List.cons.inj hsplit).2]
      simp
    rw [Identifier.isDigit_eq_false_of_isStart hc] at hdigit
    cases hdigit

private theorem guardName_ne_checkerName (hvalid : options.validate = .ok ())
    (text param : String) :
    options.guardName text ≠ checkerName param := by
  intro heq
  refine Options.not_checkerPrefix_guardName hvalid text ?_
  rw [heq, checkerName, String.toList_append]
  exact List.prefix_append _ _

private theorem eq_guardPrefix_of_isOwn (hvalid : options.validate = .ok ()) {x : String}
    (hx : x ∈ Module.declared (guardModule r.schema options)) (hown : IsOwn r.schema x) :
    x = options.guardPrefix := by
  rcases isSpelled_of_mem_declared hx with ⟨d, _, rfl⟩ | ⟨text, htext, rfl⟩
  · exact absurd hown (not_isOwn_factoryName r.schema options d.name)
  · rcases htext with rfl | hplain
    · rw [Options.guardName, String.append_empty]
    · exfalso
      have hsome : text ≠ "" := by
        rintro rfl
        cases hplain
      have hgiven : options.guardPrefix ≠ "" := by
        intro hempty
        have husable := Options.isUsable_of_validate hvalid
        rw [hempty] at husable
        cases husable
      rcases hown with hlocal | hnumbered | ⟨d, _, p, _, hchecker⟩
      · exact Options.guardName_notMem_locals hvalid hsome hlocal
      · rw [not_isNumbered_guardName hgiven hplain] at hnumbered
        cases hnumbered
      · exact guardName_ne_checkerName hvalid text p hchecker

private theorem isOwn_guardPrefix (hvalid : options.validate = .ok ()) {schema : Schema}
    (h : IsOwn schema options.guardPrefix) :
    options.guardPrefix ∈ Options.locals ∨ isNumbered options.guardPrefix = true := by
  rcases h with hlocal | hnumbered | ⟨d, _, p, _, hchecker⟩
  · exact .inl hlocal
  · exact .inr hnumbered
  · refine absurd ?_ (guardName_ne_checkerName hvalid "" p)
    rwa [Options.guardName, String.append_empty]

private theorem unused_of_notMem {taken : List String} {base : String} (h : base ∉ taken) :
    unused taken base = base := by
  simp [unused, h]

private theorem guardPrefix_notMem_reservedNames (r : ResolvedSchema) (options : Options) :
    options.guardPrefix ∉ Emitter.reservedNames r.schema options := by
  have hguard : ∀ type, Identifier.isPlain type = true →
      options.guardPrefix ≠ options.guardName type := by
    intro type htype heq
    have hlist := congrArg String.toList heq
    obtain rfl : type = "" := by simpa [Options.guardName] using hlist
    cases htype
  have hfactory : ∀ type, options.guardPrefix ≠ options.factoryName type := by
    intro type heq
    have hlength := congrArg String.length heq
    have hmake : "make_".length = 5 := rfl
    simp only [Options.factoryName, String.length_append] at hlength
    omega
  intro hmem
  rcases List.mem_append.mp hmem with hmem | hmem
  · obtain ⟨d, hd, hmem⟩ := List.mem_flatMap.mp hmem
    rcases List.mem_pair.mp hmem with heq | heq
    · exact hguard d.name (Identifier.isPlain_of_isUsable (r.wellFormed.typeNames d hd)) heq
    · exact hfactory d.name heq
  · obtain ⟨type, htype, heq⟩ := List.mem_map.mp
      (show options.guardPrefix ∈ preludeTypes.map options.guardName from hmem)
    exact hguard type (isPlain_preludeTypes type htype) heq.symm

/-- A schema with an instantiation that is written with nothing but underscores. -/
def underscores : ResolvedSchema :=
  ⟨⟨[.alias ⟨"_", ["T"], .parameter "T"⟩, .enum ⟨"__", []⟩,
    .alias ⟨"S", [], .generic "_" [.named "__"]⟩]⟩, by decide⟩

private theorem guardPrefix_mem_declared (options : Options) :
    options.guardPrefix ∈ Module.declared (guardModule underscores.schema options) := by
  have hnames : (guardModule underscores.schema options).map Item.name =
      preludeTypes.map options.guardName ++ [options.factoryName "_", options.guardName "__",
        options.guardName "S", unused (Emitter.reservedNames underscores.schema options)
          (options.guardName (word "_<__>"))] := rfl
  have hfree := guardPrefix_notMem_reservedNames underscores options
  have hword : options.guardName (word "_<__>") = options.guardPrefix := by
    rw [show word "_<__>" = "" by decide, Options.guardName, String.append_empty]
  refine Module.mem_declared_of_mem ?_
  rw [hnames, hword, unused_of_notMem hfree]
  simp

/-- A declared name that the emitted code has for itself can only be the guard prefix alone. In
every schema all declared names are apart from these just when the guard prefix is none of the fixed
names and no `x` with a number. -/
theorem guardModule_names_uncaptured (options : Options) (hvalid : options.validate = .ok ()) :
    (∀ r : ResolvedSchema, ∀ x ∈ Module.declared (guardModule r.schema options),
      IsOwn r.schema x → x = options.guardPrefix) ∧
    ((∀ r : ResolvedSchema, Module.IsUncaptured r.schema (guardModule r.schema options)) ↔
      options.guardPrefix ∉ Options.locals ∧ isNumbered options.guardPrefix = false) := by
  refine ⟨fun r x => eq_guardPrefix_of_isOwn hvalid, fun h => ?_, fun ⟨hlocal, hnumbered⟩ r => ?_⟩
  · have hown := (h underscores).own _ (guardPrefix_mem_declared options)
    exact ⟨fun hlocal => hown (.inl hlocal), Bool.eq_false_iff.mpr fun hnumbered =>
      hown (.inr (.inl hnumbered))⟩
  · have apart : ∀ x ∈ Module.declared (guardModule r.schema options), ¬ IsOwn r.schema x := by
      intro x hx hown
      rw [eq_guardPrefix_of_isOwn hvalid hx hown] at hown
      rcases isOwn_guardPrefix hvalid hown with h | h
      · exact hlocal h
      · rw [hnumbered] at h
        cases h
    exact ⟨apart, fun item hitem x hx hmem => apart x hmem (isOwn_of_mem_binders hitem hx),
      fun item hitem x => lazyNames_notMem_names hitem⟩

theorem guardModule_names_uncaptured_isa :
    ({} : Options).validate = .ok () ∧
      ∀ r : ResolvedSchema, Module.IsUncaptured r.schema (guardModule r.schema {}) :=
  ⟨rfl, (guardModule_names_uncaptured {} rfl).2.mpr (by decide)⟩

/-- With the guard prefix `obj`, the instantiation has the name of the subject of every guard: the
guard of the last type calls the value that it looks at. -/
theorem guardModule_names_captured :
    ({ guardPrefix := "obj" } : Options).validate = .ok () ∧
      Item.constant "obj" (.call (.name "make_obj_") [.name "obj__"]) ∈
        guardModule underscores.schema { guardPrefix := "obj" } ∧
      Item.guard true "objS" "obj" (.type (.named "S"))
          [.give (.call (.name "obj") [.name "obj"])] ∈
        guardModule underscores.schema { guardPrefix := "obj" } ∧
      ¬ Module.IsUncaptured underscores.schema
        (guardModule underscores.schema { guardPrefix := "obj" }) := by
  refine ⟨rfl, ?_, ?_, fun h => ?_⟩
  · exact List.mem_of_getElem? (i := 8) rfl
  · exact List.mem_of_getElem? (i := 7) rfl
  · exact h.own "obj" (guardPrefix_mem_declared _) (.inl (by decide))

end SchemaGuard.Script
