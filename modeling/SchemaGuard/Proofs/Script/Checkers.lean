import SchemaGuard.Proofs.Script.Standing

/-!
Checkers at work: an expression that is a checker of a reference has a value that stands for the
reference, closed. On the way instantiations are made, which adds cells to the store and fills them.
-/

set_option autoImplicit false
set_option relaxedAutoImplicit false

namespace SchemaGuard

namespace TypeRef

private theorem substitute_parameters {params : List String} (distinct : params.Nodup)
    {args : List TypeRef} (h : args.length = params.length) :
    (params.map parameter).map (substitute params args) = args := by
  refine List.ext_getElem (by simp [h]) fun i hi hi' => ?_
  have hparam : i < params.length := by simpa using hi
  simp [substitute, argument?, idxOf?_getElem distinct hparam, hi']

theorem isStructural_of_substitute {params : List String} {args : List TypeRef} {t u : TypeRef}
    (h : t.isStructural = true) (hsubstitute : t.substitute params args = u) :
    u.isStructural = true := by
  subst hsubstitute
  cases t with
  | sequence _ | map _ | tuple _ | nullable _ => rfl
  | _ => cases h

end TypeRef

namespace Script

open Script.Module (eval evalAll apply)

def outerHeads : List Char := ['i', 'm', 'O', 'A', 'N']

def IsLocal (x : String) : Prop := ∃ c, x.toList.head? = some c ∧ c ∉ outerHeads ++ ['c', 'g']

private theorem IsLocal.ne {x y : String} (hx : IsLocal x) {c : Char} (hy : y.toList.head? = some c)
    (hc : c ∈ outerHeads ++ ['c', 'g']) : y ≠ x := by
  rintro rfl
  obtain ⟨c', hhead, hc'⟩ := hx
  obtain rfl := Option.some.inj (hhead.symm.trans hy)
  exact hc' hc

theorem IsVariable.isLocal {x : String} (h : IsVariable x) : IsLocal x := ⟨'x', h.head, by decide⟩

private theorem head_selfName : selfName.toList.head? = some 'g' := by decide

theorem isLocal_subjectName : IsLocal subjectName := ⟨'o', by decide, by decide⟩

theorem isLocal_payloadKey : IsLocal payloadKey := ⟨'f', by decide, by decide⟩

variable {P : Program} {T T' : Typing} {scope : Scope} {types : List TypeRef}
  {lazies : List Binding} {checkers : List Value} {env : Env} {n : Nat} {σ : Store}

private theorem Program.head_outer {x : String} {slot : Slot} (h : (x, slot) ∈ P.outer) :
    ∃ c ∈ outerHeads, x.toList.head? = some c := by
  rcases List.mem_append.mp h with h | h
  · obtain ⟨item, hitem, heq⟩ := List.mem_map.mp h
    obtain ⟨rfl, rfl⟩ := Prod.mk.inj heq
    rcases P.head_name (List.mem_append_left _ hitem) with hhead | hhead
    · exact ⟨'i', by decide, hhead⟩
    · exact ⟨'m', by decide, hhead⟩
  · have hglobals : ∀ p ∈ globals, ∃ c ∈ outerHeads, p.1.toList.head? = some c := by
      simp [globals, outerHeads]
    exact hglobals _ h

private theorem Program.head_constant {b : Binding} (hb : b ∈ P.constants) :
    b.name.toList.head? = some 'i' := by
  obtain ⟨text, _, htext⟩ :=
    P.emitted.spelled b.name (List.mem_append_left _ (List.mem_map_of_mem hb))
  rw [htext, P.head_guardName]

namespace Frame

/-- Binding a local name hides nothing. -/
theorem bind (h : Frame P T scope types lazies checkers env) {x : String} (hx : IsLocal x)
    (slot : Slot) : Frame P T scope types lazies checkers ((x, slot) :: env) where
  outer y slot' hy := by
    obtain ⟨c, hc, hhead⟩ := Program.head_outer hy
    rw [Module.lookup_cons_of_ne (hx.ne hhead (List.mem_append_left _ hc))]
    exact h.outer y slot' hy
  constants i b hb := by
    have hhead := Program.head_constant (List.mem_of_getElem? hb)
    rw [Module.lookup_cons_of_ne (hx.ne hhead (by decide))]
    exact h.constants i b hb
  distinct := h.distinct
  arity := h.arity
  params name i f hi hf := by
    rw [Module.lookup_cons_of_ne (hx.ne (Program.head_checkerName name) (by decide))]
    exact h.params name i f hi hf
  self name howner hparams := by
    rw [Module.lookup_cons_of_ne (hx.ne head_selfName (by decide))]
    exact h.self name howner hparams
  cells b hb := by
    obtain ⟨text, htext⟩ := h.spelled b hb
    rw [Module.lookup_cons_of_ne (hx.ne (htext ▸ P.head_guardName text) (by decide))]
    exact h.cells b hb
  spelled := h.spelled

end Frame

private def factoryEnv (P : Program) (d : Definition) (lazies : List Binding)
    (checkers : List Value) (address : Nat) : Env :=
  (selfName, .cell (address + lazies.length)) :: bindCells (lazies.map Binding.name) address
    ++ bindParams (d.params.map checkerName) checkers ++ P.code.env

private def factoryCells (d : Definition) (lazies : List Binding) (types : List TypeRef) :
    List Cell :=
  lazies.map (fun b => .lazy (b.site.substitute d.params types))
    ++ [.filled (.generic d.name types)]

section

variable {d : Definition}

private theorem head_lazy (hlazies : lazies.map Binding.name ⊆ P.cells) {b : Binding}
    (hb : b ∈ lazies) : ∃ text, b.name = P.options.guardName text := by
  obtain ⟨text, _, htext⟩ :=
    P.emitted.spelled b.name (List.mem_append_right _ (hlazies (List.mem_map_of_mem hb)))
  exact ⟨text, htext⟩

private theorem lookup_factoryEnv (hlazies : lazies.map Binding.name ⊆ P.cells) {address : Nat}
    {x : String} {c : Char} (hhead : x.toList.head? = some c)
    (hc : c ∈ outerHeads) (hx : x ∉ P.cells) :
    (factoryEnv P d lazies checkers address).lookup x = P.code.env.lookup x := by
  refine Module.lookup_append_of_notMem ?_
  rw [List.map_append, List.map_cons, Module.names_bindCells, Module.names_bindParams]
  intro hmem
  rcases List.mem_append.mp hmem with hmem | hmem
  · rcases List.mem_cons.mp hmem with rfl | hmem
    · obtain rfl := Option.some.inj (hhead.symm.trans head_selfName)
      revert hc
      decide
    · exact hx (hlazies hmem)
  · obtain ⟨param, _, rfl⟩ := List.mem_map.mp hmem
    rw [Program.head_checkerName] at hhead
    obtain rfl := Option.some.inj hhead
    revert hc
    decide

private theorem frame_factoryEnv (hd : d ∈ P.guards.schema.types)
    (hlazies : lazies.map Binding.name ⊆ P.cells) (hnodup : (lazies.map Binding.name).Nodup)
    (hchecked : checkers.length = d.params.length) (address : Nat) :
    Frame P (T.extend address (factoryCells d lazies types)) (Scope.of d) types lazies checkers
      (factoryEnv P d lazies checkers address) where
  outer x slot hx := by
    obtain ⟨c, hc, hhead⟩ := Program.head_outer hx
    rw [lookup_factoryEnv hlazies hhead hc (P.outer_notMem_cells hx), P.lookup_outer hx]
  constants i b hb := by
    have hmem := List.mem_of_getElem? hb
    rw [lookup_factoryEnv hlazies (Program.head_constant hmem) (by decide)
      (P.emitted.apart b.name (List.mem_map_of_mem hmem)), P.lookup_constant hb]
  distinct := P.guards.wellFormed.params_nodup d hd
  arity := hchecked
  params name i f hi hf := by
    have hparam : (d.params.map checkerName)[i]? = some (checkerName name) := by
      obtain ⟨hlt, hname, _⟩ := List.idxOf?_eq_some_iff.mp
        (show d.params.idxOf? name = some i from hi)
      rw [List.getElem?_map, List.getElem?_eq_getElem hlt, hname]
      rfl
    refine Module.lookup_append_of_some ((Module.lookup_append_of_notMem ?_).trans
      (Module.lookup_bindParams (P.names_checkers_nodup hd) hparam hf))
    rw [List.map_cons, Module.names_bindCells]
    intro hmem
    have hhead := Program.head_checkerName name
    rcases List.mem_cons.mp hmem with hself | hmem
    · rw [show checkerName name = selfName from hself, head_selfName] at hhead
      cases hhead
    · rw [P.head_cells (hlazies hmem)] at hhead
      cases hhead
  self name howner hparams := by
    refine ⟨address + lazies.length, List.lookup_cons_self, ?_⟩
    obtain rfl := Option.some.inj howner
    rw [Typing.extend_add, factoryCells]
    simp
  cells b hb := by
    obtain ⟨i, hi⟩ := List.getElem?_of_mem hb
    have hname : (lazies.map Binding.name)[i]? = some b.name := by rw [List.getElem?_map, hi]; rfl
    have hne : b.name ≠ selfName := by
      intro heq
      have hhead := P.head_cells (hlazies (List.mem_map_of_mem hb))
      rw [heq, head_selfName] at hhead
      cases hhead
    refine ⟨address + i, Module.lookup_append_of_some (Module.lookup_append_of_some
      ((Module.lookup_cons_of_ne hne).trans (Module.lookup_bindCells hnodup address hname))), ?_⟩
    have hlt : i < lazies.length := (List.getElem?_eq_some_iff.mp hi).1
    rw [Typing.extend_add, factoryCells, List.getElem?_append_left (by simpa using hlt),
      List.getElem?_map, hi]
    rfl
  spelled b hb := head_lazy hlazies hb

/-- A factory given functions for its parameters makes a guard of the definition applied to what
these stand for. -/
theorem apply_factory_stands (hfind : P.guards.schema.find? d.name = some d)
    (hgeneric : d.isGeneric = true) (hall : AllStand P T checkers types)
    (hlength : types.length = d.params.length) (hs : Sound P T n σ) :
    ∃ f σ' T', apply P.code (.function (P.options.factoryName d.name)) checkers σ = some (f, σ') ∧
      T.Grows T' ∧ Sound P T' n σ' ∧ Stands P T' f (.generic d.name types) := by
  have hd := Schema.mem_of_find? hfind
  obtain ⟨item, hitem, h⟩ := P.exists_item hd
  cases h with
  | guard hmonomorphic _ =>
    rw [hgeneric] at hmonomorphic
    cases hmonomorphic
  | @factory _ lazies body _ hnodup hlazies _ hbody =>
    let guard := Value.closure (factoryEnv P d lazies checkers σ.length) subjectName (.block body)
    let contents := lazies.map (fun _ => some Value.undefined) ++ [some guard]
    have happly : apply P.code (.function (P.options.factoryName d.name)) checkers σ
        = some (guard, σ ++ contents) := by
      refine (apply_factory (P.item?_functions hitem)).trans ?_
      simp [guard, contents, factoryEnv, Function.comp_def]
    have hgrows := hs.grows_extend (factoryCells d lazies types)
    have hstands : Stands P (T.extend σ.length (factoryCells d lazies types)) guard
        (.generic d.name types) :=
      .applied hfind (hall.grows hgrows)
        (frame_factoryEnv hd hlazies hnodup (hall.length_eq.trans hlength) σ.length) hbody
    refine ⟨guard, σ ++ contents, _, happly, hgrows, hs.append fun i c hi => ?_, hstands⟩
    rcases Nat.lt_or_ge i lazies.length with hlt | hge
    · rw [factoryCells, List.getElem?_append_left (by simpa using hlt)] at hi
      obtain ⟨b, _, rfl⟩ := List.mem_map.mp (List.mem_of_getElem? hi)
      refine ⟨some .undefined, ?_, .inl rfl⟩
      rw [List.getElem?_append_left (by simpa using hlt), List.getElem?_map,
        List.getElem?_eq_getElem hlt]
      rfl
    · rw [factoryCells, List.getElem?_append_right (by simpa using hge), List.length_map] at hi
      obtain rfl := List.mem_singleton.mp (List.mem_of_getElem? hi)
      have hzero : i - lazies.length = 0 := by
        have := (List.getElem?_eq_some_iff.mp hi).1
        simpa using this
      refine ⟨some guard, ?_, guard, rfl, hstands⟩
      rw [List.getElem?_append_right (by simpa using hge), List.length_map, hzero]
      rfl

end

theorem Frame.eval_function (h : Frame P T scope types lazies checkers env) {x : String}
    (hx : x ∈ P.functions.map Item.name) :
    eval P.code env (.name x) σ = some (.function x, σ) :=
  eval_name (Env.read?_value (h.outer _ _ (P.mem_outer hx)))

def Yields (P : Program) (T : Typing) (n : Nat) (run : Option (Value × Store)) (t : TypeRef) :
    Prop :=
  ∃ f σ' T', run = some (f, σ') ∧ T.Grows T' ∧ Sound P T' n σ' ∧ Stands P T' f t

private theorem Yields.of_stands {run : Option (Value × Store)} {f : Value} {t : TypeRef}
    (hrun : run = some (f, σ)) (hs : Sound P T n σ) (hf : Stands P T f t) : Yields P T n run t :=
  ⟨f, σ, T, hrun, .refl T, hs, hf⟩

section

variable (hframe : Frame P T scope types lazies checkers env) (hall : AllStand P T checkers types)
  (hs : Sound P T n σ)

include hframe hall hs

private theorem yields_parameter {name : String} {i : Nat} (hi : scope.index? name = some i) :
    Yields P T n (eval P.code env (.name (checkerName name)) σ)
      ((TypeRef.parameter name).substitute scope.params types) := by
  have hlt : i < checkers.length := by
    rw [hframe.arity]
    exact (List.idxOf?_eq_some_iff.mp hi).1
  obtain ⟨t, ht, hf⟩ := hall.getElem? (List.getElem?_eq_getElem hlt)
  rw [TypeRef.substitute_parameter, hi, Option.bind_some, ht, Option.getD_some]
  have hlookup := hframe.params name i _ hi (List.getElem?_eq_getElem hlt)
  exact .of_stands (eval_name (Env.read?_value hlookup)) hs hf

omit hall in
private theorem yields_monomorphic {t : TypeRef} {name : String} {d : Definition}
    (htarget : t.target? = some (name, [])) (hd : P.guards.schema.monomorphic? name = some d) :
    Yields P T n (eval P.code env (.name (P.options.guardName d.name)) σ)
      (t.substitute scope.params types) := by
  obtain ⟨hfind, hparams⟩ := Schema.monomorphic?_eq_some.mp hd
  have hname : P.itemName d = P.options.guardName d.name := by
    simp [Program.itemName, Definition.isGeneric, hparams]
  have hclosed : t.substitute scope.params types = t := by
    cases t with
    | named _ => rfl
    | generic _ args =>
      obtain ⟨_, rfl⟩ : _ ∧ args = [] := by simpa [TypeRef.target?] using htarget
      rfl
    | _ => cases htarget
  have hmem := P.itemName_mem (Schema.mem_of_find? hfind)
  rw [hclosed]
  exact .of_stands (hframe.eval_function (hname ▸ hmem)) hs (.monomorphic htarget hd)

private theorem yields_self {name : String} {args : List TypeRef} (hargs : args ≠ [])
    (howner : scope.owner = some name) (hidentity : scope.isIdentity args = true) :
    Yields P T n (eval P.code env (.name selfName) σ)
      ((TypeRef.generic name args).substitute scope.params types) := by
  obtain rfl := eq_of_beq hidentity
  obtain ⟨a, ha, hcell⟩ := hframe.self name howner (by simpa using hargs)
  obtain ⟨f, hf, hstands⟩ := hs.filled hcell
  rw [TypeRef.substitute, TypeRef.substituteAll_eq_map, TypeRef.substitute_parameters
    hframe.distinct (hall.length_eq.symm.trans hframe.arity)]
  exact .of_stands (eval_name (Env.read?_cell ha hf)) hs hstands

omit hall in
private theorem yields_constant {name : String} {args : List TypeRef} {b : Binding}
    (hclosed : TypeRef.anyMentionsParameter args = false) {i : Nat} (hlt : i < n)
    (hi : P.constants[i]? = some b) (hsite : b.site = .generic name args) :
    Yields P T n (eval P.code env (.name b.name) σ)
      ((TypeRef.generic name args).substitute scope.params types) := by
  obtain ⟨f, hf, hstands⟩ := hs.constant (hs.constants i b hi) hlt
  rw [TypeRef.substitute_closed (t := .generic name args) hclosed, ← hsite]
  exact .of_stands (eval_name (Env.read?_cell (hframe.constants i b hi) hf)) hs hstands

omit hall hs in
theorem Frame.yields_instantiation {name : String} {args : List TypeRef} {d : Definition}
    {es : List Expr} (hargs : args ≠ []) (hd : P.guards.schema.generic? name args = some d)
    (hes : ∃ fs σ' T', evalAll P.code env es σ = some (fs, σ') ∧ T.Grows T' ∧ Sound P T' n σ' ∧
      AllStand P T' fs (args.map (TypeRef.substitute scope.params types))) :
    Yields P T n (eval P.code env (.call (.name (P.options.factoryName d.name)) es) σ)
      ((TypeRef.generic name args).substitute scope.params types) := by
  obtain ⟨hfind, hlength⟩ := Schema.generic?_eq_some.mp hd
  have hname := Schema.name_of_find? hfind
  have hgeneric : d.isGeneric = true := by
    rw [Definition.isGeneric, Bool.not_eq_true', List.isEmpty_eq_false_iff]
    exact List.ne_nil_of_length_pos (by rw [hlength]; exact List.length_pos_of_ne_nil hargs)
  have hitem : P.itemName d = P.options.factoryName d.name := by
    simp [Program.itemName, hgeneric]
  obtain ⟨fs, σ₁, T₁, hfs, hgrows, hs₁, hallStand⟩ := hes
  obtain ⟨f, σ₂, T₂, happly, hgrows', hs₂, hstands⟩ := apply_factory_stands
    (Schema.find?_name hfind) hgeneric hallStand (by simp [hlength]) hs₁
  have hmem := P.itemName_mem (Schema.mem_of_find? hfind)
  rw [hname] at hstands
  rw [TypeRef.substitute, TypeRef.substituteAll_eq_map]
  exact ⟨f, σ₂, T₂, (eval_call (hframe.eval_function (hitem ▸ hmem)) hfs).trans happly,
    hgrows.trans hgrows', hs₂, hstands⟩

omit hall in
private theorem yields_fill {name : String} {args : List TypeRef} {d : Definition} {b : Binding}
    {es : List Expr} (hopen : TypeRef.anyMentionsParameter args = true)
    (hd : P.guards.schema.generic? name args = some d) (hb : b ∈ lazies)
    (hsite : b.site = .generic name args)
    (hes : ∃ fs σ' T', evalAll P.code env es σ = some (fs, σ') ∧ T.Grows T' ∧ Sound P T' n σ' ∧
      AllStand P T' fs (args.map (TypeRef.substitute scope.params types))) :
    Yields P T n
      (eval P.code env (.fill b.name (.call (.name (P.options.factoryName d.name)) es)) σ)
      ((TypeRef.generic name args).substitute scope.params types) := by
  obtain ⟨a, ha, hcell⟩ := hframe.cells b hb
  rw [hsite] at hcell
  rcases hs.lazy hcell with hundefined | ⟨f, hf, hstands⟩
  · have hargs : args ≠ [] := by
      rintro rfl
      cases hopen
    obtain ⟨f, σ', T', hcall, hgrows, hs', hstands⟩ := hframe.yields_instantiation hargs hd hes
    exact ⟨f, σ'.set a (some f), T', eval_fill_undefined ha hundefined hcall, hgrows,
      hs'.set hstands (.inl (hgrows _ _ hcell)), hstands⟩
  · obtain ⟨hne, hnull⟩ := hstands.ne_undefined
    exact .of_stands (eval_fill_function ha hf hne hnull) hs hstands

end

mutual
/-- Where the constants that a checker may read have been declared, its value stands for the
reference. -/
theorem IsChecker.yields {constants : List Binding} {T : Typing} {σ : Store} {t : TypeRef}
    {e : Expr} (hdeclared : ∀ b ∈ constants, ∃ i < n, P.constants[i]? = some b)
    (hframe : Frame P T scope types lazies checkers env) (hall : AllStand P T checkers types)
    (hs : Sound P T n σ) : IsChecker (P.context scope) constants lazies t e →
    Yields P T n (eval P.code env e σ) (t.substitute scope.params types)
  | .primitive (p := p) => by
    have hname : p.name ∈ preludeTypes := by cases p <;> decide
    exact .of_stands (hframe.eval_function (P.preludeName_mem hname)) hs .primitive
  | .parameter hi => yields_parameter hframe hall hs hi
  | .monomorphic htarget hd => yields_monomorphic hframe hs htarget hd
  | .self hargs howner hidentity => yields_self hframe hall hs hargs howner hidentity
  | .constant _ hclosed hb hsite => by
    obtain ⟨i, hlt, hi⟩ := hdeclared _ hb
    exact yields_constant hframe hs hclosed hlt hi hsite
  | .fill hopen hd hb hsite hes => by
    rw [eval_parens]
    exact yields_fill hframe hs hopen hd hb hsite (hes.yields hdeclared hframe hall hs)
  | .function hstructural hx hbody =>
    .of_stands (eval_parens.trans (eval_arrow ..)) hs
      (.arrow hstructural hall hframe (fun b hb => by
        obtain ⟨i, _, hi⟩ := hdeclared b hb
        exact List.mem_of_getElem? hi) hx hbody rfl)

theorem AreCheckers.yields {constants : List Binding} {T : Typing} {σ : Store}
    {ts : List TypeRef} {es : List Expr}
    (hdeclared : ∀ b ∈ constants, ∃ i < n, P.constants[i]? = some b)
    (hframe : Frame P T scope types lazies checkers env) (hall : AllStand P T checkers types)
    (hs : Sound P T n σ) : AreCheckers (P.context scope) constants lazies ts es →
    ∃ fs σ' T', evalAll P.code env es σ = some (fs, σ') ∧ T.Grows T' ∧ Sound P T' n σ' ∧
      AllStand P T' fs (ts.map (TypeRef.substitute scope.params types))
  | .nil => ⟨[], σ, T, evalAll_nil, .refl T, hs, .nil⟩
  | .cons he hes => by
    obtain ⟨f, σ₁, T₁, hf, hgrows, hs₁, hstands⟩ := he.yields hdeclared hframe hall hs
    obtain ⟨fs, σ₂, T₂, hfs, hgrows', hs₂, hallStand⟩ :=
      hes.yields hdeclared (hframe.grows hgrows) (hall.grows hgrows) hs₁
    exact ⟨f :: fs, σ₂, T₂, evalAll_cons hf hfs, hgrows.trans hgrows', hs₂,
      .cons (hstands.grows hgrows') hallStand⟩
end

end Script

end SchemaGuard
