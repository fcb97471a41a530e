import SchemaGuard.Proofs.Guard.Totality
import SchemaGuard.Proofs.Script.Agreement

/-!
Programs that use the module of a schema. A program loads the module, brings along functions that
answer what given validators do, and calls what the module exports; what it gets from factories it
may call and hand to other factories, in any order. Throughout, the module answers what the guards
in the process do.
-/

set_option autoImplicit false
set_option relaxedAutoImplicit false

namespace SchemaGuard.Script

open Script.Module (apply)

namespace Module

variable {m : Module}

private theorem initialise_functions {functions : List Item}
    (h : ∀ item ∈ functions, item.isConstant = false) (address : Nat) (rest : List Item)
    (σ : Store) : m.initialise address (functions ++ rest) σ = m.initialise address rest σ := by
  induction functions with
  | nil => rfl
  | cons item functions ih =>
    have hitem := h item List.mem_cons_self
    have hrest := ih fun other hother => h other (List.mem_cons_of_mem _ hother)
    cases item with
    | constant name init => cases hitem
    | guard | factory => exact hrest

end Module

namespace Program

variable (P : Program)

private def declarations : Typing := fun i => P.constants[i]?.map fun b => .constant b.site

private theorem sound_declarations :
    Sound P P.declarations 0 (List.replicate P.constants.length none) where
  constants i b hb := by rw [declarations, hb, Option.map_some]
  cells a c ha := by
    obtain ⟨b, hb, rfl⟩ := Option.map_eq_some_iff.mp ha
    have hlt := (List.getElem?_eq_some_iff.mp hb).1
    exact ⟨none, by simp [hlt], .inl rfl⟩
  declared i hi := absurd hi (Nat.not_lt_zero i)

variable {P}

private theorem initialise_constants (rest : List Binding) : ∀ (before : List Binding) (T : Typing)
    (σ : Store), P.constants = before ++ rest → Sound P T before.length σ →
    ∃ σ' T', P.code.initialise before.length (rest.map fun b => .constant b.name b.init) σ
      = some σ' ∧ Ready P T' σ' := by
  induction rest with
  | nil =>
    intro before T σ hsplit hs
    rw [List.append_nil] at hsplit
    exact ⟨σ, T, rfl, show Sound P T P.constants.length σ from hsplit ▸ hs⟩
  | cons b rest ih =>
    intro before T σ hsplit hs
    obtain ⟨name, args, d, es, hsite, hargs, _, hd, hinit, hes⟩ :=
      P.emitted.inits before b rest hsplit
    have hdeclared : ∀ b ∈ before, ∃ i < before.length, P.constants[i]? = some b := by
      intro b hb
      obtain ⟨i, hi⟩ := List.getElem?_of_mem hb
      have hlt := (List.getElem?_eq_some_iff.mp hi).1
      exact ⟨i, hlt, by rw [hsplit, List.getElem?_append_left hlt, hi]⟩
    have hframe : Frame P T Scope.empty [] [] [] P.code.env := Frame.base P T rfl
    obtain ⟨f, σ₁, T₁, hf, hgrows, hs₁, hstands⟩ :=
      hframe.yields_instantiation hargs hd (hes.yields hdeclared hframe .nil hs)
    rw [← hsite, TypeRef.substitute_nil] at hstands
    have hb : P.constants[before.length]? = some b := by
      rw [hsplit, List.getElem?_append_right (Nat.le_refl _), Nat.sub_self]
      rfl
    have hs' := hs₁.declare hstands (hs₁.constants _ b hb)
    obtain ⟨σ', T', hrun, hready⟩ := ih (before ++ [b]) T₁ _ (by simp [hsplit])
      (by rw [List.length_append]; exact hs')
    refine ⟨σ', T', ?_, hready⟩
    rw [List.map_cons, Module.initialise, hinit, hf, Option.bind_some]
    simpa using hrun

private theorem exists_load (P : Program) : ∃ σ T, P.code.load = some σ ∧ Ready P T σ := by
  obtain ⟨σ, T, hrun, hs⟩ :=
    initialise_constants P.constants [] _ _ (List.nil_append _).symm P.sound_declarations
  have hcount : P.code.countP Item.isConstant = P.constants.length := by
    have hnone : P.functions.countP Item.isConstant = 0 :=
      List.countP_eq_zero.mpr fun item h => by simp [P.isConstant_functions item h]
    rw [code, List.countP_append, hnone, List.countP_map, Nat.zero_add]
    exact List.countP_eq_length.mpr fun b _ => rfl
  refine ⟨σ, T, ?_, hs⟩
  rw [Module.load, if_pos P.isWellFormed_code, hcount]
  exact (Module.initialise_functions P.isConstant_functions ..).trans hrun

end Program

/-- A call of what the module exports under a name. -/
def Module.call (m : Module) (x : String) (args : List Value) (σ : Store) :
    Option (Value × Store) :=
  (m.env.read? x σ).bind fun f => apply m f args σ

/-- What can happen to a module: its store, and the functions that the program holds, each beside
the validator in the process that it was brought along for or that was made in the same way. -/
inductive Session (g : Guards) (options : Options) (m : Module) (answers : List Validator) :
    Store → List (Value × Validator) → Prop
  | load {σ : Store} : m.load = some σ → Session g options m answers σ []
  | given {σ : Store} {held : List (Value × Validator)} {f : Value} {w : Validator} :
    Session g options m answers σ held → w ∈ answers →
    (∀ v σ, apply m f [.json v] σ = some (.bool (w v), σ)) →
    Session g options m answers σ ((f, w) :: held)
  | guard {σ : Store} {held : List (Value × Validator)} {name : String} {f : Value}
    {w : Validator} : Session g options m answers σ held → g.guard name = .ok w →
    m.env.read? (options.guardName name) σ = some f →
    Session g options m answers σ ((f, w) :: held)
  | instantiate {σ σ' : Store} {held given : List (Value × Validator)} {name : String} {f : Value}
    {w : Validator} : Session g options m answers σ held → given ⊆ held →
    g.instantiate name (given.map Prod.snd) = .ok w →
    m.call (options.factoryName name) (given.map Prod.fst) σ = some (f, σ') →
    Session g options m answers σ' ((f, w) :: held)
  | check {σ σ' : Store} {held : List (Value × Validator)} {f result : Value} {w : Validator}
    {v : Json} : Session g options m answers σ held → (f, w) ∈ held →
    apply m f [.json v] σ = some (result, σ') → Session g options m answers σ' held

private def Held (P : Program) (T : Typing) (held : List (Value × Validator)) : Prop :=
  ∀ p ∈ held, ∃ t, Stands P T p.1 t ∧ P.validator t = p.2

section

variable {P : Program} {T T' : Typing} {σ : Store} {held given : List (Value × Validator)}

private theorem Held.grows (h : Held P T held) (hgrows : T.Grows T') : Held P T' held := by
  intro p hp
  obtain ⟨t, hf, ht⟩ := h p hp
  exact ⟨t, hf.grows hgrows, ht⟩

private theorem Held.cons {f : Value} {t : TypeRef} (h : Held P T held) (hf : Stands P T f t) :
    Held P T ((f, P.validator t) :: held) := by
  intro p hp
  rcases List.mem_cons.mp hp with rfl | hp
  · exact ⟨t, hf, rfl⟩
  · exact h p hp

private theorem Held.exists_types (h : Held P T given) : ∃ us,
    AllStand P T (given.map Prod.fst) us ∧ us.map P.validator = given.map Prod.snd := by
  induction given with
  | nil => exact ⟨[], .nil, rfl⟩
  | cons p given ih =>
    obtain ⟨t, hf, ht⟩ := h p List.mem_cons_self
    obtain ⟨us, hall, hus⟩ := ih fun q hq => h q (List.mem_cons_of_mem _ hq)
    exact ⟨t :: us, .cons hf hall, by rw [List.map_cons, List.map_cons, ht, hus]⟩

private theorem exists_parameter {w : Validator} (hw : w ∈ P.hosts) :
    ∃ x, P.validator (.parameter x) = w := by
  obtain ⟨i, hi⟩ := List.getElem?_of_mem hw
  have hlt : i < P.hosts.length := (List.getElem?_eq_some_iff.mp hi).1
  have hindex : P.hostScope.index? (toString i) = some i := by
    refine List.idxOf?_eq_some_iff.mpr ⟨by simpa [Program.hostScope] using hlt, ?_, ?_⟩
    · simp [Program.hostScope]
    · intro j hj heq
      have : j = i := toString_injective (by simpa [Program.hostScope] using heq)
      omega
  refine ⟨toString i, ?_⟩
  rw [Program.validator, Guards.reference_parameter, hindex, Option.bind_some, hi, Option.getD_some]

private theorem read?_function {x : String} (hx : x ∈ P.functions.map Item.name) :
    P.code.env.read? x σ = some (.function x) :=
  Env.read?_value (P.lookup_outer (P.mem_outer hx))

private theorem exists_guard {name : String} {w : Validator} {T : Typing}
    (h : P.guards.guard name = .ok w) : P.validator (.named name) = w ∧
      ∃ f, P.code.env.read? (P.options.guardName name) σ = some f ∧ Stands P T f (.named name) := by
  obtain ⟨d, hd, rfl⟩ := P.guards.guard_eq_ok_iff.mp h
  obtain ⟨hfind, hparams⟩ := Schema.monomorphic?_eq_some.mp hd
  obtain rfl := Schema.name_of_find? hfind
  have hname : P.itemName d = P.options.guardName d.name := by
    simp [Program.itemName, Definition.isGeneric, hparams]
  have hread := read?_function (σ := σ) (P.itemName_mem (Schema.mem_of_find? hfind))
  rw [hname] at hread
  refine ⟨?_, _, hread, .monomorphic rfl hd⟩
  rw [P.validator_named, P.validator_applied hfind (hparams ▸ rfl)]
  rfl

private theorem exists_instantiation {d : Definition}
    (hfind : P.guards.schema.find? d.name = some d) (hgeneric : d.isGeneric = true)
    (hlength : given.length = d.params.length) (hgiven : Held P T given) (hs : Ready P T σ) :
    ∃ t, P.validator t = P.guards.applied d (given.map Prod.snd) ∧ ∃ f σ' T',
      P.code.call (P.options.factoryName d.name) (given.map Prod.fst) σ = some (f, σ') ∧
        T.Grows T' ∧ Ready P T' σ' ∧ Stands P T' f t := by
  obtain ⟨us, hall, hus⟩ := hgiven.exists_types
  have htypes : us.length = d.params.length := by
    rw [← hall.length_eq, List.length_map, hlength]
  obtain ⟨f, σ', T', happly, hgrows, hs', hstands⟩ :=
    apply_factory_stands hfind hgeneric hall htypes hs
  have hname : P.itemName d = P.options.factoryName d.name := by
    simp [Program.itemName, hgeneric]
  have hread := read?_function (σ := σ) (P.itemName_mem (Schema.mem_of_find? hfind))
  rw [hname] at hread
  refine ⟨.generic d.name us, ?_, f, σ', T', ?_, hgrows, hs', hstands⟩
  · rw [P.validator_applied hfind htypes, hus]
  · rw [Module.call, hread, Option.bind_some, happly]

private theorem Session.sound (h : Session P.guards P.options P.code P.hosts σ held) :
    ∃ T, Ready P T σ ∧ Held P T held := by
  induction h with
  | load hload =>
    obtain ⟨σ', T, hload', hs⟩ := P.exists_load
    obtain rfl := Option.some.inj (hload'.symm.trans hload)
    exact ⟨T, hs, fun p hp => absurd hp List.not_mem_nil⟩
  | given _ hw hanswers ih =>
    obtain ⟨T, hs, hheld⟩ := ih
    obtain ⟨x, rfl⟩ := exists_parameter hw
    exact ⟨T, hs, hheld.cons (.given hanswers)⟩
  | guard _ hw hread ih =>
    obtain ⟨T, hs, hheld⟩ := ih
    obtain ⟨rfl, f, hread', hf⟩ := exists_guard hw
    obtain rfl := Option.some.inj (hread'.symm.trans hread)
    exact ⟨T, hs, hheld.cons hf⟩
  | instantiate _ hgiven hw hcall ih =>
    obtain ⟨T, hs, hheld⟩ := ih
    obtain ⟨d, hfind, hgeneric, hlength, rfl⟩ := P.guards.instantiate_eq_ok_iff.mp hw
    obtain rfl := Schema.name_of_find? hfind
    obtain ⟨t, ht, f, σ', T', hcall', hgrows, hs', hf⟩ := exists_instantiation hfind hgeneric
      (by simpa using hlength) (fun p hp => hheld p (hgiven hp)) hs
    obtain ⟨rfl, rfl⟩ := Prod.mk.inj (Option.some.inj (hcall'.symm.trans hcall))
    exact ⟨T', hs', ht ▸ (hheld.grows hgrows).cons hf⟩
  | check _ hf hrun ih =>
    obtain ⟨T, hs, hheld⟩ := ih
    obtain ⟨t, hstands, _⟩ := hheld _ hf
    obtain ⟨σ', T', hrun', hgrows, hs'⟩ := hstands.answers hs _
    obtain ⟨_, rfl⟩ := Prod.mk.inj (Option.some.inj (hrun'.symm.trans hrun))
    exact ⟨T', hs', hheld.grows hgrows⟩

end

private theorem exists_program (g : Guards) (options : Options)
    (hstandard : options.guardPrefix = "isa_") (hshape : options.shape = g.shape)
    (answers : List Validator) : ∃ P : Program, P.guards = g ∧ P.options = options ∧
      P.hosts = answers ∧ P.code = guardModule g.schema options := by
  obtain ⟨items, constants, cells, hemitted, hmodule⟩ :=
    guardModule_eq g.schema g.wellFormed options
  exact ⟨⟨g, options, hstandard, hshape, items, constants, cells, hemitted, answers⟩, rfl, rfl, rfl,
    hmodule.symm⟩

/-- The module of a resolved schema can be loaded, and whatever happens to it afterwards, it answers
what the guards in the process do: so does every guard of a type without parameters, so does what
the factory of a type with parameters makes of any functions that the program holds by then, and so
do these functions themselves. -/
theorem guardModule_agrees (g : Guards) (options : Options)
    (hstandard : options.guardPrefix = "isa_") (hshape : options.shape = g.shape)
    (answers : List Validator) :
    let m := guardModule g.schema options
    (∃ σ, m.load = some σ) ∧ ∀ σ held, Session g options m answers σ held →
      (∀ d ∈ g.schema.types, d.isGeneric = false → ∀ v, ∃ b σ', g.check d.name v = .ok b ∧
        m.call (options.guardName d.name) [.json v] σ = some (.bool b, σ')) ∧
      (∀ d ∈ g.schema.types, d.isGeneric = true → ∀ given ⊆ held,
        given.length = d.params.length → ∃ w f σ',
          g.instantiate d.name (given.map Prod.snd) = .ok w ∧
          m.call (options.factoryName d.name) (given.map Prod.fst) σ = some (f, σ') ∧
          ∀ v, ∃ σ'', apply m f [.json v] σ' = some (.bool (w v), σ'')) ∧
      ∀ p ∈ held, ∀ v, ∃ σ', apply m p.1 [.json v] σ = some (.bool (p.2 v), σ') := by
  intro m
  obtain ⟨P, rfl, rfl, rfl, hcode⟩ := exists_program g options hstandard hshape answers
  rw [show m = P.code from hcode.symm]
  have hfind : ∀ d ∈ P.guards.schema.types, P.guards.schema.find? d.name = some d := fun d hd =>
    (Schema.find?_eq_some_iff P.guards.wellFormed.types_nodup).mpr ⟨hd, rfl⟩
  refine ⟨?_, fun σ held h => ?_⟩
  · obtain ⟨σ, _, hload, _⟩ := P.exists_load
    exact ⟨σ, hload⟩
  -- From here on only what the values of the session stand for is used, not how it went.
  obtain ⟨T, hs, hheld⟩ := h.sound
  refine ⟨fun d hd hgeneric v => ?_, fun d hd hgeneric given hgiven hlength => ?_, fun p hp v => ?_⟩
  · have hmonomorphic : P.guards.schema.monomorphic? d.name = some d :=
      Schema.monomorphic?_eq_some.mpr ⟨hfind d hd, by simpa [Definition.isGeneric] using hgeneric⟩
    have hguard : P.guards.guard d.name = .ok (P.guards.applied d []) :=
      P.guards.guard_eq_ok_iff.mpr ⟨d, hmonomorphic, rfl⟩
    obtain ⟨hvalidator, f, hread, hf⟩ := exists_guard hguard
    obtain ⟨σ', _, hrun, _, _⟩ := hf.answers hs v
    refine ⟨P.validator (.named d.name) v, σ', ?_, ?_⟩
    · rw [Guards.check, hguard, hvalidator]
      rfl
    · rw [Module.call, hread, Option.bind_some, hrun]
  · obtain ⟨t, ht, f, σ', T', hcall, _, hs', hf⟩ := exists_instantiation (hfind d hd) hgeneric
      hlength (fun p hp => hheld p (hgiven hp)) hs
    refine ⟨P.guards.applied d (given.map Prod.snd), f, σ', ?_, hcall, fun v => ?_⟩
    · exact P.guards.instantiate_eq_ok_iff.mpr
        ⟨d, hfind d hd, hgeneric, by simpa using hlength, rfl⟩
    · obtain ⟨σ'', _, hrun, _, _⟩ := hf.answers hs' v
      exact ⟨σ'', ht ▸ hrun⟩
  · obtain ⟨t, hf, ht⟩ := hheld p hp
    obtain ⟨σ', _, hrun, _, _⟩ := hf.answers hs v
    exact ⟨σ', ht ▸ hrun⟩

def link : Definition :=
  .struct
    { name := "Link"
      params := ["T"]
      fields := [
        ⟨"value", .parameter "T", true⟩,
        ⟨"next", .nullable (.generic "Link" [.parameter "T"]), false⟩] }

def phrase : Definition :=
  .alias ⟨"Phrase", [], .nullable (.generic "Link" [.primitive .string])⟩

def phrases : Guards := ⟨⟨⟨[link, phrase]⟩, by decide⟩, .opened⟩

theorem guardModule_agrees_phrases :
    let m := guardModule phrases.schema {}
    ∃ σ, m.load = some σ ∧
      (∀ v, ∃ b σ', phrases.check "Phrase" v = .ok b ∧
        m.call "isa_Phrase" [.json v] σ = some (.bool b, σ')) ∧
      ∃ w f σ', phrases.instantiate "Link" [fun _ => true] = .ok w ∧
        m.call "make_isa_Link" [.host fun _ => true] σ = some (f, σ') ∧
        ∀ v, ∃ σ'', apply m f [.json v] σ' = some (.bool (w v), σ'') := by
  intro m
  obtain ⟨⟨σ, hload⟩, h⟩ := guardModule_agrees phrases {} rfl rfl [fun _ => true]
  have hsession : Session phrases {} m [fun _ => true] σ [(.host fun _ => true, fun _ => true)] :=
    .given (.load hload) List.mem_cons_self fun _ _ => apply_host
  obtain ⟨hguards, hfactories, _⟩ := h σ _ hsession
  refine ⟨σ, hload, hguards phrase (by decide) (by decide), ?_⟩
  exact hfactories link (by decide) (by decide) _ (List.Subset.refl _) rfl

end SchemaGuard.Script
