import SchemaGuard.Proofs.Guard.Unfolding
import SchemaGuard.Proofs.Script.Names

/-!
A program with the guards of a schema under their usual names, and functions of its own beside them.
-/

set_option autoImplicit false
set_option relaxedAutoImplicit false

namespace SchemaGuard.Script

/-- Guards in two forms, and what functions answer that the program brings along. -/
structure Program where
  guards : Guards
  options : Options
  standard : options.guardPrefix = "isa_"
  shape : options.shape = guards.shape
  items : List Item
  constants : List Binding
  cells : List String
  emitted : Emitted guards.schema options items constants cells
  hosts : List Validator

namespace Program

variable (P : Program)

def functions : Module := prelude P.options ++ P.items

def code : Module := P.functions ++ P.constants.map fun b => .constant b.name b.init

def context (scope : Scope) : Context := ⟨P.guards.schema, P.options, scope⟩

/-- The functions that the program brings along are parameters around everything else. -/
def hostScope : Scope := ⟨none, (List.range P.hosts.length).map toString⟩

def validator (t : TypeRef) : Validator := P.guards.reference P.hostScope P.hosts t

theorem head_guardName (text : String) : (P.options.guardName text).toList.head? = some 'i' := by
  rw [Options.guardName, P.standard, String.toList_append]
  rfl

private theorem head_factoryName (text : String) :
    (P.options.factoryName text).toList.head? = some 'm' := by
  rw [Options.factoryName, String.toList_append, String.toList_append]
  rfl

private theorem guardName_ne_factoryName (a b : String) :
    P.options.guardName a ≠ P.options.factoryName b := by
  intro h
  have := congrArg (fun x => x.toList.head?) h
  simp [head_guardName, head_factoryName] at this

def itemName (d : Definition) : String :=
  if d.isGeneric then P.options.factoryName d.name else P.options.guardName d.name

private theorem names_items : P.items.map Item.name = P.guards.schema.types.map P.itemName :=
  P.emitted.names_items

private theorem names_functions_reserved {item : Item} (h : item ∈ P.functions) :
    item.name ∈ Emitter.reservedNames P.guards.schema P.options :=
  P.emitted.names_reserved (List.mem_map_of_mem h)

private theorem names_code_nodup : (P.code.map Item.name).Nodup :=
  (P.emitted.names_nodup_iff P.guards.wellFormed).mpr fun _ _ _ _ _ _ =>
    P.guardName_ne_factoryName _ _

theorem mem_functions_of_prelude {item : Item} (h : item ∈ prelude P.options) :
    item ∈ P.functions := List.mem_append_left _ h

theorem exists_item {d : Definition} (hd : d ∈ P.guards.schema.types) :
    ∃ item ∈ P.functions, IsItem P.guards.schema P.options P.constants P.cells d item := by
  obtain ⟨item, hitem, h⟩ := exists_left P.emitted.items hd
  exact ⟨item, List.mem_append_right _ hitem, h⟩

private theorem functions_cases {item : Item} (h : item ∈ P.functions) : item ∈ prelude P.options ∨
    ∃ d ∈ P.guards.schema.types, IsItem P.guards.schema P.options P.constants P.cells d item := by
  rcases List.mem_append.mp h with h | h
  · exact .inl h
  · exact .inr (exists_left P.emitted.items.flip h)

theorem isConstant_functions : ∀ item ∈ P.functions, item.isConstant = false := by
  intro item h
  rcases P.functions_cases h with h | ⟨d, _, hitem⟩
  · simp only [prelude, List.mem_cons, List.not_mem_nil, or_false] at h
    rcases h with rfl | rfl | rfl | rfl | rfl <;> rfl
  · cases hitem <;> rfl

theorem item?_functions {item : Item} (h : item ∈ P.functions) :
    P.code.item? item.name = some item :=
  Module.item?_eq_some P.names_code_nodup (List.mem_append_left _ h)

def outer : Env :=
  (P.functions.map fun item => (item.name, .value (.function item.name))) ++ globals

theorem mem_outer {x : String} (h : x ∈ P.functions.map Item.name) :
    (x, .value (.function x)) ∈ P.outer := by
  obtain ⟨item, hitem, rfl⟩ := List.mem_map.mp h
  exact List.mem_append_left _ (List.mem_map_of_mem hitem)

theorem preludeName_mem {type : String} (h : type ∈ preludeTypes) :
    P.options.guardName type ∈ P.functions.map Item.name := by
  rw [functions, List.map_append, names_prelude]
  exact List.mem_append_left _ (List.mem_map_of_mem h)

theorem itemName_mem {d : Definition} (hd : d ∈ P.guards.schema.types) :
    P.itemName d ∈ P.functions.map Item.name := by
  rw [functions, List.map_append, names_items]
  exact List.mem_append_right _ (List.mem_map_of_mem hd)

theorem head_checkerName (param : String) : (checkerName param).toList.head? = some 'c' := by
  rw [checkerName, String.toList_append]
  rfl

theorem head_name {item : Item} (h : item ∈ P.code) :
    item.name.toList.head? = some 'i' ∨ item.name.toList.head? = some 'm' := by
  rcases List.mem_append.mp h with h | h
  · rcases P.functions_cases h with h | ⟨d, _, hitem⟩
    · obtain ⟨type, _, heq⟩ := List.mem_map.mp (names_prelude P.options ▸ List.mem_map_of_mem h)
      exact .inl (heq ▸ P.head_guardName type)
    · cases hitem with
      | guard => exact .inl (P.head_guardName d.name)
      | factory => exact .inr (P.head_factoryName d.name)
  · obtain ⟨b, hb, rfl⟩ := List.mem_map.mp h
    obtain ⟨text, _, htext⟩ :=
      P.emitted.spelled b.name (List.mem_append_left _ (List.mem_map_of_mem hb))
    exact .inl (by rw [Item.name, htext, P.head_guardName])

theorem lookup_outer {x : String} {slot : Slot} (h : (x, slot) ∈ P.outer) :
    P.code.env.lookup x = some slot := by
  rcases List.mem_append.mp h with h | h
  · obtain ⟨item, hitem, heq⟩ := List.mem_map.mp h
    obtain ⟨rfl, rfl⟩ := Prod.mk.inj heq
    rw [code, Module.env, Module.lookup_envFrom_functions P.isConstant_functions,
      if_pos (List.mem_map_of_mem hitem)]
  · -- No item of the module is named like a built-in object.
    have hx : x ∉ P.code.map Item.name := by
      intro hmem
      obtain ⟨item, hitem, rfl⟩ := List.mem_map.mp hmem
      have hhead : ∀ p ∈ globals, p.1.toList.head? ≠ some 'i' ∧ p.1.toList.head? ≠ some 'm' := by
        decide
      exact (P.head_name hitem).elim (hhead _ h).1 (hhead _ h).2
    rw [Module.env, Module.lookup_envFrom_globals 0 hx]
    simp only [globals, List.mem_cons, Prod.mk.injEq, List.not_mem_nil, or_false] at h
    rcases h with ⟨rfl, rfl⟩ | ⟨rfl, rfl⟩ | ⟨rfl, rfl⟩ <;> rfl

theorem head_cells {x : String} (h : x ∈ P.cells) : x.toList.head? = some 'i' := by
  obtain ⟨text, _, rfl⟩ := P.emitted.spelled x (List.mem_append_right _ h)
  exact P.head_guardName text

theorem outer_notMem_cells {x : String} {slot : Slot} (h : (x, slot) ∈ P.outer) :
    x ∉ P.cells := by
  intro hx
  rcases List.mem_append.mp h with h | h
  · obtain ⟨item, hitem, heq⟩ := List.mem_map.mp h
    obtain ⟨rfl, rfl⟩ := Prod.mk.inj heq
    exact P.emitted.unlike _ (List.mem_append_right _ hx) (P.names_functions_reserved hitem)
  · have hhead : ∀ p ∈ globals, p.1.toList.head? ≠ some 'i' := by decide
    exact hhead _ h (P.head_cells hx)

theorem lookup_constant {i : Nat} {b : Binding} (h : P.constants[i]? = some b) :
    P.code.env.lookup b.name = some (.cell i) := by
  have hb := List.mem_of_getElem? h
  have hfunction : b.name ∉ P.functions.map Item.name := by
    intro hmem
    obtain ⟨item, hitem, heq⟩ := List.mem_map.mp hmem
    exact P.emitted.unlike b.name (List.mem_append_left _ (List.mem_map_of_mem hb))
      (heq ▸ P.names_functions_reserved hitem)
  have hlookup := Module.lookup_envFrom_constants Binding.name Binding.init P.emitted.distinct 0 h
  rw [code, Module.env, Module.lookup_envFrom_functions P.isConstant_functions, if_neg hfunction,
    hlookup, Nat.zero_add]

private theorem prelude_isWellFormed {item : Item} (h : item ∈ prelude P.options) :
    item.bindsOnce = true ∧ item.grouped = true := by
  simp only [prelude, List.mem_cons, List.not_mem_nil, or_false] at h
  rcases h with rfl | rfl | rfl | rfl | rfl <;> exact ⟨rfl, rfl⟩

private theorem checkerName_inj {a b : String} (h : checkerName a = checkerName b) : a = b := by
  have hlist := congrArg String.toList h
  simpa [checkerName, String.toList_inj] using hlist

theorem names_checkers_nodup {d : Definition} (hd : d ∈ P.guards.schema.types) :
    (d.params.map checkerName).Nodup :=
  List.Nodup.map (fun _ _ h => checkerName_inj h) (P.guards.wellFormed.params_nodup d hd)

private theorem item_isWellFormed {d : Definition} (hd : d ∈ P.guards.schema.types) {item : Item}
    (h : IsItem P.guards.schema P.options P.constants P.cells d item) :
    item.bindsOnce = true ∧ item.grouped = true := by
  cases h with
  | guard _ hbody =>
    obtain ⟨hgrouped, hbinds⟩ := hbody.isWellFormed
    exact ⟨by rw [Item.bindsOnce, decide_eq_true hbinds], hgrouped⟩
  | @factory _ lazies _ _ hlazies hcells _ hbody =>
    obtain ⟨hgrouped, hbinds⟩ := hbody.isWellFormed
    have hparams := P.names_checkers_nodup hd
    have hnames : (lazies.map fun b => Lazy.mk b.name b.site).map Lazy.name
        = lazies.map Binding.name := by rw [List.map_map]; rfl
    have hhead : ∀ x ∈ lazies.map Binding.name, x.toList.head? = some 'i' :=
      fun x hx => P.head_cells (hcells hx)
    have hdistinct : (d.params.map checkerName ++ lazies.map Binding.name ++ [selfName]).Nodup := by
      refine List.nodup_append.mpr ⟨List.nodup_append.mpr ⟨hparams, hlazies, ?_⟩, by simp, ?_⟩
      · rintro x hx _ hy rfl
        obtain ⟨param, _, rfl⟩ := List.mem_map.mp hx
        have := hhead _ hy
        rw [head_checkerName] at this
        cases this
      · intro x hx y hy heq
        obtain rfl := List.mem_singleton.mp hy
        rw [heq] at hx
        rcases List.mem_append.mp hx with hx | hx
        · obtain ⟨param, _, hparam⟩ := List.mem_map.mp hx
          have := head_checkerName param
          rw [hparam] at this
          cases this
        · have := hhead _ hx
          cases this
    refine ⟨?_, hgrouped⟩
    rw [Item.bindsOnce, hnames, decide_eq_true hdistinct, decide_eq_true hbinds]
    rfl

theorem isWellFormed_code : P.code.isWellFormed = true := by
  have hitems : ∀ item ∈ P.code, item.bindsOnce = true ∧ item.grouped = true := by
    intro item h
    rcases List.mem_append.mp h with h | h
    · rcases P.functions_cases h with h | ⟨d, hd, hitem⟩
      · exact P.prelude_isWellFormed h
      · exact P.item_isWellFormed hd hitem
    · obtain ⟨b, hb, rfl⟩ := List.mem_map.mp h
      obtain ⟨before, after, hsplit⟩ := List.append_of_mem hb
      obtain ⟨_, _, _, es, _, _, _, _, hinit, hes⟩ := P.emitted.inits before b after hsplit
      refine ⟨rfl, ?_⟩
      simp [Item.grouped, hinit, Expr.grouped, hes.grouped]
  rw [Module.isWellFormed, decide_eq_true P.names_code_nodup,
    List.all_eq_true.mpr fun item h => (hitems item h).1,
    List.all_eq_true.mpr fun item h => (hitems item h).2]
  rfl

end Program

end SchemaGuard.Script
