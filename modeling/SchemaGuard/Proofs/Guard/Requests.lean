import Mathlib.Data.List.Forall2
import Mathlib.Data.List.Nodup
import SchemaGuard.Proofs.Guard.Unfolding
import SchemaGuard.Proofs.Resolution.Legal

/-!
What a backend is asked for. The calls that make one checker form a tree, whatever the backend does
in them: a factory is applied after its arguments are made, from the left. In a resolved schema no
reference asks for the checker that rejects everything, and each call keeps to what a backend may
count on: a guard has no parameters, a parameter stands at the place it is asked for, a factory gets
one checker for each of its parameters.
-/

set_option autoImplicit false
set_option relaxedAutoImplicit false

namespace SchemaGuard

/-- The scope in the body of a definition, or outside of all. -/
def Scope.within : Option Definition → Scope
  | none => empty
  | some d => of d

/-- The calls that make one checker. -/
inductive Request where
  | primitive (p : Primitive)
  | guard (d : Definition)
  | param (i : Nat) (name : String)
  | apply (inst : Instantiation) (args : List Request)
  | structural (t : TypeRef) (scope : Scope)
  | never

namespace Request

/-- Notes the calls and does nothing else. -/
def backend : Backend Id Request := ⟨primitive, guard, param, apply, structural, never⟩

section Make

variable {m : Type → Type} [Monad m] {γ : Type} (b : Backend m γ)

mutual
/-- Makes the calls, those for arguments from the left before the one that takes them. -/
def make : Request → m γ
  | .primitive p => b.primitive p
  | .guard d => b.guard d
  | .param i name => b.param i name
  | .apply inst [] => b.apply inst []
  | .apply inst (arg :: args) => do
    let c ← make arg
    let cs ← makeAll args
    b.apply inst (c :: cs)
  | .structural t scope => b.structural t scope
  | .never => b.never

def makeAll : List Request → m (List γ)
  | [] => return []
  | arg :: args => do
    let c ← make arg
    let cs ← makeAll args
    return c :: cs
end

end Make

end Request

variable {m : Type → Type} [Monad m] {γ : Type} {s : Schema}

private theorem monomorphic_eq_make (b : Backend m γ) (name : String) :
    b.monomorphic s name = (Request.backend.monomorphic s name).make b := by
  unfold Backend.monomorphic
  cases s.monomorphic? name <;> rfl

private theorem supply_eq_make (b : Backend m γ) (scope : Scope) (t : TypeRef) :
    supply b s scope t = (supply Request.backend s scope t).make b := by
  have all : ∀ {ts : List TypeRef},
      (∀ t ∈ ts, supply b s scope t = (supply Request.backend s scope t).make b) →
      supplyAll b s scope ts = Request.makeAll b (supplyAll Request.backend s scope ts) := by
    intro ts ih
    induction ts with
    | nil => rfl
    | cons t ts ihts =>
      obtain ⟨ht, hts⟩ := List.forall_mem_cons.mp ih
      rw [supplyAll, ht, ihts hts]
      rfl
  induction t with
  | primitive p => rfl
  | named name => exact monomorphic_eq_make b name
  | generic name args ih =>
    cases args with
    | nil => exact monomorphic_eq_make b name
    | cons t ts =>
      obtain ⟨ht, hts⟩ := List.forall_mem_cons.mp ih
      rw [supply, ht, all hts, supply]
      cases s.instantiation? scope name (t :: ts) <;> rfl
  | sequence inner _ => rfl
  | parameter name =>
    rw [supply, supply]
    cases scope.index? name <;> rfl
  | map inner _ => rfl
  | tuple elements _ => rfl
  | nullable inner _ => rfl

/-- What a backend may count on in the calls for a reference in a definition, or outside of all. No
rule has the checker that rejects everything. -/
inductive Serves (s : Schema) (around : Option Definition) : TypeRef → Request → Prop
  | primitive (p : Primitive) : Serves s around (.primitive p) (.primitive p)
  | guard {d : Definition} (hd : d ∈ s.types) (monomorphic : d.params = []) :
    Serves s around (.named d.name) (.guard d)
  | guardApplied {d : Definition} (hd : d ∈ s.types) (monomorphic : d.params = []) :
    Serves s around (.generic d.name []) (.guard d)
  | param {i : Nat} {name : String} (place : (Scope.within around).params[i]? = some name) :
    Serves s around (.parameter name) (.param i name)
  | apply {inst : Instantiation} {args : List TypeRef} {requests : List Request}
    (hd : inst.definition ∈ s.types) (site : inst.site = .generic inst.definition.name args)
    (arity : requests.length = inst.definition.params.length) (any : requests ≠ [])
    (served : List.Forall₂ (Serves s around) args requests)
    (concrete : inst.concrete = true ↔ ∀ name, .parameter name ∉ inst.site.nodes)
    (recursive : inst.recursive = true ↔ around = some inst.definition ∧
      requests = inst.definition.params.mapIdx .param) :
    Serves s around inst.site (.apply inst requests)
  | sequence (element : TypeRef) :
    Serves s around (.sequence element) (.structural (.sequence element) (.within around))
  | map (value : TypeRef) :
    Serves s around (.map value) (.structural (.map value) (.within around))
  | tuple (elements : List TypeRef) :
    Serves s around (.tuple elements) (.structural (.tuple elements) (.within around))
  | nullable (inner : TypeRef) :
    Serves s around (.nullable inner) (.structural (.nullable inner) (.within around))

private theorem supply_eq_param_iff {scope : Scope} {t : TypeRef} {i : Nat} {name : String} :
    supply Request.backend s scope t = .param i name ↔
      t = .parameter name ∧ scope.index? name = some i := by
  have hmonomorphic : ∀ n, Request.backend.monomorphic s n ≠ .param i name := by
    intro n h
    unfold Backend.monomorphic at h
    split at h <;> cases h
  constructor
  · intro h
    cases t with
    | parameter n =>
      rw [supply] at h
      split at h
      · next j hj =>
        obtain ⟨rfl, rfl⟩ := Request.param.inj h
        exact ⟨rfl, hj⟩
      · cases h
    | named n => exact absurd h (hmonomorphic n)
    | generic n args =>
      cases args with
      | nil => exact absurd h (hmonomorphic n)
      | cons u us =>
        rw [supply_cons] at h
        split at h <;> cases h
    | _ => cases h
  · rintro ⟨rfl, hi⟩
    rw [supply, hi]
    rfl

private theorem map_supply_eq_iff {d : Definition} (distinct : d.params.Nodup)
    {args : List TypeRef} :
    args.map (supply Request.backend s (Scope.of d)) = d.params.mapIdx .param ↔
      args = d.params.map .parameter := by
  rw [List.map_eq_iff, List.ext_getElem?_iff]
  refine forall_congr' fun i => ?_
  rw [List.getElem?_mapIdx, List.getElem?_map]
  cases hp : d.params[i]? with
  | none => cases args[i]? <;> simp
  | some p =>
    obtain ⟨hi, rfl⟩ := List.getElem?_eq_some_iff.mp hp
    have hplace : (Scope.of d).index? d.params[i] = some i := TypeRef.idxOf?_getElem distinct hi
    cases args[i]? with
    | none => simp
    | some t =>
      rw [Option.map_some, Option.map_some, Option.map_some, Option.some_inj, Option.some_inj,
        eq_comm]
      exact supply_eq_param_iff.trans (and_iff_left hplace)

private theorem serves_monomorphic (w : s.WellFormed) {params : List String} {name : String}
    (h : s.Names params name 0) : ∃ d ∈ s.types, d.name = name ∧ d.params = [] ∧
      Request.backend.monomorphic s name = .guard d := by
  obtain ⟨d, hd⟩ := h.monomorphic? w
  obtain ⟨hfind, hparams⟩ := Schema.monomorphic?_eq_some.mp hd
  refine ⟨d, Schema.mem_of_find? hfind, Schema.name_of_find? hfind, hparams, ?_⟩
  rw [Backend.monomorphic, hd]
  rfl

private theorem concrete_iff {name : String} {args : List TypeRef} :
    (!TypeRef.anyMentionsParameter args) = true ↔
      ∀ param, .parameter param ∉ (TypeRef.generic name args).nodes := by
  rw [← not_exists, ← TypeRef.mentionsParameter_iff]
  simp [TypeRef.mentionsParameter]

private theorem recursive_iff (w : s.WellFormed) {around : Option Definition}
    (haround : ∀ d, around = some d → d ∈ s.types) {d : Definition} (hd : d ∈ s.types)
    {args : List TypeRef} :
    ((Scope.within around).owner == some d.name && (Scope.within around).isIdentity args) = true ↔
      around = some d ∧
        args.map (supply Request.backend s (.within around)) = d.params.mapIdx .param := by
  cases around with
  | none => simp [Scope.within, Scope.empty]
  | some e =>
    have hname : e.name = d.name ↔ e = d :=
      ⟨fun h => List.inj_on_of_nodup_map w.types_nodup (haround e rfl) hd h, fun h => h ▸ rfl⟩
    rw [Bool.and_eq_true, Option.some_inj]
    refine (and_congr_left' (by simpa [Scope.within, Scope.of] using hname)).trans
      (and_congr_right ?_)
    rintro rfl
    rw [Scope.within, map_supply_eq_iff (w.params_nodup e hd)]
    simp [Scope.isIdentity, Scope.of]

private theorem serves_supply (w : s.WellFormed) {around : Option Definition}
    (haround : ∀ d, around = some d → d ∈ s.types) {t : TypeRef}
    (ht : t.IsLegal s (Scope.within around).params) :
    Serves s around t (supply Request.backend s (.within around) t) := by
  induction t with
  | primitive p => exact .primitive p
  | named name =>
    obtain ⟨d, hd, rfl, hparams, hguard⟩ := serves_monomorphic w ht.named
    rw [supply, hguard]
    exact .guard hd hparams
  | generic name args ih =>
    obtain ⟨hname, hargs⟩ := ht.generic
    cases args with
    | nil =>
      obtain ⟨d, hd, rfl, hparams, hguard⟩ := serves_monomorphic w hname
      rw [supply, hguard]
      exact .guardApplied hd hparams
    | cons u us =>
      obtain ⟨d, hd⟩ := hname.generic? w
      obtain ⟨hfind, hlength⟩ := Schema.generic?_eq_some.mp hd
      obtain rfl := Schema.name_of_find? hfind
      have hmem := Schema.mem_of_find? hfind
      rw [supply_cons, Schema.instantiation?, hd]
      refine @Serves.apply s around ⟨d, _, _, _⟩ _ _ hmem rfl ?_ ?_ ?_ ?_ ?_
      · simp [hlength]
      · simp
      · exact List.forall₂_map_right_iff.mpr
          (List.forall₂_same.mpr fun u hu => ih u hu (hargs u hu))
      · exact concrete_iff
      · exact recursive_iff w haround hmem
  | sequence inner _ => exact .sequence inner
  | parameter name =>
    obtain ⟨i, hi⟩ := Option.isSome_iff_exists.mp (List.isSome_idxOf?.mpr ht.parameter)
    obtain ⟨hbound, hplace, _⟩ := List.idxOf?_eq_some_iff.mp hi
    rw [supply_eq_param_iff.mpr ⟨rfl, hi⟩]
    exact .param (List.getElem?_eq_some_iff.mpr ⟨hbound, hplace⟩)
  | map inner _ => exact .map inner
  | tuple elements _ => exact .tuple elements
  | nullable inner _ => exact .nullable inner

/-- In a resolved schema every reference in a body, and every use that is accepted, is served: the
calls noted for it keep to what a backend may count on. They are the calls that any backend gets. -/
theorem ResolvedSchema.supply_serves (r : ResolvedSchema) :
    (∀ d ∈ r.types, ∀ t ∈ d.nodes,
      Serves r.schema (some d) t (supply Request.backend r.schema (Scope.of d) t)) ∧
    (∀ t, r.checkUse t = .ok () →
      Serves r.schema none t (supply Request.backend r.schema Scope.empty t)) ∧
    ∀ {m : Type → Type} [Monad m] {γ : Type} (b : Backend m γ) (scope : Scope) (t : TypeRef),
      supply b r.schema scope t = (supply Request.backend r.schema scope t).make b := by
  refine ⟨fun d hd t ht => ?_, fun t ht => ?_, supply_eq_make⟩
  · refine serves_supply r.wellFormed (fun e he => ?_) (r.wellFormed.isLegal hd ht)
    obtain rfl := Option.some.inj he
    exact hd
  · exact serves_supply r.wellFormed (by simp) (checkUse_eq_ok_iff.mp ht)

def pairedTree : Definition := .struct ⟨"Tree", ["T"], [
  ⟨"next", .nullable (.generic "Pair" [.parameter "T", .generic "Tree" [.parameter "T"]]), true⟩]⟩

def pair : Definition := .struct ⟨"Pair", ["A", "T"], [⟨"first", .parameter "A", true⟩,
  ⟨"second", .parameter "T", true⟩]⟩

def pairedTrees : ResolvedSchema where
  schema := ⟨[pairedTree, pair, .alias ⟨"Root", [], .generic "Tree" [.named "Root"]⟩]⟩
  noErrors := by decide

theorem ResolvedSchema.supply_serves_pairedTrees :
    Serves pairedTrees.schema (some pairedTree)
      (.generic "Pair" [.parameter "T", .generic "Tree" [.parameter "T"]])
      (.apply ⟨pair, .generic "Pair" [.parameter "T", .generic "Tree" [.parameter "T"]], false,
        false⟩ [.param 0 "T", .apply ⟨pairedTree, .generic "Tree" [.parameter "T"], false, true⟩
          [.param 0 "T"]]) ∧
    Serves pairedTrees.schema none (.generic "Tree" [.nullable (.named "Root")])
      (.apply ⟨pairedTree, .generic "Tree" [.nullable (.named "Root")], true, false⟩
        [.structural (.nullable (.named "Root")) Scope.empty]) :=
  ⟨pairedTrees.supply_serves.1 pairedTree (by decide) _ (by decide),
    pairedTrees.supply_serves.2.1 (.generic "Tree" [.nullable (.named "Root")]) (by decide)⟩

end SchemaGuard
