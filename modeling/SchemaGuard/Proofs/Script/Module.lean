import Mathlib.Data.List.Nodup
import SchemaGuard.Proofs.Resolution.WellFormed
import SchemaGuard.Proofs.Script.Semantics

/-!
Modules as a whole. A module is well-formed if no scope of it binds a name twice and if its text,
which has no more parentheses than its tree holds, is read as the tree. Loading runs the
declarations of its constants in order; functions can be called before their declarations.
-/

set_option autoImplicit false
set_option relaxedAutoImplicit false

namespace SchemaGuard.Script

open Script.Module (eval)

namespace Expr

def level : Expr → Nat
  | .name _ | .index .. | .property .. | .call .. | .parens _ => 6
  | .bool _ | .null | .number _ | .string _ => 5
  | .typeOf _ | .not _ => 4
  | .relate .. => 3
  | .both .. => 2
  | .either .. => 1
  | .arrow .. | .fill .. => 0

section

variable (a b : Expr)

@[simp] private theorem level_string (s : String) : (string s).level = 5 := rfl

@[simp] private theorem level_number (n : Nat) : (number n).level = 5 := rfl

@[simp] private theorem level_null : null.level = 5 := rfl

@[simp] private theorem level_name (x : String) : (name x).level = 6 := rfl

@[simp] private theorem level_index : (index a b).level = 6 := rfl

@[simp] private theorem level_property (p : String) : (property a p).level = 6 := rfl

@[simp] private theorem level_call (args : List Expr) : (call a args).level = 6 := rfl

@[simp] private theorem level_parens : (parens a).level = 6 := rfl

@[simp] private theorem level_typeOf : (typeOf a).level = 4 := rfl

@[simp] private theorem level_not : (not a).level = 4 := rfl

@[simp] private theorem level_relate (r : Relation) : (relate r a b).level = 3 := rfl

@[simp] private theorem level_both : (both a b).level = 2 := rfl

@[simp] private theorem level_either : (either a b).level = 1 := rfl

end

mutual
/-- Every operand binds as tightly as its place demands, so that the text of the expression is read
as the expression. Operands of `&&` in a row may be paired up in any way, by `eval_both_assoc`. -/
def grouped : Expr → Bool
  | .bool _ | .null | .number _ | .string _ | .name _ => true
  | .index object key => 6 ≤ object.level && object.grouped && key.grouped
  | .property object _ => 6 ≤ object.level && object.grouped
  | .call function args => 6 ≤ function.level && function.grouped && allGrouped args
  | .typeOf e | .not e => 4 ≤ e.level && e.grouped
  | .relate _ a b => 4 ≤ a.level && a.grouped && (4 ≤ b.level && b.grouped)
  | .both a b => 2 ≤ a.level && a.grouped && (2 ≤ b.level && b.grouped)
  | .either a b => 1 ≤ a.level && a.grouped && (2 ≤ b.level && b.grouped)
  | .parens e | .arrow _ _ e | .fill _ e => e.grouped

def allGrouped : List Expr → Bool
  | [] => true
  | e :: es => e.grouped && allGrouped es
end

end Expr

mutual
def Stmt.grouped : Stmt → Bool
  | .rejectIf e | .bind _ e | .give e => e.grouped
  | .switch e cases => e.grouped && Stmt.casesGrouped cases

def Stmt.allGrouped : List Stmt → Bool
  | [] => true
  | s :: rest => s.grouped && Stmt.allGrouped rest

def Stmt.casesGrouped : List (String × List Stmt) → Bool
  | [] => true
  | (_, body) :: rest => Stmt.allGrouped body && Stmt.casesGrouped rest
end

def Stmt.boundBy (body : List Stmt) : List String :=
  body.filterMap fun s =>
    match s with
    | .bind x _ => some x
    | _ => none

theorem allGrouped_iff {body : List Stmt} :
    Stmt.allGrouped body = true ↔ ∀ s ∈ body, s.grouped = true := by
  induction body with
  | nil => simp [Stmt.allGrouped]
  | cons s body ih => simp [Stmt.allGrouped, ih]

theorem boundBy_append (a b : List Stmt) :
    Stmt.boundBy (a ++ b) = Stmt.boundBy a ++ Stmt.boundBy b := List.filterMap_append ..

namespace Item

def isConstant : Item → Bool
  | .constant .. => true
  | _ => false

def bindsOnce : Item → Bool
  | .guard _ _ param _ body => decide (param :: Stmt.boundBy body).Nodup
  | .factory _ _ _ params lazies body =>
    decide (params.map checkerName ++ lazies.map Lazy.name ++ [selfName]).Nodup
      && decide (subjectName :: Stmt.boundBy body).Nodup
  | .constant .. => true

def grouped : Item → Bool
  | .guard _ _ _ _ body | .factory _ _ _ _ _ body => Stmt.allGrouped body
  | .constant _ init => init.grouped

end Item

namespace Module

def isWellFormed (m : Module) : Bool :=
  decide (m.map Item.name).Nodup && m.all Item.bindsOnce && m.all Item.grouped

/-- Runs the declarations of constants, the place of the first one being `address`. -/
def initialise (m : Module) : Nat → List Item → Store → Option Store
  | _, [], σ => some σ
  | address, .constant _ init :: rest, σ =>
    (eval m m.env init σ).bind fun r =>
      m.initialise (address + 1) rest (r.2.set address (some r.1))
  | address, _ :: rest, σ => m.initialise address rest σ

/-- The store of the module when it has been loaded. -/
def load (m : Module) : Option Store :=
  if m.isWellFormed then
    m.initialise 0 m (List.replicate (m.countP Item.isConstant) none)
  else none

theorem item?_eq_some {m : Module} (distinct : (m.map Item.name).Nodup) {item : Item}
    (h : item ∈ m) : m.item? item.name = some item :=
  (Schema.find?_key_eq_some_iff distinct).mpr ⟨h, rfl⟩

theorem lookup_cons_of_ne {env : Env} {x y : String} {slot : Slot} (h : y ≠ x) :
    ((x, slot) :: env).lookup y = env.lookup y := by
  rw [List.lookup_cons]
  have hbeq : (y == x) = false := by simpa using h
  rw [hbeq]

theorem lookup_append_of_notMem {first rest : Env} {x : String} (h : x ∉ first.map Prod.fst) :
    (first ++ rest).lookup x = rest.lookup x := by
  have hnone : first.lookup x = none := List.lookup_eq_none_iff.mpr fun p hp => by
    simpa using fun heq : x = p.1 => h (heq ▸ List.mem_map_of_mem hp)
  rw [List.lookup_append, hnone, Option.none_or]

theorem lookup_append_of_some {first rest : Env} {x : String} {slot : Slot}
    (h : first.lookup x = some slot) : (first ++ rest).lookup x = some slot := by
  rw [List.lookup_append, h, Option.some_or]

theorem names_bindCells (xs : List String) (address : Nat) :
    (bindCells xs address).map Prod.fst = xs := by
  induction xs generalizing address with
  | nil => rfl
  | cons x xs ih => rw [bindCells, List.map_cons, ih]

theorem lookup_bindCells {xs : List String} (distinct : xs.Nodup) (address : Nat) {i : Nat}
    {x : String} (hx : xs[i]? = some x) :
    (bindCells xs address).lookup x = some (.cell (address + i)) := by
  induction xs generalizing address i with
  | nil => simp at hx
  | cons y xs ih =>
    obtain ⟨hy, hxs⟩ := List.nodup_cons.mp distinct
    cases i with
    | zero =>
      obtain rfl : y = x := by simpa using hx
      rw [bindCells, List.lookup_cons_self, Nat.add_zero]
    | succ i =>
      have hx : xs[i]? = some x := by simpa using hx
      have hne : x ≠ y := fun heq => hy (heq ▸ List.mem_of_getElem? hx)
      rw [bindCells, lookup_cons_of_ne hne, ih hxs (address + 1) hx]
      simp only [Option.some.injEq, Slot.cell.injEq]
      omega

theorem names_bindParams (xs : List String) (args : List Value) :
    (bindParams xs args).map Prod.fst = xs := by
  induction xs generalizing args with
  | nil => rfl
  | cons x xs ih => rw [bindParams, List.map_cons, ih]

theorem lookup_bindParams {xs : List String} (distinct : xs.Nodup) {args : List Value} {i : Nat}
    {x : String} {v : Value} (hx : xs[i]? = some x) (hv : args[i]? = some v) :
    (bindParams xs args).lookup x = some (.value v) := by
  induction xs generalizing args i with
  | nil => simp at hx
  | cons y xs ih =>
    obtain ⟨hy, hxs⟩ := List.nodup_cons.mp distinct
    obtain ⟨w, args, rfl⟩ : ∃ w rest, args = w :: rest := by
      cases args with
      | nil => simp at hv
      | cons w rest => exact ⟨w, rest, rfl⟩
    cases i with
    | zero =>
      obtain rfl : y = x := by simpa using hx
      obtain rfl : w = v := by simpa using hv
      rw [bindParams, List.lookup_cons_self, List.headD_cons]
    | succ i =>
      have hx : xs[i]? = some x := by simpa using hx
      have hne : x ≠ y := fun heq => hy (heq ▸ List.mem_of_getElem? hx)
      rw [bindParams, lookup_cons_of_ne hne, List.tail_cons]
      exact ih hxs hx (by simpa using hv)

theorem lookup_envFrom_functions {functions : Module}
    (h : ∀ item ∈ functions, item.isConstant = false) (rest : Module) (address : Nat) (x : String) :
    (envFrom address (functions ++ rest)).lookup x =
      if x ∈ functions.map Item.name then some (.value (.function x))
      else (envFrom address rest).lookup x := by
  induction functions with
  | nil => simp
  | cons item functions ih =>
    have hitem := h item List.mem_cons_self
    have hrest := ih fun other hother => h other (List.mem_cons_of_mem _ hother)
    have hcons : envFrom address (item :: functions ++ rest)
        = (item.name, .value (.function item.name)) :: envFrom address (functions ++ rest) := by
      cases item with
      | constant name init => simp [Item.isConstant] at hitem
      | _ => rfl
    rw [hcons]
    by_cases hx : x = item.name
    · subst hx
      rw [List.lookup_cons_self, List.map_cons, if_pos List.mem_cons_self]
    · rw [lookup_cons_of_ne hx, hrest, List.map_cons]
      simp [hx]

theorem lookup_envFrom_constants {α : Type} (name : α → String) (init : α → Expr)
    {items : List α} (distinct : (items.map name).Nodup) (address : Nat) {i : Nat} {x : α}
    (hx : items[i]? = some x) :
    (envFrom address (items.map fun b => .constant (name b) (init b))).lookup (name x)
      = some (.cell (address + i)) := by
  induction items generalizing address i with
  | nil => simp at hx
  | cons y items ih =>
    rw [List.map_cons, envFrom]
    cases i with
    | zero =>
      obtain rfl : y = x := by simpa using hx
      rw [List.lookup_cons_self, Nat.add_zero]
    | succ i =>
      have hx : items[i]? = some x := by simpa using hx
      obtain ⟨hy, hitems⟩ := List.nodup_cons.mp distinct
      have hne : name x ≠ name y := fun heq =>
        hy (heq ▸ List.mem_map_of_mem (List.mem_of_getElem? hx))
      rw [lookup_cons_of_ne hne, ih hitems (address + 1) hx]
      simp only [Option.some.injEq, Slot.cell.injEq]
      omega

/-- A name that a module does not declare is looked up outside. -/
theorem lookup_envFrom_globals {m : Module} (address : Nat) {x : String}
    (h : x ∉ m.map Item.name) : (envFrom address m).lookup x = globals.lookup x := by
  induction m generalizing address with
  | nil => rfl
  | cons item m ih =>
    obtain ⟨hx, hrest⟩ := not_or.mp (List.mem_cons.not.mp (List.map_cons ▸ h))
    cases item with
    | constant name init =>
      have hname : x ≠ name := hx
      rw [envFrom, lookup_cons_of_ne hname, ih (address + 1) hrest]
    | _ =>
      rw [envFrom, lookup_cons_of_ne hx, ih address hrest]
      exact fun name init => by simp

end Module

end SchemaGuard.Script
