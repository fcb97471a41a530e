import SchemaGuard.Schema.Definition

/-!
Definitions looked up by name. A table has the definitions in the order in which their names were
entered; a name that is entered again keeps its place, and what stood there is lost. Where names
differ nothing is lost.
-/

set_option autoImplicit false
set_option relaxedAutoImplicit false

namespace SchemaGuard

structure Table where
  entries : List (String × Definition)
  deriving DecidableEq, Repr

namespace Table

def empty : Table := ⟨[]⟩

/-- Puts a definition under a name, in the place of the one that is there or behind all others. -/
def insert (t : Table) (name : String) (d : Definition) : Table :=
  if (t.entries.lookup name).isSome then
    ⟨t.entries.map fun e => if e.1 = name then (name, d) else e⟩
  else ⟨t.entries ++ [(name, d)]⟩

def get? (t : Table) (name : String) : Option Definition := t.entries.lookup name

def values (t : Table) : List Definition := t.entries.map Prod.snd

def ofDefinitions (ds : List Definition) : Table :=
  ds.foldl (fun t d => t.insert d.name d) empty

theorem entries_insert {t : Table} {name : String} (h : t.entries.lookup name = none)
    (d : Definition) : (t.insert name d).entries = t.entries ++ [(name, d)] := by
  rw [insert, h, Option.isSome_none, if_neg Bool.false_ne_true]

/-- Definitions with different names that the table does not have are entered one behind the
other. -/
theorem entries_foldl_insert {ds : List Definition} (distinct : (ds.map Definition.name).Nodup)
    {t : Table} (hnew : ∀ d ∈ ds, t.entries.lookup d.name = none) :
    (ds.foldl (fun t d => t.insert d.name d) t).entries
      = t.entries ++ ds.map fun d => (d.name, d) := by
  induction ds generalizing t with
  | nil => simp
  | cons d ds ih =>
    obtain ⟨hd, hds⟩ := List.forall_mem_cons.mp hnew
    obtain ⟨hfirst, hrest⟩ := List.nodup_cons.mp distinct
    have hentries := entries_insert hd d
    rw [List.foldl_cons, ih hrest, hentries, List.append_assoc, List.singleton_append,
      List.map_cons]
    intro e he
    have hne : e.name ≠ d.name := fun heq => hfirst (heq ▸ List.mem_map_of_mem he)
    rw [hentries, List.lookup_append, hds e he, Option.none_or, List.lookup_cons,
      beq_false_of_ne hne]
    rfl

theorem entries_ofDefinitions {ds : List Definition} (distinct : (ds.map Definition.name).Nodup) :
    (ofDefinitions ds).entries = ds.map fun d => (d.name, d) :=
  entries_foldl_insert distinct fun _ _ => rfl

theorem values_ofDefinitions {ds : List Definition} (distinct : (ds.map Definition.name).Nodup) :
    (ofDefinitions ds).values = ds := by
  rw [values, entries_ofDefinitions distinct, List.map_map]
  exact List.map_id ds

example : (ofDefinitions [.enum ⟨"A", []⟩, .enum ⟨"B", []⟩, .enum ⟨"A", ["a"]⟩]).values
    = [.enum ⟨"A", ["a"]⟩, .enum ⟨"B", []⟩] := by decide

theorem lookup_named (ds : List Definition) (name : String) :
    (ds.map fun d => (d.name, d)).lookup name = ds.find? fun d => d.name == name := by
  induction ds with
  | nil => rfl
  | cons d ds ih =>
    rw [List.map_cons, List.lookup_cons, List.find?_cons, ih, BEq.comm]

theorem get?_ofDefinitions {ds : List Definition} (distinct : (ds.map Definition.name).Nodup)
    (name : String) : (ofDefinitions ds).get? name = ds.find? fun d => d.name == name := by
  rw [get?, entries_ofDefinitions distinct, lookup_named]

end Table

end SchemaGuard
