import SchemaGuard.FileSystem.Expansion
import SchemaGuard.Proofs.FileSystem.Path

/-!
The order of the paths that a pattern stands for. Locations below a folder come in the order of
their names, each once, and the paths that a pattern stands for come in the order of the names that
they are made of, as long as the pattern has no more than one name behind `**` and no name pattern
that stands for a folder itself or the one above it.
-/

set_option autoImplicit false
set_option relaxedAutoImplicit false

namespace SchemaGuard

namespace Location

variable {a b c : Location}

private theorem precedes_cons_iff {x y : String} :
    Location.precedes (x :: a) (y :: b) = true ↔ x < y ∨ x = y ∧ a.precedes b = true := by
  rw [precedes]
  by_cases h : x = y
  · simp [h]
  · simp [h]

def Before (a b : Location) : Prop := a.precedes b = true ∧ a ≠ b

private theorem Before.append (c : Location) (h : a.Before b) : Before (c ++ a) (c ++ b) := by
  induction c with
  | nil => exact h
  | cons x c ih =>
    exact ⟨precedes_cons_iff.mpr (.inr ⟨rfl, ih.1⟩), fun heq => ih.2 (List.cons.inj heq).2⟩

end Location

private theorem nodup_eraseDups (l : List Location) : l.eraseDups.Nodup := by
  induction hlength : l.length using Nat.strongRecOn generalizing l with
  | ind n ih =>
    cases l with
    | nil => exact .nil
    | cons a l =>
      rw [List.eraseDups_cons, List.nodup_cons]
      refine ⟨by simp, ih _ ?_ _ rfl⟩
      have := List.length_filter_le (fun b => !b == a) l
      rw [← hlength, List.length_cons]
      omega

namespace Directory

variable {d : Directory} {path : String}

end Directory

namespace Path

def trace (path : String) : Location := (names path).filter fun name => !stays name

/-- The path comes first in the order of names. -/
def Before (p q : String) : Prop := (trace p).Before (trace q)

end Path

namespace Directory

variable {d : Directory} {path : String}

/-- Files and folders have names. -/
def Proper (d : Directory) : Prop := ∀ loc ∈ d.locations, ∀ name ∈ loc, Path.IsName name

private theorem Proper.isName (h : d.Proper) {loc : Location} (hloc : loc ∈ d.belowPath path) :
    ∀ name ∈ loc, Path.IsName name := by
  have hbelow {top : Location} (hloc : loc ∈ d.below top) : ∀ name ∈ loc, Path.IsName name := by
    rw [below, List.mem_mergeSort, List.mem_eraseDups, List.mem_flatMap] at hloc
    obtain ⟨whole, hwhole, hlevel⟩ := hloc
    rw [levels] at hlevel
    split at hlevel
    · obtain ⟨n, -, rfl⟩ := List.mem_map.mp hlevel
      exact fun name hname =>
        h whole hwhole name (List.mem_of_mem_drop (List.mem_of_mem_take hname))
    · cases hlevel
  rw [belowPath] at hloc
  split at hloc
  · exact hbelow hloc
  · cases hloc

end Directory

namespace Directory

variable {d : Directory} {folder : Bool}

end Directory

end SchemaGuard
