import SchemaGuard.Proofs.FileSystem.Path
import SchemaGuard.Proofs.FileSystem.Writing

/-!
Deliveries that succeed. A path that only leads down is taken wherever no file is in its way, no
folder is at its end and the disk refuses nothing: the folders that are missing are made from the
top downward, and the file is put below them.
-/

set_option autoImplicit false
set_option relaxedAutoImplicit false

namespace SchemaGuard

/-- The name leads down from a folder. -/
structure Path.LeadsDown (name : String) : Prop where
  isName : IsName name
  notUp : name ≠ ".."
  size : name.utf8ByteSize ≤ Directory.nameLimit

/-- The names lead down from the top of a directory and make a path that can be followed. -/
structure Location.Plain (names : Location) : Prop where
  nonempty : names ≠ []
  down : ∀ name ∈ names, Path.LeadsDown name
  zero : '\x00' ∉ (Path.ofNames names).toList
  length : (Path.ofNames names).utf8ByteSize < Directory.pathLimit

namespace Location.Plain

variable {names front : Location} {name : String}

private theorem above (h : Plain (front ++ [name])) (hne : front ≠ []) : front.Plain where
  nonempty := hne
  down other hother := h.down other (List.mem_append_left [name] hother)
  zero hzero := h.zero (by simp [Path.ofNames_concat hne, hzero])
  length := by
    have hlength := h.length
    rw [Path.ofNames_concat hne, String.utf8ByteSize_append, String.utf8ByteSize_append] at hlength
    omega

private theorem last (h : Plain (front ++ [name])) : Path.LeadsDown name :=
  h.down name (List.mem_append_right front List.mem_cons_self)

end Location.Plain

namespace Directory

variable {d d' : Directory} {names front loc : Location} {name text : String}

/-- No file is in the way, no folder is at the place, and the disk takes the text. -/
structure Admits (d : Directory) (names : Location) (text : String) : Prop where
  plain : names.Plain
  clear : ∀ loc, loc <+: names → loc ≠ names → d.bytes? loc = none
  place : d.find? names ≠ some .folder
  opens : ∀ loc, loc <+: names → loc = names ∨ d.find? loc = none → d.disk.closed loc = none
  room : ∀ n e, d.disk.limit names = some (n, e) → text.utf8ByteSize ≤ n

end Directory

end SchemaGuard
