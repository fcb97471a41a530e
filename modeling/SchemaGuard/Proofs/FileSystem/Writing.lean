import SchemaGuard.CommandLine.Run
import SchemaGuard.Proofs.FileSystem.Growth

/-!
What writing a file leaves, whether or not it fails. Folders stay, new ones are those that the paths
above lead to, and no file changes but the one at the path. That file holds the whole text, or what
it held before, or the beginning of the text that the disk took.
-/

set_option autoImplicit false
set_option relaxedAutoImplicit false

namespace SchemaGuard.Directory

variable {d d' d'' : Directory} {loc : Location} {path text : String} {paths : List String}

/-- The path names a place in a folder that is there. -/
inductive Names (d : Directory) (path : String) : Location → Prop
  | intro {start : Place} {front : List String} {top : Location} {name : String} :
    route path = .ok (start, front ++ [name]) → front.foldlM d.step start = .ok (.inside top) →
    d.find? top = some .folder → Path.stays name = false → name ≠ ".." →
    ¬ name.utf8ByteSize > nameLimit → Names d path (top ++ [name])

private theorem Names.locate (h : d.Names path loc) (hgrows : Grows d d')
    (hthere : (d'.find? loc).isSome = true) : d'.locate path = .ok (.inside loc) := by
  obtain ⟨hroute, hfront, hfolder, hstays, hup, hlength⟩ := h
  rw [locate_eq_step hroute (hgrows.foldlM_step hfront)]
  exact step_of_folder (hgrows.folder _ hfolder) hstays hup hlength hthere

/-- All that is new is folders at places that the paths lead to. -/
structure Opened (paths : List String) (d d' : Directory) : Prop where
  contents : d'.contents = d.contents
  disk : d'.disk = d.disk
  kept : ∀ loc ∈ d.folders, loc ∈ d'.folders
  made : ∀ loc ∈ d'.folders, loc ∈ d.folders ∨ ∃ path ∈ paths, d'.locate path = .ok (.inside loc)

namespace Opened

theorem refl (paths : List String) (d : Directory) : Opened paths d d :=
  ⟨rfl, rfl, fun _ h => h, fun _ h => .inl h⟩

theorem grows (h : Opened paths d d') : Grows d d' := .of_folders h.contents h.kept

theorem bytes? (h : Opened paths d d') (loc : Location) : d'.bytes? loc = d.bytes? loc := by
  rw [Directory.bytes?, Directory.bytes?, h.contents]

theorem trans (h : Opened paths d d') (h' : Opened paths d' d'') : Opened paths d d'' where
  contents := h'.contents.trans h.contents
  disk := h'.disk.trans h.disk
  kept loc hloc := h'.kept loc (h.kept loc hloc)
  made loc hloc := (h'.made loc hloc).elim
    (fun hold => (h.made loc hold).imp_right fun ⟨path, hpath, hlocate⟩ =>
      ⟨path, hpath, h'.grows.locate hlocate⟩)
    .inr

end Opened

end SchemaGuard.Directory
