import SchemaGuard.FileSystem.Directory
import SchemaGuard.Proofs.Attempt

/-!
Directories that grow. Where every folder stays a folder and whatever stood somewhere still has
something there, paths lead where they led. Putting a file where no folder is and making folders
where nothing is are growth.
-/

set_option autoImplicit false
set_option relaxedAutoImplicit false

namespace SchemaGuard.Directory

variable {d d' d'' : Directory} {loc place : Location} {bytes : ByteArray} {path name : String}

private theorem lookup_filter_ne (h : loc ≠ place) (files : List (Location × ByteArray)) :
    (files.filter fun file => file.1 != place).lookup loc = files.lookup loc := by
  induction files with
  | nil => rfl
  | cons file files ih =>
    obtain ⟨here, content⟩ := file
    by_cases hf : here = place
    · subst hf
      have hne : (loc == here) = false := by simpa using h
      simp [List.lookup_cons, ih, hne]
    · have hne : (here != place) = true := by simpa using hf
      simp [List.lookup_cons, ih, hne]

@[simp] theorem bytes?_put_self : (d.put place bytes).bytes? place = some bytes := by
  simp [put, bytes?]

theorem bytes?_put_of_ne (h : loc ≠ place) : (d.put place bytes).bytes? loc = d.bytes? loc := by
  have hne : (loc == place) = false := by simpa using h
  simp [put, bytes?, List.lookup_cons, hne, lookup_filter_ne h]

theorem find?_eq_folder_iff : d.find? loc = some .folder ↔ d.bytes? loc = none ∧
    (loc = [] ∨ (∃ folder ∈ d.folders, loc.isPrefixOf folder = true) ∨
      ∃ file ∈ d.contents, loc.isPrefixOf file.1 = true) := by
  rw [find?]
  cases d.bytes? loc with
  | some content => simp
  | none =>
    simp only [Option.isSome_none, Bool.false_eq_true, if_false, Option.ite_none_right_eq_some,
      Bool.or_eq_true, List.isEmpty_iff, List.any_eq_true, and_true, true_and, or_assoc]

private theorem find?_eq_file_iff : d.find? loc = some .file ↔ (d.bytes? loc).isSome = true := by
  rw [find?]
  cases d.bytes? loc with
  | some content => simp
  | none => simp

theorem isSome_find?_iff : (d.find? loc).isSome = true ↔
    (d.bytes? loc).isSome = true ∨ d.find? loc = some .folder := by
  rw [← find?_eq_file_iff]
  cases d.find? loc with
  | none => simp
  | some entry => cases entry <;> simp

structure Grows (d d' : Directory) : Prop where
  folder : ∀ loc, d.find? loc = some .folder → d'.find? loc = some .folder
  there : ∀ loc, (d.find? loc).isSome = true → (d'.find? loc).isSome = true

namespace Grows

theorem put (hplace : d.find? place ≠ some .folder) (bytes : ByteArray) :
    Grows d (d.put place bytes) := by
  have hfolder : ∀ loc, d.find? loc = some .folder →
      (d.put place bytes).find? loc = some .folder := by
    intro loc h
    have hne : loc ≠ place := fun heq => hplace (heq ▸ h)
    rw [find?_eq_folder_iff] at h ⊢
    rw [bytes?_put_of_ne hne]
    refine ⟨h.1, h.2.imp_right (Or.imp_right ?_)⟩
    rintro ⟨file, hfile, hbelow⟩
    by_cases hhere : file.1 = place
    · exact ⟨(place, bytes), List.mem_cons_self, hhere ▸ hbelow⟩
    · exact ⟨file, List.mem_cons_of_mem _ (List.mem_filter.mpr ⟨hfile, by simpa using hhere⟩),
        hbelow⟩
  refine ⟨hfolder, fun loc h => ?_⟩
  rw [isSome_find?_iff] at h ⊢
  refine h.imp (fun hfile => ?_) (hfolder loc)
  by_cases hloc : loc = place
  · rw [hloc, bytes?_put_self]
    rfl
  · rwa [bytes?_put_of_ne hloc]

theorem of_folders (hcontents : d'.contents = d.contents)
    (hfolders : ∀ loc ∈ d.folders, loc ∈ d'.folders) : Grows d d' := by
  have hbytes (loc : Location) : d'.bytes? loc = d.bytes? loc := by rw [bytes?, bytes?, hcontents]
  have hfolder : ∀ loc, d.find? loc = some .folder → d'.find? loc = some .folder := by
    intro loc h
    rw [find?_eq_folder_iff] at h ⊢
    rw [hbytes, hcontents]
    exact ⟨h.1, h.2.imp_right (Or.imp_left fun ⟨folder, hmem, hbelow⟩ =>
      ⟨folder, hfolders folder hmem, hbelow⟩)⟩
  refine ⟨hfolder, fun loc h => ?_⟩
  rw [isSome_find?_iff] at h ⊢
  rw [hbytes]
  exact h.imp_right (hfolder loc)

variable (h : Grows d d')
include h

private theorem isFolder {here : Place} (hhere : d.isFolder here = true) :
    d'.isFolder here = true := by
  cases here with
  | outside => rfl
  | inside loc => exact beq_iff_eq.mpr (h.folder loc (beq_iff_eq.mp hhere))

private theorem step {here there : Place} (hstep : d.step here name = .ok there) :
    d'.step here name = .ok there := by
  unfold Directory.step at hstep ⊢
  split at hstep
  · cases hstep
  · next hfolder =>
    rw [if_neg (by simpa using h.isFolder (by simpa using hfolder))]
    split at hstep
    · next hstays => rw [if_pos hstays]; exact hstep
    · next hleads =>
      rw [if_neg hleads]
      cases here with
      | outside => exact hstep
      | inside loc =>
        simp only at hstep ⊢
        split at hstep
        · next hup => rw [if_pos hup]; exact hstep
        · next hdown =>
          rw [if_neg hdown]
          split at hstep
          · cases hstep
          · next hlength =>
            rw [if_neg hlength]
            split at hstep
            · next hthere => rw [if_pos (h.there _ hthere)]; exact hstep
            · cases hstep

theorem foldlM_step {names : List String} {here there : Place}
    (hnames : names.foldlM d.step here = .ok there) :
    names.foldlM d'.step here = .ok there := by
  induction names generalizing here with
  | nil => exact hnames
  | cons name names ih =>
    rw [List.foldlM_cons] at hnames ⊢
    obtain ⟨next, hstep, hrest⟩ := Except.bind_eq_ok_iff.mp hnames
    exact Except.bind_eq_ok_iff.mpr ⟨next, h.step hstep, ih hrest⟩

theorem locate {there : Place} (hpath : d.locate path = .ok there) :
    d'.locate path = .ok there := by
  obtain ⟨⟨start, names⟩, hroute, hnames⟩ := Except.bind_eq_ok_iff.mp hpath
  exact Except.bind_eq_ok_iff.mpr ⟨(start, names), hroute, h.foldlM_step hnames⟩

end Grows

/-- The name of something that stands in a folder leads to it. -/
theorem step_of_folder (hfolder : d.find? loc = some .folder) (hstays : Path.stays name = false)
    (hup : name ≠ "..") (hlength : ¬ name.utf8ByteSize > nameLimit)
    (hthere : (d.find? (loc ++ [name])).isSome = true) :
    d.step (.inside loc) name = .ok (.inside (loc ++ [name])) := by
  have hopen : d.isFolder (.inside loc) = true := beq_iff_eq.mpr hfolder
  simp [step, hopen, hstays, hup, hlength, hthere]

theorem locate_eq_step {front : List String} {start : Place}
    (hroute : route path = .ok (start, front ++ [name]))
    (hfront : front.foldlM d.step start = .ok (.inside loc)) :
    d.locate path = d.step (.inside loc) name := by
  rw [locate, hroute]
  show (front ++ [name]).foldlM d.step start = _
  rw [List.foldlM_append, hfront]
  show [name].foldlM d.step (.inside loc) = _
  rw [List.foldlM_cons]
  exact bind_pure _

end SchemaGuard.Directory
