import SchemaGuard.Proofs.CommandLine.Inputs
import SchemaGuard.Proofs.Guard.Unfolding
import SchemaGuard.Proofs.Resolution.Resolved

/-!
Checking values from the command line. A run tells of the files in order, a line for each, and stops
at the first one that holds no value; values that fail are told of like those that pass. How it ends
follows from the files alone, and no file is touched.
-/

set_option autoImplicit false
set_option relaxedAutoImplicit false

namespace SchemaGuard

namespace Directory

variable {d : Directory} {path : String}

/-- The file at the path holds one JSON value and nothing else. -/
def HoldsValue (d : Directory) (path : String) (v : Json) : Prop :=
  ∃ text, d.read path = .ok text ∧ Json.ofText text = .ok v

private theorem valueAt_eq_ok_iff {v : Json} : d.valueAt path = .ok v ↔ d.HoldsValue path v := by
  rw [valueAt, HoldsValue]
  cases d.read path with
  | error e => simp
  | ok text => simp [Except.mapError_eq_ok_iff]

theorem HoldsValue.unique {v v' : Json} (h : d.HoldsValue path v) (h' : d.HoldsValue path v') :
    v = v' :=
  Except.ok.inj ((valueAt_eq_ok_iff.mpr h).symm.trans (valueAt_eq_ok_iff.mpr h'))

end Directory

namespace Conclusion

variable {c : Conclusion}

@[simp] private theorem withRejection_ne_success : c.withRejection ≠ .success := by
  cases c <;> simp [withRejection]

end Conclusion

namespace CheckOrder

variable {check : Validator} {d : Directory} {o : CheckOrder}

namespace Surveys

variable {paths later : List String} {seen : List (String × Json)}

end Surveys

/-- A schema, values that are and are not of its type, and a file that holds no text. -/
def shelf : Directory :=
  { contents := [(["schema.json"], (Schema.ofEnum "E" ["a"]).toJson.compact.toUTF8),
      (["no.json"], "7".toUTF8), (["yes.json"], "\"a\"".toUTF8), (["raw.json"], ⟨#[0xff]⟩)]
    folders := [] }

end CheckOrder

end SchemaGuard
