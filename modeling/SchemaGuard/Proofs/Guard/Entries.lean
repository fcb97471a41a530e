import SchemaGuard.Proofs.Guard.Substitution
import SchemaGuard.Proofs.Resolution.Resolved

/-!
The ways to a guard. A type is reached by its name, by its factory and checkers for its parameters,
or by a reference that applies it to other types. Whether a name has a guard or a factory depends on
its parameters alone, and where several ways lead to a type they lead to one verdict.
-/

set_option autoImplicit false
set_option relaxedAutoImplicit false

namespace SchemaGuard.Guards

variable (g : Guards) {name : String} {d : Definition}

private theorem find?_of_mem (hd : d ∈ g.resolved.types) (hname : d.name = name) :
    g.schema.find? name = some d :=
  (Schema.find?_eq_some_iff g.wellFormed.types_nodup).mpr ⟨hd, hname⟩

private theorem find?_eq_none (h : ∀ d ∈ g.resolved.types, d.name ≠ name) :
    g.schema.find? name = none := by
  have hnone : ∀ d ∈ g.schema.types, ¬ (d.name == name) = true := by
    intro d hd
    simpa using h d hd
  exact List.find?_eq_none.mpr hnone

private theorem guard_of_isGeneric (hfind : g.schema.find? name = some d)
    (hgeneric : d.isGeneric = true) :
    g.guard name = .error (.generic name) := by
  rw [guard, hfind]
  exact if_pos hgeneric

private theorem genericDefinition_of_isGeneric (hfind : g.schema.find? name = some d)
    (hgeneric : d.isGeneric = true) : g.genericDefinition name = .ok d := by
  rw [genericDefinition, hfind]
  exact if_pos hgeneric

private theorem genericDefinition_of_monomorphic (hfind : g.schema.find? name = some d)
    (hmonomorphic : d.isGeneric = false) :
    g.genericDefinition name = .error (.notGeneric name) := by
  rw [genericDefinition, hfind]
  exact if_neg (Bool.eq_false_iff.mp hmonomorphic)

private theorem check_eq (v : Json) : g.check name v = (g.guard name).map fun w => w v := by
  unfold check
  cases g.guard name <;> rfl

private theorem factory_of_error {e : UseError} (h : g.genericDefinition name = .error e) :
    g.factory name = .error e ∧ ∀ checkers, g.instantiate name checkers = .error e := by
  constructor
  · rw [factory, h]
    rfl
  · intro checkers
    rw [instantiate, h]
    rfl

private theorem factory_of_isGeneric (hfind : g.schema.find? name = some d)
    (hgeneric : d.isGeneric = true) : g.factory name = .ok fun checkers =>
      if checkers.length = d.params.length then g.applied d checkers else fun _ => false := by
  rw [factory, g.genericDefinition_of_isGeneric hfind hgeneric]
  rfl

private theorem instantiate_of_ne_length (hfind : g.schema.find? name = some d)
    (hgeneric : d.isGeneric = true) {checkers : List Validator}
    (hlength : checkers.length ≠ d.params.length) : g.instantiate name checkers
      = .error (.checkerCount name d.params.length checkers.length) := by
  rw [instantiate, g.genericDefinition_of_isGeneric hfind hgeneric]
  exact if_neg hlength

private theorem validatorFor_generic (hd : d ∈ g.resolved.types) {args : List TypeRef}
    (hlength : args.length = d.params.length) (hargs : ∀ a ∈ args, g.resolved.checkUse a = .ok ()) :
    g.validatorFor (.generic d.name args) = .ok (g.applied d (g.validators args)) := by
  have hlegal := Schema.isLegal_generic hd hlength fun a ha =>
    ResolvedSchema.checkUse_eq_ok_iff.mp (hargs a ha)
  have happlies : g.schema.generic? d.name args = some d :=
    Schema.generic?_eq_some.mpr ⟨g.find?_of_mem hd rfl, hlength.symm⟩
  refine g.validatorFor_eq_ok_iff.mpr ⟨ResolvedSchema.checkUse_eq_ok_iff.mpr hlegal, ?_⟩
  rw [reference_generic, happlies]
  rfl

private theorem validatorFor_named (hd : d ∈ g.resolved.types) (hparams : d.params = []) :
    g.validatorFor (.named d.name) = .ok (g.applied d []) := by
  have hlegal : (TypeRef.named d.name).IsLegal g.resolved.schema [] :=
    TypeRef.isLegal_named_iff.mpr ⟨List.not_mem_nil, d, hd, rfl, by rw [hparams]; rfl⟩
  have hmonomorphic : g.schema.monomorphic? d.name = some d :=
    Schema.monomorphic?_eq_some.mpr ⟨g.find?_of_mem hd rfl, hparams⟩
  refine g.validatorFor_eq_ok_iff.mpr ⟨ResolvedSchema.checkUse_eq_ok_iff.mpr hlegal, ?_⟩
  rw [reference_named, hmonomorphic]
  rfl

/-- A name that is not defined has neither guard nor factory. A type without parameters has a guard
and no factory, and its guard, a check by its name, and references to it give one verdict. A generic
type has a factory and no guard: with one checker for each parameter the factory and instantiation
give one verdict, with another number of them instantiation is refused and the factory rejects all
values; and an application of the type to accepted uses is accepted and gives the verdict of
instantiation with their validators. -/
theorem entries_agree (name : String) :
    ((∀ d ∈ g.resolved.types, d.name ≠ name) →
      g.guard name = .error (.unknownType name) ∧
      (∀ v, g.check name v = .error (.unknownType name)) ∧
      g.factory name = .error (.unknownType name) ∧
      ∀ checkers, g.instantiate name checkers = .error (.unknownType name)) ∧
    (∀ d ∈ g.resolved.types, d.name = name → d.params = [] →
      g.factory name = .error (.notGeneric name) ∧
      (∀ checkers, g.instantiate name checkers = .error (.notGeneric name)) ∧
      ∃ w, g.guard name = .ok w ∧ (∀ v, g.check name v = .ok (w v)) ∧
        g.validatorFor (.named name) = .ok w ∧ g.validatorFor (.generic name []) = .ok w) ∧
    (∀ d ∈ g.resolved.types, d.name = name → d.params ≠ [] →
      g.guard name = .error (.generic name) ∧
      (∀ v, g.check name v = .error (.generic name)) ∧
      (∃ make, g.factory name = .ok make ∧ ∀ checkers,
        (checkers.length = d.params.length →
          ∃ w, g.instantiate name checkers = .ok w ∧ ∀ v, make checkers v = w v) ∧
        (checkers.length ≠ d.params.length →
          g.instantiate name checkers
            = .error (.checkerCount name d.params.length checkers.length) ∧
          ∀ v, make checkers v = false)) ∧
      ∀ args : List TypeRef, args.length = d.params.length →
        (∀ a ∈ args, g.resolved.checkUse a = .ok ()) →
        ∃ ws w w', args.mapM g.validatorFor = .ok ws ∧
          g.validatorFor (.generic name args) = .ok w ∧ g.instantiate name ws = .ok w' ∧
          ∀ v, w v = w' v) := by
  refine ⟨fun hunknown => ?unknown, ?monomorphic, ?generic⟩
  case unknown =>
    have hfind := g.find?_eq_none hunknown
    have hguard : g.guard name = .error (.unknownType name) := by rw [guard, hfind]
    have hgeneric : g.genericDefinition name = .error (.unknownType name) := by
      rw [genericDefinition, hfind]
    obtain ⟨hfactory, hinstantiate⟩ := g.factory_of_error hgeneric
    refine ⟨hguard, fun v => ?_, hfactory, hinstantiate⟩
    rw [check_eq, hguard]
    rfl
  case monomorphic =>
    rintro d hd rfl hparams
    have hfind := g.find?_of_mem hd rfl
    have hmonomorphic : d.isGeneric = false := by simp [Definition.isGeneric, hparams]
    have hguard : g.guard d.name = .ok (g.applied d []) :=
      g.guard_eq_ok_iff.mpr ⟨d, Schema.monomorphic?_eq_some.mpr ⟨hfind, hparams⟩, rfl⟩
    have happlied : g.validatorFor (.generic d.name []) = .ok (g.applied d []) :=
      g.validatorFor_generic hd (by simp [hparams]) (by simp)
    obtain ⟨hfactory, hinstantiate⟩ :=
      g.factory_of_error (g.genericDefinition_of_monomorphic hfind hmonomorphic)
    refine ⟨hfactory, hinstantiate, g.applied d [], hguard, fun v => ?_,
      g.validatorFor_named hd hparams, happlied⟩
    rw [check_eq, hguard]
    rfl
  case generic =>
    rintro d hd rfl hparams
    have hfind := g.find?_of_mem hd rfl
    have hgeneric : d.isGeneric = true := by simpa [Definition.isGeneric] using hparams
    have hguard := g.guard_of_isGeneric hfind hgeneric
    refine ⟨hguard, fun v => ?_, ⟨_, g.factory_of_isGeneric hfind hgeneric,
      fun checkers => ⟨fun hlength => ?_, fun hlength => ?_⟩⟩, fun args hlength hargs => ?_⟩
    · rw [check_eq, hguard]
      rfl
    · refine ⟨g.applied d checkers,
        g.instantiate_eq_ok_iff.mpr ⟨d, hfind, hgeneric, hlength, rfl⟩, fun v => ?_⟩
      rw [if_pos hlength]
    -- With the wrong number of checkers, instantiation refuses and the factory rejects.
    · refine ⟨g.instantiate_of_ne_length hfind hgeneric hlength, fun v => ?_⟩
      rw [if_neg hlength]
    · have hcount : (g.validators args).length = d.params.length := by simp [validators, hlength]
      exact ⟨g.validators args, _, _, g.mapM_validatorFor hargs,
        g.validatorFor_generic hd hlength hargs,
        g.instantiate_eq_ok_iff.mpr ⟨d, hfind, hgeneric, hcount, rfl⟩, fun v => rfl⟩

def mail : Guards := ⟨mailbox, .opened⟩

theorem entries_agree_mail :
    mail.guard "Outbox" = .error (.unknownType "Outbox") ∧
      (∃ w, mail.guard "Inbox" = .ok w ∧ mail.validatorFor (.named "Inbox") = .ok w) ∧
      mail.guard "Signed" = .error (.generic "Signed") ∧
      mail.instantiate "Signed" [] = .error (.checkerCount "Signed" 1 0) ∧
      ∃ ws w w', [TypeRef.named "Inbox"].mapM mail.validatorFor = .ok ws ∧
        mail.validatorFor (.generic "Signed" [.named "Inbox"]) = .ok w ∧
        mail.instantiate "Signed" ws = .ok w' ∧ ∀ v, w v = w' v := by
  obtain ⟨hunknown, _, _⟩ := (mail.entries_agree "Outbox").1 (by decide)
  obtain ⟨_, _, w, hguard, _, hnamed, _⟩ :=
    (mail.entries_agree "Inbox").2.1 (.alias ⟨"Inbox", [], _⟩) List.mem_cons_self rfl rfl
  obtain ⟨hgeneric, _, ⟨_, _, hmake⟩, happlied⟩ :=
    (mail.entries_agree "Signed").2.2 (.struct ⟨"Signed", ["T"], _⟩)
      (List.mem_cons_of_mem _ List.mem_cons_self) rfl (by simp [Definition.params])
  exact ⟨hunknown, ⟨w, hguard, hnamed⟩, hgeneric, ((hmake []).2 (by simp [Definition.params])).1,
    happlied [.named "Inbox"] rfl (by decide)⟩

end SchemaGuard.Guards
