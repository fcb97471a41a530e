import Mathlib.Data.List.Nodup
import SchemaGuard.Proofs.Resolution.Legal

/-!
Aliases that expand without end. A step of an expansion replaces the alias at the head of a
reference by what it stands for; nullables around a head do not count. Resolution takes at most
`expansionLimit` steps, and stops when it meets the alias it started from, whatever that is applied
to there. That loses nothing: the steps from one meeting to the next can be taken again with other
arguments, so an expansion that meets its alias once does not end.
-/

set_option autoImplicit false
set_option relaxedAutoImplicit false

namespace SchemaGuard

namespace Schema

/-- One step of an expansion: the alias at the head gives way to its target. -/
inductive Expands (s : Schema) : TypeRef → TypeRef → Prop
  | nullable {t u : TypeRef} (step : s.Expands t u) : s.Expands (.nullable t) u
  | named {a : Alias} (ha : .alias a ∈ s.types) : s.Expands (.named a.name) a.target
  | generic {a : Alias} (ha : .alias a ∈ s.types) (args : List TypeRef) :
    s.Expands (.generic a.name args) (a.target.substitute a.params args)

/-- So many steps of an expansion. -/
inductive ExpandsIn (s : Schema) : Nat → TypeRef → TypeRef → Prop
  | refl (t : TypeRef) : s.ExpandsIn 0 t t
  | step {n : Nat} {t u w : TypeRef} (first : s.Expands t u) (rest : s.ExpandsIn n u w) :
    s.ExpandsIn (n + 1) t w

/-- The head is an alias. -/
def IsAliased (s : Schema) (t : TypeRef) : Prop := ∃ u, s.Expands t u

/-- The head is something a guard consumes where `params` are declared: a primitive, a parameter, a
container, or a type that is no alias with as many arguments as it takes. -/
inductive EndsAt (s : Schema) (params : List String) : TypeRef → Prop
  | primitive (p : Primitive) : s.EndsAt params (.primitive p)
  | parameter {name : String} (declared : name ∈ params) : s.EndsAt params (.parameter name)
  | sequence (element : TypeRef) : s.EndsAt params (.sequence element)
  | map (value : TypeRef) : s.EndsAt params (.map value)
  | tuple (elements : List TypeRef) : s.EndsAt params (.tuple elements)
  | named {d : Definition} (hd : d ∈ s.types) (other : ∀ a, d ≠ .alias a) (arity : d.params = []) :
    s.EndsAt params (.named d.name)
  | generic {d : Definition} {args : List TypeRef} (hd : d ∈ s.types) (other : ∀ a, d ≠ .alias a)
    (arity : d.params.length = args.length) : s.EndsAt params (.generic d.name args)
  | nullable {t : TypeRef} (head : s.EndsAt params t) : s.EndsAt params (.nullable t)

/-- Resolution reports the alias as cyclic. -/
def ReportsCycle (s : Schema) (a : Alias) : Prop :=
  ∃ errors, s.resolve = .error errors ∧ .cyclicAlias a.name ∈ errors

variable {s : Schema}

private theorem alias?_eq_some_iff (distinct : (s.types.map Definition.name).Nodup) {name : String}
    {a : Alias} : s.alias? name = some a ↔ .alias a ∈ s.types ∧ a.name = name := by
  have hfind : s.find? name = some (.alias a) ↔ .alias a ∈ s.types ∧ a.name = name :=
    find?_eq_some_iff distinct
  rw [← hfind, alias?]
  split
  · next b hb => simp [hb]
  · next hother =>
    refine iff_of_false (by simp) fun h => hother a h

private theorem expands_iff (distinct : (s.types.map Definition.name).Nodup) {t u : TypeRef} :
    s.Expands t u ↔ ∃ name args a, t.core.target? = some (name, args) ∧ s.alias? name = some a ∧
      u = a.target.substitute a.params args := by
  constructor
  · intro h
    induction h with
    | nullable step ih => exact ih
    | named ha =>
      exact ⟨_, [], _, rfl, (alias?_eq_some_iff distinct).mpr ⟨ha, rfl⟩,
        (TypeRef.substitute_nil _ _).symm⟩
    | generic ha args => exact ⟨_, args, _, rfl, (alias?_eq_some_iff distinct).mpr ⟨ha, rfl⟩, rfl⟩
  · rintro ⟨name, args, a, htarget, halias, rfl⟩
    obtain ⟨ha, rfl⟩ := (alias?_eq_some_iff distinct).mp halias
    induction t with
    | nullable inner ih => exact .nullable (ih htarget)
    | named name =>
      obtain ⟨rfl, rfl⟩ : name = a.name ∧ [] = args := by
        simpa [TypeRef.core, TypeRef.target?] using htarget
      rw [TypeRef.substitute_nil]
      exact .named ha
    | generic name inner =>
      obtain ⟨rfl, rfl⟩ : name = a.name ∧ inner = args := by
        simpa [TypeRef.core, TypeRef.target?] using htarget
      exact .generic ha inner
    | _ => cases htarget

/-- There is one way to go on. -/
theorem Expands.unique (distinct : (s.types.map Definition.name).Nodup) {t u w : TypeRef}
    (hu : s.Expands t u) (hw : s.Expands t w) : u = w := by
  obtain ⟨name, args, a, htarget, ha, rfl⟩ := (expands_iff distinct).mp hu
  obtain ⟨name', args', b, htarget', hb, rfl⟩ := (expands_iff distinct).mp hw
  obtain ⟨rfl, rfl⟩ := Prod.mk.inj (Option.some.inj (htarget.symm.trans htarget'))
  rw [Option.some.inj (ha.symm.trans hb)]

theorem ExpandsIn.unique (distinct : (s.types.map Definition.name).Nodup) {n : Nat}
    {t u w : TypeRef} (hu : s.ExpandsIn n t u) (hw : s.ExpandsIn n t w) : u = w := by
  induction hu with
  | refl => cases hw; rfl
  | step first _ ih =>
    cases hw with
    | step first' rest' => exact ih (first.unique distinct first' ▸ rest')

theorem ExpandsIn.trans {m n : Nat} {t u w : TypeRef} (h : s.ExpandsIn m t u)
    (h' : s.ExpandsIn n u w) : s.ExpandsIn (m + n) t w := by
  induction h with
  | refl => rwa [Nat.zero_add]
  | step first _ ih => exact Nat.succ_add _ _ ▸ .step first (ih h')

private theorem ExpandsIn.exists_isAliased {m n : Nat} {t w : TypeRef} (h : s.ExpandsIn n t w)
    (hm : m < n) : ∃ u, s.ExpandsIn m t u ∧ s.IsAliased u := by
  induction m generalizing n t with
  | zero =>
    cases h with
    | refl => omega
    | step first _ => exact ⟨t, .refl t, _, first⟩
  | succ m ih =>
    cases h with
    | refl => omega
    | step first rest =>
      obtain ⟨u, hsteps, halias⟩ := ih rest (by omega)
      exact ⟨u, .step first hsteps, halias⟩

private theorem expandsTo_of_not_isAliased (distinct : (s.types.map Definition.name).Nodup)
    {target : String} {steps : Nat} {t : TypeRef} (h : ¬ s.IsAliased t) :
    s.expandsTo target steps t = false := by
  unfold expandsTo
  split
  · rfl
  · next name args htarget =>
    split
    · rfl
    · next a ha =>
      exact absurd ⟨_, (expands_iff distinct).mpr ⟨name, args, a, htarget, ha, rfl⟩⟩ h

private theorem expandsTo_of_expands (distinct : (s.types.map Definition.name).Nodup)
    {target : String} {t u : TypeRef} (h : s.Expands t u) :
    (∃ args, t.core.target? = some (target, args)) ∧ (∀ steps, s.expandsTo target steps t = true) ∨
      s.expandsTo target 0 t = true ∧
        ∀ steps, s.expandsTo target (steps + 1) t = s.expandsTo target steps u := by
  obtain ⟨name, args, a, htarget, ha, rfl⟩ := (expands_iff distinct).mp h
  by_cases hname : name = target
  · refine .inl ⟨⟨args, hname ▸ htarget⟩, fun steps => ?_⟩
    rw [expandsTo]
    simp only [htarget, ha, if_pos hname]
  · refine .inr ⟨?_, fun steps => ?_⟩
    · simp [expandsTo, htarget, ha]
    · rw [expandsTo]
      simp only [htarget, ha, if_neg hname]

private theorem exists_expandsIn_of_expandsTo (distinct : (s.types.map Definition.name).Nodup)
    {target : String} {steps : Nat} {t : TypeRef} (h : s.expandsTo target steps t) :
    (∃ u, s.ExpandsIn steps t u ∧ s.IsAliased u) ∨
      ∃ n u args, s.ExpandsIn n t u ∧ u.core.target? = some (target, args) := by
  have haliased : ∀ {steps t}, s.expandsTo target steps t → s.IsAliased t := fun h =>
    Classical.byContradiction fun hnot => by simp [expandsTo_of_not_isAliased distinct hnot] at h
  induction steps generalizing t with
  | zero => exact .inl ⟨t, .refl t, haliased h⟩
  | succ steps ih =>
    obtain ⟨u, hu⟩ := haliased h
    obtain ⟨⟨args, htarget⟩, _⟩ | ⟨_, hnext⟩ := expandsTo_of_expands distinct hu
    · exact .inr ⟨0, t, args, .refl t, htarget⟩
    · obtain ⟨w, hw, halias⟩ | ⟨n, w, args, hw, htarget⟩ := ih (hnext steps ▸ h)
      · exact .inl ⟨w, .step hu hw, halias⟩
      · exact .inr ⟨n + 1, w, args, .step hu hw, htarget⟩

private theorem exists_end_of_expandsTo (distinct : (s.types.map Definition.name).Nodup)
    {target : String} {steps : Nat} {t : TypeRef} (h : s.expandsTo target steps t = false) :
    ∃ n ≤ steps, ∃ u, s.ExpandsIn n t u ∧ ¬ s.IsAliased u := by
  induction steps generalizing t with
  | zero =>
    refine ⟨0, Nat.le_refl 0, t, .refl t, fun ⟨u, hu⟩ => ?_⟩
    obtain ⟨_, hmet⟩ | ⟨hspent, _⟩ := expandsTo_of_expands distinct hu
    · exact Bool.false_ne_true (h.symm.trans (hmet 0))
    · exact Bool.false_ne_true (h.symm.trans hspent)
  | succ steps ih =>
    by_cases halias : s.IsAliased t
    · obtain ⟨u, hu⟩ := halias
      obtain ⟨_, hmet⟩ | ⟨_, hnext⟩ := expandsTo_of_expands distinct hu
      · exact absurd (h.symm.trans (hmet _)) Bool.false_ne_true
      · obtain ⟨n, hn, w, hw, hend⟩ := ih (hnext steps ▸ h)
        exact ⟨n + 1, Nat.succ_le_succ hn, w, .step hu hw, hend⟩
    · exact ⟨0, Nat.zero_le _, t, .refl t, halias⟩

/-- References are legal with the parameters of their definition declared, and names differ. This is
what resolution has found out when it looks for cycles. -/
structure IsLegal (s : Schema) : Prop where
  distinct : (s.types.map Definition.name).Nodup
  references : ∀ d ∈ s.types, ∀ t ∈ d.references, t.IsLegal s d.params

/-- With a primitive in the place of every parameter the reference is legal where nothing is
declared. Unlike legality this survives expansion: the argument of an alias may name a type that the
alias calls a parameter. -/
def Closes (s : Schema) (params : List String) (t : TypeRef) : Prop :=
  (t.substitute params (params.map fun _ => .primitive .number)).IsLegal s []

private theorem IsLegal.params_length (l : s.IsLegal) {d : Definition} (hd : d ∈ s.types)
    {scope : List String} {found : Nat} (h : s.Names scope d.name found) :
    d.params.length = found := by
  obtain ⟨_, e, he, hname, hlength⟩ := h
  exact List.inj_on_of_nodup_map l.distinct he hd hname ▸ hlength

variable {params : List String} {t u : TypeRef}

private theorem closes_of_isLegal (h : t.IsLegal s params) : s.Closes params t :=
  h.substitute (by simp) (by simp [TypeRef.IsLegal, TypeRef.nodes, Legal])

private theorem Expands.isLegal (l : s.IsLegal) (h : s.Expands t u) (ht : t.IsLegal s []) :
    u.IsLegal s [] := by
  have htarget : ∀ {a : Alias}, .alias a ∈ s.types → a.target.IsLegal s a.params := fun ha =>
    l.references _ ha _ (by simp [Definition.references])
  induction h with
  | nullable step ih => exact ih ht.nullable
  | named ha =>
    have hparams := List.eq_nil_of_length_eq_zero (l.params_length ha ht.named)
    exact hparams ▸ htarget ha
  | generic ha args =>
    obtain ⟨hname, hargs⟩ := ht.generic
    exact (htarget ha).substitute (l.params_length ha hname) hargs

private theorem Expands.substitute (l : s.IsLegal) (h : s.Expands t u) (ht : s.Closes params t)
    (params' : List String) (args' : List TypeRef) :
    s.Expands (t.substitute params' args') (u.substitute params' args') := by
  have htarget : ∀ {a : Alias}, .alias a ∈ s.types → a.target.IsLegal s a.params := fun ha =>
    l.references _ ha _ (by simp [Definition.references])
  induction h with
  | nullable step ih => exact .nullable (ih ht.nullable)
  | @named a ha =>
    have hparams := List.eq_nil_of_length_eq_zero (l.params_length ha ht.named)
    have hclosed := (hparams ▸ htarget ha : a.target.IsLegal s []).mentionsParameter
    rw [TypeRef.substitute_closed hclosed]
    exact .named ha
  | @generic a ha args =>
    have hlength : a.params.length = args.length := by
      simpa [TypeRef.substituteAll_eq_map, Definition.params] using
        l.params_length ha ht.generic.1
    rw [TypeRef.substitute_substitute _ _ fun name hname =>
      TypeRef.isSome_argument? hlength ((htarget ha) _ hname)]
    simp only [TypeRef.substitute, TypeRef.substituteAll_eq_map]
    exact .generic ha _

private theorem Expands.closes (l : s.IsLegal) (h : s.Expands t u) (ht : s.Closes params t) :
    s.Closes params u :=
  (h.substitute l ht params _).isLegal l ht

private theorem ExpandsIn.closes (l : s.IsLegal) {n : Nat} (h : s.ExpandsIn n t u)
    (ht : s.Closes params t) : s.Closes params u := by
  induction h with
  | refl => exact ht
  | step first _ ih => exact ih (first.closes l ht)

private theorem ExpandsIn.substitute (l : s.IsLegal) {n : Nat} (h : s.ExpandsIn n t u)
    (ht : s.Closes params t) (params' : List String) (args' : List TypeRef) :
    s.ExpandsIn n (t.substitute params' args') (u.substitute params' args') := by
  induction h with
  | refl => exact .refl _
  | step first _ ih =>
    exact .step (first.substitute l ht params' args') (ih (first.closes l ht))

private theorem Closes.isAliased_or_endsAt (ht : s.Closes params t) :
    s.IsAliased t ∨ s.EndsAt params t := by
  have hnamed : ∀ {name found}, s.Names [] name found →
      (∃ a : Alias, .alias a ∈ s.types ∧ a.name = name) ∨
        ∃ d ∈ s.types, (∀ a, d ≠ .alias a) ∧ d.name = name ∧ d.params.length = found := by
    rintro name found ⟨_, d, hd, hname, hlength⟩
    by_cases halias : ∃ a, d = .alias a
    · obtain ⟨a, rfl⟩ := halias
      exact .inl ⟨a, hd, hname⟩
    · exact .inr ⟨d, hd, fun a ha => halias ⟨a, ha⟩, hname, hlength⟩
  induction t with
  | primitive p => exact .inr (.primitive p)
  | named name =>
    obtain ⟨a, ha, rfl⟩ | ⟨d, hd, hother, rfl, hlength⟩ := hnamed ht.named
    · exact .inl ⟨_, .named ha⟩
    · exact .inr (.named hd hother (List.eq_nil_of_length_eq_zero hlength))
  | generic name args _ =>
    obtain ⟨a, ha, rfl⟩ | ⟨d, hd, hother, rfl, hlength⟩ := hnamed ht.generic.1
    · exact .inl ⟨_, .generic ha args⟩
    · exact .inr (.generic hd hother (by simpa [TypeRef.substituteAll_eq_map] using hlength))
  | sequence element _ => exact .inr (.sequence element)
  | parameter name =>
    -- A name that is no parameter of the alias would be left over by every substitution.
    refine .inr (.parameter (Classical.byContradiction fun hname => ?_))
    have hnone : TypeRef.argument? params (params.map fun _ => .primitive .number) name = none := by
      rw [TypeRef.argument?, List.idxOf?_eq_none_iff.mpr hname]
    have hlegal : (TypeRef.parameter name).IsLegal s [] := by
      rwa [Closes, TypeRef.substitute, hnone] at ht
    exact absurd hlegal.parameter List.not_mem_nil
  | map value _ => exact .inr (.map value)
  | tuple elements _ => exact .inr (.tuple elements)
  | nullable inner ih =>
    obtain ⟨u, hu⟩ | hend := ih ht.nullable
    · exact .inl ⟨u, .nullable hu⟩
    · exact .inr (.nullable hend)

private theorem EndsAt.not_isAliased (distinct : (s.types.map Definition.name).Nodup)
    (h : s.EndsAt params t) : ¬ s.IsAliased t := by
  have hne : ∀ {d : Definition} {a : Alias}, d ∈ s.types → (∀ a, d ≠ .alias a) →
      .alias a ∈ s.types → d.name ≠ a.name := by
    intro d a hd hother ha hname
    exact hother a (List.inj_on_of_nodup_map distinct hd ha hname)
  rintro ⟨u, hu⟩
  induction hu with
  | nullable step ih => cases h with | nullable head => exact ih head
  | named ha =>
    generalize hname : TypeRef.named _ = t at h
    cases h with
    | named hd hother _ => exact hne hd hother ha (TypeRef.named.inj hname).symm
    | _ => cases hname
  | generic ha args =>
    generalize hname : TypeRef.generic _ _ = t at h
    cases h with
    | generic hd hother _ => exact hne hd hother ha (TypeRef.generic.inj hname).1.symm
    | _ => cases hname

private theorem Closes.names (ht : s.Closes params t) {name : String} {args : List TypeRef}
    (htarget : t.core.target? = some (name, args)) : s.Names [] name args.length := by
  induction t with
  | nullable inner ih => exact ih ht.nullable htarget
  | named n =>
    obtain ⟨rfl, rfl⟩ : n = name ∧ [] = args := by
      simpa [TypeRef.core, TypeRef.target?] using htarget
    exact ht.named
  | generic n inner _ =>
    obtain ⟨rfl, rfl⟩ : n = name ∧ inner = args := by
      simpa [TypeRef.core, TypeRef.target?] using htarget
    simpa [TypeRef.substituteAll_eq_map] using ht.generic.1
  | _ => cases htarget

private theorem exists_expandsIn_of_meets (l : s.IsLegal) {a : Alias} (ha : .alias a ∈ s.types)
    {n : Nat} (h : s.ExpandsIn n a.target u) {args : List TypeRef}
    (hmeets : u.core.target? = some (a.name, args)) (k : Nat) :
    ∃ args', s.ExpandsIn (k * (n + 1)) a.target (a.target.substitute a.params args') := by
  have hlegal : a.target.IsLegal s a.params :=
    l.references _ ha _ (by simp [Definition.references])
  have hcloses : s.Closes a.params a.target := closes_of_isLegal hlegal
  have hlength : a.params.length = args.length :=
    l.params_length ha ((h.closes l hcloses).names hmeets)
  have hstep : s.Expands u (a.target.substitute a.params args) :=
    (expands_iff l.distinct).mpr
      ⟨a.name, args, a, hmeets, (alias?_eq_some_iff l.distinct).mpr ⟨ha, rfl⟩, rfl⟩
  have hround : s.ExpandsIn (n + 1) a.target (a.target.substitute a.params args) :=
    h.trans (.step hstep (.refl _))
  -- Each round begins at the target with the arguments that the round before ended with.
  induction k with
  | zero => exact ⟨[], by rw [Nat.zero_mul, TypeRef.substitute_nil]; exact .refl _⟩
  | succ k ih =>
    obtain ⟨args', hk⟩ := ih
    have hnext := hround.substitute l hcloses a.params args'
    rw [TypeRef.substitute_substitute _ _ fun name hname =>
      TypeRef.isSome_argument? hlength (hlegal _ hname)] at hnext
    exact ⟨_, Nat.succ_mul k (n + 1) ▸ hk.trans hnext⟩

private theorem endless_of_meets (l : s.IsLegal) {a : Alias} (ha : .alias a ∈ s.types) {n : Nat}
    (h : s.ExpandsIn n a.target u) {args : List TypeRef}
    (hmeets : u.core.target? = some (a.name, args)) (m : Nat) :
    ∃ w, s.ExpandsIn m a.target w ∧ s.IsAliased w := by
  obtain ⟨args', hrounds⟩ := exists_expandsIn_of_meets l ha h hmeets (m + 1)
  exact hrounds.exists_isAliased (Nat.lt_of_lt_of_le (Nat.lt_succ_self m)
    (Nat.le_mul_of_pos_right (m + 1) (Nat.succ_pos n)))

private theorem violation?_ne_cyclicAlias (o : Occurrence) (name : String) :
    s.violation? o ≠ some (.cyclicAlias name) := by
  have htarget : ∀ site scope target found,
      s.targetViolation? site scope target found ≠ some (.cyclicAlias name) := by
    intro site scope target found
    unfold targetViolation?
    split
    · simp
    · split
      · simp
      · split <;> simp
  unfold violation?
  split
  · split <;> simp
  · split
    · next listing _ _ _ => cases listing <;> simp [Listing.repeated]
    · simp
  · split <;> simp
  · exact htarget _ _ _ _
  · exact htarget _ _ _ _
  · simp

private theorem resolve_eq_error_iff {errors : List SchemaError} :
    s.resolve = .error errors ↔ s.errors ≠ [] ∧ s.errors = errors := by
  unfold resolve
  split
  · next h => simp [h]
  · next h => simp [h]

private theorem violations_eq_nil_of_only (only : ∀ errors, s.resolve = .error errors →
    ∀ e ∈ errors, ∃ name, e = .cyclicAlias name) : s.violations = [] := by
  by_contra hsome
  have herrors : s.errors = s.violations := by rw [errors_eq, if_neg hsome]
  obtain ⟨e, he⟩ := List.exists_mem_of_ne_nil _ hsome
  obtain ⟨name, rfl⟩ := only _ (resolve_eq_error_iff.mpr ⟨herrors ▸ hsome, herrors⟩) e he
  obtain ⟨o, _, ho⟩ := List.mem_filterMap.mp he
  exact violation?_ne_cyclicAlias o name ho

private theorem reportsCycle_iff (hviolations : s.violations = []) (l : s.IsLegal) {a : Alias}
    (ha : .alias a ∈ s.types) : s.ReportsCycle a ↔ s.isCyclic a := by
  have herrors : s.errors = s.cyclicAliases := by rw [errors_eq, if_pos hviolations]
  have hmem : .cyclicAlias a.name ∈ s.cyclicAliases ↔ s.isCyclic a := by
    rw [cyclicAliases, List.mem_filterMap]
    constructor
    · rintro ⟨d, hd, herror⟩
      cases d with
      | «alias» b =>
        by_cases hb : s.isCyclic b
        · have hname : b.name = a.name := by simpa [hb] using herror
          exact Definition.alias.inj (List.inj_on_of_nodup_map l.distinct hd ha hname) ▸ hb
        · simp [hb] at herror
      | _ => cases herror
    · intro h
      exact ⟨.alias a, ha, by simp [h]⟩
  rw [← hmem, ← herrors]
  constructor
  · rintro ⟨errors, hresolve, hmem⟩
    exact (resolve_eq_error_iff.mp hresolve).2 ▸ hmem
  · intro h
    exact ⟨s.errors, resolve_eq_error_iff.mpr ⟨List.ne_nil_of_mem h, rfl⟩, h⟩

/-- Resolution reports an alias as cyclic just when its head is an alias still after all steps of
the expansion. An expansion that meets its alias with whatever arguments never ends, so stopping
there rejects none that does; and an alias is not reported just when its expansion ends within the
steps at what a guard consumes. -/
theorem reportsCycle_iff_endless
    (only : ∀ errors, s.resolve = .error errors → ∀ e ∈ errors, ∃ name, e = .cyclicAlias name)
    {a : Alias} (ha : .alias a ∈ s.types) :
    (s.ReportsCycle a ↔ ∃ u, s.ExpandsIn expansionLimit a.target u ∧ s.IsAliased u) ∧
      (∀ n u args, s.ExpandsIn n a.target u → u.core.target? = some (a.name, args) →
        ∀ m, ∃ w, s.ExpandsIn m a.target w ∧ s.IsAliased w) ∧
      (¬ s.ReportsCycle a ↔
        ∃ n ≤ expansionLimit, ∃ u, s.ExpandsIn n a.target u ∧ s.EndsAt a.params u) := by
  have hviolations := violations_eq_nil_of_only only
  have l : s.IsLegal := ⟨(legal_of_violations hviolations).1, (legal_of_violations hviolations).2⟩
  have hcloses : s.Closes a.params a.target :=
    closes_of_isLegal (l.references _ ha _ (by simp [Definition.references]))
  have hmeets : ∀ n u args, s.ExpandsIn n a.target u → u.core.target? = some (a.name, args) →
      ∀ m, ∃ w, s.ExpandsIn m a.target w ∧ s.IsAliased w :=
    fun n u args hu htarget => endless_of_meets l ha hu htarget
  -- An end within the steps and an alias after all of them exclude each other.
  have hexclude : ∀ {n u w}, n ≤ expansionLimit → s.ExpandsIn n a.target u → ¬ s.IsAliased u →
      s.ExpandsIn expansionLimit a.target w → ¬ s.IsAliased w := by
    rintro n u w hn hu hend hw ⟨w', hw'⟩
    obtain ⟨u', hu', halias⟩ :=
      (hw.trans (.step hw' (.refl _))).exists_isAliased (Nat.lt_succ_of_le hn)
    exact hend (hu.unique l.distinct hu' ▸ halias)
  have hlasts : s.isCyclic a ↔ ∃ u, s.ExpandsIn expansionLimit a.target u ∧ s.IsAliased u := by
    constructor
    · intro h
      obtain hlasts | ⟨n, u, args, hu, htarget⟩ := exists_expandsIn_of_expandsTo l.distinct h
      · exact hlasts
      · exact hmeets n u args hu htarget expansionLimit
    · rintro ⟨w, hw, halias⟩
      by_contra hnot
      obtain ⟨n, hn, u, hu, hend⟩ :=
        exists_end_of_expandsTo l.distinct (Bool.eq_false_iff.mpr hnot)
      exact hexclude hn hu hend hw halias
  have hreports := reportsCycle_iff hviolations l ha
  refine ⟨hreports.trans hlasts, hmeets, ?_, ?_⟩
  · intro h
    obtain ⟨n, hn, u, hu, hend⟩ :=
      exists_end_of_expandsTo l.distinct (Bool.eq_false_iff.mpr fun hc => h (hreports.mpr hc))
    exact ⟨n, hn, u, hu, (hu.closes l hcloses).isAliased_or_endsAt.resolve_left hend⟩
  · rintro ⟨n, hn, u, hu, hend⟩ h
    obtain ⟨w, hw, halias⟩ := hlasts.mp (hreports.mp h)
    exact hexclude hn hu (hend.not_isAliased l.distinct) hw halias

/-- An alias that comes back to itself through one that returns its parameter, and one that comes
through it to a list. -/
def knots : Schema where
  types := [
    .alias ⟨"Itself", ["T"], .nullable (.parameter "T")⟩,
    .alias ⟨"Knot", [], .generic "Itself" [.nullable (.generic "Itself" [.named "Knot"])]⟩,
    .alias ⟨"Row", [], .generic "Itself" [.sequence (.named "Knot")]⟩]

theorem reportsCycle_iff_endless_knots :
    knots.resolve = .error [.cyclicAlias "Knot"] ∧
      (∀ m, ∃ w, knots.ExpandsIn m (.generic "Itself" [.nullable (.generic "Itself"
        [.named "Knot"])]) w ∧ knots.IsAliased w) ∧
      ∃ n ≤ expansionLimit, ∃ u, knots.ExpandsIn n (.generic "Itself" [.sequence (.named "Knot")]) u
        ∧ knots.EndsAt [] u := by
  have hresolve : knots.resolve = .error [.cyclicAlias "Knot"] :=
    resolve_eq_error_iff.mpr ⟨by decide, by decide⟩
  have only : ∀ errors, knots.resolve = .error errors →
      ∀ e ∈ errors, ∃ name, e = .cyclicAlias name := by
    intro errors h e he
    obtain rfl := Except.error.inj (hresolve.symm.trans h)
    exact ⟨"Knot", by simpa using he⟩
  have hknot := reportsCycle_iff_endless only (s := knots) (a := ⟨"Knot", [], _⟩)
    (List.mem_cons_of_mem _ List.mem_cons_self)
  have hrow := reportsCycle_iff_endless only (s := knots) (a := ⟨"Row", [], _⟩)
    (List.mem_cons_of_mem _ (List.mem_cons_of_mem _ List.mem_cons_self))
  have hitself : .alias ⟨"Itself", ["T"], .nullable (.parameter "T")⟩ ∈ knots.types :=
    List.mem_cons_self
  refine ⟨hresolve, ?_, ?_⟩
  · refine hknot.2.1 2 (.nullable (.named "Knot")) [] ?_ rfl
    exact .step (.generic hitself _) (.step (.nullable (.nullable (.generic hitself _))) (.refl _))
  · refine hrow.2.2.mp ?_
    rintro ⟨errors, h, hmem⟩
    obtain rfl := Except.error.inj (hresolve.symm.trans h)
    revert hmem
    decide

end Schema

end SchemaGuard
