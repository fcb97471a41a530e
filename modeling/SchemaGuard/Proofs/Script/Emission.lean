import Mathlib.Data.List.Nodup
import Mathlib.Data.List.Range
import SchemaGuard.Proofs.Resolution.Legal
import SchemaGuard.Proofs.Script.Shape
import SchemaGuard.Proofs.Script.Spelling

/-!
Emission gives guards their shape. What is emitted early is looked at when all of the definition,
and in the end all of the schema, has been emitted, so every step is described by what holds
wherever at least the instantiations found so far are bound. Emission keeps the instantiations
distinct, names each afresh, and binds the constants after those that their initial values read.
-/

set_option autoImplicit false
set_option relaxedAutoImplicit false

namespace SchemaGuard

namespace Script

theorem toString_injective {m n : Nat} (h : toString m = toString n) : m = n := by
  have hdigits : Nat.toDigits 10 m = Nat.toDigits 10 n := by
    simpa using congrArg String.toList h
  have hnumbers := congrArg (Nat.ofDigitChars 10 · 0) hdigits
  simpa using hnumbers

private theorem nodup_candidates (base : String) (count : Nat) :
    (base :: (List.range count).map fun n => base ++ "_" ++ toString (n + 2)).Nodup := by
  refine List.nodup_cons.mpr ⟨fun hmem => ?_, List.Nodup.map (fun m n h => ?_) List.nodup_range⟩
  · obtain ⟨n, _, hn⟩ := List.mem_map.mp hmem
    have hlength := congrArg String.length hn
    simp only [String.length_append] at hlength
    have : "_".length = 1 := rfl
    omega
  · have hnumbers : toString (m + 2) = toString (n + 2) := by
      simpa [← String.toList_inj] using h
    have := toString_injective hnumbers
    omega

/-- There are more candidates for a name than names taken, so one of them is free. -/
theorem unused_spec (taken : List String) (base : String) :
    unused taken base ∉ taken ∧
      ∃ suffix, Identifier.IsEnding suffix ∧ unused taken base = base ++ suffix := by
  let candidates := base :: (List.range taken.length).map fun n => base ++ "_" ++ toString (n + 2)
  have hfind : (candidates.find? fun name => !taken.contains name).isSome := by
    by_contra hnone
    have hall : candidates ⊆ taken := fun name hname => by
      simpa using List.find?_eq_none.mp (Option.not_isSome_iff_eq_none.mp hnone) name hname
    -- There is one candidate more than there are names taken.
    have := ((nodup_candidates base taken.length).subperm hall).length_le
    simp at this
  obtain ⟨name, hname⟩ := Option.isSome_iff_exists.mp hfind
  have hunused : unused taken base = name := by
    change (candidates.find? _).getD base = name
    rw [hname, Option.getD_some]
  rw [hunused]
  refine ⟨by simpa using List.find?_some hname, ?_⟩
  rcases List.mem_cons.mp (List.mem_of_find?_eq_some hname) with rfl | hmem
  · exact ⟨"", .inl rfl, by simp⟩
  · obtain ⟨n, _, rfl⟩ := List.mem_map.mp hmem
    exact ⟨"_" ++ toString (n + 2), Identifier.isEnding_number _, by rw [String.append_assoc]⟩

/-- The name is the guard prefix alone, or goes on as identifiers do. -/
def IsSpelled (options : Options) (name : String) : Prop :=
  ∃ text, Identifier.IsEnding text ∧ name = options.guardName text

/-- What holds at every place of a list with one more item holds at those of the list and at the
last one. -/
theorem forall_split_concat {α : Type} {P : List α → α → Prop} {xs : List α} {x : α} :
    (∀ before y after, xs ++ [x] = before ++ y :: after → P before y) ↔
      (∀ before y after, xs = before ++ y :: after → P before y) ∧ P xs x := by
  constructor
  · intro h
    exact ⟨fun before y after heq => h before y (after ++ [x]) (by simp [heq]), h xs x [] rfl⟩
  · rintro ⟨hall, hlast⟩ before y after heq
    rcases List.eq_nil_or_concat after with rfl | ⟨after, last, rfl⟩
    · obtain ⟨rfl, rfl⟩ : xs = before ∧ x = y := by simpa using List.append_inj' heq rfl
      exact hlast
    · have happend : xs ++ [x] = (before ++ y :: after) ++ [last] := heq.trans (by simp)
      exact hall before y after (List.append_inj' happend rfl).1

/-- The initial value of a constant applies the factory of its site to checkers that read only the
constants before it. -/
def IsConstant (schema : Schema) (options : Options) (before : List Binding) (b : Binding) : Prop :=
  ∃ name args d es, b.site = .generic name args ∧ args ≠ [] ∧
    TypeRef.anyMentionsParameter args = false ∧ schema.generic? name args = some d ∧
    b.init = .call (.name (options.factoryName d.name)) es ∧
    AreCheckers ⟨schema, options, Scope.empty⟩ before [] args es

namespace Emission

/-- The names of all instantiations, those of the factory that is being emitted included. -/
def names (s : Emission) : List String := (s.constants ++ s.lazies.getD []).map Binding.name

def Within (s : Emission) (constants lazies : List Binding) : Prop :=
  s.constants ⊆ constants ∧ s.lazies.getD [] ⊆ lazies

/-- Nothing that has been emitted is lost. -/
structure Grows (s s' : Emission) : Prop where
  constants : s.constants ⊆ s'.constants
  lazies : s.lazies.getD [] ⊆ s'.lazies.getD []
  factory : s'.lazies.isSome = s.lazies.isSome

/-- What emission keeps true of its state, `others` being names that something else has. -/
structure Valid (c : Context) (others : List String) (s : Emission) : Prop where
  taken : others ++ s.names ⊆ s.taken
  distinct : s.names.Nodup
  unlike : ∀ name ∈ s.names, name ∉ others
  spelled : ∀ name ∈ s.names, IsSpelled c.options name
  parameters : s.lazies = none → c.scope.params = []
  constants : ∀ before b after, s.constants = before ++ b :: after →
    IsConstant c.schema c.options before b
  constantSites : ∀ b ∈ s.constants, b.site.IsLegal c.schema []
  lazySites : ∀ b ∈ s.lazies.getD [], b.site.IsLegal c.schema c.scope.params

variable {s s' s'' : Emission}

theorem Grows.refl (s : Emission) : s.Grows s := ⟨fun _ h => h, fun _ h => h, rfl⟩

theorem Grows.trans (h : s.Grows s') (h' : s'.Grows s'') : s.Grows s'' :=
  ⟨fun _ hb => h'.constants (h.constants hb), fun _ hb => h'.lazies (h.lazies hb),
    h'.factory.trans h.factory⟩

private theorem Within.of_grows {constants lazies : List Binding} (h : s'.Within constants lazies)
    (hgrows : s.Grows s') : s.Within constants lazies :=
  ⟨fun _ hb => h.1 (hgrows.constants hb), fun _ hb => h.2 (hgrows.lazies hb)⟩

end Emission

/-- Run where the instantiations bound make `assumed` true, the step keeps the state valid, and its
result is as said wherever the instantiations that there are then are bound. -/
def Emits (c : Context) (others : List String) {α : Type}
    (assumed : List Binding → List Binding → Prop) (step : Emit α)
    (result : List Binding → List Binding → α → Prop) : Prop :=
  ∀ s : Emission, s.Valid c others → (∀ K L, s.Within K L → assumed K L) →
    (step s).2.Valid c others ∧ s.Grows (step s).2 ∧
      ∀ K L, (step s).2.Within K L → result K L (step s).1

namespace Emits

variable {c : Context} {others : List String} {α β : Type}
  {assumed more : List Binding → List Binding → Prop}
  {result : List Binding → List Binding → α → Prop}

private theorem pure {a : α} (h : ∀ K L, assumed K L → result K L a) :
    Emits c others assumed (Pure.pure a) result :=
  fun s hs hassumed => ⟨hs, .refl s, fun K L hwithin => h K L (hassumed K L hwithin)⟩

private theorem bind {step : Emit α} {next : α → Emit β}
    {result' : List Binding → List Binding → β → Prop} (h : Emits c others assumed step result)
    (hnext : ∀ a, Emits c others (fun K L => assumed K L ∧ result K L a) (next a) result') :
    Emits c others assumed (step >>= next) result' := by
  intro s hs hassumed
  obtain ⟨hvalid, hgrows, hresult⟩ := h s hs hassumed
  obtain ⟨hvalid', hgrows', hresult'⟩ := hnext (step s).1 (step s).2 hvalid fun K L hwithin =>
    ⟨hassumed K L (hwithin.of_grows hgrows), hresult K L hwithin⟩
  exact ⟨hvalid', hgrows.trans hgrows', hresult'⟩

private theorem giving {step : Emit α} {result' : List Binding → List Binding → α → Prop}
    (h : Emits c others assumed step result)
    (hresult : ∀ K L a, assumed K L → result K L a → result' K L a) :
    Emits c others assumed step result' := by
  intro s hs hassumed
  obtain ⟨hvalid, hgrows, h⟩ := h s hs hassumed
  exact ⟨hvalid, hgrows, fun K L hwithin =>
    hresult K L _ (hassumed K L (hwithin.of_grows hgrows)) (h K L hwithin)⟩

private theorem assuming {step : Emit α} (h : Emits c others assumed step result)
    (hmore : ∀ K L, more K L → assumed K L) : Emits c others more step result :=
  fun s hs hassumed => h s hs fun K L hwithin => hmore K L (hassumed K L hwithin)

end Emits

section

variable {c : Context} {others : List String} {assumed : List Binding → List Binding → Prop}

private theorem emits_freshVariable :
    Emits c others assumed freshVariable fun _ _ x => IsVariable x := by
  intro s hs _
  refine ⟨⟨hs.taken, hs.distinct, hs.unlike, hs.spelled, hs.parameters, hs.constants,
    hs.constantSites, hs.lazySites⟩, ⟨fun _ h => h, fun _ h => h, rfl⟩, fun _ _ _ => ?_⟩
  exact ⟨s.used + 1, rfl⟩

private theorem Emission.Valid.insert {s s' : Emission} (hs : s.Valid c others) {name : String}
    (hfree : name ∉ s.taken) (hspelled : IsSpelled c.options name)
    (htaken : s'.taken = name :: s.taken) (hnames : s'.names.Perm (name :: s.names))
    (hlazies : s'.lazies = none → s.lazies = none)
    (hconstants : ∀ before b after, s'.constants = before ++ b :: after →
      IsConstant c.schema c.options before b)
    (hconstantSites : ∀ b ∈ s'.constants, b.site.IsLegal c.schema [])
    (hlazySites : ∀ b ∈ s'.lazies.getD [], b.site.IsLegal c.schema c.scope.params) :
    s'.Valid c others where
  taken := by
    intro other hother
    rw [htaken]
    rcases List.mem_append.mp hother with h | h
    · exact List.mem_cons_of_mem _ (hs.taken (List.mem_append_left _ h))
    · rcases List.mem_cons.mp (hnames.mem_iff.mp h) with rfl | h
      · exact List.mem_cons_self
      · exact List.mem_cons_of_mem _ (hs.taken (List.mem_append_right _ h))
  distinct := hnames.nodup_iff.mpr
    (List.nodup_cons.mpr ⟨fun h => hfree (hs.taken (List.mem_append_right _ h)), hs.distinct⟩)
  unlike := by
    intro other hother hmem
    rcases List.mem_cons.mp (hnames.mem_iff.mp hother) with rfl | h
    · exact hfree (hs.taken (List.mem_append_left _ hmem))
    · exact hs.unlike other h hmem
  spelled := by
    intro other hother
    rcases List.mem_cons.mp (hnames.mem_iff.mp hother) with rfl | h
    · exact hspelled
    · exact hs.spelled other h
  parameters h := hs.parameters (hlazies h)
  constants := hconstants
  constantSites := hconstantSites
  lazySites := hlazySites

namespace Emission

def newBinding (s : Emission) (options : Options) (site : TypeRef) (init : Expr) : Binding :=
  ⟨site, unused s.taken (options.guardName (word site.display)), init⟩

def withConstant (s : Emission) (b : Binding) : Emission :=
  { s with taken := b.name :: s.taken, constants := s.constants ++ [b] }

def withLazy (s : Emission) (b : Binding) : Emission :=
  { s with taken := b.name :: s.taken, lazies := some (s.lazies.getD [] ++ [b]) }

private theorem Grows.withConstant (s : Emission) (b : Binding) : s.Grows (s.withConstant b) :=
  ⟨fun _ h => List.mem_append_left _ h, fun _ h => h, rfl⟩

private theorem Grows.withLazy {s : Emission} {lazies : List Binding}
    (hlazies : s.lazies = some lazies) (b : Binding) : s.Grows (s.withLazy b) :=
  ⟨fun _ h => h, fun _ h => List.mem_append_left _ h, by simp [Emission.withLazy, hlazies]⟩

private theorem newBinding_spec (s : Emission) {site : TypeRef}
    (hsite : Identifier.IsEnding (word site.display)) (init : Expr) :
    (s.newBinding c.options site init).name ∉ s.taken ∧
      IsSpelled c.options (s.newBinding c.options site init).name := by
  obtain ⟨hfree, suffix, hsuffix, hname⟩ :=
    unused_spec s.taken (c.options.guardName (word site.display))
  refine ⟨hfree, word site.display ++ suffix, hsite.append hsuffix, ?_⟩
  rw [Options.guardName, ← String.append_assoc]
  exact hname

private theorem Valid.withConstant {s : Emission} (hs : s.Valid c others) {b : Binding}
    (hname : b.name ∉ s.taken ∧ IsSpelled c.options b.name)
    (hb : IsConstant c.schema c.options s.constants b) (hlegal : b.site.IsLegal c.schema []) :
    (s.withConstant b).Valid c others := by
  refine hs.insert hname.1 hname.2 rfl ?_ id ?_ ?_ hs.lazySites
  · simp only [names, Emission.withConstant, List.append_assoc, List.map_append, List.map_cons,
      List.singleton_append]
    exact List.perm_middle
  · exact forall_split_concat.mpr ⟨hs.constants, hb⟩
  · exact List.forall_mem_append.mpr ⟨hs.constantSites, by simpa using hlegal⟩

private theorem Valid.withLazy {s : Emission} (hs : s.Valid c others) {b : Binding}
    (hname : b.name ∉ s.taken ∧ IsSpelled c.options b.name)
    (hlegal : b.site.IsLegal c.schema c.scope.params) : (s.withLazy b).Valid c others := by
  refine hs.insert hname.1 hname.2 rfl ?_ (by simp [Emission.withLazy]) hs.constants
    hs.constantSites ?_
  · simp only [names, Emission.withLazy, Option.getD_some, ← List.append_assoc, List.map_append,
      List.map_cons, List.map_nil]
    exact List.perm_append_singleton _ _
  · exact List.forall_mem_append.mpr ⟨hs.lazySites, by simpa using hlegal⟩

end Emission

theorem bound?_eq_some {bindings : List Binding} {site : TypeRef} {name : String}
    (h : bound? bindings site = some name) : ∃ b ∈ bindings, b.site = site ∧ b.name = name := by
  obtain ⟨b, hb, rfl⟩ := Option.map_eq_some_iff.mp h
  exact ⟨b, List.mem_of_find?_eq_some hb, by simpa using List.find?_some hb, rfl⟩

theorem bound?_eq_none {bindings : List Binding} {site : TypeRef}
    (h : bound? bindings site = none) : ∀ b ∈ bindings, b.site ≠ site := by
  simpa [bound?, List.find?_eq_none] using h

/-- What an instantiation comes to: the guard around it, a constant or a variable that is there for
its use site, or a new one. -/
inductive Instantiates (c : Context) (name : String) (args : List TypeRef) (init : Expr)
    (s : Emission) : Expr × Emission → Prop
  | self : c.scope.owner = some name → c.scope.isIdentity args →
    Instantiates c name args init s (.name selfName, s)
  | constant {b : Binding} : TypeRef.anyMentionsParameter args = false → b ∈ s.constants →
    b.site = .generic name args → Instantiates c name args init s (.name b.name, s)
  | newConstant {b : Binding} : TypeRef.anyMentionsParameter args = false →
    (∀ b ∈ s.constants, b.site ≠ .generic name args) →
    b = s.newBinding c.options (.generic name args) init →
    Instantiates c name args init s (.name b.name, s.withConstant b)
  | lazy {lazies : List Binding} {b : Binding} : TypeRef.anyMentionsParameter args = true →
    s.lazies = some lazies → b ∈ lazies → b.site = .generic name args →
    Instantiates c name args init s (.parens (.fill b.name init), s)
  | newLazy {lazies : List Binding} {b : Binding} : TypeRef.anyMentionsParameter args = true →
    s.lazies = some lazies → (∀ b ∈ lazies, b.site ≠ .generic name args) →
    b = s.newBinding c.options (.generic name args) init →
    Instantiates c name args init s (.parens (.fill b.name init), s.withLazy b)

section

variable {name : String} {args : List TypeRef} {es : List Expr} {inst : Instantiation}

private theorem run_get {α : Type} (f : Emission → Emit α) (s : Emission) :
    (get >>= f : Emit α) s = f s s := rfl

private theorem instantiates_constant (hclosed : TypeRef.anyMentionsParameter args = false)
    (hsite : inst.site = .generic name args) (init : Expr) (s : Emission) :
    Instantiates c name args init s (instantiate.constant c.options inst s init s) := by
  cases hbound : bound? s.constants inst.site with
  | some found =>
    obtain ⟨b, hb, hbsite, rfl⟩ := bound?_eq_some hbound
    simp only [instantiate.constant, hbound]
    exact .constant hclosed hb (hbsite.trans hsite)
  | none =>
    let b := s.newBinding c.options inst.site init
    have hstep :
        instantiate.constant c.options inst s init s = (.name b.name, s.withConstant b) := by
      simp only [instantiate.constant, hbound]
      rfl
    rw [hstep]
    exact .newConstant hclosed (hsite ▸ bound?_eq_none hbound) (hsite ▸ rfl)

private theorem instantiates_lazy (hopen : TypeRef.anyMentionsParameter args = true)
    (hsite : inst.site = .generic name args) (hrecursive : inst.recursive = false)
    (hconcrete : inst.concrete = false) {s : Emission} {lazies : List Binding}
    (hlazies : s.lazies = some lazies) :
    Instantiates c name args (.call (.name (c.options.factoryName inst.definition.name)) es) s
      (instantiate c.options inst es s) := by
  cases hbound : bound? lazies inst.site with
  | some found =>
    obtain ⟨b, hb, hbsite, rfl⟩ := bound?_eq_some hbound
    simp only [instantiate, hrecursive, Bool.false_eq_true, if_false, run_get, hlazies, hconcrete,
      hbound]
    exact .lazy hopen hlazies hb (hbsite.trans hsite)
  | none =>
    let init := Expr.call (.name (c.options.factoryName inst.definition.name)) es
    let b := s.newBinding c.options inst.site init
    have hstep : instantiate c.options inst es s = (.parens (.fill b.name init), s.withLazy b) := by
      simp only [instantiate, hrecursive, Bool.false_eq_true, if_false, run_get, hlazies, hconcrete,
        hbound, Emission.withLazy, Option.getD_some]
      rfl
    rw [hstep]
    exact .newLazy hopen hlazies (hsite ▸ bound?_eq_none hbound) (hsite ▸ rfl)

theorem instantiate_cases (hinst : c.schema.instantiation? c.scope name args = some inst)
    (es : List Expr) (hlegal : ∀ t ∈ args, t.IsLegal c.schema c.scope.params) {s : Emission}
    (hparams : s.lazies = none → c.scope.params = []) :
    Instantiates c name args (.call (.name (c.options.factoryName inst.definition.name)) es) s
      (instantiate c.options inst es s) := by
  obtain ⟨hsite, hconcrete, hrecursive⟩ : inst.site = .generic name args ∧
      inst.concrete = !TypeRef.anyMentionsParameter args ∧
      inst.recursive = (c.scope.owner == some name && c.scope.isIdentity args) := by
    obtain ⟨d, _, rfl⟩ := Option.map_eq_some_iff.mp hinst
    exact ⟨rfl, rfl, rfl⟩
  cases hself : inst.recursive with
  | true =>
    obtain ⟨howner, hidentity⟩ := Bool.and_eq_true_iff.mp (hrecursive ▸ hself)
    simp only [instantiate, hself, if_true]
    exact .self (by simpa using howner) hidentity
  | false =>
    cases hargs : TypeRef.anyMentionsParameter args with
    | false =>
      have h := instantiates_constant (c := c) hargs hsite
        (.call (.name (c.options.factoryName inst.definition.name)) es) s
      rw [hargs] at hconcrete
      cases hlazies : s.lazies <;>
        simpa [instantiate, hself, run_get, hlazies, hconcrete] using h
    | true =>
      cases hlazies : s.lazies with
      | none =>
        -- No parameter is declared outside factories.
        have hnone : TypeRef.anyMentionsParameter args = false := by
          rw [TypeRef.anyMentionsParameter_eq_any, List.any_eq_false]
          intro t ht
          have := (hparams hlazies ▸ hlegal t ht).mentionsParameter
          simp [this]
        rw [hnone] at hargs
        cases hargs
      | some lazies =>
        exact instantiates_lazy hargs hsite hself (by simp [hconcrete, hargs]) hlazies

private theorem emits_instantiate (w : c.schema.WellFormed) (hargs : args ≠ [])
    (hinst : c.schema.instantiation? c.scope name args = some inst)
    (hlegal : (TypeRef.generic name args).IsLegal c.schema c.scope.params) :
    Emits c others (fun K L => AreCheckers c K L args es) (instantiate c.options inst es)
      fun K L e => IsChecker c K L (.generic name args) e := by
  intro s hs hes
  obtain ⟨d, hd, rfl⟩ := Option.map_eq_some_iff.mp hinst
  have hname : Identifier.isPlain name = true := by
    have hfind := (Schema.generic?_eq_some.mp hd).1
    obtain ⟨hmem, rfl⟩ := (Schema.find?_eq_some_iff w.types_nodup).mp hfind
    exact Identifier.isPlain_of_isUsable (w.typeNames d hmem)
  have hnew := s.newBinding_spec (c := c) (isEnding_site hname args)
    (.call (.name (c.options.factoryName d.name)) es)
  have hcases := instantiate_cases hinst es hlegal.generic.2 hs.parameters
  generalize instantiate c.options _ es s = r at hcases ⊢
  cases hcases with
  | self howner hidentity => exact ⟨hs, .refl s, fun K L _ => .self hargs howner hidentity⟩
  | constant hclosed hb hsite =>
    exact ⟨hs, .refl s, fun K L hwithin => .constant hargs hclosed (hwithin.1 hb) hsite⟩
  | @newConstant b hclosed _ hb =>
    have hinit : AreCheckers ⟨c.schema, c.options, Scope.empty⟩ s.constants [] args es :=
      (hes s.constants (s.lazies.getD []) ⟨fun _ h => h, fun _ h => h⟩).closed hclosed
    refine ⟨hs.withConstant (hb ▸ hnew) ?_ ?_, .withConstant s b, fun K L hwithin => ?_⟩
    · exact ⟨name, args, d, es, by rw [hb]; rfl, hargs, hclosed, hd, by rw [hb]; rfl, hinit⟩
    · exact hb ▸ hlegal.closed hclosed
    · exact .constant hargs hclosed (hwithin.1 (by simp [Emission.withConstant])) (by rw [hb]; rfl)
  | lazy hopen hlazies hb hsite =>
    exact ⟨hs, .refl s, fun K L hwithin => .fill hopen hd (hwithin.2 (by simpa [hlazies] using hb))
      hsite (hes K L hwithin)⟩
  | @newLazy lazies b hopen hlazies _ hb =>
    have hgrows := Emission.Grows.withLazy hlazies b
    refine ⟨hs.withLazy (hb ▸ hnew) (hb ▸ hlegal), hgrows, fun K L hwithin => ?_⟩
    exact .fill hopen hd (hwithin.2 (by simp [Emission.withLazy])) (by rw [hb]; rfl)
      (hes K L (hwithin.of_grows hgrows))

end

end

/-- A condition on a subject, or without one a checker. -/
private def IsReference (c : Context) (constants lazies : List Binding) (t : TypeRef) :
    Option Expr → Expr → Prop
  | some subject, e => IsCondition c constants lazies t subject e
  | none, e => IsChecker c constants lazies t e

section

variable {c : Context} {others : List String} {assumed : List Binding → List Binding → Prop}

private theorem IsChecker.applied {K L : List Binding} {t : TypeRef} {check : Expr}
    (h : IsChecker c K L t check) (hstructural : t.isStructural = false) (subject : Option Expr) :
    IsReference c K L t subject (applied subject check) := by
  cases subject with
  | none => exact h
  | some e => exact .checker hstructural h

private theorem emits_onSubject {t : TypeRef} (hstructural : t.isStructural)
    {condition : Expr → Emit Expr}
    (h : ∀ e, Emits c others assumed (condition e) fun K L body => IsCondition c K L t e body)
    (subject : Option Expr) : Emits c others assumed (onSubject t subject condition)
      fun K L e => IsReference c K L t subject e := by
  cases subject with
  | some e => exact h e
  | none =>
    refine .bind emits_freshVariable fun x => .bind ((h (.name x)).assuming fun K L h => h.1)
      fun body => .pure fun K L h => ?_
    exact .function hstructural h.1.2 h.2

private theorem emits_arguments {ts : List TypeRef}
    (h : ∀ t ∈ ts, Emits c others (fun _ _ => True) (reference c t none)
      fun K L e => IsChecker c K L t e) :
    Emits c others (fun _ _ => True) (arguments c ts) fun K L es => AreCheckers c K L ts es := by
  induction ts with
  | nil =>
    rw [arguments]
    exact .pure fun K L _ => .nil
  | cons t ts ih =>
    rw [arguments]
    have htail := ih fun t' ht' => h t' (List.mem_cons_of_mem _ ht')
    refine .bind (h t List.mem_cons_self) fun e => .bind (htail.assuming fun _ _ _ => trivial)
      fun es => .pure fun K L h => .cons h.1.2 h.2

private theorem emits_tuple {e : Expr} {ts : List TypeRef}
    (h : ∀ t ∈ ts, ∀ subject, Emits c others (fun _ _ => True) (reference c t (some subject))
      fun K L condition => IsCondition c K L t subject condition) (i : Nat) (found : Expr) :
    Emits c others (fun _ _ => True) (tuple c e i found ts)
      fun K L body => IsTuple c K L e i found ts body := by
  induction ts generalizing i found with
  | nil =>
    rw [tuple]
    exact .pure fun K L _ => .nil
  | cons t ts ih =>
    rw [tuple]
    refine .bind (h t List.mem_cons_self _) fun condition => ?_
    have htail := ih (fun t' ht' => h t' (List.mem_cons_of_mem _ ht')) (i + 1)
      (.both found condition)
    exact (htail.assuming fun _ _ _ => trivial).giving fun K L body h hbody => .cons h.2 hbody

private theorem emits_reference (w : c.schema.WellFormed) (t : TypeRef)
    (legal : t.IsLegal c.schema c.scope.params) (subject : Option Expr) :
    Emits c others (fun _ _ => True) (reference c t subject)
      fun K L e => IsReference c K L t subject e := by
  -- A name stands for the same guard alone and as a generic name without arguments.
  have monomorphic : ∀ (name : String) (t : TypeRef), t.target? = some (name, []) →
      t.isStructural = false → c.schema.Names c.scope.params name 0 →
      ∀ K L subject, IsReference c K L t subject (applied subject (c.monomorphic name)) := by
    intro name t htarget hstructural hnames K L subject
    obtain ⟨d, hd⟩ := hnames.monomorphic? w
    rw [Context.monomorphic, hd]
    exact (IsChecker.monomorphic htarget hd).applied hstructural subject
  induction t generalizing subject with
  | primitive p =>
    cases subject with
    | none =>
      rw [reference]
      exact .pure fun K L _ => .primitive
    | some e =>
      cases p with
      | bytes =>
        rw [reference]
        exact .pure fun K L _ => .checker rfl .primitive
      | _ =>
        rw [reference]
        · exact .pure fun K L _ => .primitive (by simp)
        · simp
  | named name =>
    rw [reference]
    exact .pure fun K L _ => monomorphic name _ rfl rfl legal.named K L subject
  | generic name args ih =>
    obtain ⟨hnames, hargs⟩ := legal.generic
    cases args with
    | nil =>
      rw [reference]
      exact .pure fun K L _ => monomorphic name _ rfl rfl hnames K L subject
    | cons t ts =>
      obtain ⟨d, hd⟩ := hnames.generic? w
      have hinst : ∃ inst, c.schema.instantiation? c.scope name (t :: ts) = some inst := by
        rw [Schema.instantiation?, hd]
        exact ⟨_, rfl⟩
      obtain ⟨inst, hinst⟩ := hinst
      rw [reference, hinst]
      have hchecker := fun t' ht' => ih t' ht' (hargs t' ht') none
      have htail : Emits c others (fun _ _ => True) (arguments c ts)
          fun K L es => AreCheckers c K L ts es :=
        emits_arguments fun t' ht' => hchecker t' (List.mem_cons_of_mem _ ht')
      refine .bind (hchecker t List.mem_cons_self) fun arg =>
        .bind (htail.assuming fun _ _ _ => trivial) fun es => ?_
      have hinstantiate : Emits c others (fun K L => AreCheckers c K L (t :: ts) (arg :: es))
          (instantiate c.options inst (arg :: es)) fun K L e => IsChecker c K L _ e :=
        emits_instantiate w (List.cons_ne_nil t ts) hinst legal
      exact .bind (hinstantiate.assuming fun K L h => .cons h.1.2 h.2) fun check =>
        .pure fun K L h => h.2.applied rfl subject
  | sequence inner ih =>
    rw [reference]
    refine emits_onSubject rfl (fun e => .bind emits_freshVariable fun x =>
      .bind ((ih legal.sequence (some (.name x))).assuming fun _ _ _ => trivial) fun body =>
        .pure fun K L h => ?_) subject
    exact .sequence h.1.2 h.2
  | parameter name =>
    obtain ⟨i, hi⟩ : ∃ i, c.scope.index? name = some i := by
      rw [← Option.isSome_iff_exists, Scope.index?, List.isSome_idxOf?]
      exact legal.parameter
    rw [reference, hi]
    exact .pure fun K L _ => (IsChecker.parameter hi).applied rfl subject
  | map inner ih =>
    rw [reference]
    refine emits_onSubject rfl (fun e => .bind emits_freshVariable fun x =>
      .bind ((ih legal.map (some (.name x))).assuming fun _ _ _ => trivial) fun body =>
        .pure fun K L h => ?_) subject
    exact .map h.1.2 h.2
  | tuple elements ih =>
    rw [reference]
    have htuple := fun e => emits_tuple (e := e) fun t ht subject =>
      ih t ht (legal.tuple t ht) (some subject)
    exact emits_onSubject rfl (fun e => (htuple e 0 _).giving fun K L body _ h => .tuple h) subject
  | nullable inner ih =>
    rw [reference]
    refine emits_onSubject rfl (fun e => .bind (ih legal.nullable (some e)) fun body =>
      .pure fun K L h => ?_) subject
    exact .nullable h.2

end

section

variable {c : Context} {others : List String}

private theorem emits_fieldChecks (w : c.schema.WellFormed) (e : Expr) {fields : List Field}
    (legal : ∀ f ∈ fields, f.type.IsLegal c.schema c.scope.params) :
    Emits c others (fun _ _ => True) (fieldChecks c e fields)
      fun K L checks => List.Forall₂ (IsFieldCheck c K L e) fields checks := by
  induction fields with
  | nil =>
    rw [fieldChecks]
    exact .pure fun K L _ => .nil
  | cons f rest ih =>
    rw [fieldChecks]
    have hrest := ih fun f' hf' => legal f' (List.mem_cons_of_mem _ hf')
    refine .bind (emits_reference w f.type (legal f List.mem_cons_self) _) fun condition =>
      .bind (hrest.assuming fun _ _ _ => trivial) fun checks => .pure fun K L h => ?_
    exact .cons ⟨condition, h.1.2, rfl⟩ h.2

private theorem emits_objectBody (w : c.schema.WellFormed) (x : String) {fields : List Field}
    (legal : ∀ f ∈ fields, f.type.IsLegal c.schema c.scope.params) :
    Emits c others (fun _ _ => True) (objectBody c x fields)
      fun K L body => IsObjectBody c K L x fields body :=
  .bind (emits_fieldChecks w (.name x) legal) fun checks => .pure fun _ _ h => ⟨checks, h.2, rfl⟩

private theorem emits_caseBodies (w : c.schema.WellFormed) {variants : List Variant}
    (legal : ∀ v ∈ variants, ∀ f ∈ v.fields, f.type.IsLegal c.schema c.scope.params) :
    Emits c others (fun _ _ => True) (caseBodies c variants) fun K L cases =>
      List.Forall₂ (fun v case => case.1 = v.tag ∧ IsObjectBody c K L payloadKey v.fields case.2)
        variants cases := by
  induction variants with
  | nil =>
    rw [caseBodies]
    exact .pure fun K L _ => .nil
  | cons v rest ih =>
    rw [caseBodies]
    have hrest := ih fun v' hv' => legal v' (List.mem_cons_of_mem _ hv')
    refine .bind (emits_objectBody w payloadKey (legal v List.mem_cons_self)) fun body =>
      .bind (hrest.assuming fun _ _ _ => trivial) fun cases => .pure fun K L h => ?_
    exact .cons ⟨rfl, h.1.2⟩ h.2

theorem emits_definitionBody (w : c.schema.WellFormed) {d : Definition}
    (legal : ∀ t ∈ d.references, t.IsLegal c.schema c.scope.params) :
    Emits c others (fun _ _ => True) (definitionBody c d) fun K L body => IsBody c K L d body := by
  cases d with
  | struct d =>
    have hfields := Definition.forall_references_struct.mp legal
    exact (emits_objectBody w subjectName hfields).giving fun K L body _ h => .struct h
  | union d =>
    have hvariants := Definition.forall_references_union.mp legal
    exact .bind (emits_caseBodies w hvariants) fun cases => .pure fun K L h => .union h.2
  | enum d => exact .pure fun _ _ _ => .enum
  | «alias» d =>
    have htarget := legal d.target (by simp [Definition.references])
    exact .bind (emits_reference w d.target htarget (some (.name subjectName))) fun condition =>
      .pure fun K L h => .alias h.2

end

end Script

end SchemaGuard
