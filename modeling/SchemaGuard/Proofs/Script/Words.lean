import SchemaGuard.Proofs.Script.Literals
import SchemaGuard.Proofs.Script.Names

/-!
The names and types that emitted guards are written with. They are made of the guard prefix, of
names that resolution lets pass, and of the marks of types, so a quote or a line feed stands in one
only if it stands in the prefix.
-/

set_option autoImplicit false
set_option relaxedAutoImplicit false

namespace SchemaGuard

open Text (Within within_append)
open Script (HoldsInLines)

variable {P : Char → Prop}

private theorem Script.HoldsInLines.within_isPart (hP : HoldsInLines P) {text : String}
    (h : ∀ c ∈ text.toList, Identifier.isPart c = true) : Within P text :=
  hP.within ⟨fun hmem => absurd (h _ hmem) (by decide), fun hmem => absurd (h _ hmem) (by decide)⟩

theorem Script.HoldsInLines.within_isUsable (hP : HoldsInLines P) {name : String}
    (h : Identifier.isUsable name = true) : Within P name :=
  hP.within_isPart (Identifier.isPart_of_isPlain (Identifier.isPlain_of_isUsable h))

namespace TypeRef

section

variable (t u : TypeRef) (ts : List TypeRef)

theorem spelling_generic (name : String) :
    (generic name (t :: ts)).spelling = name ++ "<" ++ spellings (t :: ts) ++ ">" := rfl

theorem spelling_sequence_nullable :
    (sequence (nullable t)).spelling = "(" ++ t.spelling ++ " | null)[]" := rfl

theorem spelling_map : (map t).spelling = "\x7b [key: string]: " ++ t.spelling ++ " \x7d" := rfl

theorem spelling_tuple : (tuple ts).spelling = "[" ++ spellings ts ++ "]" := rfl

theorem spelling_nullable : (nullable t).spelling = t.spelling ++ " | null" := rfl

theorem spellings_cons : spellings (t :: u :: ts) = t.spelling ++ ", " ++ spellings (u :: ts) := rfl

end

variable (hP : HoldsInLines P)

include hP

private theorem within_spelling_sequence {inner : TypeRef} (h : Within P inner.spelling) :
    Within P (sequence inner).spelling := by
  cases inner with
  | nullable t =>
    have ht : Within P t.spelling := (within_append.mp (spelling_nullable t ▸ h)).1
    simp (disch := decide) only [spelling_sequence_nullable, within_append, ht, hP.within, and_self]
  | _ => exact within_append.mpr ⟨h, hP.within (by decide)⟩

private theorem within_spellings {ts : List TypeRef} (h : ∀ t ∈ ts, Within P t.spelling) :
    Within P (spellings ts) := by
  induction ts with
  | nil => exact hP.within (by decide)
  | cons t ts ih =>
    obtain ⟨ht, hts⟩ := List.forall_mem_cons.mp h
    cases ts with
    | nil => exact ht
    | cons u us =>
      simp (disch := decide) only [spellings_cons, within_append, ht, ih hts, hP.within, and_self]

private theorem within_spelling {s : Schema} (w : s.WellFormed) {params : List String}
    (hparams : ∀ p ∈ params, Within P p) {t : TypeRef} (legal : t.IsLegal s params) :
    Within P t.spelling := by
  have names : ∀ {name : String} {n : Nat}, s.Names params name n → Within P name := by
    rintro _ _ ⟨_, d, hd, rfl, _⟩
    exact hP.within_isUsable (w.typeNames d hd)
  induction t with
  | primitive p => cases p <;> exact hP.within (by decide)
  | named name => exact names legal.named
  | generic name args ih =>
    obtain ⟨hname, hargs⟩ := legal.generic
    have hspellings := within_spellings hP fun t ht => ih t ht (hargs t ht)
    cases args with
    | nil => exact names hname
    | cons t ts =>
      simp (disch := decide) only [spelling_generic, within_append, names hname, hspellings,
        hP.within, and_self]
  | sequence inner ih => exact within_spelling_sequence hP (ih legal.sequence)
  | parameter name => exact hparams name legal.parameter
  | map inner ih =>
    simp (disch := decide) only [spelling_map, within_append, ih legal.map, hP.within, and_self]
  | tuple elements ih =>
    have hspellings := within_spellings hP fun t ht => ih t ht (legal.tuple t ht)
    simp (disch := decide) only [spelling_tuple, within_append, hspellings, hP.within, and_self]
  | nullable inner ih =>
    simp (disch := decide) only [spelling_nullable, within_append, ih legal.nullable, hP.within,
      and_self]

end TypeRef

namespace Script

section

variable {c : Context} {constants lazies : List Binding} {params : List String}

private theorem IsVariable.within (hP : HoldsInLines P) {x : String} (h : IsVariable x) :
    Within P x := by
  obtain ⟨n, rfl⟩ := h
  exact within_append.mpr ⟨hP.within (by decide), hP.within_number n⟩

/-- The names that guards are made of are as `P` says, and so are the parameters that the types in
them may mention. -/
structure Context.NamesWithin (P : Char → Prop) (c : Context) (constants lazies : List Binding)
    (params : List String) : Prop where
  inLines : HoldsInLines P
  schema : c.schema.WellFormed
  given : Within P c.options.guardPrefix
  scope : ∀ p ∈ c.scope.params, Within P p
  params : ∀ p ∈ params, Within P p
  bindings : ∀ b ∈ constants ++ lazies, Within P b.name

private theorem Context.NamesWithin.guardName (h : c.NamesWithin P constants lazies params)
    {type : String} (htype : Within P type) : AllWithin P (c.guardName type).words := by
  simpa [Context.guardName, Options.guardName, Expr.words] using ⟨h.given, htype⟩

private theorem Context.NamesWithin.isRecord (h : c.NamesWithin P constants lazies params)
    {e : Expr} (he : AllWithin P e.words) : AllWithin P (c.isRecord e).words := by
  have hrecord : Within P "record" := h.inLines.within (by decide)
  simp [Context.isRecord, Expr.words, Expr.allWords, h.guardName hrecord, he]

private theorem Context.NamesWithin.factoryName (h : c.NamesWithin P constants lazies params)
    {d : Definition} (hd : d ∈ c.schema.types) : Within P (c.options.factoryName d.name) := by
  have hname := h.inLines.within_isUsable (h.schema.typeNames d hd)
  simp (disch := decide) only [Options.factoryName, within_append, h.given, hname, h.inLines.within,
    and_self]

mutual
private theorem IsChecker.words (h : c.NamesWithin P constants lazies params) {t : TypeRef}
    {e : Expr} :
    IsChecker c constants lazies t e → t.IsLegal c.schema params → AllWithin P e.words
  | .primitive (p := p), _ => h.guardName (by cases p <;> exact h.inLines.within (by decide))
  | .parameter hi, _ => by
    have hparam := h.scope _ (List.isSome_idxOf?.mp (Option.isSome_of_eq_some hi))
    simpa [Expr.words, checkerName] using ⟨h.inLines.within (by decide), hparam⟩
  | .monomorphic _ hd, _ => by
    have hmem := Schema.mem_of_find? (Schema.monomorphic?_eq_some.mp hd).1
    exact h.guardName (h.inLines.within_isUsable (h.schema.typeNames _ hmem))
  | .self .., _ => by
    have hself : Within P selfName := h.inLines.within (by decide)
    simpa [Expr.words] using hself
  | .constant _ _ hb _, _ => by
    simpa [Expr.words] using h.bindings _ (List.mem_append_left _ hb)
  | .fill _ hd hb _ hes, legal => by
    have hfactory := h.factoryName (Schema.mem_of_find? (Schema.generic?_eq_some.mp hd).1)
    have hname := h.bindings _ (List.mem_append_right _ hb)
    have hwords := hes.words h legal.generic.2
    simp [Expr.words, hname, hfactory, hwords]
  | .function _ hx hbody, legal => by
    have hspelling := TypeRef.within_spelling h.inLines h.schema h.params legal
    have hvariable := hx.within h.inLines
    have hwords := hbody.words h legal (by simpa [Expr.words] using hvariable)
    simp [Expr.words, ArrowType.words, hvariable, hspelling, hwords]

private theorem AreCheckers.words (h : c.NamesWithin P constants lazies params) {ts : List TypeRef}
    {es : List Expr} : AreCheckers c constants lazies ts es →
    (∀ t ∈ ts, t.IsLegal c.schema params) → AllWithin P (Expr.allWords es)
  | .nil, _ => by simp [Expr.allWords]
  | .cons he hes, legal => by
    obtain ⟨ht, hts⟩ := List.forall_mem_cons.mp legal
    simp [Expr.allWords, he.words h ht, hes.words h hts]

private theorem IsCondition.words (h : c.NamesWithin P constants lazies params) {t : TypeRef}
    {e condition : Expr} : IsCondition c constants lazies t e condition →
    t.IsLegal c.schema params → AllWithin P e.words → AllWithin P condition.words
  | .primitive _, _, he => by simpa [Expr.equals, Expr.words] using he
  | .checker _ hcheck, legal, he => by
    simp [Expr.words, Expr.allWords, hcheck.words h legal, he]
  | .sequence hx hbody, legal, he => by
    have hvariable := hx.within h.inLines
    have hwords := hbody.words h legal.sequence (by simpa [Expr.words] using hvariable)
    simp (disch := decide) [Expr.isArray, Expr.every, Expr.words, Expr.allWords, ArrowType.words,
      he, hvariable, hwords, h.inLines.within]
  | .map hx hbody, legal, he => by
    have hvariable := hx.within h.inLines
    have hwords := hbody.words h legal.map (by simpa [Expr.words] using hvariable)
    simp (disch := decide) [Expr.valuesOf, Expr.every, Expr.words, Expr.allWords, ArrowType.words,
      he, hvariable, hwords, h.isRecord he, h.inLines.within]
  | .tuple hbody, legal, he => by
    refine hbody.words h legal.tuple he ?_
    simp (disch := decide) [Expr.isArray, Expr.equals, Expr.words, Expr.allWords, he,
      h.inLines.within]
  | .nullable hbody, legal, he => by
    simp [Expr.equals, Expr.words, he, hbody.words h legal.nullable he]

private theorem IsTuple.words (h : c.NamesWithin P constants lazies params) {e found body : Expr}
    {i : Nat} {ts : List TypeRef} : IsTuple c constants lazies e i found ts body →
    (∀ t ∈ ts, t.IsLegal c.schema params) → AllWithin P e.words → AllWithin P found.words →
    AllWithin P body.words
  | .nil, _, _, hfound => hfound
  | .cons hcondition hbody, legal, he, hfound => by
    obtain ⟨ht, hts⟩ := List.forall_mem_cons.mp legal
    have hwords := hcondition.words h ht (by simpa [Expr.words] using he)
    exact hbody.words h hts he (by simp [Expr.words, hfound, hwords])
end

private theorem words_any {e : Expr} {es : List Expr} (he : AllWithin P e.words)
    (hes : ∀ f ∈ es, AllWithin P f.words) : AllWithin P (Expr.any e es).words := by
  induction es generalizing e with
  | nil => exact he
  | cons f es ih =>
    obtain ⟨hf, hes⟩ := List.forall_mem_cons.mp hes
    exact ih (allWithin_append.mpr ⟨he, hf⟩) hes

private theorem words_isOneOf {e : Expr} (he : AllWithin P e.words) (names : List String) :
    AllWithin P (e.isOneOf names).words := by
  have hequals : ∀ s : String, AllWithin P (e.equals (.string s)).words := by
    simpa [Expr.equals, Expr.words] using he
  cases names with
  | nil => simp [Expr.isOneOf, Expr.words]
  | cons s rest =>
    exact words_any (hequals s) (List.forall_mem_map.mpr fun s' _ => hequals s')

private theorem words_closedKeys (hP : HoldsInLines P) {e : Expr} (he : AllWithin P e.words)
    (allowed : List String) : AllWithin P (closedKeys e allowed).words := by
  have hkeys : AllWithin P e.keysOf.words := by
    simp (disch := decide) [Expr.keysOf, Expr.words, Expr.allWords, he, hP.within]
  have hkey : AllWithin P (Expr.name "k").words := by
    simp (disch := decide) [Expr.words, hP.within]
  cases allowed with
  | nil => simp (disch := decide) [closedKeys, Stmt.words, Expr.words, hkeys, hP.within]
  | cons s rest =>
    have hone := words_isOneOf hkey (s :: rest)
    simp (disch := decide) [closedKeys, Stmt.words, Expr.every, Expr.words, Expr.allWords,
      ArrowType.words, hkeys, hone, hP.within]

private theorem allWithin_allWords {body : List Stmt} :
    AllWithin P (Stmt.allWords body) ↔ ∀ s ∈ body, AllWithin P s.words := by
  induction body with
  | nil => simp [Stmt.allWords]
  | cons s body ih => rw [Stmt.allWords, allWithin_append, ih, List.forall_mem_cons]

private theorem allWithin_caseWords {cases : List (String × List Stmt)} :
    AllWithin P (Stmt.caseWords cases) ↔ ∀ case ∈ cases, AllWithin P (Stmt.allWords case.2) := by
  induction cases with
  | nil => simp [Stmt.caseWords]
  | cons case cases ih => rw [Stmt.caseWords, allWithin_append, ih, List.forall_mem_cons]

private theorem Context.NamesWithin.recordCheck (h : c.NamesWithin P constants lazies params)
    {e : Expr} (he : AllWithin P e.words) : AllWithin P (recordCheck c e).words := by
  simpa [Script.recordCheck, Stmt.words, Expr.words] using h.isRecord he

private theorem words_shape (hP : HoldsInLines P) (shape : ShapePolicy) {e : Expr}
    (he : AllWithin P e.words) (allowed : List String) :
    AllWithin P (Stmt.allWords (match shape with
      | .closed => [closedKeys e allowed]
      | .opened => [])) := by
  cases shape with
  | closed => simpa [Stmt.allWords] using words_closedKeys hP he allowed
  | opened => simp [Stmt.allWords]

private theorem IsFieldCheck.words (h : c.NamesWithin P constants lazies params) {e : Expr}
    {f : Field}
    {s : Stmt} (hs : IsFieldCheck c constants lazies e f s) (legal : f.type.IsLegal c.schema params)
    (he : AllWithin P e.words) : AllWithin P s.words := by
  obtain ⟨condition, hcondition, rfl⟩ := hs
  have hwords := hcondition.words h legal (by simpa [Expr.words] using he)
  split <;> simp (disch := decide) [Stmt.words, Expr.words, Expr.allWords, Expr.owns, he, hwords,
    h.inLines.within]

private theorem IsObjectBody.words (h : c.NamesWithin P constants lazies params) {x : String}
    {fields : List Field} {body : List Stmt} (hbody : IsObjectBody c constants lazies x fields body)
    (legal : ∀ f ∈ fields, f.type.IsLegal c.schema params) (hx : Within P x) :
    AllWithin P (Stmt.allWords body) := by
  obtain ⟨checks, hchecks, rfl⟩ := hbody
  have he : AllWithin P (Expr.name x).words := by simpa [Expr.words] using hx
  have hshape := words_shape h.inLines c.options.shape he (fields.map Field.name)
  refine allWithin_allWords.mpr (List.forall_mem_append.mpr ⟨List.forall_mem_append.mpr
    ⟨List.forall_mem_cons.mpr ⟨h.recordCheck he, allWithin_allWords.mp hshape⟩, ?_⟩, ?_⟩)
  · intro s hs
    obtain ⟨f, hf, hcheck⟩ := exists_left hchecks.flip hs
    exact IsFieldCheck.words h hcheck (legal f hf) he
  · simp [Stmt.words, Expr.words]

private theorem IsBody.words (h : c.NamesWithin P constants lazies params) {d : Definition}
    {body : List Stmt} (hbody : IsBody c constants lazies d body)
    (legal : ∀ t ∈ d.references, t.IsLegal c.schema params) :
    AllWithin P (Stmt.allWords body) := by
  have hsubject : Within P subjectName := h.inLines.within (by decide)
  have hpayload : Within P payloadKey := h.inLines.within (by decide)
  have he : AllWithin P (Expr.name subjectName).words := by simpa [Expr.words] using hsubject
  cases hbody with
  | struct hbody => exact hbody.words h (Definition.forall_references_struct.mp legal) hsubject
  | @union d cases hcases =>
    have hshape := words_shape h.inLines c.options.shape he [tagKey, payloadKey]
    have hcaseWords : AllWithin P (Stmt.caseWords cases) := by
      refine allWithin_caseWords.mpr fun case hcase => ?_
      obtain ⟨v, hv, _, hbody⟩ := exists_left hcases.flip hcase
      exact hbody.words h (Definition.forall_references_union.mp legal v hv) hpayload
    refine allWithin_allWords.mpr (List.forall_mem_append.mpr
      ⟨List.forall_mem_cons.mpr ⟨h.recordCheck he, allWithin_allWords.mp hshape⟩, ?_⟩)
    simp [Stmt.words, Expr.words, hsubject, hpayload, hcaseWords]
  | enum => simpa [Stmt.allWords, Stmt.words] using words_isOneOf he _
  | «alias» hcondition =>
    have hwords := hcondition.words h (legal _ (by simp [Definition.references])) he
    simpa [Stmt.allWords, Stmt.words] using hwords

end

theorem IsSpelled.within (hP : HoldsInLines P) {options : Options} {x : String}
    (h : IsSpelled options x) (given : Within P options.guardPrefix) : Within P x := by
  obtain ⟨text, htext, rfl⟩ := h
  exact within_append.mpr ⟨given, hP.within_isPart htext.isPart⟩

theorem IsConstant.words {schema : Schema} {options : Options} {before : List Binding} {b : Binding}
    {params : List String} (h : IsConstant schema options before b)
    (hnames : Context.NamesWithin P ⟨schema, options, Scope.empty⟩ before [] params)
    (legal : b.site.IsLegal schema params) : AllWithin P b.init.words := by
  obtain ⟨name, args, d, es, hsite, _, _, hd, hinit, hes⟩ := h
  have hfactory : Within P (options.factoryName d.name) :=
    hnames.factoryName (Schema.mem_of_find? (Schema.generic?_eq_some.mp hd).1)
  have hwords := hes.words hnames (hsite ▸ legal).generic.2
  simp [hinit, Expr.words, hfactory, hwords]

section

variable {schema : Schema} {options : Options} (hP : HoldsInLines P) (w : schema.WellFormed)
  (given : Within P options.guardPrefix)

include hP w given

private theorem IsItem.words {constants : List Binding} {cells : List String} {d : Definition}
    {item : Item} (h : IsItem schema options constants cells d item) (hd : d ∈ schema.types)
    (hconstants : ∀ b ∈ constants, Within P b.name) (hcells : ∀ x ∈ cells, Within P x) :
    AllWithin P item.words := by
  have hname : Within P d.name := hP.within_isUsable (w.typeNames d hd)
  have hparams : ∀ p ∈ d.params, Within P p := fun p hp =>
    hP.within_isUsable (w.paramNames d hd p hp)
  have legal : ∀ t ∈ d.references, t.IsLegal schema d.params := w.references d hd
  have names : ∀ {lazies : List Binding}, lazies.map Binding.name ⊆ cells →
      Context.NamesWithin P ⟨schema, options, Scope.of d⟩ constants lazies d.params := by
    intro lazies hlazies
    refine ⟨hP, w, given, hparams, hparams, fun b hb => ?_⟩
    rcases List.mem_append.mp hb with hb | hb
    · exact hconstants b hb
    · exact hcells b.name (hlazies (List.mem_map_of_mem hb))
  cases h with
  | guard _ hbody =>
    have hwords := hbody.words (names (List.nil_subset _)) legal
    have hguard : Within P (options.guardName d.name) := within_append.mpr ⟨given, hname⟩
    have hspelling : Within P (TypeRef.named d.name).spelling := hname
    simp (disch := decide) [Item.words, Subject.words, subjectName, hguard, hspelling, hwords,
      hP.within]
  | @factory _ lazies _ _ _ hsubset hsites hbody =>
    have hnames := names hsubset
    have hlazies : AllWithin P
        ((lazies.map fun b => (⟨b.name, b.site⟩ : Lazy)).flatMap Lazy.words) := by
      intro x hx
      obtain ⟨l, hl, hx⟩ := List.mem_flatMap.mp hx
      obtain ⟨b, hb, rfl⟩ := List.mem_map.mp hl
      rcases List.mem_pair.mp hx with rfl | rfl
      · exact hnames.bindings b (List.mem_append_right _ hb)
      · exact TypeRef.within_spelling hP w hparams (hsites b hb)
    have hwords := hbody.words hnames legal
    have hfactory := hnames.factoryName hd
    have hlist : AllWithin P d.params := hparams
    simp [Item.words, hfactory, hname, hlist, hlazies, hwords]

omit w in
private theorem words_prelude : ∀ item ∈ prelude options, AllWithin P item.words := by
  have hname : ∀ type ∈ preludeTypes, Within P (options.guardName type) := fun type htype =>
    within_append.mpr ⟨given, hP.within_isPart
      (Identifier.isPart_of_isPlain (isPlain_preludeTypes type htype))⟩
  have hspelling : ∀ p : Primitive, Within P (TypeRef.primitive p).spelling := by
    intro p
    cases p <;> exact hP.within (by decide)
  intro item hitem
  simp only [prelude, List.mem_cons, List.not_mem_nil, or_false] at hitem
  rcases hitem with rfl | rfl | rfl | rfl | rfl <;>
    simp (disch := decide) [Item.words, Subject.words, Stmt.allWords, Stmt.words, Expr.isArray,
      Expr.every, Expr.equals, Expr.words, Expr.allWords, ArrowType.words, hname, hspelling,
      hP.within]

/-- A quote or a line feed stands in a name or a type of the guards only if the prefix has one. -/
theorem words_guardModule : ∀ item ∈ guardModule schema options, AllWithin P item.words := by
  obtain ⟨items, constants, cells, h, heq⟩ := guardModule_eq schema w options
  have hspelled : ∀ x ∈ constants.map Binding.name ++ cells, Within P x := fun x hx =>
    (h.spelled x hx).within hP given
  have hconstants : ∀ b ∈ constants, Within P b.name := fun b hb =>
    hspelled b.name (List.mem_append_left _ (List.mem_map_of_mem hb))
  rw [heq]
  refine List.forall_mem_append.mpr ⟨List.forall_mem_append.mpr ⟨words_prelude hP given, ?_⟩, ?_⟩
  · intro item hitem
    obtain ⟨d, hd, hitem⟩ := exists_left h.items.flip hitem
    exact IsItem.words hP w given hitem hd hconstants fun x hx =>
      hspelled x (List.mem_append_right _ hx)
  · refine List.forall_mem_map.mpr fun b hb => allWithin_cons.mpr ⟨hconstants b hb, ?_⟩
    obtain ⟨before, after, hsplit⟩ := List.append_of_mem hb
    have hbefore : ∀ b' ∈ before ++ [], Within P b'.name := by
      intro b' hb'
      rw [List.append_nil] at hb'
      exact hconstants b' (hsplit ▸ List.mem_append_left _ hb')
    have hnames : Context.NamesWithin P ⟨schema, options, Scope.empty⟩ before [] [] :=
      ⟨hP, w, given, by simp [Scope.empty], by simp, hbefore⟩
    exact (h.inits before b after hsplit).words hnames (h.sites b hb)

end

end Script

end SchemaGuard
