import SchemaGuard.Proofs.Script.Freshness
import SchemaGuard.Proofs.Script.Mentions

/-!
Generated variables never clash. The emission of a definition counts its variables, and whatever a
step of it gives has for its own the numbers that the step has counted. So each of them is bound by
one function in the item where it is, and read in the body of that function only. The same goes for
the initial value of each constant, which is put together from what a few steps in a row give.
-/

set_option autoImplicit false
set_option relaxedAutoImplicit false

namespace SchemaGuard.Script

private theorem not_isVariable_of_head {x : String} (h : x.toList.head? ≠ some 'x') :
    ¬ IsVariable x :=
  fun hx => h hx.head

private theorem not_isVariable_local : ∀ x ∈ Options.locals, ¬ IsVariable x := by
  have hheads : ∀ x ∈ Options.locals, x.toList.head? ≠ some 'x' := by decide
  exact fun x hx => not_isVariable_of_head (hheads x hx)

private theorem not_isVariable_checkerName (param : String) : ¬ IsVariable (checkerName param) :=
  not_isVariable_of_head (by simp [checkerName])

private theorem not_isVariable_factoryName (options : Options) (type : String) :
    ¬ IsVariable (options.factoryName type) :=
  not_isVariable_of_head (by simp [Options.factoryName])

def Options.IsApart (options : Options) : Prop := ∀ text, ¬ IsVariable (options.guardName text)

private theorem isApart_of_default {options : Options}
    (h : options.guardPrefix = ({} : Options).guardPrefix) : Options.IsApart options :=
  fun text => not_isVariable_of_head (by simp [Options.guardName, h])

section

attribute [local simp] Expr.mentions Expr.allMentions

variable {free : List Nat} {e : Expr}

private theorem readsOnly_isArray (h : ReadsOnly free e.mentions) :
    ReadsOnly free e.isArray.mentions := by
  simpa [Expr.isArray] using
    h.read (not_isVariable_local "Array" (by decide))

private theorem readsOnly_keysOf (h : ReadsOnly free e.mentions) :
    ReadsOnly free e.keysOf.mentions := by
  simpa [Expr.keysOf] using
    h.read (not_isVariable_local "Object" (by decide))

private theorem readsOnly_valuesOf (h : ReadsOnly free e.mentions) :
    ReadsOnly free e.valuesOf.mentions := by
  simpa [Expr.valuesOf] using
    h.read (not_isVariable_local "Object" (by decide))

private theorem readsOnly_owns (h : ReadsOnly free e.mentions) (key : String) :
    ReadsOnly free (Expr.owns e (.string key)).mentions := by
  simpa [Expr.owns] using
    h.read (not_isVariable_local "Object" (by decide))

private theorem readsOnly_every {x : String} (hx : ¬ IsVariable x) (type : ArrowType) {body : Expr}
    (h : ReadsOnly free e.mentions) (hbody : ReadsOnly free body.mentions) :
    ReadsOnly free (Expr.every e x type body).mentions := by
  simpa [Expr.every] using h.append (hbody.function hx)

private theorem readsOnly_any {es : List Expr} (h : ReadsOnly free e.mentions)
    (hes : ∀ e ∈ es, ReadsOnly free e.mentions) : ReadsOnly free (Expr.any e es).mentions := by
  induction es generalizing e with
  | nil => exact h
  | cons f fs ih =>
    obtain ⟨hf, hfs⟩ := List.forall_mem_cons.mp hes
    exact ih (h.append hf) hfs

private theorem readsOnly_isOneOf (h : ReadsOnly free e.mentions) (names : List String) :
    ReadsOnly free (Expr.isOneOf e names).mentions := by
  have hequals : ∀ s, ReadsOnly free (Expr.equals e (.string s)).mentions :=
    fun s => h.append .nil
  cases names with
  | nil => exact .nil
  | cons s rest =>
    refine readsOnly_any (hequals s) fun f hf => ?_
    obtain ⟨s', _, rfl⟩ := List.mem_map.mp hf
    exact hequals s'

private theorem readsOnly_never : ReadsOnly free never.mentions :=
  .function (not_isVariable_of_head (by decide)) .nil

private theorem readsOnly_local {x : String} (hx : x ∈ Options.locals) :
    ReadsOnly free (Expr.name x).mentions := .read (not_isVariable_local x hx) .nil

variable {c : Context} (happart : Options.IsApart c.options)

include happart

private theorem readsOnly_guardName (type : String) : ReadsOnly free (c.guardName type).mentions :=
  .read (happart type) .nil

private theorem readsOnly_isRecord (h : ReadsOnly free e.mentions) :
    ReadsOnly free (c.isRecord e).mentions := by
  simpa [Context.isRecord, Context.guardName] using
    h.read (happart "record")

private theorem readsOnly_monomorphic (name : String) :
    ReadsOnly free (c.monomorphic name).mentions := by
  unfold Context.monomorphic
  split
  · exact readsOnly_guardName happart _
  · exact readsOnly_never

end

/-- No instantiation is named like a generated variable, and the initial values of the constants
bind the variables that they mention. -/
structure Emission.IsNeat (s : Emission) : Prop where
  names : ∀ x ∈ s.names, ¬ IsVariable x
  inits : ∀ b ∈ s.constants, ∃ n, Scoped [] 0 n b.init.mentions

/-- With `low` variables used before it, the step leaves a neat state neat, and its result is as
said of how many have been used after it. -/
private def Counts {α : Type} (low : Nat) (step : Emit α) (result : Nat → α → Prop) : Prop :=
  ∀ s : Emission, s.IsNeat → s.used = low →
    (step s).2.IsNeat ∧ result (step s).2.used (step s).1

namespace Counts

variable {α β : Type} {low : Nat} {step : Emit α} {result : Nat → α → Prop}
  {last : Nat → β → Prop}

private theorem pure {a : α} (h : result low a) : Counts low (Pure.pure a) result := by
  rintro s hs rfl
  exact ⟨hs, h⟩

private theorem bind {next : α → Emit β} (h : Counts low step result)
    (hnext : ∀ mid a, result mid a → Counts mid (next a) last) :
    Counts low (step >>= next) last := by
  intro s hs hused
  obtain ⟨hneat, hresult⟩ := h s hs hused
  exact hnext _ _ hresult (step s).2 hneat rfl

private theorem giving {f : α → β} (h : Counts low step result)
    (hlast : ∀ high a, result high a → last high (f a)) :
    Counts low (step >>= fun a => Pure.pure (f a)) last :=
  h.bind fun high a ha => .pure (hlast high a ha)

end Counts

private theorem counts_freshVariable (low : Nat) :
    Counts low freshVariable fun high x => high = low + 1 ∧ x = variableName (low + 1) := by
  rintro s hs rfl
  exact ⟨⟨hs.names, hs.inits⟩, rfl, rfl⟩

private theorem counts_readsOnly {free : List Nat} {e : Expr} (h : ReadsOnly free e.mentions)
    {low : Nat} (hfree : ∀ n ∈ free, n ≤ low) :
    Counts low (pure e) fun high e => Scoped free low high e.mentions :=
  .pure (h.scoped hfree)

section

variable {options : Options} {s : Emission} {low high : Nat} {es : List Expr}

private theorem scoped_init (inst : Instantiation)
    (hes : Scoped [] low high (Expr.allMentions es)) :
    Scoped [] low high
      (Expr.call (.name (options.factoryName inst.definition.name)) es).mentions := by
  have hfactory : ReadsOnly [] [.read (options.factoryName inst.definition.name)] :=
    .read (not_isVariable_factoryName options _) .nil
  exact (hfactory.closed low).append hes

private theorem scoped_access (inst : Instantiation) {name : String} (hname : ¬ IsVariable name)
    (hes : Scoped [] low high (Expr.allMentions es)) :
    Scoped [] low high (s.access inst name
      (.call (.name (options.factoryName inst.definition.name)) es)).mentions := by
  have hread : ReadsOnly [] [.read name] := .read hname .nil
  unfold Emission.access
  split
  · exact (hread.closed low).append (scoped_init inst hes)
  · exact (hread.closed low).extend hes.ordered

private theorem Emission.mem_names_of_mem_bindings {inst : Instantiation} {b : Binding}
    (hb : b ∈ s.bindings inst) : b.name ∈ s.names := by
  refine List.mem_map_of_mem ?_
  unfold Emission.bindings at hb
  split at hb
  · exact List.mem_append_right _ hb
  · exact List.mem_append_left _ hb

variable (happart : Options.IsApart options)

include happart

private theorem not_isVariable_newBinding (site : TypeRef) (init : Expr) :
    ¬ IsVariable (s.newBinding options site init).name := by
  obtain ⟨_, suffix, _, hname⟩ := unused_spec s.taken (options.guardName (word site.display))
  have hspelled : (s.newBinding options site init).name
      = options.guardName (word site.display ++ suffix) := by
    rw [Options.guardName, ← String.append_assoc]
    exact hname
  rw [hspelled]
  exact happart _

private theorem Emission.IsNeat.store (h : s.IsNeat) (inst : Instantiation) {init : Expr}
    (hinit : Scoped [] low high init.mentions) :
    (s.store inst (s.newBinding options inst.site init)).IsNeat := by
  refine ⟨fun x hx => ?_, ?_⟩
  · rcases List.mem_cons.mp ((Emission.names_store s inst _).mem_iff.mp hx) with rfl | hx
    · exact not_isVariable_newBinding happart inst.site init
    · exact h.names x hx
  · unfold Emission.store
    split
    · exact h.inits
    · refine List.forall_mem_append.mpr ⟨h.inits, List.forall_mem_singleton.mpr ⟨high, ?_⟩⟩
      exact hinit.weaken (Nat.zero_le low) (Nat.le_refl high) (fun _ h => h) (by simp)

private theorem counts_instantiate (inst : Instantiation)
    (hes : Scoped [] low high (Expr.allMentions es)) :
    Counts high (instantiate options inst es) fun high e => Scoped [] low high e.mentions := by
  rintro s hs rfl
  rw [instantiate_eq]
  split
  · have hself : ReadsOnly [] (Expr.name selfName).mentions := readsOnly_local (by decide)
    exact ⟨hs, (hself.closed low).extend hes.ordered⟩
  · dsimp only
    split
    · next name hbound =>
      obtain ⟨b, hb, _, rfl⟩ := bound?_eq_some hbound
      have hname := hs.names _ (Emission.mem_names_of_mem_bindings hb)
      exact ⟨hs, scoped_access inst hname hes⟩
    · rw [Emission.used_store]
      exact ⟨hs.store happart inst (scoped_init inst hes),
        scoped_access inst (not_isVariable_newBinding happart _ _) hes⟩

end

section

variable {free : List Nat} {subject : Option Expr}

/-- The subject, if there is one, reads no generated variables but the free ones. -/
private def SubjectReads (free : List Nat) (subject : Option Expr) : Prop :=
  ∀ e ∈ subject, ReadsOnly free e.mentions

private theorem subjectReads_generated (n : Nat) :
    SubjectReads [n] (some (.name (variableName n))) := by
  rintro _ ⟨⟩
  exact .generated n

private theorem readsOnly_applied (hsubject : SubjectReads free subject) {checker : Expr}
    (h : ReadsOnly free checker.mentions) : ReadsOnly free (applied subject checker).mentions := by
  cases subject with
  | none => exact h
  | some e => simpa [applied, Expr.mentions, Expr.allMentions] using h.append (hsubject e rfl)

private theorem counts_applied (hsubject : SubjectReads free subject) {checker : Expr}
    (h : ReadsOnly free checker.mentions) {low : Nat} (hfree : ∀ n ∈ free, n ≤ low) :
    Counts low (pure (applied subject checker)) fun high e => Scoped free low high e.mentions :=
  counts_readsOnly (readsOnly_applied hsubject h) hfree

private theorem scoped_applied (hsubject : SubjectReads free subject) {checker : Expr}
    {low high : Nat} (h : Scoped [] low high checker.mentions) (hfree : ∀ n ∈ free, n ≤ low) :
    Scoped free low high (applied subject checker).mentions := by
  have hchecker := h.freed hfree
  cases subject with
  | none => exact hchecker
  | some e =>
    have he := (hsubject e rfl).scoped fun n hn => (hfree n hn).trans h.ordered
    simpa [applied, Expr.mentions, Expr.allMentions] using hchecker.append he

private theorem counts_onSubject {t : TypeRef} {condition : Expr → Emit Expr}
    (h : ∀ free e low, ReadsOnly free e.mentions → (∀ n ∈ free, n ≤ low) →
      Counts low (condition e) fun high e => Scoped free low high e.mentions)
    (hsubject : SubjectReads free subject) {low : Nat} (hfree : ∀ n ∈ free, n ≤ low) :
    Counts low (onSubject t subject condition) fun high e => Scoped free low high e.mentions := by
  cases subject with
  | some e => exact h free e low (hsubject e rfl) hfree
  | none =>
    refine (counts_freshVariable low).bind fun mid x => ?_
    rintro ⟨rfl, rfl⟩
    refine (h [low + 1] _ (low + 1) (.generated _) (by simp)).giving fun high body hbody => ?_
    exact hbody.function.freed hfree

variable (c : Context)

private theorem counts_every {inner : TypeRef}
    (h : ∀ n, Counts n (reference c inner (some (.name (variableName n))))
      fun high e => Scoped [n] n high e.mentions)
    {found list : Expr} (hfound : ReadsOnly free found.mentions)
    (hlist : ReadsOnly free list.mentions) {low : Nat} (hfree : ∀ n ∈ free, n ≤ low) :
    Counts low (do
      let x ← freshVariable
      let body ← reference c inner (some (.name x))
      return Expr.both found (list.every x .unknown body))
      fun high e => Scoped free low high e.mentions := by
  refine (counts_freshVariable low).bind fun mid x => ?_
  rintro ⟨rfl, rfl⟩
  refine (h (low + 1)).giving fun high body hbody => ?_
  have hbefore := (hfound.append hlist).scoped hfree
  simpa [Expr.every, Expr.mentions, Expr.allMentions] using
    hbefore.append (hbody.function.freed hfree)

private theorem counts_tuple {e : Expr} (he : ReadsOnly free e.mentions) {ts : List TypeRef}
    (hts : ∀ t ∈ ts, ∀ subject low, SubjectReads free (some subject) → (∀ n ∈ free, n ≤ low) →
      Counts low (reference c t (some subject)) fun high e => Scoped free low high e.mentions)
    (i : Nat) {found : Expr} {low mid : Nat} (hfound : Scoped free low mid found.mentions) :
    Counts mid (tuple c e i found ts) fun high body => Scoped free low high body.mentions := by
  induction ts generalizing i found mid with
  | nil => exact .pure hfound
  | cons t ts ih =>
    obtain ⟨ht, hts⟩ := List.forall_mem_cons.mp hts
    have hitem : SubjectReads free (some (Expr.index e (.number i))) := by
      rintro _ ⟨⟩
      exact he.append .nil
    have hfree : ∀ n ∈ free, n ≤ mid := fun n hn => (hfound.free_le n hn).trans hfound.ordered
    rw [tuple]
    refine (ht _ mid hitem hfree).bind fun mid' body hbody => ?_
    have hboth : Scoped free low mid' (Expr.both found body).mentions := hfound.append hbody
    exact ih hts (i + 1) hboth

private theorem counts_arguments {ts : List TypeRef}
    (hts : ∀ t ∈ ts, ∀ low,
      Counts low (reference c t none) fun high e => Scoped [] low high e.mentions) (low : Nat) :
    Counts low (arguments c ts) fun high es => Scoped [] low high (Expr.allMentions es) := by
  induction ts generalizing low with
  | nil => exact .pure (ReadsOnly.nil.closed low)
  | cons t ts ih =>
    obtain ⟨ht, hts⟩ := List.forall_mem_cons.mp hts
    rw [arguments]
    exact (ht low).bind fun mid arg harg => (ih hts mid).giving fun high args hargs =>
      harg.append hargs

private theorem readsOnly_closedKeys {x : String} (hx : x ∈ Options.locals)
    (allowed : List String) :
    ReadsOnly [] (Stmt.allMentions (match c.options.shape with
      | .closed => [closedKeys (.name x) allowed]
      | .opened => [])) := by
  have hkeys : ReadsOnly [] (Expr.keysOf (.name x)).mentions :=
    readsOnly_keysOf (readsOnly_local hx)
  cases c.options.shape with
  | opened => exact .nil
  | closed =>
    cases allowed with
    | nil => simpa [closedKeys, Stmt.allMentions, Stmt.mentions, Expr.mentions] using hkeys
    | cons s rest =>
      have hallowed : ReadsOnly [] (Expr.isOneOf (.name "k") (s :: rest)).mentions :=
        readsOnly_isOneOf (readsOnly_local (by decide)) _
      have hevery := readsOnly_every (not_isVariable_local "k" (by decide)) .untyped hkeys hallowed
      simpa [closedKeys, Stmt.allMentions, Stmt.mentions, Expr.mentions] using hevery

variable (happart : Options.IsApart c.options)

include happart

private theorem counts_reference (t : TypeRef) (hsubject : SubjectReads free subject) {low : Nat}
    (hfree : ∀ n ∈ free, n ≤ low) :
    Counts low (reference c t subject) fun high e => Scoped free low high e.mentions := by
  induction t generalizing free subject low with
  | primitive p =>
    cases subject with
    | none => exact counts_readsOnly (readsOnly_guardName happart p.name) hfree
    | some e =>
      have hbytes : ReadsOnly free (c.guardName Primitive.bytes.name).mentions :=
        readsOnly_guardName happart _
      have htypeOf : ReadsOnly free (Expr.equals (.typeOf e) (.string p.name)).mentions :=
        (hsubject e rfl).append .nil
      cases p with
      | bytes => exact counts_applied hsubject hbytes hfree
      | _ => exact counts_readsOnly htypeOf hfree
  | named name => exact counts_applied hsubject (readsOnly_monomorphic happart name) hfree
  | parameter name =>
    refine counts_applied hsubject ?_ hfree
    split
    · exact .read (not_isVariable_checkerName name) .nil
    · exact readsOnly_never
  | generic name args ih =>
    cases args with
    | nil => exact counts_applied hsubject (readsOnly_monomorphic happart name) hfree
    | cons t ts =>
      have hargs : ∀ u ∈ t :: ts, ∀ low,
          Counts low (reference c u none) fun high e => Scoped [] low high e.mentions :=
        fun u hu low => ih u hu (by simp [SubjectReads]) (by simp)
      obtain ⟨ht, hts⟩ := List.forall_mem_cons.mp hargs
      rw [reference]
      split
      · exact counts_applied hsubject readsOnly_never hfree
      · next inst _ =>
        refine (ht low).bind fun mid arg harg => ?_
        refine (counts_arguments c hts mid).bind fun mid' args hargs => ?_
        have hall : Scoped [] low mid' (Expr.allMentions (arg :: args)) := harg.append hargs
        exact (counts_instantiate happart inst hall).giving fun high e he =>
          scoped_applied hsubject he hfree
  | sequence inner ih =>
    have hinner : ∀ n, Counts n (reference c inner (some (.name (variableName n))))
        fun high e => Scoped [n] n high e.mentions :=
      fun n => ih (subjectReads_generated n) (by simp)
    rw [reference]
    exact counts_onSubject (fun free e low he hfree =>
      counts_every c hinner (readsOnly_isArray he) he hfree) hsubject hfree
  | map inner ih =>
    have hinner : ∀ n, Counts n (reference c inner (some (.name (variableName n))))
        fun high e => Scoped [n] n high e.mentions :=
      fun n => ih (subjectReads_generated n) (by simp)
    rw [reference]
    exact counts_onSubject (fun free e low he hfree =>
      counts_every c hinner (readsOnly_isRecord happart he) (readsOnly_valuesOf he) hfree)
      hsubject hfree
  | tuple elements ih =>
    rw [reference]
    refine counts_onSubject (fun free e low he hfree => ?_) hsubject hfree
    have hsized : ReadsOnly free
        (Expr.both e.isArray (.equals (.property e "length") (.number elements.length))).mentions :=
      (readsOnly_isArray he).append (he.append .nil)
    exact counts_tuple c he (fun t ht _ _ hsubject hfree => ih t ht hsubject hfree) 0
      (hsized.scoped hfree)
  | nullable inner ih =>
    rw [reference]
    refine counts_onSubject (fun free e low he hfree => ?_) hsubject hfree
    have hnull : ReadsOnly free (Expr.equals e .null).mentions := he.append .nil
    have hsubject : SubjectReads free (some e) := by
      rintro _ ⟨⟩
      exact he
    exact (ih hsubject hfree).giving fun high body hbody => (hnull.scoped hfree).append hbody

private theorem counts_fieldChecks {x : String} (hx : x ∈ Options.locals) (fields : List Field)
    (low : Nat) : Counts low (fieldChecks c (.name x) fields)
      fun high checks => Scoped [] low high (Stmt.allMentions checks) := by
  induction fields generalizing low with
  | nil => exact .pure (ReadsOnly.nil.closed low)
  | cons f rest ih =>
    have hsubject : SubjectReads [] (some (Expr.index (.name x) (.string f.name))) := by
      rintro _ ⟨⟩
      exact (readsOnly_local hx).append .nil
    have howns : ReadsOnly [] (Expr.owns (.name x) (.string f.name)).mentions :=
      readsOnly_owns (readsOnly_local hx) f.name
    have hfree : ∀ n ∈ ([] : List Nat), n ≤ low := by simp
    rw [fieldChecks]
    refine (counts_reference c happart f.type hsubject hfree).bind
      fun mid condition hcondition => (ih mid).giving fun high checks hchecks => ?_
    have hcheck := (howns.closed low).append hcondition
    have hall := hcheck.append hchecks
    cases hrequired : f.required <;>
      simpa [Stmt.allMentions, Stmt.mentions, Expr.mentions, hrequired] using hall

private theorem counts_objectBody {x : String} (hx : x ∈ Options.locals) (fields : List Field)
    (low : Nat) : Counts low (objectBody c x fields)
      fun high body => Scoped [] low high (Stmt.allMentions body) := by
  have hrecord : ReadsOnly [] (c.isRecord (.name x)).mentions :=
    readsOnly_isRecord happart (readsOnly_local hx)
  have hbefore := hrecord.append (readsOnly_closedKeys c hx (fields.map Field.name))
  refine (counts_fieldChecks c happart hx fields low).giving fun high checks hchecks => ?_
  rw [allMentions_append, allMentions_append]
  exact ((hbefore.closed low).append hchecks).append
    (ReadsOnly.nil.closed high)

private theorem counts_caseBodies (variants : List Variant) (low : Nat) :
    Counts low (caseBodies c variants)
      fun high cases => Scoped [] low high (Stmt.caseMentions cases) := by
  induction variants generalizing low with
  | nil => exact .pure (ReadsOnly.nil.closed low)
  | cons v rest ih =>
    rw [caseBodies]
    exact (counts_objectBody c happart (by decide) v.fields low).bind fun mid body hbody =>
      (ih mid).giving fun high bodies hbodies => hbody.append hbodies

private theorem counts_definitionBody (d : Definition) (low : Nat) :
    Counts low (definitionBody c d)
      fun high body => Scoped [] low high (Stmt.allMentions body) := by
  have hsubject : subjectName ∈ Options.locals := by decide
  cases d with
  | struct d => exact counts_objectBody c happart hsubject d.fields low
  | union d =>
    have hrecord : ReadsOnly [] (c.isRecord (.name subjectName)).mentions :=
      readsOnly_isRecord happart (readsOnly_local hsubject)
    have hindex : ∀ key, ReadsOnly [] (Expr.index (.name subjectName) (.string key)).mentions :=
      fun _ => (readsOnly_local hsubject).append .nil
    have hbefore := hrecord.append (readsOnly_closedKeys c hsubject [tagKey, payloadKey])
    refine (counts_caseBodies c happart d.variants low).giving fun high cases hcases => ?_
    have hswitch : Scoped [] low high
        (Stmt.switch (.index (.name subjectName) (.string tagKey)) cases).mentions :=
      ((hindex tagKey).closed low).append hcases
    have hlast := hswitch.append (ReadsOnly.nil.closed high)
    rw [allMentions_append]
    exact (hbefore.closed low).append
      (((hindex payloadKey).closed low).append hlast)
  | enum d =>
    have hmembers : ReadsOnly [] (Expr.isOneOf (.name subjectName) d.members).mentions :=
      readsOnly_isOneOf (readsOnly_local hsubject) _
    refine .pure (ReadsOnly.closed ?_ low)
    simpa [Stmt.allMentions, Stmt.mentions] using hmembers
  | «alias» d =>
    have hreads : SubjectReads [] (some (Expr.name subjectName)) := by
      rintro _ ⟨⟩
      exact readsOnly_local hsubject
    refine (counts_reference c happart d.target hreads (by simp)).giving fun high e he => ?_
    simpa [Stmt.allMentions, Stmt.mentions] using he

end

def Item.IsScoped (item : Item) : Prop := ∃ n, Scoped [] 0 n item.mentions

/-- Every item binds each generated variable once and reads it in its own function, and except among
the constants no two items bind the same. -/
def ItemBlock.IsScoped (block : ItemBlock) : Prop :=
  (block.origin ≠ .instantiations → ∃ n, Scoped [] 0 n block.mentions) ∧
    ∀ item ∈ block.items, item.IsScoped

section

variable {schema : Schema} {options : Options} {s : Emission}

private theorem definitionItem_mentions (d : Definition) :
    (definitionItem schema options d s).1.mentions
      = Stmt.allMentions (definitionBody ⟨schema, options, Scope.of d⟩ d (s.enter d)).1 := by
  cases hgeneric : d.isGeneric with
  | true =>
    have henter : s.enter d = { s with used := 0, lazies := some [] } := by
      simp [Emission.enter, hgeneric]
    rw [definitionItem_factory hgeneric, henter]
    rfl
  | false =>
    have henter : s.enter d = { s with used := 0 } := by simp [Emission.enter, hgeneric]
    rw [definitionItem_guard hgeneric, henter]
    rfl

private theorem Emission.names_leave (s : Emission) :
    ({ s with lazies := none } : Emission).names ⊆ s.names :=
  List.map_subset _ (by simp)

private theorem definitionItem_isScoped (schema : Schema) (happart : Options.IsApart options)
    (d : Definition) (hs : s.IsNeat) (houtside : s.lazies = none) :
    (definitionItem schema options d s).2.IsNeat ∧
      (definitionItem schema options d s).1.IsScoped := by
  have henter : (s.enter d).IsNeat := by
    refine ⟨?_, hs.inits⟩
    rw [Emission.names_enter d houtside]
    exact hs.names
  obtain ⟨hneat, hbody⟩ :=
    counts_definitionBody ⟨schema, options, Scope.of d⟩ happart d 0 (s.enter d) henter rfl
  rw [definitionItem_state d houtside]
  exact ⟨⟨fun x hx => hneat.names x (Emission.names_leave _ hx), hneat.inits⟩, _,
    definitionItem_mentions d ▸ hbody⟩

private theorem readsOnly_prelude (options : Options) :
    ∀ item ∈ prelude options, ReadsOnly [] item.mentions := by
  have hv : ReadsOnly [] (Expr.name "v").mentions := readsOnly_local (by decide)
  have hb : ReadsOnly [] (Expr.name "b").mentions := readsOnly_local (by decide)
  have hnumber : ReadsOnly [] (Expr.name "Number").mentions := readsOnly_local (by decide)
  have harray := readsOnly_isArray hv
  have hbyte : ReadsOnly [] (Expr.both (.call (.property (.name "Number") "isInteger") [.name "b"])
      (.both (.relate .atLeast (.name "b") (.number 0))
        (.relate .atMost (.name "b") (.number 255)))).mentions :=
    (hnumber.append (hb.append .nil)).append ((hb.append .nil).append (hb.append .nil))
  have hbytes := readsOnly_every (not_isVariable_local "b" (by decide)) .untyped hv hbyte
  have give : ∀ {e : Expr}, ReadsOnly [] e.mentions → ReadsOnly [] (Stmt.allMentions [.give e]) :=
    fun h => h.append .nil
  have hkind := fun p : Primitive =>
    give (e := .equals (.typeOf (.name "v")) (.string p.name)) (hv.append .nil)
  simp only [prelude, List.forall_mem_cons]
  refine ⟨give (((hv.append .nil).append (hv.append .nil)).append harray), hkind _, hkind _,
    hkind _, give (harray.append hbytes), by simp⟩

end

namespace Emitter

/-- Between definitions, the blocks and the constants bind the variables that they mention. -/
structure IsNeat (e : Emitter) : Prop where
  apart : Options.IsApart e.options
  outside : e.emission.lazies = none
  emission : e.emission.IsNeat
  blocks : ∀ block ∈ e.blocks, block.IsScoped

private theorem isNeat_start (schema : Schema) {options : Options}
    (happart : Options.IsApart options) :
    (start schema options).IsNeat := by
  refine ⟨happart, rfl, ⟨by simp [start, Emission.names], by simp [start]⟩,
    List.forall_mem_singleton.mpr ?_⟩
  have hprelude : ∀ item ∈ prelude options, ReadsOnly [] item.mentions := readsOnly_prelude options
  exact ⟨fun _ => ⟨0, (ReadsOnly.flatMap hprelude).closed 0⟩,
    fun item hitem => ⟨0, (hprelude item hitem).closed 0⟩⟩

private theorem IsNeat.emit {e : Emitter} (h : e.IsNeat) (d : Definition) : (e.emit d).IsNeat := by
  obtain ⟨hneat, n, hscoped⟩ :=
    definitionItem_isScoped e.schema h.apart d h.emission h.outside
  refine ⟨h.apart, lazies_emit h.outside d, hneat, ?_⟩
  rw [emit_eq]
  refine List.forall_mem_append.mpr ⟨h.blocks, List.forall_mem_singleton.mpr ⟨fun _ => ⟨n, ?_⟩, ?_⟩⟩
  · simpa [ItemBlock.mentions] using hscoped
  · exact List.forall_mem_singleton.mpr ⟨n, hscoped⟩

private theorem IsNeat.foldl_emit (ds : List Definition) {e : Emitter} (h : e.IsNeat) :
    (ds.foldl Emitter.emit e).IsNeat :=
  List.foldlRecOn ds Emitter.emit h fun _ h d _ => h.emit d

private theorem IsNeat.finish {e : Emitter} (h : e.IsNeat) :
    ∀ block ∈ e.finish, block.IsScoped := by
  unfold Emitter.finish
  split
  · exact h.blocks
  · refine List.forall_mem_append.mpr ⟨h.blocks, List.forall_mem_singleton.mpr ⟨?_, ?_⟩⟩
    · exact fun hother => absurd rfl hother
    · intro item hitem
      obtain ⟨b, hb, rfl⟩ := List.mem_map.mp hitem
      exact h.emission.inits b hb

/-- Generated variables never clash. With the default prefix and whatever definitions are emitted,
one function binds each generated variable that a block mentions, and whatever reads the variable in
this block is in the body of the function. The block of the constants has the same for each initial
value of its own. -/
theorem binds_variables_once (schema : Schema) (options : Options)
    (hdefault : options.guardPrefix = ({} : Options).guardPrefix) (ds : List Definition) :
    ∀ block ∈ (ds.foldl emit (start schema options)).finish,
      (block.origin ≠ .instantiations →
        ∀ x, IsVariable x → IsMentioned x block.mentions → BoundOnce x block.mentions) ∧
      ∀ item ∈ block.items,
        ∀ x, IsVariable x → IsMentioned x item.mentions → BoundOnce x item.mentions := by
  intro block hblock
  have hneat := (isNeat_start schema (isApart_of_default hdefault)).foldl_emit ds
  -- the constants have been emitted with several definitions, which all count from one
  obtain ⟨hother, hitems⟩ := hneat.finish block hblock
  refine ⟨fun horigin x hx hmentioned => ?_, fun item hitem x hx hmentioned => ?_⟩
  · obtain ⟨_, hscoped⟩ := hother horigin
    exact hscoped.boundOnce hx hmentioned
  · obtain ⟨_, hscoped⟩ := hitems item hitem
    exact hscoped.boundOnce hx hmentioned

def rows : List Definition :=
  [.alias ⟨"Box", ["T"], .nullable (.parameter "T")⟩,
    .alias ⟨"Rows", [], .generic "Box" [.sequence (.primitive .string)]⟩]

theorem binds_variables_once_rows :
    ({} : Options).guardPrefix = ({} : Options).guardPrefix ∧
      ∃ block ∈ (rows.foldl emit (start ⟨rows⟩ {})).finish, block.origin = .instantiations ∧
        ∃ item ∈ block.items, IsVariable "x1" ∧ IsMentioned "x1" item.mentions ∧
          BoundOnce "x1" item.mentions := by
  have hvariable : IsVariable "x1" := ⟨1, rfl⟩
  obtain ⟨block, hblock, horigin, item, hitem, hmentioned⟩ :
      ∃ block ∈ (rows.foldl emit (start ⟨rows⟩ {})).finish, block.origin = .instantiations ∧
        ∃ item ∈ block.items, IsMentioned "x1" item.mentions := by
    let e := rows.foldl emit (start ⟨rows⟩ {})
    let constants := e.emission.constants.map fun b => Item.constant b.name b.init
    have hfinish : e.finish = e.blocks ++ [⟨.instantiations, constants⟩] := rfl
    refine ⟨⟨.instantiations, constants⟩, ?_, rfl, ?_⟩
    · rw [hfinish]
      exact List.mem_append_right _ List.mem_cons_self
    · exact ⟨_, List.mem_cons_self, .inl (by decide)⟩
  refine ⟨rfl, block, hblock, horigin, item, hitem, hvariable, hmentioned, ?_⟩
  exact (binds_variables_once ⟨rows⟩ {} rfl rows block hblock).2 item hitem "x1" hvariable
    hmentioned

end Emitter

end SchemaGuard.Script
