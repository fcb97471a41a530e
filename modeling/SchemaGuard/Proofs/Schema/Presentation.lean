import Mathlib.Data.List.Permutation
import SchemaGuard.Proofs.Attempt
import SchemaGuard.Proofs.Json.Reordered
import SchemaGuard.Proofs.Schema.JsonForm

/-!
One record presented in several ways. Members may be moved, left out where they hold their default,
and joined by others under keys that are not known, and references may be reordered at any depth;
fields and variants are read from every such presentation of their written form as they were.
-/

set_option autoImplicit false
set_option relaxedAutoImplicit false

namespace SchemaGuard

namespace Json

def default? (key : String) : Option Json :=
  if key = "required" then some (.bool true)
  else if key ∈ ["types", "params", "fields", "variants", "members"] then some (.array [])
  else none

/-- The members are presented in another way: the value of each key as told for it, keys left out
that hold their default, keys added that are not among those known, and all in any order. -/
inductive Edits (known : List String) (inside : String → Json → Json → Prop) :
    List (String × Json) → List (String × Json) → Prop
  | nil : Edits known inside [] []
  | keep {key : String} {x x' : Json} {ms ms' : List (String × Json)} : inside key x x' →
    Edits known inside ms ms' → Edits known inside ((key, x) :: ms) ((key, x') :: ms')
  | leave {key : String} {x : Json} {ms ms' : List (String × Json)} : default? key = some x →
    Edits known inside ms ms' → Edits known inside ((key, x) :: ms) ms'
  | add {key : String} {x : Json} {ms ms' : List (String × Json)} : key ∉ known →
    Edits known inside ms ms' → Edits known inside ms ((key, x) :: ms')
  | move {ms moved ms' : List (String × Json)} : Edits known inside ms moved → moved.Perm ms' →
    Edits known inside ms ms'

/-- The values are objects, and the second presents the members of the first. -/
inductive Presents (known : List String) (inside : String → Json → Json → Prop) : Json → Json → Prop
  | object {ms ms' : List (String × Json)} : Edits known inside ms ms' →
    Presents known inside (.object ms) (.object ms')

/-- The values are lists of related items. -/
inductive Each (related : Json → Json → Prop) : Json → Json → Prop
  | array {xs xs' : List Json} : List.Forall₂ related xs xs' → Each related (.array xs) (.array xs')

def KnownOnce (known : List String) (ms : List (String × Json)) : Prop :=
  ms.Pairwise fun m m' => m.1 ∈ known → m.1 ≠ m'.1

def Covers (keys : List String) (ms : List (String × Json)) (seen : List String) : Prop :=
  ∀ key ∈ keys, key ∈ ms.map Prod.fst → key ∈ seen

theorem Covers.cons {keys seen : List String} {ms : List (String × Json)} {m : String × Json}
    (h : Covers keys ms seen) (hm : m.1 ∈ keys → m.1 ∈ seen) : Covers keys (m :: ms) seen := by
  intro key hkey hmem
  rcases List.mem_cons.mp hmem with rfl | hmem
  · exact hm hkey
  · exact h key hkey hmem

namespace Edits

variable {known : List String} {inside : String → Json → Json → Prop}
  {ms ms' : List (String × Json)} {key : String} {x : Json}

theorem exists_of_mem (h : Edits known inside ms ms') (hkey : key ∈ known)
    (hmem : (key, x) ∈ ms') : ∃ y, (key, y) ∈ ms ∧ inside key y x := by
  induction h with
  | nil => cases hmem
  | keep hinside _ ih =>
    rcases List.mem_cons.mp hmem with heq | hmem
    · obtain ⟨rfl, rfl⟩ := Prod.mk.inj heq
      exact ⟨_, List.mem_cons_self, hinside⟩
    · obtain ⟨y, hy, hx⟩ := ih hmem
      exact ⟨y, List.mem_cons_of_mem _ hy, hx⟩
  | leave _ _ ih =>
    obtain ⟨y, hy, hx⟩ := ih hmem
    exact ⟨y, List.mem_cons_of_mem _ hy, hx⟩
  | add hnew _ ih =>
    rcases List.mem_cons.mp hmem with heq | hmem
    · exact absurd ((Prod.mk.inj heq).1 ▸ hkey) hnew
    · exact ih hmem
  | move _ hperm ih => exact ih (hperm.mem_iff.mpr hmem)

theorem mem_or_default (h : Edits known inside ms ms') (hmem : (key, x) ∈ ms) :
    key ∈ ms'.map Prod.fst ∨ default? key = some x := by
  induction h with
  | nil => cases hmem
  | keep _ _ ih =>
    rcases List.mem_cons.mp hmem with heq | hmem
    · exact .inl (List.mem_map.mpr ⟨_, List.mem_cons_self, (Prod.mk.inj heq).1.symm⟩)
    · exact (ih hmem).imp_left (List.mem_cons_of_mem _)
  | leave hdefault _ ih =>
    rcases List.mem_cons.mp hmem with heq | hmem
    · obtain ⟨rfl, rfl⟩ := Prod.mk.inj heq
      exact .inr hdefault
    · exact ih hmem
  | add _ _ ih => exact (ih hmem).imp_left (List.mem_cons_of_mem _)
  | move _ hperm ih => exact (ih hmem).imp_left (hperm.map _).mem_iff.mp

theorem knownOnce (h : Edits known inside ms ms') (hdistinct : (ms.map Prod.fst).Nodup) :
    KnownOnce known ms' := by
  induction h with
  | nil => exact .nil
  | @keep key x x' ms ms' _ h ih =>
    obtain ⟨hnew, hdistinct⟩ := List.nodup_cons.mp hdistinct
    refine .cons (fun m hm hkey heq => hnew ?_) (ih hdistinct)
    obtain ⟨y, hy, -⟩ := h.exists_of_mem hkey (x := m.2) (by rwa [show key = m.1 from heq])
    exact List.mem_map.mpr ⟨_, hy, rfl⟩
  | leave _ _ ih => exact ih (List.nodup_cons.mp hdistinct).2
  | add hnew _ ih => exact .cons (fun m _ hkey => absurd hkey hnew) (ih hdistinct)
  | move _ hperm ih =>
    -- That two members do not share a known key is told in either order.
    refine (hperm.pairwise_iff fun {m m'} hne hkey heq => ?_).mp (ih hdistinct)
    exact hne (heq ▸ hkey) heq.symm

end Edits

theorem KnownOnce.filter_eq {known : List String} {ms : List (String × Json)} {key : String}
    {x : Json} {p : String × Json → Bool} (h : KnownOnce known ms) (hkey : key ∈ known)
    (hp : ∀ m, p m = true ↔ m.1 = key) (hmem : (key, x) ∈ ms) : ms.filter p = [(key, x)] := by
  have hone : (ms.filter p).Pairwise fun m m' => m.1 ∈ known → m.1 ≠ m'.1 := h.filter p
  have hin : (key, x) ∈ ms.filter p := List.mem_filter.mpr ⟨hmem, (hp _).mpr rfl⟩
  have hall : ∀ m ∈ ms.filter p, m.1 = key := fun m hm => (hp m).mp (List.mem_filter.mp hm).2
  match hfound : ms.filter p with
  | [] => simp [hfound] at hin
  | [m] =>
    rw [hfound] at hin
    rw [List.mem_singleton.mp hin]
  | m :: m' :: rest =>
    rw [hfound] at hone hall
    have hm := hall m (by simp)
    have hm' := hall m' (by simp)
    exact absurd (hm.trans hm'.symm)
      ((List.pairwise_cons.mp hone).1 m' List.mem_cons_self (hm ▸ hkey))

private theorem list?_of_each {α : Type} {read : Json → Except Cause α} {write : α → Json}
    {related : Json → Json → Prop} (h : ∀ a x, related (write a) x → read x = .ok a) {as : List α}
    {x : Json} (heach : Each related (.array (as.map write)) x) : list? read x = .ok as := by
  cases heach with
  | array heach =>
    rw [list?, Except.mapM_eq_ok_iff]
    exact ((List.forall₂_map_left_iff.mp heach).imp fun a x => h a x).flip

end Json

private theorem Record.members_eq {σ α : Type} (r : Record σ α) (part : List String → σ) :
    ∀ {ms : List (String × Json)} (seen : List String), Json.KnownOnce r.keys ms →
      (∀ m ∈ ms, m.1 ∈ r.keys → m.1 ∉ seen ∧
        ∀ seen, r.step m.1 m.2 (part seen) = .ok (part (m.1 :: seen))) →
      ∃ seen', r.members ms seen (part seen) = .ok (part seen') ∧ seen ⊆ seen' ∧
        Json.Covers r.keys ms seen'
  | [], seen, _, _ => ⟨seen, rfl, List.Subset.refl seen, nofun⟩
  | (k, x) :: rest, seen, honce, hsteps => by
    obtain ⟨hother, honce⟩ := List.pairwise_cons.mp honce
    obtain ⟨hfirst, hlater⟩ := List.forall_mem_cons.mp hsteps
    rw [Record.members]
    by_cases hk : k ∈ r.keys
    · obtain ⟨hfresh, hstep⟩ := hfirst hk
      -- The key is not met again, so the members behind it are as fresh as before.
      rw [if_pos hk, if_neg hfresh, hstep seen]
      obtain ⟨seen', hread, hseen, hkeys⟩ := members_eq r part (k :: seen) honce
        fun m hm hkey => ⟨List.not_mem_cons_of_ne_of_not_mem (hother m hm hk).symm
          (hlater m hm hkey).1, (hlater m hm hkey).2⟩
      obtain ⟨hkseen, hseen⟩ := List.cons_subset.mp hseen
      exact ⟨seen', hread, hseen, hkeys.cons fun _ => hkseen⟩
    · rw [if_neg hk]
      obtain ⟨seen', hread, hseen, hkeys⟩ := members_eq r part seen honce hlater
      exact ⟨seen', hread, hseen, hkeys.cons fun hmem => absurd hmem hk⟩

private theorem Record.read_of_edits {σ α : Type} {r : Record σ α} (part : List String → σ)
    {whole : α} {known : List String} {inside : String → Json → Json → Prop}
    {ms ms' content : List (String × Json)} (h : Json.Edits known inside ms ms')
    (hknown : r.keys ⊆ known) (hdistinct : (ms.map Prod.fst).Nodup)
    (hcontent : content.Sublist ms') (hkept : ∀ m ∈ ms', m.1 ∈ r.keys → m ∈ content)
    (hblank : part [] = r.blank)
    (hsteps : ∀ k ∈ r.keys, ∀ x y, (k, y) ∈ ms → inside k y x → ∀ seen,
      r.step k x (part seen) = .ok (part (k :: seen)))
    (hfinish : ∀ seen, (∀ k ∈ r.keys, ∀ y, (k, y) ∈ ms → k ∈ seen ∨ Json.default? k = some y) →
      r.finish .missingField (part seen) = .ok whole) :
    r.read (.object content) = .ok whole := by
  have honce : Json.KnownOnce r.keys content :=
    ((h.knownOnce hdistinct).imp fun hne hkey => hne (hknown hkey)).sublist hcontent
  obtain ⟨seen, hread, -, hkeys⟩ := r.members_eq part [] honce fun m hm hkey =>
    ⟨List.not_mem_nil, by
      obtain ⟨y, hy, hinside⟩ := h.exists_of_mem (hknown hkey) (hcontent.subset hm)
      exact hsteps m.1 hkey m.2 y hy hinside⟩
  rw [hblank] at hread
  refine Record.read_object hread (hfinish seen fun k hk y hy => ?_)
  refine (h.mem_or_default hy).imp_left fun hmem => hkeys k hk ?_
  obtain ⟨m, hm, rfl⟩ := List.mem_map.mp hmem
  exact List.mem_map_of_mem (hkept m hm hk)

private theorem Json.Reordered.single_inv {key : String} {x y : Json}
    (h : (Json.object [(key, x)]).Reordered y) :
    ∃ x', y = .object [(key, x')] ∧ x.Reordered x' := by
  cases h with
  | object order each =>
    obtain rfl := List.singleton_perm.mp order
    cases each with
    | cons hmember hrest =>
      cases hrest
      obtain ⟨hvalues⟩ := hmember
      exact ⟨_, rfl, hvalues⟩

private theorem Json.Reordered.string_inv {text : String} {y : Json}
    (h : (Json.string text).Reordered y) :
    y = .string text := by
  cases h
  rfl

private theorem Json.Reordered.array_inv {items : List Json} {y : Json}
    (h : (Json.array items).Reordered y) :
    ∃ items', y = .array items' ∧ List.Forall₂ Json.Reordered items items' := by
  cases h with
  | array each => exact ⟨_, rfl, each⟩

private theorem TypeRef.genericOfMembers_of_reordered {name : String} {xs : List Json}
    {args : List TypeRef}
    {y : Json} (h : (Json.object [("name", .string name), ("args", .array xs)]).Reordered y)
    (hargs : ∀ ys, List.Forall₂ Json.Reordered xs ys → ofJsonList ys = .ok args) :
    ∃ members, y = .object members ∧
      genericOfMembers members none none = .ok (.generic name args) := by
  cases h with
  | object order each =>
    rcases List.pair_perm.mp order with rfl | rfl
    · obtain _ | ⟨⟨hname⟩, _ | ⟨⟨hlist⟩, ⟨⟩⟩⟩ := each
      obtain rfl := hname.string_inv
      obtain ⟨ys, rfl, heach⟩ := hlist.array_inv
      refine ⟨_, rfl, ?_⟩
      simp [genericOfMembers, Json.string?, hargs ys heach, genericOf, bind, Except.bind]
    · obtain _ | ⟨⟨hlist⟩, _ | ⟨⟨hname⟩, ⟨⟩⟩⟩ := each
      obtain rfl := hname.string_inv
      obtain ⟨ys, rfl, heach⟩ := hlist.array_inv
      refine ⟨_, rfl, ?_⟩
      simp [genericOfMembers, Json.string?, hargs ys heach, genericOf, bind, Except.bind]

mutual
private theorem TypeRef.ofJson_of_reordered : ∀ (t : TypeRef) {y : Json}, t.toJson.Reordered y →
    TypeRef.ofJson y = .ok t
  | .primitive p, _, h => by
    obtain ⟨_, rfl, hname⟩ := h.single_inv
    obtain rfl := hname.string_inv
    cases p <;> rfl
  | .named name, _, h => by
    obtain ⟨_, rfl, hname⟩ := h.single_inv
    obtain rfl := hname.string_inv
    rfl
  | .parameter name, _, h => by
    obtain ⟨_, rfl, hname⟩ := h.single_inv
    obtain rfl := hname.string_inv
    rfl
  | .sequence inner, _, h => by
    obtain ⟨x, rfl, hinner⟩ := h.single_inv
    show (TypeRef.ofJson x >>= fun t => .ok (TypeRef.sequence t)) = _
    rw [ofJson_of_reordered inner hinner]
    rfl
  | .map inner, _, h => by
    obtain ⟨x, rfl, hinner⟩ := h.single_inv
    show (TypeRef.ofJson x >>= fun t => .ok (TypeRef.map t)) = _
    rw [ofJson_of_reordered inner hinner]
    rfl
  | .nullable inner, _, h => by
    obtain ⟨x, rfl, hinner⟩ := h.single_inv
    show (TypeRef.ofJson x >>= fun t => .ok (TypeRef.nullable t)) = _
    rw [ofJson_of_reordered inner hinner]
    rfl
  | .tuple elements, _, h => by
    obtain ⟨_, rfl, helements⟩ := h.single_inv
    obtain ⟨ys, rfl, heach⟩ := helements.array_inv
    show (TypeRef.ofJsonList ys >>= fun ts => .ok (TypeRef.tuple ts)) = _
    rw [ofJsonList_of_reordered elements heach]
    rfl
  | .generic name args, _, h => by
    obtain ⟨_, rfl, hcontent⟩ := h.single_inv
    obtain ⟨members, rfl, hread⟩ := genericOfMembers_of_reordered hcontent fun ys heach =>
      ofJsonList_of_reordered args heach
    exact hread

private theorem TypeRef.ofJsonList_of_reordered : ∀ (ts : List TypeRef) {ys : List Json},
    List.Forall₂ Json.Reordered (TypeRef.toJsonList ts) ys → TypeRef.ofJsonList ys = .ok ts
  | [], _, .nil => rfl
  | t :: ts, _, .cons hfirst hrest => by
    rw [ofJsonList, ofJson_of_reordered t hfirst, ofJsonList_of_reordered ts hrest]
    rfl
end

def FieldDraft.upTo (f : Field) (seen : List String) : FieldDraft where
  name := if "name" ∈ seen then some f.name else none
  type := if "ty" ∈ seen then some f.type else none
  required := if "required" ∈ seen then f.required else true

def Field.inside (key : String) : Json → Json → Prop := if key = "ty" then Json.Reordered else Eq

def Field.Presents : Json → Json → Prop := Json.Presents Field.record.keys Field.inside

private theorem Field.ofJson_of_presents (f : Field) (y : Json) (h : Field.Presents f.toJson y) :
    Field.ofJson y = .ok f := by
  cases h with
  | @object ms ms' h =>
    refine Record.read_of_edits (FieldDraft.upTo f) h (List.Subset.refl _)
      (by simp) (List.Sublist.refl _) (fun m hm _ => hm) rfl ?steps ?finish
    case steps =>
      intro k _ x y hmem hinside seen
      simp only [List.mem_cons, Prod.mk.injEq, List.not_mem_nil, or_false] at hmem
      rcases hmem with ⟨rfl, rfl⟩ | ⟨rfl, rfl⟩ | ⟨rfl, rfl⟩
      · obtain rfl : Json.string f.name = x := by simpa [inside] using hinside
        simp [record, FieldDraft.upTo, Json.string?, bind, Except.bind, pure, Except.pure]
      · have hread := f.type.ofJson_of_reordered (y := x) (by simpa [inside] using hinside)
        simp [record, FieldDraft.upTo, hread, bind, Except.bind, pure, Except.pure]
      · obtain rfl : Json.bool f.required = x := by simpa [inside] using hinside
        simp [record, FieldDraft.upTo, Json.bool?, bind, Except.bind, pure, Except.pure]
    case finish =>
      intro seen hpresent
      have hname : "name" ∈ seen := by simpa [Json.default?] using hpresent "name" (by decide)
      have htype : "ty" ∈ seen := by simpa [Json.default?] using hpresent "ty" (by decide)
      have hrequired : "required" ∈ seen ∨ f.required = true := by
        simpa [Json.default?] using hpresent "required" (by decide)
      have hpart : (if "required" ∈ seen then f.required else true) = f.required := by
        split
        · rfl
        · next hleft => exact (hrequired.resolve_left hleft).symm
      simp [record, FieldDraft.upTo, hname, htype, hpart, demand, bind, Except.bind, pure,
        Except.pure]

theorem ite_mem_eq_self {α : Type} {key : String} {seen : List String} {l : List α}
    (h : key ∈ seen ∨ l = []) : (if key ∈ seen then l else []) = l := by
  split
  · rfl
  · next hleft => exact (h.resolve_left hleft).symm

def VariantDraft.upTo (v : Variant) (seen : List String) : VariantDraft where
  tag := if "tag" ∈ seen then some v.tag else none
  fields := if "fields" ∈ seen then v.fields else []

def Variant.inside (key : String) : Json → Json → Prop :=
  if key = "fields" then Json.Each Field.Presents else Eq

def Variant.Presents : Json → Json → Prop := Json.Presents Variant.record.keys Variant.inside

private theorem Variant.ofJson_of_presents (v : Variant) (y : Json)
    (h : Variant.Presents v.toJson y) :
    Variant.ofJson y = .ok v := by
  obtain @⟨_, ms', h⟩ :
    Json.Presents record.keys inside (.object [("tag", .string v.tag),
      ("fields", .array (v.fields.map Field.toJson))]) y := h
  refine Record.read_of_edits (VariantDraft.upTo v) h (List.Subset.refl _)
    (by simp) (List.Sublist.refl _) (fun m hm _ => hm) rfl ?steps ?finish
  case steps =>
    intro k _ x y hmem hinside seen
    simp only [List.mem_cons, Prod.mk.injEq, List.not_mem_nil, or_false] at hmem
    rcases hmem with ⟨rfl, rfl⟩ | ⟨rfl, rfl⟩
    · obtain rfl : Json.string v.tag = x := by simpa [inside] using hinside
      simp [record, VariantDraft.upTo, Json.string?, bind, Except.bind, pure, Except.pure]
    · have hfields : Json.Each Field.Presents (.array (v.fields.map Field.toJson)) x := by
        simpa [inside] using hinside
      have hread := Json.list?_of_each Field.ofJson_of_presents hfields
      simp [record, VariantDraft.upTo, hread, bind, Except.bind, pure, Except.pure]
  case finish =>
    intro seen hpresent
    have htag : "tag" ∈ seen := by simpa [Json.default?] using hpresent "tag" (by decide)
    have hfields : "fields" ∈ seen ∨ v.fields = [] := by
      simpa [Json.default?] using hpresent "fields" (by decide)
    simp [record, VariantDraft.upTo, htag, ite_mem_eq_self hfields, demand, bind, Except.bind, pure,
      Except.pure]

def DefinitionDraft.upTo (whole : DefinitionDraft) (seen : List String) : DefinitionDraft where
  name := if "name" ∈ seen then whole.name else none
  params := if "params" ∈ seen then whole.params else []
  fields := if "fields" ∈ seen then whole.fields else []
  variants := if "variants" ∈ seen then whole.variants else []
  members := if "members" ∈ seen then whole.members else []
  target := if "ty" ∈ seen then whole.target else none

namespace DefinitionDraft

variable (whole : DefinitionDraft) {seen : List String} {x : Json}

private theorem step_upTo_name {name : String} (h : whole.name = some name) :
    step "name" (.string name) (whole.upTo seen) = .ok (whole.upTo ("name" :: seen)) := by
  simp [step, upTo, h, Json.string?, bind, Except.bind, pure, Except.pure]

private theorem step_upTo_params :
    step "params" (.array (whole.params.map .string)) (whole.upTo seen) =
    .ok (whole.upTo ("params" :: seen)) := by
  simp [step_params, upTo]

private theorem step_upTo_fields (h : x.list? Field.ofJson = .ok whole.fields) :
    step "fields" x (whole.upTo seen) = .ok (whole.upTo ("fields" :: seen)) := by
  simp [step, upTo, h, bind, Except.bind, pure, Except.pure]

private theorem step_upTo_variants (h : x.list? Variant.ofJson = .ok whole.variants) :
    step "variants" x (whole.upTo seen) = .ok (whole.upTo ("variants" :: seen)) := by
  simp [step, upTo, h, bind, Except.bind, pure, Except.pure]

private theorem step_upTo_members :
    step "members" (.array (whole.members.map .string)) (whole.upTo seen) =
    .ok (whole.upTo ("members" :: seen)) := by
  simp [step_members, upTo]

private theorem step_upTo_target {t : TypeRef} (h : whole.target = some t)
    (hread : TypeRef.ofJson x = .ok t) :
    step "ty" x (whole.upTo seen) = .ok (whole.upTo ("ty" :: seen)) := by
  simp [step, upTo, h, hread, bind, Except.bind, pure, Except.pure]

end DefinitionDraft

def Kind.keys : Kind → List String
  | .struct => Struct.record.keys
  | .union => Union.record.keys
  | .enum => Enum.record.keys
  | .alias => Alias.record.keys

namespace Definition

def draft : Definition → DefinitionDraft
  | .struct s => { name := some s.name, params := s.params, fields := s.fields }
  | .union u => { name := some u.name, variants := u.variants }
  | .enum e => { name := some e.name, members := e.members }
  | .alias a => { name := some a.name, params := a.params, target := some a.target }

def inside (key : String) : Json → Json → Prop :=
  if key = "fields" then Json.Each Field.Presents
  else if key = "variants" then Json.Each Variant.Presents
  else if key = "ty" then Json.Reordered
  else Eq

theorem mem_paramsContent_iff {params : List String} {m : String × Json} :
    m ∈ paramsContent params ↔ params ≠ [] ∧ m = ("params", .array (params.map .string)) := by
  cases params <;> simp [paramsContent]

private theorem step_upTo (d : Definition) {key : String} {x y : Json} (hmem : (key, y) ∈ d.content)
    (hinside : inside key y x) (seen : List String) :
    DefinitionDraft.step key x (d.draft.upTo seen) = .ok (d.draft.upTo (key :: seen)) := by
  cases d with
  | struct s =>
    simp only [content, List.cons_append, List.mem_cons, List.mem_append, mem_paramsContent_iff,
      Prod.mk.injEq, List.not_mem_nil, or_false] at hmem
    rcases hmem with ⟨rfl, rfl⟩ | ⟨-, rfl, rfl⟩ | ⟨rfl, rfl⟩
    · obtain rfl : Json.string s.name = x := by simpa [inside] using hinside
      exact DefinitionDraft.step_upTo_name _ rfl
    · obtain rfl : Json.array (s.params.map .string) = x := by simpa [inside] using hinside
      exact DefinitionDraft.step_upTo_params (struct s).draft
    · have hfields : Json.Each Field.Presents (.array (s.fields.map Field.toJson)) x := by
        simpa [inside] using hinside
      exact DefinitionDraft.step_upTo_fields _ (Json.list?_of_each Field.ofJson_of_presents hfields)
  | union u =>
    simp only [content, List.mem_cons, Prod.mk.injEq, List.not_mem_nil, or_false] at hmem
    rcases hmem with ⟨rfl, rfl⟩ | ⟨rfl, rfl⟩
    · obtain rfl : Json.string u.name = x := by simpa [inside] using hinside
      exact DefinitionDraft.step_upTo_name _ rfl
    · have hvariants : Json.Each Variant.Presents (.array (u.variants.map Variant.toJson)) x := by
        simpa [inside] using hinside
      exact DefinitionDraft.step_upTo_variants _
        (Json.list?_of_each Variant.ofJson_of_presents hvariants)
  | enum e =>
    simp only [content, List.mem_cons, Prod.mk.injEq, List.not_mem_nil, or_false] at hmem
    rcases hmem with ⟨rfl, rfl⟩ | ⟨rfl, rfl⟩
    · obtain rfl : Json.string e.name = x := by simpa [inside] using hinside
      exact DefinitionDraft.step_upTo_name _ rfl
    · obtain rfl : Json.array (e.members.map .string) = x := by simpa [inside] using hinside
      exact DefinitionDraft.step_upTo_members (enum e).draft
  | «alias» a =>
    simp only [content, List.cons_append, List.mem_cons, List.mem_append, mem_paramsContent_iff,
      Prod.mk.injEq, List.not_mem_nil, or_false] at hmem
    rcases hmem with ⟨rfl, rfl⟩ | ⟨-, rfl, rfl⟩ | ⟨rfl, rfl⟩
    · obtain rfl : Json.string a.name = x := by simpa [inside] using hinside
      exact DefinitionDraft.step_upTo_name _ rfl
    · obtain rfl : Json.array (a.params.map .string) = x := by simpa [inside] using hinside
      exact DefinitionDraft.step_upTo_params («alias» a).draft
    · exact DefinitionDraft.step_upTo_target _ rfl
        (a.target.ofJson_of_reordered (by simpa [inside] using hinside))

/-- The keys read make up the definition if every key of it was read or is left out. -/
def Complete (d : Definition) (seen : List String) : Prop :=
  ∀ key y, (key, y) ∈ d.content → key ∈ seen ∨ Json.default? key = some y

namespace Complete

variable {seen : List String}

private theorem name_mem {d : Definition} (h : d.Complete seen) : "name" ∈ seen := by
  have hname : ("name", .string d.name) ∈ d.content := by cases d <;> simp [content, name]
  simpa [Json.default?] using h _ _ hname

private theorem params {d : Definition} (h : d.Complete seen) (params : List String)
    (hmem : ∀ m ∈ paramsContent params, m ∈ d.content) : "params" ∈ seen ∨ params = [] := by
  by_cases hnone : params = []
  · exact .inr hnone
  · simpa [Json.default?] using h _ _ (hmem _ (mem_paramsContent_iff.mpr ⟨hnone, rfl⟩))

private theorem items {α : Type} {d : Definition} (h : d.Complete seen) (key : String)
    (write : α → Json) (items : List α) (hmem : (key, .array (items.map write)) ∈ d.content)
    (hkey : Json.default? key = some (.array [])) : key ∈ seen ∨ items = [] := by
  simpa [hkey] using h _ _ hmem

end Complete

/-- A definition is read from a presentation of its members, less some that are not of its keys. -/
theorem ofContent_of_edits (d : Definition) {known : List String}
    {ms ms' content : List (String × Json)} (h : Json.Edits known inside ms ms')
    (hknown : d.kind.keys ⊆ known) (hdistinct : (ms.map Prod.fst).Nodup)
    (hms : ∀ m, m ∈ d.content ↔ m ∈ ms ∧ m.1 ∈ d.kind.keys)
    (hcontent : content.Sublist ms') (hkept : ∀ m ∈ ms', m.1 ∈ d.kind.keys → m ∈ content) :
    Definition.ofContent d.kind (.object content) = .ok d := by
  have hsteps : ∀ k ∈ d.kind.keys, ∀ x y, (k, y) ∈ ms → inside k y x → ∀ seen,
      DefinitionDraft.step k x (d.draft.upTo seen) = .ok (d.draft.upTo (k :: seen)) :=
    fun k hk x y hmem hinside => d.step_upTo ((hms (k, y)).mpr ⟨hmem, hk⟩) hinside
  have hcomplete {seen : List String} (hpresent : ∀ k ∈ d.kind.keys, ∀ y, (k, y) ∈ ms →
      k ∈ seen ∨ Json.default? k = some y) : d.Complete seen := fun key y hmem =>
    have ⟨hms, hkey⟩ := (hms (key, y)).mp hmem
    hpresent key hkey y hms
  cases d with
  | struct s =>
    have hread : Struct.record.read (.object content) = .ok s := by
      refine Record.read_of_edits (struct s).draft.upTo h hknown hdistinct hcontent hkept rfl hsteps
        fun seen hpresent => ?_
      have hseen := hcomplete hpresent
      have hparams := hseen.params s.params (by simp +contextual [Definition.content])
      have hfields := hseen.items "fields" Field.toJson s.fields
        (by simp [Definition.content]) rfl
      simp [Struct.record, DefinitionDraft.upTo, draft, hseen.name_mem, ite_mem_eq_self hparams,
        ite_mem_eq_self hfields, demand, bind, Except.bind, pure, Except.pure]
    simp only [ofContent, kind, hread, bind, Except.bind, pure, Except.pure]
  | union u =>
    have hread : Union.record.read (.object content) = .ok u := by
      refine Record.read_of_edits (union u).draft.upTo h hknown hdistinct hcontent hkept rfl hsteps
        fun seen hpresent => ?_
      have hseen := hcomplete hpresent
      have hvariants := hseen.items "variants" Variant.toJson u.variants
        (by simp [Definition.content]) rfl
      simp [Union.record, DefinitionDraft.upTo, draft, hseen.name_mem, ite_mem_eq_self hvariants,
        demand, bind, Except.bind, pure, Except.pure]
    simp only [ofContent, kind, hread, bind, Except.bind, pure, Except.pure]
  | enum e =>
    have hread : Enum.record.read (.object content) = .ok e := by
      refine Record.read_of_edits (enum e).draft.upTo h hknown hdistinct hcontent hkept rfl hsteps
        fun seen hpresent => ?_
      have hseen := hcomplete hpresent
      have hmembers := hseen.items "members" .string e.members
        (by simp [Definition.content]) rfl
      simp [Enum.record, DefinitionDraft.upTo, draft, hseen.name_mem, ite_mem_eq_self hmembers,
        demand, bind, Except.bind, pure, Except.pure]
    simp only [ofContent, kind, hread, bind, Except.bind, pure, Except.pure]
  | «alias» a =>
    have hread : Alias.record.read (.object content) = .ok a := by
      refine Record.read_of_edits («alias» a).draft.upTo h hknown hdistinct hcontent hkept rfl
        hsteps fun seen hpresent => ?_
      have hseen := hcomplete hpresent
      have hparams := hseen.params a.params (by simp +contextual [Definition.content])
      have htarget : "ty" ∈ seen := by
        simpa [Json.default?] using hseen "ty" a.target.toJson (by simp [Definition.content])
      simp [Alias.record, DefinitionDraft.upTo, draft, hseen.name_mem, ite_mem_eq_self hparams,
        htarget, demand, bind, Except.bind, pure, Except.pure]
    simp only [ofContent, kind, hread, bind, Except.bind, pure, Except.pure]

end Definition

end SchemaGuard
