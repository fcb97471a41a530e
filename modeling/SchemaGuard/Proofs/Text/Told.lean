import SchemaGuard.Proofs.Json.Layout
import SchemaGuard.Proofs.Script.Spelling
import SchemaGuard.Script.Type

/-!
Texts told apart by what they say. Where two texts go on with any rests of a kind and are equal as a
whole, they have to say the same, and the rests are equal as well. Texts that are made of such texts
in a row are told apart if each part goes on in a way that it allows.
-/

set_option autoImplicit false
set_option relaxedAutoImplicit false

namespace SchemaGuard.Text

/-- In front of rests that `ends` allows, the texts are equal only if `same` holds, and then so are
the rests. -/
def Told (ends : List Char → Prop) (s s' : List Char) (same : Prop) : Prop :=
  ∀ rest rest', ends rest → ends rest' → s ++ rest = s' ++ rest' → same ∧ rest = rest'

namespace Told

variable {ends inner : List Char → Prop} {s s' t t' : List Char} {same same' : Prop}

theorem refl (ends : List Char → Prop) (s : List Char) : Told ends s s True :=
  fun _ _ _ _ h => ⟨trivial, List.append_cancel_left h⟩

theorem imp (h : Told ends s s' same) (himp : same → same') : Told ends s s' same' :=
  fun rest rest' hrest hrest' heq => (h rest rest' hrest hrest' heq).imp_left himp

theorem mono (h : Told inner s s' same) (hends : ∀ rest, ends rest → inner rest) :
    Told ends s s' same :=
  fun rest rest' hrest hrest' heq => h rest rest' (hends rest hrest) (hends rest' hrest') heq

theorem of_heads {c c' : Char} (hs : s.head? = some c) (hs' : s'.head? = some c') (hne : c ≠ c') :
    Told ends s s' same := by
  intro rest rest' _ _ heq
  have hhead := congrArg List.head? heq
  rw [List.head?_append, List.head?_append, hs, hs'] at hhead
  exact absurd (Option.some.inj hhead) hne

theorem of_empty (h : ∀ rest, ¬ ends (s ++ rest)) : Told ends [] s same := by
  intro rest rest' hrest _ heq
  obtain rfl : rest = s ++ rest' := heq
  exact absurd hrest (h rest')

theorem symm (h : Told ends s s' same) : Told ends s' s same :=
  fun rest rest' hrest hrest' heq =>
    (h rest' rest hrest' hrest heq.symm).imp_right Eq.symm

theorem append (h : Told inner s s' same) (h' : Told ends t t' same')
    (ht : ∀ rest, ends rest → inner (t ++ rest)) (ht' : ∀ rest, ends rest → inner (t' ++ rest)) :
    Told ends (s ++ t) (s' ++ t') (same ∧ same') := by
  intro rest rest' hrest hrest' heq
  rw [List.append_assoc, List.append_assoc] at heq
  obtain ⟨hsame, heq⟩ := h _ _ (ht rest hrest) (ht' rest' hrest') heq
  obtain ⟨hsame', heq⟩ := h' rest rest' hrest hrest' heq
  exact ⟨⟨hsame, hsame'⟩, heq⟩

theorem lead (s : List Char) (h : Told ends t t' same) : Told ends (s ++ t) (s ++ t') same :=
  ((refl (fun _ => True) s).append h (fun _ _ => trivial) fun _ _ => trivial).imp And.right

theorem close {last : List Char} (h : Told (last <+: ·) s s' same) :
    Told ends (s ++ last) (s' ++ last) same :=
  (h.append (refl ends last) (fun rest _ => List.prefix_append last rest)
    fun rest _ => List.prefix_append last rest).imp And.left

section

variable {α β : Type} {text : α → List Char} {view : α → β}

theorem of_lists (text : List α → List Char) (view : List α → β) {xs ys : List α}
    (hxs : xs ≠ [] → Told ends (text []) (text xs) False)
    (hys : ys ≠ [] → Told ends (text []) (text ys) False)
    (h : xs ≠ [] → ys ≠ [] → Told ends (text xs) (text ys) (view xs = view ys)) :
    Told ends (text xs) (text ys) (view xs = view ys) := by
  cases xs with
  | nil =>
    cases ys with
    | nil => exact (refl ends (text [])).imp fun _ => rfl
    | cons y ys => exact (hys (List.cons_ne_nil y ys)).imp False.elim
  | cons x xs =>
    cases ys with
    | nil => exact (hxs (List.cons_ne_nil x xs)).symm.imp False.elim
    | cons y ys => exact h (List.cons_ne_nil x xs) (List.cons_ne_nil y ys)

theorem flatMap {xs ys : List α}
    (hitem : ∀ x ∈ xs, ∀ y ∈ ys, Told inner (text x) (text y) (view x = view y))
    (hnext : ∀ x rest, inner (text x ++ rest)) (hend : ∀ rest, ends rest → inner rest)
    (hstop : ∀ x rest, ¬ ends (text x ++ rest)) :
    Told ends (xs.flatMap text) (ys.flatMap text) (xs.map view = ys.map view) := by
  have follows : ∀ (zs : List α) (rest : List Char), ends rest →
      inner (zs.flatMap text ++ rest) := by
    intro zs rest hrest
    cases zs with
    | nil => exact hend rest hrest
    | cons z zs =>
      rw [List.flatMap_cons, List.append_assoc]
      exact hnext z _
  -- Where one list ends before the other, a rest would have to begin with an item.
  induction xs generalizing ys with
  | nil =>
    cases ys with
    | nil => exact (refl ends []).imp fun _ => rfl
    | cons y ys =>
      intro rest rest' hrest _ heq
      rw [List.flatMap_nil, List.nil_append, List.flatMap_cons, List.append_assoc] at heq
      exact absurd (heq ▸ hrest) (hstop y _)
  | cons x xs ih =>
    cases ys with
    | nil =>
      intro rest rest' _ hrest' heq
      rw [List.flatMap_nil, List.nil_append, List.flatMap_cons, List.append_assoc] at heq
      exact absurd (heq ▸ hrest') (hstop x _)
    | cons y ys =>
      have hrest := ih fun x' hx' y' hy' =>
        hitem x' (List.mem_cons_of_mem x hx') y' (List.mem_cons_of_mem y hy')
      have hboth := (hitem x List.mem_cons_self y List.mem_cons_self).append hrest
        (follows xs) (follows ys)
      exact hboth.imp fun ⟨hx, hxs⟩ => List.cons_eq_cons.mpr ⟨hx, hxs⟩

private theorem intercalate_cons (sep s : List Char) (rest : List (List Char)) :
    sep.intercalate (s :: rest) = s ++ rest.flatMap (sep ++ ·) := by
  induction rest generalizing s with
  | nil => simp [List.intercalate]
  | cons t rest ih =>
    have htail := ih t
    simp only [List.intercalate, List.intersperse, List.flatten_cons] at htail ⊢
    rw [htail, List.flatMap_cons, List.append_assoc]

theorem intercalate {sep : List Char} {xs ys : List α} (hxs : xs ≠ []) (hys : ys ≠ [])
    (hitem : ∀ x ∈ xs, ∀ y ∈ ys, Told inner (text x) (text y) (view x = view y))
    (hnext : ∀ rest, inner (sep ++ rest)) (hend : ∀ rest, ends rest → inner rest)
    (hstop : ∀ rest, ¬ ends (sep ++ rest)) :
    Told ends (sep.intercalate (xs.map text)) (sep.intercalate (ys.map text))
      (xs.map view = ys.map view) := by
  obtain ⟨x, xs, rfl⟩ := List.exists_cons_of_ne_nil hxs
  obtain ⟨y, ys, rfl⟩ := List.exists_cons_of_ne_nil hys
  have follows : ∀ (zs : List α) (rest : List Char), ends rest →
      inner (zs.flatMap (fun z => sep ++ text z) ++ rest) := by
    intro zs rest hrest
    cases zs with
    | nil => exact hend rest hrest
    | cons z zs =>
      rw [List.flatMap_cons, List.append_assoc, List.append_assoc]
      exact hnext _
  have hmore : Told ends (xs.flatMap fun x => sep ++ text x) (ys.flatMap fun y => sep ++ text y)
      (xs.map view = ys.map view) := by
    have hlead : ∀ x ∈ xs, ∀ y ∈ ys, Told inner (sep ++ text x) (sep ++ text y) (view x = view y) :=
      fun x' hx' y' hy' =>
        (hitem x' (List.mem_cons_of_mem x hx') y' (List.mem_cons_of_mem y hy')).lead sep
    refine flatMap hlead (fun x rest => ?_) hend fun x rest => ?_
    · rw [List.append_assoc]
      exact hnext _
    · rw [List.append_assoc]
      exact hstop _
  have hboth := (hitem x List.mem_cons_self y List.mem_cons_self).append hmore (follows xs)
    (follows ys)
  rw [List.map_cons, List.map_cons, intercalate_cons, intercalate_cons, List.flatMap_map,
    List.flatMap_map]
  exact hboth.imp fun ⟨hx, hxs⟩ => List.cons_eq_cons.mpr ⟨hx, hxs⟩

end

end Told

def EndsName (rest : List Char) : Prop := ∀ c ∈ rest.head?, Identifier.isPart c = false

theorem told_name {x y : String} (hx : Identifier.isPlain x = true)
    (hy : Identifier.isPlain y = true) : Told EndsName x.toList y.toList (x = y) := by
  have run : ∀ {name : String} {rest : List Char}, Identifier.isPlain name = true →
      EndsName rest → (name.toList ++ rest).takeWhile Identifier.isPart = name.toList := by
    intro name rest hname hrest
    rw [List.takeWhile_append_of_pos (Identifier.isPart_of_isPlain hname)]
    cases rest with
    | nil => simp
    | cons c rest => simp [hrest c rfl]
  intro rest rest' hrest hrest' heq
  have hsame : x.toList = y.toList := by rw [← run hx hrest, heq, run hy hrest']
  exact ⟨String.toList_inj.mp hsame, List.append_cancel_left (hsame ▸ heq)⟩

theorem toList_quoted (s : String) :
    (quoted s).toList = '"' :: s.toList.flatMap escaped ++ ['"'] := by
  rw [quoted, String.toList_ofList]

/-- A literal shows where it ends, whatever its text holds. -/
theorem told_quoted (ends : List Char → Prop) (s s' : String) :
    Told ends (quoted s).toList (quoted s').toList (s = s') := by
  intro rest rest' _ _ heq
  simp only [toList_quoted, List.cons_append, List.append_assoc, List.nil_append,
    List.cons.injEq, true_and] at heq
  obtain ⟨stop, hread⟩ := @Token.Scan.literal_text 0 0 [] rest s.toList
  obtain ⟨stop', hread'⟩ := @Token.Scan.literal_text 0 0 [] rest' s'.toList
  have hends := hread.symm.trans (heq ▸ hread')
  obtain ⟨hs, -, hrest⟩ := Token.Scan.Literal.ended.inj hends
  exact ⟨String.toList_inj.mp (by simpa using hs), hrest⟩

theorem told_key (x y : String) :
    Told EndsName (Script.key x).toList (Script.key y).toList (x = y) := by
  have apart : ∀ {x : String} (y : String), Identifier.isPlain x = true →
      ∃ c c', x.toList.head? = some c ∧ (quoted y).toList.head? = some c' ∧ c ≠ c' := by
    intro x y hx
    obtain ⟨c, rest, hlist, hc, _⟩ := Identifier.isPlain_iff.mp hx
    refine ⟨c, '"', by rw [hlist, List.head?_cons], by rw [toList_quoted]; rfl, ?_⟩
    rintro rfl
    cases hc
  unfold Script.key
  split <;> split
  · next hx hy => exact told_name hx hy
  · next hx _ =>
    obtain ⟨c, c', hc, hc', hne⟩ := apart y hx
    exact .of_heads hc hc' hne
  · next _ hy =>
    obtain ⟨c, c', hc, hc', hne⟩ := apart x hy
    exact .of_heads hc' hc hne.symm
  · exact told_quoted _ x y

end SchemaGuard.Text
