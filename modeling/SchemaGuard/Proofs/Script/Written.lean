import SchemaGuard.Proofs.Resolution.Legal
import SchemaGuard.Proofs.Script.Lines
import SchemaGuard.Proofs.Text.Told

/-!
Types told apart by their spelling. A type is spelt as a stem, which shows by its first character
what it is and where it ends, with marks for lists and null behind it. So the spelling tells
everything about a reference but what is written in the same way: bytes and lists of numbers,
parameters and types of one name, and names with and without an empty list of arguments.
-/

set_option autoImplicit false
set_option relaxedAutoImplicit false

namespace SchemaGuard

open Text (Told)

namespace TypeRef

mutual
/-- The reference with all that is written in one way made one: bytes are a sequence of numbers, and
a parameter or a generic name without arguments is a name. -/
def written : TypeRef → TypeRef
  | .primitive .bytes => .sequence (.primitive .number)
  | .primitive p => .primitive p
  | .named name | .parameter name | .generic name [] => .named name
  | .generic name args => .generic name (writtenAll args)
  | .sequence inner => .sequence inner.written
  | .map inner => .map inner.written
  | .tuple elements => .tuple (writtenAll elements)
  | .nullable inner => .nullable inner.written

def writtenAll : List TypeRef → List TypeRef
  | [] => []
  | t :: ts => t.written :: writtenAll ts
end

mutual
def names : TypeRef → List String
  | .primitive _ => []
  | .named name | .parameter name => [name]
  | .generic name args => name :: namesOfAll args
  | .tuple elements => namesOfAll elements
  | .sequence inner | .map inner | .nullable inner => inner.names

def namesOfAll : List TypeRef → List String
  | [] => []
  | t :: ts => t.names ++ namesOfAll ts
end

/-- All names in the reference can be names of types. -/
def IsUsable (t : TypeRef) : Prop := ∀ name ∈ t.names, Identifier.isUsable name

private theorem writtenAll_eq_map (ts : List TypeRef) : writtenAll ts = ts.map written := by
  induction ts with
  | nil => rfl
  | cons t ts ih => rw [writtenAll, ih, List.map_cons]

private theorem mem_namesOfAll {ts : List TypeRef} {name : String} :
    name ∈ namesOfAll ts ↔ ∃ t ∈ ts, name ∈ t.names := by
  induction ts with
  | nil => simp [namesOfAll]
  | cons t ts ih => simp [namesOfAll, ih]

private theorem isUsable_all {ts : List TypeRef}
    (h : ∀ name ∈ namesOfAll ts, Identifier.isUsable name) : ∀ t ∈ ts, t.IsUsable :=
  fun t ht name hname => h name (mem_namesOfAll.mpr ⟨t, ht, hname⟩)

theorem IsLegal.isUsable {s : Schema} (w : s.WellFormed) {params : List String}
    (hparams : ∀ p ∈ params, Identifier.isUsable p) {t : TypeRef} (ht : t.IsLegal s params) :
    t.IsUsable := by
  have usable : ∀ {name found}, s.Names params name found → Identifier.isUsable name :=
    fun ⟨_, d, hd, hname, _⟩ => hname ▸ w.typeNames d hd
  have all : ∀ {ts : List TypeRef}, (∀ t ∈ ts, t.IsUsable) →
      ∀ name ∈ namesOfAll ts, Identifier.isUsable name := fun hts name hname => by
    obtain ⟨t, ht, hname⟩ := mem_namesOfAll.mp hname
    exact hts t ht name hname
  induction t with
  | primitive p => simp [IsUsable, names]
  | named name => simpa [IsUsable, names] using usable ht.named
  | generic name args ih =>
    obtain ⟨hname, hargs⟩ := ht.generic
    exact List.forall_mem_cons.mpr ⟨usable hname, all fun t ht => ih t ht (hargs t ht)⟩
  | sequence inner ih => exact ih ht.sequence
  | parameter name => simpa [IsUsable, names] using hparams name ht.parameter
  | map inner ih => exact ih ht.map
  | tuple elements ih => exact all fun t ht' => ih t ht' (ht.tuple t ht')
  | nullable inner ih => exact ih ht.nullable

/-- A type without the marks behind it. -/
inductive Stem where
  | word (name : String) (args : List TypeRef)
  | map (value : TypeRef)
  | tuple (elements : List TypeRef)
  | group (inner : TypeRef)

/-- What makes a type of the type before it. -/
inductive Mark where
  | list
  | null

private def stem : TypeRef → Stem
  | .primitive .bytes => .word "number" []
  | .primitive p => .word p.name []
  | .named name | .parameter name => .word name []
  | .generic name args => .word name args
  | .sequence (.nullable inner) => .group (.nullable inner)
  | .sequence inner => inner.stem
  | .map inner => .map inner
  | .tuple elements => .tuple elements
  | .nullable inner => inner.stem

def marks : TypeRef → List Mark
  | .primitive .bytes | .sequence (.nullable _) => [.list]
  | .sequence inner => inner.marks ++ [.list]
  | .nullable inner => inner.marks ++ [.null]
  | .primitive _ | .named _ | .parameter _ | .generic .. | .map _ | .tuple _ => []

/-- Arguments in angle brackets, if there are any. -/
def argumentsText (args : List TypeRef) : String :=
  if args.isEmpty then "" else "<" ++ spellings args ++ ">"

namespace Stem

def text : Stem → String
  | .word name args => name ++ argumentsText args
  | .map value => "\x7b [key: string]: " ++ value.spelling ++ " \x7d"
  | .tuple elements => "[" ++ spellings elements ++ "]"
  | .group inner => "(" ++ inner.spelling ++ ")"

@[simp] private theorem text_word (name : String) (args : List TypeRef) :
    text (.word name args) = name ++ argumentsText args := rfl

@[simp] private theorem text_map (value : TypeRef) :
    text (.map value) = "\x7b [key: string]: " ++ value.spelling ++ " \x7d" := rfl

@[simp] private theorem text_tuple (elements : List TypeRef) :
    text (.tuple elements) = "[" ++ spellings elements ++ "]" := rfl

@[simp] private theorem text_group (inner : TypeRef) :
    text (.group inner) = "(" ++ inner.spelling ++ ")" := rfl

def parts : Stem → List TypeRef
  | .word _ ts | .tuple ts => ts
  | .map t | .group t => [t]

def written : Stem → TypeRef
  | .word name [] => ((Primitive.ofName? name).map .primitive).getD (.named name)
  | .word name args => .generic name (writtenAll args)
  | .map value => .map value.written
  | .tuple elements => .tuple (writtenAll elements)
  | .group inner => inner.written

end Stem

namespace Mark

def text : Mark → String
  | .list => "[]"
  | .null => " | null"

def apply (t : TypeRef) : Mark → TypeRef
  | .list => .sequence t
  | .null => .nullable t

end Mark

private theorem sequence_cases (inner : TypeRef) :
    (∃ t, inner = nullable t) ∨ (∀ t, inner ≠ nullable t) ∧
      (sequence inner).spelling = inner.spelling ++ "[]" ∧ (sequence inner).stem = inner.stem ∧
        (sequence inner).marks = inner.marks ++ [.list] := by
  cases inner with
  | nullable t => exact .inl ⟨t, rfl⟩
  | _ => exact .inr ⟨nofun, rfl, rfl, rfl⟩

private theorem join_concat (marks : List Mark) (mark : Mark) :
    String.join ((marks ++ [mark]).map Mark.text)
      = String.join (marks.map Mark.text) ++ mark.text := by
  simp

private theorem spelling_eq (t : TypeRef) :
    t.spelling = t.stem.text ++ String.join (t.marks.map Mark.text) := by
  have bare : ∀ text : String, text = text ++ String.join [] := by simp
  have name : ∀ name : String, name = name ++ "" ++ String.join [] := by simp
  induction t with
  | primitive p =>
    cases p with
    | bytes => exact (by decide : "number[]" = "number" ++ "" ++ String.join ["[]"])
    | _ => exact name _
  | named x | parameter x => exact name x
  | generic x args =>
    cases args with
    | nil => exact name x
    | cons t ts =>
      change x ++ "<" ++ spellings (t :: ts) ++ ">"
        = x ++ ("<" ++ spellings (t :: ts) ++ ">") ++ String.join []
      simp only [String.append_assoc, String.join_nil, String.append_empty]
  | sequence inner ih =>
    rcases sequence_cases inner with ⟨t, rfl⟩ | ⟨_, hspelling, hstem, hmarks⟩
    · change "(" ++ t.spelling ++ " | null)[]"
        = "(" ++ (t.spelling ++ " | null") ++ ")" ++ String.join ["[]"]
      simp [← String.toList_inj]
    · rw [hspelling, hstem, hmarks, join_concat, ih, String.append_assoc]
      rfl
  | map inner => exact bare _
  | tuple elements => exact bare _
  | nullable inner ih =>
    change inner.spelling ++ " | null" = inner.stem.text ++
      String.join ((inner.marks ++ [Mark.null]).map Mark.text)
    rw [join_concat, ih, String.append_assoc]
    rfl

private theorem ofName?_eq_none {name : String} (h : Identifier.isUsable name) :
    Primitive.ofName? name = none := by
  have hreserved : ∀ p ∈ Primitive.all, Identifier.isUsable p.name = false := by decide
  refine List.find?_eq_none.mpr fun p hp heq => ?_
  rw [← eq_of_beq heq, hreserved p hp] at h
  cases h

private theorem written_word {name : String} (h : Identifier.isUsable name) :
    (Stem.word name []).written = .named name := by
  rw [Stem.written, ofName?_eq_none h]
  rfl

private theorem written_eq {t : TypeRef} (ht : t.IsUsable) :
    t.written = t.marks.foldl Mark.apply t.stem.written := by
  induction t with
  | primitive p => cases p <;> rfl
  | named name | parameter name => exact (written_word (ht name (by simp [names]))).symm
  | generic name args =>
    cases args with
    | nil => exact (written_word (ht name (by simp [names]))).symm
    | cons t ts => rfl
  | sequence inner ih =>
    rcases sequence_cases inner with ⟨t, rfl⟩ | ⟨_, _, hstem, hmarks⟩
    · rfl
    · rw [written, hstem, hmarks, List.foldl_append, ← ih ht]
      rfl
  | map inner => rfl
  | tuple elements => rfl
  | nullable inner ih =>
    rw [written, ih ht, marks, List.foldl_append]
    rfl

/-- No type goes on with the rest. -/
inductive EndsType : List Char → Prop
  | nil : EndsType []
  | mark {c : Char} {rest : List Char} : c ∈ [',', '>', ']', ')', ';'] → EndsType (c :: rest)
  | brace {rest : List Char} : EndsType (' ' :: '\x7d' :: rest)

private def EndsStem (rest : List Char) : Prop :=
  ∀ c ∈ rest.head?, Identifier.isPart c = false ∧ c ≠ '<'

private theorem EndsType.endsStem {rest : List Char} (h : EndsType rest) : EndsStem rest := by
  cases h with
  | nil => nofun
  | mark hc =>
    simp only [List.mem_cons, List.not_mem_nil, or_false] at hc
    rcases hc with rfl | rfl | rfl | rfl | rfl <;> simp +decide [EndsStem]
  | brace => simp +decide [EndsStem]

namespace Stem

def IsPlain : Stem → Prop
  | .word name _ => Identifier.isPlain name
  | .map _ | .tuple _ | .group _ => True

/-- The bracket at the beginning, or none if it is a name. -/
def opening : Stem → Option Char
  | .word .. => none
  | .map _ => some '\x7b'
  | .tuple _ => some '['
  | .group _ => some '('

private theorem exists_head {a : Stem} (ha : a.IsPlain) : ∃ c, a.text.toList.head? = some c ∧
    a.opening = if Identifier.isStart c then none else some c := by
  cases a with
  | word name args =>
    obtain ⟨c, rest, hname, hc, _⟩ := Identifier.isPlain_iff.mp ha
    exact ⟨c, by simp [hname], by simp [opening, hc]⟩
  | map t => exact ⟨'\x7b', by simp, rfl⟩
  | tuple ts => exact ⟨'[', by simp, rfl⟩
  | group t => exact ⟨'(', by simp, rfl⟩

end Stem

private theorem IsUsable.isPlain_stem {t : TypeRef} (ht : t.IsUsable) : t.stem.IsPlain := by
  have word : ∀ {name args}, Identifier.isUsable name → (Stem.word name args).IsPlain :=
    Identifier.isPlain_of_isUsable
  induction t with
  | primitive p => cases p <;> (change Identifier.isPlain _ = true; decide)
  | named name | parameter name => exact word (ht name (by simp [names]))
  | generic name args => exact word (ht name (by simp [names]))
  | sequence inner ih =>
    rcases sequence_cases inner with ⟨t, rfl⟩ | ⟨_, _, hstem, _⟩
    · trivial
    · rw [hstem]
      exact ih ht
  | map inner => trivial
  | tuple elements => trivial
  | nullable inner ih => exact ih ht

private theorem IsUsable.parts_stem {t : TypeRef} (ht : t.IsUsable) :
    ∀ p ∈ t.stem.parts, p.IsUsable := by
  induction t with
  | primitive p => cases p <;> nofun
  | named name | parameter name => nofun
  | generic name args => exact isUsable_all fun name hname => ht name (List.mem_cons_of_mem _ hname)
  | sequence inner ih =>
    rcases sequence_cases inner with ⟨t, rfl⟩ | ⟨_, _, hstem, _⟩
    · exact List.forall_mem_singleton.mpr ht
    · rw [hstem]
      exact ih ht
  | map inner => exact List.forall_mem_singleton.mpr ht
  | tuple elements => exact isUsable_all ht
  | nullable inner ih => exact ih ht

private theorem IsUsable.head_spelling {t : TypeRef} (ht : t.IsUsable) :
    ∃ c, t.spelling.toList.head? = some c ∧ c ≠ ']' := by
  obtain ⟨c, hc, hopening⟩ := Stem.exists_head ht.isPlain_stem
  refine ⟨c, by simp [spelling_eq, hc], ?_⟩
  rintro rfl
  cases hstem : t.stem <;> simp +decide [hstem, Stem.opening] at hopening

private theorem toList_spellings (ts : List TypeRef) :
    (spellings ts).toList = ", ".toList.intercalate (ts.map fun t => t.spelling.toList) := by
  induction ts with
  | nil => rfl
  | cons t ts ih =>
    cases ts with
    | nil => exact (List.append_nil _).symm
    | cons u us =>
      rw [spellings_cons, String.toList_append, String.toList_append, ih]
      simp [List.intercalate]

section

variable {ts us : List TypeRef}

variable (hparts : ∀ t ∈ ts, ∀ u ∈ us,
  Told EndsType t.spelling.toList u.spelling.toList (t.written = u.written))

include hparts

private theorem told_spellings (hts : ts ≠ []) (hus : us ≠ []) {last : Char}
    (hlast : last ∈ ['>', ']']) :
    Told ([last] <+: ·) (spellings ts).toList (spellings us).toList
      (writtenAll ts = writtenAll us) := by
  rw [toList_spellings, toList_spellings, writtenAll_eq_map, writtenAll_eq_map]
  refine .intercalate hts hus hparts (fun rest => .mark (by decide)) ?_ ?_
  · rintro _ ⟨rest, rfl⟩
    have hmarks : ['>', ']'] ⊆ [',', '>', ']', ')', ';'] := by decide
    exact .mark (hmarks hlast)
  · rintro rest ⟨rest', heq⟩
    obtain rfl : last = ',' := (List.cons.inj heq).1
    exact absurd hlast (by decide)

private theorem told_arguments :
    Told EndsStem (argumentsText ts).toList (argumentsText us).toList
      (writtenAll ts = writtenAll us) := by
  have bracketed : ∀ {ts}, ts ≠ [] →
      (argumentsText ts).toList = "<".toList ++ ((spellings ts).toList ++ ">".toList) := by
    intro ts hts
    simp [argumentsText, hts]
  have apart : ∀ {ts}, ts ≠ [] → Told EndsStem [] (argumentsText ts).toList False := by
    intro ts hts
    rw [bracketed hts]
    exact .of_empty fun rest hrest => (hrest '<' rfl).2 rfl
  refine .of_lists (fun ts => (argumentsText ts).toList) writtenAll apart apart fun hts hus => ?_
  rw [bracketed hts, bracketed hus]
  exact .lead _ (.close (told_spellings hparts hts hus (by decide)))

private theorem told_elements (hts : ∀ t ∈ ts, t.IsUsable) (hus : ∀ u ∈ us, u.IsUsable) :
    Told ("]".toList <+: ·) (spellings ts).toList (spellings us).toList
      (writtenAll ts = writtenAll us) := by
  have apart : ∀ {ts : List TypeRef}, (∀ t ∈ ts, t.IsUsable) → ts ≠ [] →
      Told ("]".toList <+: ·) [] (spellings ts).toList False := by
    intro ts husable hts
    obtain ⟨t, ts, rfl⟩ := List.exists_cons_of_ne_nil hts
    obtain ⟨c, hc, hne⟩ := (husable t List.mem_cons_self).head_spelling
    have hhead : (spellings (t :: ts)).toList.head? = some c := by
      rw [toList_spellings]
      cases ts <;> simp [List.intercalate, hc]
    refine .of_empty fun rest ⟨rest', heq⟩ => ?_
    have hsame := congrArg List.head? heq
    rw [List.head?_append, List.head?_append, hhead] at hsame
    exact hne (Option.some.inj hsame).symm
  exact .of_lists (fun ts => (spellings ts).toList) writtenAll (apart hts) (apart hus)
    fun hts hus => told_spellings hparts hts hus (by decide)

end

namespace Stem

variable {a b : Stem}

private theorem told_word {name name' : String} {args args' : List TypeRef}
    (ha : Identifier.isPlain name) (hb : Identifier.isPlain name')
    (hparts : ∀ t ∈ args, ∀ u ∈ args',
      Told EndsType t.spelling.toList u.spelling.toList (t.written = u.written)) :
    Told EndsStem (text (.word name args)).toList (text (.word name' args')).toList
      ((word name args).written = (word name' args').written) := by
  have follows : ∀ args rest, EndsStem rest →
      Text.EndsName ((argumentsText args).toList ++ rest) := by
    intro args rest hrest
    cases args with
    | nil => exact fun c hc => (hrest c hc).1
    | cons t ts => simp +decide [argumentsText, Text.EndsName]
  have hword := (Text.told_name ha hb).append (told_arguments hparts) (follows args) (follows args')
  rw [text_word, text_word, String.toList_append, String.toList_append]
  refine hword.imp ?_
  rintro ⟨rfl, hargs⟩
  cases args with
  | nil =>
    obtain rfl : args' = [] := by simpa [writtenAll_eq_map, writtenAll] using hargs.symm
    rfl
  | cons t ts =>
    obtain ⟨u, us, rfl⟩ := List.exists_cons_of_ne_nil (l := args') (by rintro rfl; cases hargs)
    exact congrArg (generic name) hargs

private theorem told (ha : a.IsPlain) (hb : b.IsPlain)
    (hparts : ∀ p ∈ a.parts, ∀ q ∈ b.parts,
      Told EndsType p.spelling.toList q.spelling.toList (p.written = q.written))
    (haparts : ∀ p ∈ a.parts, p.IsUsable) (hbparts : ∀ q ∈ b.parts, q.IsUsable) :
    Told EndsStem a.text.toList b.text.toList (a.written = b.written) := by
  by_cases hopening : a.opening = b.opening
  · cases a with
    | word name args =>
      cases b with
      | word name' args' => exact told_word ha hb hparts
      | _ => cases hopening
    | map t =>
      cases b with
      | map u =>
        simp only [text_map, String.toList_append, List.append_assoc]
        refine .lead _ (.close ?_)
        refine ((hparts t List.mem_cons_self u List.mem_cons_self).mono ?_).imp (congrArg _)
        rintro _ ⟨rest, rfl⟩
        exact .brace
      | _ => simp [opening] at hopening
    | tuple ts =>
      cases b with
      | tuple us =>
        simp only [text_tuple, String.toList_append, List.append_assoc]
        refine .lead _ (.close ?_)
        exact (told_elements hparts haparts hbparts).imp (congrArg _)
      | _ => simp [opening] at hopening
    | group t =>
      cases b with
      | group u =>
        simp only [text_group, String.toList_append, List.append_assoc]
        refine .lead _ (.close ?_)
        refine (hparts t List.mem_cons_self u List.mem_cons_self).mono ?_
        rintro _ ⟨rest, rfl⟩
        exact .mark (by decide)
      | _ => simp [opening] at hopening
  · obtain ⟨c, hc, hopens⟩ := exists_head ha
    obtain ⟨c', hc', hopens'⟩ := exists_head hb
    refine .of_heads hc hc' ?_
    rintro rfl
    exact hopening (hopens.trans hopens'.symm)

end Stem

private theorem told_marks (marks marks' : List Mark) :
    Told EndsType (String.join (marks.map Mark.text)).toList
      (String.join (marks'.map Mark.text)).toList (marks = marks') := by
  have item : ∀ m ∈ marks, ∀ m' ∈ marks',
      Told (fun _ => True) m.text.toList m'.text.toList (id m = id m') := by
    rintro (_ | _) _ (_ | _) _
    · exact (Told.refl _ _).imp fun _ => rfl
    · exact .of_heads rfl rfl (by decide)
    · exact .of_heads rfl rfl (by decide)
    · exact (Told.refl _ _).imp fun _ => rfl
  rw [String.toList_join, String.toList_join, List.flatMap_map, List.flatMap_map]
  refine (Told.flatMap item (fun _ _ => trivial) (fun _ _ => trivial) ?_).imp fun h => ?_
  · rintro (_ | _) rest h
    · cases h with
      | mark hc => exact absurd hc (by decide)
    · cases h with
      | mark hc => exact absurd hc (by decide)
  · simpa using h

private theorem told_of_parts {t u : TypeRef} (ht : t.IsUsable) (hu : u.IsUsable)
    (hparts : ∀ p ∈ t.stem.parts, ∀ q : TypeRef, q.IsUsable →
      Told EndsType p.spelling.toList q.spelling.toList (p.written = q.written)) :
    Told EndsType t.spelling.toList u.spelling.toList (t.written = u.written) := by
  have follows : ∀ (marks : List Mark) rest, EndsType rest →
      EndsStem ((String.join (marks.map Mark.text)).toList ++ rest) := by
    intro marks rest hrest
    match marks with
    | [] => exact hrest.endsStem
    | .list :: marks => simp +decide [EndsStem, Mark.text]
    | .null :: marks => simp +decide [EndsStem, Mark.text]
  have hstem := Stem.told ht.isPlain_stem hu.isPlain_stem
    (fun p hp q hq => hparts p hp q (hu.parts_stem q hq)) ht.parts_stem hu.parts_stem
  have hboth := hstem.append (told_marks t.marks u.marks) (follows t.marks) (follows u.marks)
  rw [spelling_eq t, spelling_eq u, String.toList_append, String.toList_append]
  refine hboth.imp fun ⟨hwritten, hmarks⟩ => ?_
  rw [written_eq ht, written_eq hu, hwritten, hmarks]

theorem told_spelling {t u : TypeRef} (ht : t.IsUsable) (hu : u.IsUsable) :
    Told EndsType t.spelling.toList u.spelling.toList (t.written = u.written) := by
  refine told_of_parts ht hu ?_
  clear hu
  -- What stands in the first stem is told from any other reference, so the second one is not taken
  -- apart here. A list and what can be null have the stem of what is in them.
  induction t with
  | primitive p => cases p <;> nofun
  | named name | parameter name => nofun
  | generic name args ih =>
    exact fun p hp q hq => told_of_parts (ht.parts_stem p hp) hq (ih p hp (ht.parts_stem p hp))
  | sequence inner ih =>
    rcases sequence_cases inner with ⟨t, rfl⟩ | ⟨_, _, hstem, _⟩
    · exact List.forall_mem_singleton.mpr fun q hq => told_of_parts ht hq (ih ht)
    · rw [hstem]
      exact ih ht
  | map inner ih =>
    exact List.forall_mem_singleton.mpr fun q hq => told_of_parts ht hq (ih ht)
  | tuple elements ih =>
    exact fun p hp q hq => told_of_parts (ht.parts_stem p hp) hq (ih p hp (ht.parts_stem p hp))
  | nullable inner ih => exact ih ht

private theorem eq_nullable_of_written {t u : TypeRef} (h : t.written = nullable u) :
    ∃ inner, t = nullable inner := by
  cases t with
  | nullable inner => exact ⟨inner, rfl⟩
  | primitive p => cases p <;> cases h
  | generic name args => cases args <;> cases h
  | _ => cases h

theorem spelling_written (t : TypeRef) : t.written.spelling = t.spelling := by
  have all : ∀ {ts : List TypeRef}, (∀ t ∈ ts, t.written.spelling = t.spelling) →
      spellings (writtenAll ts) = spellings ts := by
    intro ts hts
    rw [← String.toList_inj, toList_spellings, toList_spellings, writtenAll_eq_map, List.map_map]
    exact congrArg _ (List.map_congr_left fun t ht => congrArg String.toList (hts t ht))
  induction t with
  | primitive p =>
    cases p with
    | bytes => exact (by decide : "number" ++ "[]" = "number[]")
    | _ => rfl
  | named name | parameter name => rfl
  | generic name args ih =>
    cases args with
    | nil => rfl
    | cons t ts =>
      change name ++ "<" ++ spellings (writtenAll (t :: ts)) ++ ">" = _
      rw [all ih, spelling_generic]
  | sequence inner ih =>
    rcases sequence_cases inner with ⟨t, rfl⟩ | ⟨hnullable, hspelling, _⟩
    · have ht : t.written.spelling = t.spelling := by
        simpa [written, spelling_nullable] using ih
      rw [written, written, spelling_sequence_nullable, spelling_sequence_nullable, ht]
    · rcases sequence_cases inner.written with ⟨u, hu⟩ | ⟨_, hwritten, _⟩
      · obtain ⟨t, ht⟩ := eq_nullable_of_written hu
        exact absurd ht (hnullable t)
      · rw [written, hwritten, ih, hspelling]
  | map inner ih => rw [written, spelling_map, spelling_map, ih]
  | tuple elements ih => rw [written, spelling_tuple, spelling_tuple, all ih]
  | nullable inner ih => rw [written, spelling_nullable, spelling_nullable, ih]

/-- References have one spelling if and only if the same is written of them. -/
theorem spelling_eq_iff {t u : TypeRef} (ht : t.IsUsable) (hu : u.IsUsable) :
    t.spelling = u.spelling ↔ t.written = u.written := by
  constructor
  · intro h
    exact (told_spelling ht hu [] [] .nil .nil (by rw [h])).1
  · intro h
    rw [← spelling_written t, h, spelling_written]

end TypeRef

end SchemaGuard
