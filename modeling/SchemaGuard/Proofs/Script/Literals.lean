import SchemaGuard.Guard.Emitter
import SchemaGuard.Proofs.Text.Carried
import SchemaGuard.Script.Printer

/-!
The literals of a script. Printing writes down each literal as it is, in the order of the script,
and around the literals nothing but names, types and the marks of the language.
-/

set_option autoImplicit false
set_option relaxedAutoImplicit false

namespace SchemaGuard.Script

open Text (Within Carries within_append)

mutual
def Expr.literals : Expr → List String
  | .bool _ | .null | .number _ | .name _ => []
  | .string s => [s]
  | .index a b | .relate _ a b | .both a b | .either a b => a.literals ++ b.literals
  | .property e _ | .typeOf e | .not e | .parens e | .arrow _ _ e | .fill _ e => e.literals
  | .call function args => function.literals ++ Expr.allLiterals args

def Expr.allLiterals : List Expr → List String
  | [] => []
  | e :: es => e.literals ++ Expr.allLiterals es
end

mutual
def Stmt.literals : Stmt → List String
  | .rejectIf e | .bind _ e | .give e => e.literals
  | .switch e cases => e.literals ++ Stmt.caseLiterals cases

def Stmt.allLiterals : List Stmt → List String
  | [] => []
  | s :: rest => s.literals ++ Stmt.allLiterals rest

def Stmt.caseLiterals : List (String × List Stmt) → List String
  | [] => []
  | (value, body) :: rest => value :: Stmt.allLiterals body ++ Stmt.caseLiterals rest
end

def Item.literals : Item → List String
  | .guard _ _ _ _ body | .factory _ _ _ _ _ body => Stmt.allLiterals body
  | .constant _ init => init.literals

/-- The strings whose literals stand in a block, from the left. -/
def ItemBlock.literals (block : ItemBlock) : List String := block.items.flatMap Item.literals

def ArrowType.words : ArrowType → List String
  | .guard t => [t.spelling]
  | .untyped | .unknown | .boolean => []

mutual
def Expr.words : Expr → List String
  | .bool _ | .null | .number _ | .string _ => []
  | .name x => [x]
  | .index a b | .relate _ a b | .both a b | .either a b => a.words ++ b.words
  | .property e p => e.words ++ [p]
  | .typeOf e | .not e | .parens e => e.words
  | .call function args => function.words ++ Expr.allWords args
  | .arrow x type e => x :: type.words ++ e.words
  | .fill x e => x :: e.words

def Expr.allWords : List Expr → List String
  | [] => []
  | e :: es => e.words ++ Expr.allWords es
end

mutual
def Stmt.words : Stmt → List String
  | .rejectIf e | .give e => e.words
  | .bind x e => x :: e.words
  | .switch e cases => e.words ++ Stmt.caseWords cases

def Stmt.allWords : List Stmt → List String
  | [] => []
  | s :: rest => s.words ++ Stmt.allWords rest

def Stmt.caseWords : List (String × List Stmt) → List String
  | [] => []
  | (_, body) :: rest => Stmt.allWords body ++ Stmt.caseWords rest
end

def Subject.words : Subject → List String
  | .type t => [t.spelling]
  | .record => []

def Lazy.words (l : Lazy) : List String := [l.name, l.type.spelling]

def Item.words : Item → List String
  | .guard _ name param subject body => name :: param :: subject.words ++ Stmt.allWords body
  | .factory _ name type params lazies body =>
    name :: type :: params ++ lazies.flatMap Lazy.words ++ Stmt.allWords body
  | .constant name init => name :: init.words

def AllWithin (P : Char → Prop) (words : List String) : Prop := ∀ w ∈ words, Within P w

section

variable {P : Char → Prop} {w : String} {words words' : List String}

@[simp] private theorem allWithin_nil : AllWithin P [] := by simp [AllWithin]

@[simp] theorem allWithin_cons : AllWithin P (w :: words) ↔ Within P w ∧ AllWithin P words := by
  simp [AllWithin]

@[simp] theorem allWithin_append :
    AllWithin P (words ++ words') ↔ AllWithin P words ∧ AllWithin P words' := by
  simp [AllWithin, or_imp, forall_and]

end

def HoldsInLines (P : Char → Prop) : Prop := ∀ c, c ≠ '"' → c ≠ '\n' → P c

theorem HoldsInLines.within {P : Char → Prop} (hP : HoldsInLines P) {text : String}
    (htext : '"' ∉ text.toList ∧ '\n' ∉ text.toList) : Within P text := by
  intro c hc
  refine hP c ?_ ?_
  · rintro rfl
    exact htext.1 hc
  · rintro rfl
    exact htext.2 hc

theorem HoldsInLines.within_number {P : Char → Prop} (hP : HoldsInLines P) (n : Nat) :
    Within P (toString n) := by
  have hdigits : ∀ c ∈ (toString n).toList, c.isDigit = true := by
    intro c hc
    rw [Nat.toString_eq_ofList_toDigits, String.toList_ofList] at hc
    exact Nat.isDigit_of_mem_toDigits (by omega) (by omega) hc
  exact hP.within ⟨fun h => absurd (hdigits _ h) (by decide),
    fun h => absurd (hdigits _ h) (by decide)⟩

section

variable {P : Char → Prop} (hP : HoldsInLines P)

include hP

private theorem ArrowType.within_head {x : String} (hx : Within P x) {type : ArrowType}
    (htype : AllWithin P type.words) : Within P (type.head x) := by
  have hopening : Within P "(" := hP.within (by decide)
  cases type with
  | untyped | unknown | boolean =>
    exact within_append.mpr ⟨within_append.mpr ⟨hopening, hx⟩, hP.within (by decide)⟩
  | guard t =>
    have ht : Within P t.spelling := (allWithin_cons.mp htype).1
    simp only [head, within_append]
    exact ⟨⟨⟨⟨⟨hopening, hx⟩, hP.within (by decide)⟩, hx⟩, hP.within (by decide)⟩, ht⟩

mutual
theorem Expr.carries : ∀ e : Expr, AllWithin P e.words → Carries P e.literals e.text.toList
  | .bool true, _ => .of_forall (hP.within (by decide))
  | .bool false, _ => .of_forall (hP.within (by decide))
  | .null, _ => .of_forall (hP.within (by decide))
  | .number n, _ => .of_forall (hP.within_number n)
  | .string s, _ => .single s
  | .name x, h => .of_forall (allWithin_cons.mp h).1
  | .index a b, h => by
    obtain ⟨ha, hb⟩ := allWithin_append.mp h
    exact (((a.carries ha).before (hP.within (by decide))).followed (b.carries hb)).before
      (hP.within (by decide))
  | .property e p, h => by
    obtain ⟨he, hp⟩ := allWithin_append.mp h
    exact ((e.carries he).before (hP.within (by decide))).before (allWithin_cons.mp hp).1
  | .call function args, h => by
    obtain ⟨hfunction, hargs⟩ := allWithin_append.mp h
    exact (((function.carries hfunction).before (hP.within (by decide))).followed
      (Expr.carries_texts args hargs)).before (hP.within (by decide))
  | .typeOf e, h => .behind (hP.within (by decide)) (e.carries h)
  | .not e, h => .behind (hP.within (by decide)) (e.carries h)
  | .relate r a b, h => by
    obtain ⟨ha, hb⟩ := allWithin_append.mp h
    have hr : Within P r.text := by cases r <;> exact hP.within (by decide)
    exact ((((a.carries ha).before (hP.within (by decide))).before hr).before
      (hP.within (by decide))).followed (b.carries hb)
  | .both a b, h => by
    obtain ⟨ha, hb⟩ := allWithin_append.mp h
    exact ((a.carries ha).before (hP.within (by decide))).followed (b.carries hb)
  | .either a b, h => by
    obtain ⟨ha, hb⟩ := allWithin_append.mp h
    exact ((a.carries ha).before (hP.within (by decide))).followed (b.carries hb)
  | .parens e, h =>
    (Carries.behind (hP.within (by decide)) (e.carries h)).before (hP.within (by decide))
  | .arrow x type e, h => by
    obtain ⟨⟨hx, htype⟩, he⟩ : (Within P x ∧ AllWithin P type.words) ∧ AllWithin P e.words := by
      simpa [Expr.words, and_assoc] using h
    have hhead := type.within_head hP hx htype
    exact .behind (within_append.mpr ⟨hhead, hP.within (by decide)⟩) (e.carries he)
  | .fill x e, h => by
    obtain ⟨hx, he⟩ := allWithin_cons.mp h
    exact .behind (within_append.mpr ⟨hx, hP.within (by decide)⟩) (e.carries he)

private theorem Expr.carries_texts : ∀ es : List Expr, AllWithin P (Expr.allWords es) →
    Carries P (Expr.allLiterals es) (Expr.texts es).toList
  | [], _ => .nil
  | [e], h => by
    simpa [Expr.allLiterals, Expr.texts] using e.carries (allWithin_append.mp h).1
  | e :: f :: es, h => by
    obtain ⟨he, hes⟩ := allWithin_append.mp h
    exact ((e.carries he).before (hP.within (by decide))).followed
      (Expr.carries_texts (f :: es) hes)
end

end

section

variable {P : Char → Prop}

private theorem within_join {texts : List String} (h : ∀ text ∈ texts, Within P text) :
    Within P (String.join texts) := by
  intro c hc
  obtain ⟨text, htext, hc⟩ := List.mem_flatMap.mp (String.toList_join ▸ hc)
  exact h text htext c hc

private theorem within_intercalate {gap : String} (hgap : Within P gap) {texts : List String}
    (h : ∀ text ∈ texts, Within P text) : Within P (gap.intercalate texts) := by
  induction texts with
  | nil => simp [Within]
  | cons text texts ih =>
    obtain ⟨htext, htexts⟩ := List.forall_mem_cons.mp h
    cases texts with
    | nil => simpa using htext
    | cons next texts =>
      rw [String.intercalate_cons_cons]
      exact within_append.mpr ⟨within_append.mpr ⟨htext, hgap⟩, ih htexts⟩

private theorem within_of_notMem (hP : ∀ c, c ≠ '"' → P c) {text : String}
    (htext : '"' ∉ text.toList) : Within P text :=
  fun c hc => hP c fun heq => htext (heq ▸ hc)

private theorem carries_indent (hP : ∀ c, c ≠ '"' → P c) {ss : List String} {text : String}
    (h : Carries P ss text.toList) (levels : Nat) :
    Carries P ss (Text.indent levels text).toList :=
  h.indent (hP ' ' (by decide)) (hP '\n' (by decide)) levels

private theorem carries_expr (hP : ∀ c, c ≠ '"' → P c) (e : Expr) (h : AllWithin P e.words) :
    Carries P e.literals e.text.toList :=
  e.carries (fun c hquote _ => hP c hquote) h

mutual
private theorem Stmt.carries (hP : ∀ c, c ≠ '"' → P c) : ∀ s : Stmt, AllWithin P s.words →
    Carries P s.literals s.text.toList
  | .rejectIf e, h =>
    (Carries.behind (within_of_notMem hP (by decide)) (carries_expr hP e h)).before
      (within_of_notMem hP (by decide))
  | .bind x e, h => by
    obtain ⟨hx, he⟩ := allWithin_cons.mp h
    have hhead : Within P ("const " ++ x ++ " = ") := by
      simp only [within_append]
      exact ⟨⟨within_of_notMem hP (by decide), hx⟩, within_of_notMem hP (by decide)⟩
    exact (Carries.behind hhead (carries_expr hP e he)).before (within_of_notMem hP (by decide))
  | .give e, h =>
    (Carries.behind (within_of_notMem hP (by decide)) (carries_expr hP e h)).before
      (within_of_notMem hP (by decide))
  | .switch e cases, h => by
    obtain ⟨he, hcases⟩ := allWithin_append.mp h
    have hopening : '"' ∉ "switch (".toList := by decide
    have hclosing : '"' ∉ ") \x7b\n".toList := by decide
    have hhead := (Carries.behind (within_of_notMem hP hopening) (carries_expr hP e he)).before
      (within_of_notMem hP hclosing)
    exact (hhead.followed (Stmt.carries_cases hP cases hcases)).before
      (within_of_notMem hP (by decide))

private theorem Stmt.carries_texts (hP : ∀ c, c ≠ '"' → P c) : ∀ body : List Stmt,
    AllWithin P (Stmt.allWords body) →
    Carries P (Stmt.allLiterals body) (Stmt.texts body).toList
  | [], _ => .nil
  | s :: rest, h => by
    obtain ⟨hs, hrest⟩ := allWithin_append.mp h
    exact (s.carries hP hs).followed (Stmt.carries_texts hP rest hrest)

private theorem Stmt.carries_cases (hP : ∀ c, c ≠ '"' → P c) : ∀ cases : List (String × List Stmt),
    AllWithin P (Stmt.caseWords cases) →
    Carries P (Stmt.caseLiterals cases) (Stmt.caseTexts cases).toList
  | [], _ => .nil
  | (value, body) :: rest, h => by
    obtain ⟨hbody, hrest⟩ := allWithin_append.mp h
    have hopening : '"' ∉ "  case ".toList := by decide
    have hclosing : '"' ∉ ": \x7b\n".toList := by decide
    have hvalue := (Carries.behind (within_of_notMem hP hopening) (.single value)).before
      (within_of_notMem hP hclosing)
    -- The body is indented here, and once more with the statement around it.
    have hlines := carries_indent hP (Stmt.carries_texts hP body hbody) 2
    exact ((hvalue.followed hlines).before (within_of_notMem hP (by decide))).followed
      (Stmt.carries_cases hP rest hrest)
end

private theorem within_exportWord (hP : ∀ c, c ≠ '"' → P c) (exported : Bool) :
    Within P (exportWord exported) := by
  cases exported <;> exact within_of_notMem hP (by decide)

private theorem Subject.within_text (hP : ∀ c, c ≠ '"' → P c) {subject : Subject}
    (h : AllWithin P subject.words) : Within P subject.text := by
  cases subject with
  | type t => exact (allWithin_cons.mp h).1
  | record => exact within_of_notMem hP (by decide)

private theorem Lazy.within_text (hP : ∀ c, c ≠ '"' → P c) {l : Lazy} (h : AllWithin P l.words) :
    Within P l.text := by
  obtain ⟨hname, htype⟩ := allWithin_cons.mp h
  simp only [Lazy.text, within_append]
  exact ⟨⟨⟨⟨within_of_notMem hP (by decide), hname⟩, within_of_notMem hP (by decide)⟩,
    (allWithin_cons.mp htype).1⟩, within_of_notMem hP (by decide)⟩

private theorem Item.carries (hP : ∀ c, c ≠ '"' → P c) {item : Item} (h : AllWithin P item.words) :
    Carries P item.literals item.text.toList := by
  have hexport := within_exportWord hP
  cases item with
  | guard exported name param subject body =>
    obtain ⟨⟨hname, hparam, hsubject⟩, hbody⟩ :
        (Within P name ∧ Within P param ∧ AllWithin P subject.words)
          ∧ AllWithin P (Stmt.allWords body) := by
      simpa only [Item.words, allWithin_cons, allWithin_append] using h
    have hhead : Within P (exportWord exported ++ "function " ++ name ++ "(" ++ param
        ++ ": unknown): " ++ param ++ " is " ++ subject.text ++ " \x7b\n") := by
      simp (disch := decide) only [within_append, hexport, hname, hparam,
        Subject.within_text hP hsubject, within_of_notMem hP, and_self]
    have hlines := carries_indent hP (Stmt.carries_texts hP body hbody) 1
    exact (Carries.behind hhead hlines).before (within_of_notMem hP (by decide))
  | factory exported name type params lazies body =>
    obtain ⟨⟨⟨hname, htype, hparams⟩, hlazies⟩, hbody⟩ :
        ((Within P name ∧ Within P type ∧ AllWithin P params)
          ∧ AllWithin P (lazies.flatMap Lazy.words)) ∧ AllWithin P (Stmt.allWords body) := by
      simpa only [Item.words, allWithin_cons, allWithin_append] using h
    have hcells : Within P (String.join (lazies.map Lazy.text)) := by
      refine within_join (List.forall_mem_map.mpr fun l hl => Lazy.within_text hP fun w hw => ?_)
      exact hlazies w (List.mem_flatMap_of_mem hl hw)
    have hlist : Within P (", ".intercalate params) :=
      within_intercalate (within_of_notMem hP (by decide)) hparams
    have hcheckers : Within P (", ".intercalate
        (params.map fun p => checkerName p ++ ": (v: unknown) => v is " ++ p)) := by
      refine within_intercalate (within_of_notMem hP (by decide))
        (List.forall_mem_map.mpr fun p hp => ?_)
      simp (disch := decide) only [checkerName, within_append, hparams p hp, within_of_notMem hP,
        and_self]
    have hopening : Within P (String.join (lazies.map Lazy.text) ++ "const " ++ selfName ++ " = ("
        ++ subjectName ++ ": unknown): " ++ subjectName ++ " is "
        ++ (type ++ "<" ++ ", ".intercalate params ++ ">") ++ " => \x7b\n") := by
      simp (disch := decide) only [within_append, hcells, htype, hlist, within_of_notMem hP,
        and_self]
    have hlines := carries_indent hP (Stmt.carries_texts hP body hbody) 1
    have hinner := ((((Carries.behind hopening hlines).before
      (within_of_notMem hP (show '"' ∉ "\x7d;\n".toList by decide))).before
      (within_of_notMem hP (show '"' ∉ "return ".toList by decide))).before
      (within_of_notMem hP (show '"' ∉ selfName.toList by decide))).before
      (within_of_notMem hP (show '"' ∉ ";\n".toList by decide))
    have hhead : Within P (exportWord exported ++ "function " ++ name ++ "<"
        ++ ", ".intercalate params ++ ">(" ++ ", ".intercalate
          (params.map fun p => checkerName p ++ ": (v: unknown) => v is " ++ p)
        ++ "): (" ++ subjectName ++ ": unknown) => " ++ subjectName ++ " is "
        ++ (type ++ "<" ++ ", ".intercalate params ++ ">") ++ " \x7b\n") := by
      simp (disch := decide) only [within_append, hexport, hname, htype, hlist, hcheckers,
        within_of_notMem hP, and_self]
    exact (Carries.behind hhead (carries_indent hP hinner 1)).before
      (within_of_notMem hP (by decide))
  | constant name init =>
    obtain ⟨hname, hinit⟩ := allWithin_cons.mp h
    have hhead : Within P ("const " ++ name ++ " = ") := by
      simp (disch := decide) only [within_append, hname, within_of_notMem hP, and_self]
    exact (Carries.behind hhead (carries_expr hP init hinit)).before
      (within_of_notMem hP (by decide))

/-- The text of items has their literals, in their order. -/
theorem Item.carries_texts (hP : ∀ c, c ≠ '"' → P c) {items : List Item}
    (h : ∀ item ∈ items, AllWithin P item.words) :
    Carries P (items.flatMap Item.literals) (Item.texts items).toList := by
  induction items with
  | nil => exact .nil
  | cons item items ih =>
    obtain ⟨hitem, hitems⟩ := List.forall_mem_cons.mp h
    cases items with
    | nil => simpa [Item.texts] using Item.carries hP hitem
    | cons next items =>
      have htexts : Item.texts (item :: next :: items)
          = item.text ++ "\n" ++ Item.texts (next :: items) := by
        simp only [Item.texts, List.map_cons, String.intercalate_cons_cons]
      rw [htexts]
      exact ((Item.carries hP hitem).before (within_of_notMem hP (by decide))).followed (ih hitems)

end

end SchemaGuard.Script
