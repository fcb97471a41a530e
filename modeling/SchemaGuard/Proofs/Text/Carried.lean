import Mathlib.Data.List.Forall2
import SchemaGuard.Proofs.Text.Literal
import SchemaGuard.Text.Indent

/-!
Literals inside texts that are indented. Indentation puts blanks in front of lines, and no line ends
inside a literal, so the literals in a text stand in the indented text as they are and in the same
order.
-/

set_option autoImplicit false
set_option relaxedAutoImplicit false

namespace SchemaGuard.Text

/-- The characters with the pad put in front of each line that is not empty; `fresh` tells that a
line begins. -/
def padLines (pad : List Char) (fresh : Bool) : List Char → List Char
  | [] => []
  | '\n' :: rest => '\n' :: padLines pad true rest
  | c :: rest => (if fresh then pad else []) ++ c :: padLines pad false rest

private theorem padLines_of_ne {c : Char} (hc : c ≠ '\n') (pad : List Char) (fresh : Bool)
    (rest : List Char) : padLines pad fresh (c :: rest)
      = (if fresh then pad else []) ++ c :: padLines pad false rest := by
  rw [padLines.eq_def]
  split <;> simp_all

private theorem linesFrom_of_ne {c : Char} (hc : c ≠ '\n') (reversed rest : List Char) :
    linesFrom reversed (c :: rest) = linesFrom (c :: reversed) rest := by
  rw [linesFrom.eq_def]
  split <;> simp_all

private theorem linesFrom_feed (reversed rest : List Char) : ∃ line,
    linesFrom reversed ('\n' :: rest) = line :: linesFrom [] rest ∧
      (reversed.reverse = line ∨ reversed.reverse = line ++ ['\r']) := by
  cases reversed with
  | nil => exact ⟨[], rfl, .inl rfl⟩
  | cons c reversed =>
    by_cases hc : c = '\r'
    · subst hc
      exact ⟨reversed.reverse, rfl, .inr (by simp)⟩
    · refine ⟨(c :: reversed).reverse, congrArg (· :: _) ?_, .inl rfl⟩
      conv => lhs; whnf
      split
      · simp_all
      · rfl

private theorem flatMap_padded_linesFrom (pad : List Char) {reversed cs : List Char}
    (hbegun : cs = [] → reversed = []) (hended : ∀ c ∈ cs.getLast?, c = '\n')
    (hreturn : '\r' ∉ reversed ∧ '\r' ∉ cs) :
    (linesFrom reversed cs).flatMap (padded pad)
      = (if reversed.isEmpty then [] else pad ++ reversed.reverse)
        ++ padLines pad reversed.isEmpty cs := by
  induction cs generalizing reversed with
  | nil =>
    rw [hbegun rfl]
    rfl
  | cons c cs ih =>
    have hrest : ∀ d ∈ cs.getLast?, d = '\n' := by
      intro d hd
      cases cs with
      | nil => cases hd
      | cons => exact hended d (by rwa [List.getLast?_cons_cons])
    have hreturnRest : '\r' ∉ cs := fun h => hreturn.2 (List.mem_cons_of_mem c h)
    by_cases hc : c = '\n'
    · subst hc
      obtain ⟨line, hlines, hline | hline⟩ := linesFrom_feed reversed cs
      · rw [hlines, List.flatMap_cons, ih (fun _ => rfl) hrest ⟨by simp, hreturnRest⟩, ← hline]
        cases reversed with
        | nil => rfl
        | cons d reversed => simp [padded, padLines]
      · have hmem : '\r' ∈ reversed.reverse := by simp [hline]
        exact absurd (List.mem_reverse.mp hmem) hreturn.1
    · have hmore : cs = [] → c :: reversed = [] := by
        intro hnil
        exact absurd (hended c (by simp [hnil])) hc
      have hreturnBegun : '\r' ∉ c :: reversed := by
        intro h
        rcases List.mem_cons.mp h with rfl | h
        · exact hreturn.2 List.mem_cons_self
        · exact hreturn.1 h
      rw [linesFrom_of_ne hc, ih hmore hrest ⟨hreturnBegun, hreturnRest⟩, padLines_of_ne hc]
      cases reversed with
      | nil => simp
      | cons d reversed => simp

/-- Indentation puts blanks in front of lines that are not empty, and changes nothing else, where
the text has no carriage return and its last line is ended. -/
theorem toList_indent (levels : Nat) {text : String} (hreturn : '\r' ∉ text.toList)
    (hended : text.toList.getLast? = some '\n') :
    (indent levels text).toList = padLines (List.replicate (2 * levels) ' ') true text.toList := by
  have hlast : ∀ c ∈ text.toList.getLast?, c = '\n' := by
    intro c hc
    rw [hended] at hc
    exact (Option.some.inj hc).symm
  rw [indent, lines, String.toList_ofList,
    flatMap_padded_linesFrom _ (fun _ => rfl) hlast ⟨List.not_mem_nil, hreturn⟩]
  rfl

def Within (P : Char → Prop) (text : String) : Prop := ∀ c ∈ text.toList, P c

@[simp] theorem within_append {P : Char → Prop} {a b : String} :
    Within P (a ++ b) ↔ Within P a ∧ Within P b := by
  simp [Within, or_imp, forall_and]

/-- The literals of the strings stand in the text one behind the other, each as it is, and all
characters around them are as `P` says. -/
inductive Carries (P : Char → Prop) : List String → List Char → Prop
  | nil : Carries P [] []
  | other {c : Char} {ss : List String} {cs : List Char} : P c → Carries P ss cs →
    Carries P ss (c :: cs)
  | literal {s : String} {ss : List String} {cs : List Char} : Carries P ss cs →
    Carries P (s :: ss) ((quoted s).toList ++ cs)

namespace Carries

variable {P : Char → Prop} {ss ss' : List String} {cs cs' : List Char} {a b : String}

private theorem append (h : Carries P ss cs) (h' : Carries P ss' cs') :
    Carries P (ss ++ ss') (cs ++ cs') := by
  induction h with
  | nil => exact h'
  | other hc _ ih => exact .other hc ih
  | literal _ ih =>
    rw [List.append_assoc]
    exact .literal ih

theorem of_forall (h : ∀ c ∈ cs, P c) : Carries P [] cs := by
  induction cs with
  | nil => exact .nil
  | cons c cs ih =>
    obtain ⟨hc, hcs⟩ := List.forall_mem_cons.mp h
    exact .other hc (ih hcs)

theorem single (s : String) : Carries P [s] (quoted s).toList := by
  have h : Carries P [s] ((quoted s).toList ++ []) := .literal .nil
  rwa [List.append_nil] at h

theorem followed (h : Carries P ss a.toList) (h' : Carries P ss' b.toList) :
    Carries P (ss ++ ss') (a ++ b).toList := by
  rw [String.toList_append]
  exact h.append h'

theorem before (h : Carries P ss a.toList) (hb : Within P b) : Carries P ss (a ++ b).toList := by
  have hboth := h.followed (of_forall hb)
  rwa [List.append_nil] at hboth

theorem behind (ha : Within P a) (h : Carries P ss b.toList) : Carries P ss (a ++ b).toList :=
  (of_forall ha).followed h

theorem forall_of_printed (hP : ∀ c : Char, 0x20 ≤ c.toNat → P c) (h : Carries P ss cs) :
    ∀ c ∈ cs, P c := by
  induction h with
  | nil => exact List.forall_mem_nil P
  | other hc _ ih => exact List.forall_mem_cons.mpr ⟨hc, ih⟩
  | @literal s _ _ _ ih =>
    exact List.forall_mem_append.mpr ⟨fun c hc => hP c (printed_quoted s c hc), ih⟩

private theorem split {c : Char} (hc : c.toNat < 0x20) (h : Carries P ss (cs ++ c :: cs')) :
    ∃ before after, ss = before ++ after ∧ Carries P before cs ∧ Carries P after cs' := by
  generalize hall : cs ++ c :: cs' = all at h
  induction h generalizing cs with
  | nil => simp at hall
  | @other d ss rest hd hrest ih =>
    cases cs with
    | nil =>
      obtain ⟨rfl, rfl⟩ := List.cons.inj hall
      exact ⟨[], ss, rfl, .nil, hrest⟩
    | cons e cs =>
      obtain ⟨rfl, htail⟩ := List.cons.inj hall
      obtain ⟨before, after, rfl, hbefore, hafter⟩ := ih htail
      exact ⟨before, after, rfl, .other hd hbefore, hafter⟩
  | @literal s ss rest hrest ih =>
    -- A literal that ends behind the control character would hold it.
    have hbehind : ∃ more, cs = (quoted s).toList ++ more ∧ more ++ c :: cs' = rest := by
      rcases List.append_eq_append_iff.mp hall with ⟨more, hquoted, hmore⟩ | ⟨more, hcs, hmore⟩
      · cases more with
        | nil => exact ⟨[], by simpa using hquoted.symm, by simpa using hmore⟩
        | cons d more =>
          obtain ⟨rfl, _⟩ := List.cons.inj hmore
          have hprinted := printed_quoted s c (by simp [hquoted])
          omega
      · exact ⟨more, hcs, hmore.symm⟩
    obtain ⟨more, rfl, hmore⟩ := hbehind
    obtain ⟨before, after, rfl, hbefore, hafter⟩ := ih hmore
    exact ⟨s :: before, after, rfl, .literal hbefore, hafter⟩

private theorem eq_nil (h : Carries P ss []) : ss = [] := by
  generalize hnil : [] = cs at h
  cases h with
  | nil => rfl
  | other => cases hnil
  | literal => simp [toList_quoted] at hnil

private theorem exists_shares (reversed cs : List Char)
    (h : Carries P ss (reversed.reverse ++ cs)) : ∃ parts,
    ss = parts.flatten ∧ List.Forall₂ (Carries P) parts (linesFrom reversed cs) := by
  induction cs generalizing ss reversed with
  | nil =>
    rw [List.append_nil] at h
    cases reversed with
    | nil => exact ⟨[], h.eq_nil, .nil⟩
    | cons c reversed => exact ⟨[ss], by simp, .cons h .nil⟩
  | cons c cs ih =>
    by_cases hc : c = '\n'
    · subst hc
      obtain ⟨before, after, rfl, hbefore, hafter⟩ := h.split (by decide)
      obtain ⟨parts, rfl, hparts⟩ := ih [] hafter
      obtain ⟨line, hlines, hline | hline⟩ := linesFrom_feed reversed cs
      · rw [hlines]
        exact ⟨before :: parts, rfl, .cons (hline ▸ hbefore) hparts⟩
      · -- The carriage return that the line drops stands behind all its literals.
        rw [hline] at hbefore
        obtain ⟨front, last, rfl, hfront, hlast⟩ := hbefore.split (by decide)
        rw [hlines, hlast.eq_nil, List.append_nil]
        exact ⟨front :: parts, rfl, .cons hfront hparts⟩
    · rw [linesFrom_of_ne hc]
      exact ih (c :: reversed) (by simpa using h)

private theorem padded (hfeed : P '\n') {pad : List Char} (hpad : ∀ c ∈ pad, P c)
    (h : Carries P ss cs) :
    Carries P ss (padded pad cs) := by
  have hend : Carries P [] ['\n'] := of_forall (List.forall_mem_singleton.mpr hfeed)
  have hended : Carries P ss (cs ++ ['\n']) := by simpa using h.append hend
  cases cs with
  | nil => exact hended
  | cons c cs =>
    rw [Text.padded, List.append_assoc]
    · exact (of_forall hpad).append hended
    · exact List.cons_ne_nil c cs

/-- Whatever else stands in a text, its literals stand in the indented text. -/
theorem indent (hblank : P ' ') (hfeed : P '\n') {text : String}
    (h : Carries P ss text.toList) (levels : Nat) : Carries P ss (indent levels text).toList := by
  obtain ⟨parts, rfl, hparts⟩ := exists_shares [] text.toList h
  have hpad : ∀ c ∈ List.replicate (2 * levels) ' ', P c := by
    intro c hc
    exact List.eq_of_mem_replicate hc ▸ hblank
  rw [Text.indent, String.toList_ofList, lines]
  generalize linesFrom [] text.toList = shares at hparts
  clear h
  induction hparts with
  | nil => exact .nil
  | cons hpart _ ih =>
    rw [List.flatten_cons, List.flatMap_cons]
    exact (hpart.padded hfeed hpad).append ih

end Carries

end SchemaGuard.Text
