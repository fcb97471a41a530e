import SchemaGuard.Proofs.Script.Emission

/-!
What expressions read and bind. Generated variables are told apart by their numbers, so a piece of
code that takes the numbers between two bounds for its own variables goes together with code that
takes the numbers before or after them.
-/

set_option autoImplicit false
set_option relaxedAutoImplicit false

namespace SchemaGuard.Script

/-- A name that is read, or a function that binds its parameter. -/
inductive Mention where
  | read (x : String)
  | function (param : String) (body : Expr)

mutual
def Expr.mentions : Expr → List Mention
  | .bool _ | .null | .number _ | .string _ => []
  | .name x => [.read x]
  | .index a b | .relate _ a b | .both a b | .either a b => a.mentions ++ b.mentions
  | .property e _ | .typeOf e | .not e | .parens e => e.mentions
  | .call function args => function.mentions ++ Expr.allMentions args
  | .arrow x _ body => .function x body :: body.mentions
  | .fill x e => .read x :: e.mentions

def Expr.allMentions : List Expr → List Mention
  | [] => []
  | e :: es => e.mentions ++ Expr.allMentions es
end

mutual
def Stmt.mentions : Stmt → List Mention
  | .rejectIf e | .bind _ e | .give e => e.mentions
  | .switch e cases => e.mentions ++ Stmt.caseMentions cases

def Stmt.allMentions : List Stmt → List Mention
  | [] => []
  | s :: rest => s.mentions ++ Stmt.allMentions rest

def Stmt.caseMentions : List (String × List Stmt) → List Mention
  | [] => []
  | (_, body) :: rest => Stmt.allMentions body ++ Stmt.caseMentions rest
end

/-- All that is mentioned in the body of an item, or in its initial value. -/
def Item.mentions : Item → List Mention
  | .guard _ _ _ _ body | .factory _ _ _ _ _ body => Stmt.allMentions body
  | .constant _ init => init.mentions

/-- All that is mentioned in the items of a block. -/
def ItemBlock.mentions (block : ItemBlock) : List Mention := block.items.flatMap Item.mentions

theorem allMentions_append (a b : List Stmt) :
    Stmt.allMentions (a ++ b) = Stmt.allMentions a ++ Stmt.allMentions b := by
  induction a with
  | nil => rfl
  | cons s a ih => simp [Stmt.allMentions, ih]

def functions (x : String) (ms : List Mention) : List Expr :=
  ms.filterMap fun
    | .read _ => none
    | .function param body => if param = x then some body else none

def reads (x : String) (ms : List Mention) : Nat :=
  ms.countP fun
    | .read y => y == x
    | .function _ _ => false

section

variable (x : String) (ms ms' : List Mention)

@[simp] private theorem functions_nil : functions x [] = [] := rfl

@[simp] private theorem reads_nil : reads x [] = 0 := rfl

@[simp] private theorem functions_append :
    functions x (ms ++ ms') = functions x ms ++ functions x ms' :=
  List.filterMap_append

@[simp] private theorem reads_append : reads x (ms ++ ms') = reads x ms + reads x ms' :=
  List.countP_append

@[simp] private theorem functions_read (y : String) :
    functions x (.read y :: ms) = functions x ms := rfl

@[simp] private theorem reads_read (y : String) :
    reads x (.read y :: ms) = reads x ms + if y = x then 1 else 0 := by
  simp [reads, List.countP_cons]

@[simp] private theorem functions_function (y : String) (body : Expr) :
    functions x (.function y body :: ms) = (if y = x then [body] else []) ++ functions x ms := by
  unfold functions
  split <;> simp_all

@[simp] private theorem reads_function (y : String) (body : Expr) :
    reads x (.function y body :: ms) = reads x ms := by
  simp [reads]

end

/-- The name is read or bound. -/
def IsMentioned (x : String) (ms : List Mention) : Prop := 0 < reads x ms ∨ functions x ms ≠ []

/-- One function binds the name, and whatever reads it is in the body of this function. -/
def BoundOnce (x : String) (ms : List Mention) : Prop :=
  ∃ body, functions x ms = [body] ∧ reads x ms = reads x body.mentions

def variableName (n : Nat) : String := "x" ++ toString n

private theorem isVariable_iff {x : String} : IsVariable x ↔ ∃ n, x = variableName n := Iff.rfl

private theorem variableName_inj {m n : Nat} : variableName m = variableName n ↔ m = n := by
  refine ⟨fun h => toString_injective ?_, congrArg variableName⟩
  simpa [variableName, ← String.toList_inj] using h

def ReadsOnly (free : List Nat) (ms : List Mention) : Prop :=
  ∀ n, functions (variableName n) ms = [] ∧ (0 < reads (variableName n) ms → n ∈ free)

namespace ReadsOnly

variable {free : List Nat} {ms ms' : List Mention} {x : String}

theorem nil : ReadsOnly free [] := fun _ => ⟨rfl, fun h => absurd h (Nat.lt_irrefl 0)⟩

theorem append (h : ReadsOnly free ms) (h' : ReadsOnly free ms') : ReadsOnly free (ms ++ ms') := by
  intro n
  obtain ⟨hnone, hreads⟩ := h n
  obtain ⟨hnone', hreads'⟩ := h' n
  refine ⟨by simp [hnone, hnone'], fun h => ?_⟩
  rw [reads_append] at h
  exact (Nat.add_pos_iff_pos_or_pos.mp h).elim hreads hreads'

theorem generated (n : Nat) : ReadsOnly [n] [.read (variableName n)] := by
  intro m
  refine ⟨rfl, fun h => ?_⟩
  by_contra hne
  have hname : variableName n ≠ variableName m := fun heq =>
    hne (List.mem_singleton.mpr (variableName_inj.mp heq).symm)
  simp [hname] at h

theorem read (hx : ¬ IsVariable x) (h : ReadsOnly free ms) : ReadsOnly free (.read x :: ms) := by
  intro n
  have hname : x ≠ variableName n := fun heq => hx ⟨n, heq⟩
  simpa [hname] using h n

theorem function {body : Expr} (hx : ¬ IsVariable x) (h : ReadsOnly free body.mentions) :
    ReadsOnly free (.function x body :: body.mentions) := by
  intro n
  have hname : x ≠ variableName n := fun heq => hx ⟨n, heq⟩
  simpa [hname] using h n

theorem flatMap {α : Type} {as : List α} {f : α → List Mention}
    (h : ∀ a ∈ as, ReadsOnly free (f a)) : ReadsOnly free (as.flatMap f) := by
  induction as with
  | nil => exact nil
  | cons a as ih =>
    obtain ⟨ha, has⟩ := List.forall_mem_cons.mp h
    exact ha.append (ih has)

end ReadsOnly

/-- A generated variable is free and has a number up to `low`, or it is bound once and has a number
above `low` and up to `high`. -/
structure Scoped (free : List Nat) (low high : Nat) (ms : List Mention) : Prop where
  ordered : low ≤ high
  free_le : ∀ n ∈ free, n ≤ low
  stands : ∀ n,
    functions (variableName n) ms = [] ∧ (0 < reads (variableName n) ms → n ∈ free) ∨
      low < n ∧ n ≤ high ∧ BoundOnce (variableName n) ms

section

variable {free : List Nat} {low : Nat} {ms : List Mention}

theorem ReadsOnly.scoped (h : ReadsOnly free ms) (hfree : ∀ n ∈ free, n ≤ low) :
    Scoped free low low ms :=
  ⟨Nat.le_refl low, hfree, fun n => .inl (h n)⟩

theorem ReadsOnly.closed (h : ReadsOnly [] ms) (low : Nat) : Scoped [] low low ms :=
  h.scoped (by simp)

end

namespace Scoped

variable {free free' : List Nat} {low low' mid high high' : Nat} {ms ms' : List Mention}

theorem append (h : Scoped free low mid ms) (h' : Scoped free mid high ms') :
    Scoped free low high (ms ++ ms') := by
  refine ⟨h.ordered.trans h'.ordered, h.free_le, fun n => ?_⟩
  have hfree := h.free_le n
  have hlow := h.ordered
  have hhigh := h'.ordered
  unfold BoundOnce
  rw [functions_append, reads_append]
  rcases h.stands n with ⟨hnone, hreads⟩ | ⟨habove, hupto, body, hbody, hreads⟩ <;>
    rcases h'.stands n with ⟨hnone', hreads'⟩ | ⟨habove', hupto', body', hbody', hreads'⟩
  · exact .inl ⟨by rw [hnone, hnone', List.append_nil],
      fun h => (Nat.add_pos_iff_pos_or_pos.mp h).elim hreads hreads'⟩
  · -- the name is bound behind, so it is none that could be free
    have hzero : reads (variableName n) ms = 0 :=
      Nat.eq_zero_of_not_pos fun h => by have := hfree (hreads h); omega
    exact .inr ⟨by omega, hupto', body', by rw [hnone, hbody', List.nil_append], by omega⟩
  · have hzero : reads (variableName n) ms' = 0 :=
      Nat.eq_zero_of_not_pos fun h => by have := hfree (hreads' h); omega
    exact .inr ⟨habove, by omega, body, by rw [hbody, hnone', List.append_nil], by omega⟩
  · omega

theorem weaken (h : Scoped free low high ms) (hlow : low' ≤ low) (hhigh : high ≤ high')
    (hfree : free ⊆ free') (hle : ∀ n ∈ free', n ≤ low') : Scoped free' low' high' ms := by
  refine ⟨(hlow.trans h.ordered).trans hhigh, hle, fun n => ?_⟩
  rcases h.stands n with ⟨hnone, hreads⟩ | ⟨habove, hupto, hbound⟩
  · exact .inl ⟨hnone, fun h => hfree (hreads h)⟩
  · exact .inr ⟨by omega, by omega, hbound⟩

theorem extend (h : Scoped free low mid ms) (hhigh : mid ≤ high) : Scoped free low high ms :=
  h.weaken (Nat.le_refl low) hhigh (fun _ hn => hn) h.free_le

theorem freed (h : Scoped [] low high ms) (hfree : ∀ n ∈ free, n ≤ low) :
    Scoped free low high ms :=
  h.weaken (Nat.le_refl low) (Nat.le_refl high) (List.nil_subset free) hfree

theorem function {body : Expr} (h : Scoped [low + 1] (low + 1) high body.mentions) :
    Scoped [] low high (.function (variableName (low + 1)) body :: body.mentions) := by
  have hordered := h.ordered
  refine ⟨by omega, by simp, fun n => ?_⟩
  by_cases hn : low + 1 = n
  · subst hn
    rcases h.stands (low + 1) with ⟨hnone, _⟩ | ⟨habove, _⟩
    · exact .inr ⟨by omega, hordered, body, by simp [hnone], by simp⟩
    · omega
  · have hname : variableName (low + 1) ≠ variableName n := mt variableName_inj.mp hn
    unfold BoundOnce
    rw [functions_function, reads_function, if_neg hname, List.nil_append]
    rcases h.stands n with ⟨hnone, hreads⟩ | ⟨habove, hupto, hbound⟩
    · exact .inl ⟨hnone, fun h => absurd (List.mem_singleton.mp (hreads h)).symm hn⟩
    · exact .inr ⟨by omega, hupto, hbound⟩

/-- Where nothing is free, every generated variable that is mentioned is bound once. -/
theorem boundOnce (h : Scoped [] low high ms) {x : String} (hx : IsVariable x)
    (hmentioned : IsMentioned x ms) : BoundOnce x ms := by
  obtain ⟨n, rfl⟩ := isVariable_iff.mp hx
  rcases h.stands n with ⟨hnone, hreads⟩ | ⟨_, _, hbound⟩
  · rcases hmentioned with hread | hfunction
    · cases hreads hread
    · exact absurd hnone hfunction
  · exact hbound

end Scoped

end SchemaGuard.Script
