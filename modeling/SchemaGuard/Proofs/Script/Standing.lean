import SchemaGuard.Proofs.Script.Program

/-!
What values stand for. A function stands for the closed reference that it checks; the functions that
the program brings along are the parameters of such a reference. A function that a factory has made
looks things up in cells, so what it stands for depends on what the cells are for, and this is all
that has to be kept true of the store: it only grows, and every cell holds what it is for.
-/

set_option autoImplicit false
set_option relaxedAutoImplicit false

namespace SchemaGuard.Script

open Script.Module (apply)

/-- What a cell is for. -/
inductive Cell where
  | filled (t : TypeRef)
  | lazy (t : TypeRef)
  | constant (t : TypeRef)

abbrev Typing := Nat → Option Cell

namespace Typing

def Grows (T T' : Typing) : Prop := ∀ a c, T a = some c → T' a = some c

def extend (T : Typing) (address : Nat) (added : List Cell) : Typing := fun a =>
  if a < address then T a else added[a - address]?

end Typing

/-- The names in scope where references of a definition are evaluated: `types` are the closed
references that its parameters stand for, and `checkers` the functions given for them. -/
structure Frame (P : Program) (T : Typing) (scope : Scope) (types : List TypeRef)
    (lazies : List Binding) (checkers : List Value) (env : Env) : Prop where
  outer : ∀ x slot, (x, slot) ∈ P.outer → env.lookup x = some slot
  constants : ∀ i b, P.constants[i]? = some b → env.lookup b.name = some (.cell i)
  distinct : scope.params.Nodup
  arity : checkers.length = scope.params.length
  params : ∀ name i f, scope.index? name = some i → checkers[i]? = some f →
    env.lookup (checkerName name) = some (.value f)
  self : ∀ name, scope.owner = some name → scope.params ≠ [] →
    ∃ a, env.lookup selfName = some (.cell a) ∧ T a = some (.filled (.generic name types))
  cells : ∀ b ∈ lazies, ∃ a, env.lookup b.name = some (.cell a) ∧
    T a = some (.lazy (b.site.substitute scope.params types))
  spelled : ∀ b ∈ lazies, ∃ text, b.name = P.options.guardName text

section

variable (P : Program) (T : Typing)

mutual
/-- A function checks the reference. -/
inductive Stands : Value → TypeRef → Prop
  | given {f : Value} {x : String} :
    (∀ v σ, apply P.code f [.json v] σ = some (.bool (P.validator (.parameter x) v), σ)) →
    Stands f (.parameter x)
  | primitive {p : Primitive} : Stands (.function (P.options.guardName p.name)) (.primitive p)
  | monomorphic {t : TypeRef} {name : String} {d : Definition} : t.target? = some (name, []) →
    P.guards.schema.monomorphic? name = some d →
    Stands (.function (P.options.guardName d.name)) t
  | applied {d : Definition} {types : List TypeRef} {lazies : List Binding} {checkers : List Value}
    {env : Env} {body : List Stmt} : P.guards.schema.find? d.name = some d →
    AllStand checkers types → Frame P T (Scope.of d) types lazies checkers env →
    IsBody (P.context (Scope.of d)) P.constants lazies d body →
    Stands (.closure env subjectName (.block body)) (.generic d.name types)
  | arrow {t closed : TypeRef} {scope : Scope} {types : List TypeRef}
    {constants lazies : List Binding} {checkers : List Value} {env : Env} {x : String}
    {body : Expr} : t.isStructural → AllStand checkers types →
    Frame P T scope types lazies checkers env → constants ⊆ P.constants → IsVariable x →
    IsCondition (P.context scope) constants lazies t (.name x) body →
    t.substitute scope.params types = closed → Stands (.closure env x (.expr body)) closed

inductive AllStand : List Value → List TypeRef → Prop
  | nil : AllStand [] []
  | cons {f : Value} {t : TypeRef} {fs : List Value} {ts : List TypeRef} : Stands f t →
    AllStand fs ts → AllStand (f :: fs) (t :: ts)
end

def Cell.Admits (content : Option Value) : Cell → Prop
  | .filled t => ∃ f, content = some f ∧ Stands P T f t
  | .lazy t => content = some .undefined ∨ ∃ f, content = some f ∧ Stands P T f t
  | .constant t => content = none ∨ ∃ f, content = some f ∧ Stands P T f t

/-- Every cell holds what it is for, and the first `n` constants have been declared. -/
structure Sound (n : Nat) (σ : Store) : Prop where
  constants : ∀ i b, P.constants[i]? = some b → T i = some (.constant b.site)
  cells : ∀ a c, T a = some c → ∃ content, σ[a]? = some content ∧ c.Admits P T content
  declared : ∀ i < n, ∃ f, σ[i]? = some (some f)

end

variable {P : Program} {T T' T'' : Typing}

namespace Typing

theorem Grows.refl (T : Typing) : T.Grows T := fun _ _ h => h

theorem Grows.trans (h : T.Grows T') (h' : T'.Grows T'') : T.Grows T'' :=
  fun a c hc => h' a c (h a c hc)

theorem extend_add (T : Typing) (address : Nat) (added : List Cell) (i : Nat) :
    T.extend address added (address + i) = added[i]? := by
  have hi : ¬ address + i < address := by omega
  rw [extend, if_neg hi, Nat.add_sub_cancel_left]

end Typing

theorem Frame.grows {scope : Scope} {types : List TypeRef} {lazies : List Binding}
    {checkers : List Value} {env : Env} (h : Frame P T scope types lazies checkers env)
    (hgrows : T.Grows T') : Frame P T' scope types lazies checkers env where
  outer := h.outer
  constants := h.constants
  distinct := h.distinct
  arity := h.arity
  params := h.params
  self name howner hparams := by
    obtain ⟨a, ha, hcell⟩ := h.self name howner hparams
    exact ⟨a, ha, hgrows _ _ hcell⟩
  cells b hb := by
    obtain ⟨a, ha, hcell⟩ := h.cells b hb
    exact ⟨a, ha, hgrows _ _ hcell⟩
  spelled := h.spelled

mutual
theorem Stands.grows {f : Value} {t : TypeRef} (hgrows : T.Grows T') :
    Stands P T f t → Stands P T' f t
  | .given hanswers => .given hanswers
  | .primitive => .primitive
  | .monomorphic htarget hd => .monomorphic htarget hd
  | .applied hfind hall hframe hbody =>
    .applied hfind (hall.grows hgrows) (hframe.grows hgrows) hbody
  | .arrow hstructural hall hframe hconstants hx hbody hclosed =>
    .arrow hstructural (hall.grows hgrows) (hframe.grows hgrows) hconstants hx hbody hclosed

theorem AllStand.grows {fs : List Value} {ts : List TypeRef} (hgrows : T.Grows T') :
    AllStand P T fs ts → AllStand P T' fs ts
  | .nil => .nil
  | .cons hf hfs => .cons (hf.grows hgrows) (hfs.grows hgrows)
end

private theorem Cell.Admits.grows {c : Cell} {content : Option Value} (h : c.Admits P T content)
    (hgrows : T.Grows T') : c.Admits P T' content := by
  cases c with
  | filled t =>
    obtain ⟨f, hf, hstands⟩ := h
    exact ⟨f, hf, hstands.grows hgrows⟩
  | lazy t =>
    rcases h with h | ⟨f, hf, hstands⟩
    · exact .inl h
    · exact .inr ⟨f, hf, hstands.grows hgrows⟩
  | constant t =>
    rcases h with h | ⟨f, hf, hstands⟩
    · exact .inl h
    · exact .inr ⟨f, hf, hstands.grows hgrows⟩

theorem AllStand.length_eq {fs : List Value} {ts : List TypeRef} (h : AllStand P T fs ts) :
    fs.length = ts.length := by
  induction fs generalizing ts with
  | nil =>
    cases h
    rfl
  | cons f fs ih =>
    cases h with
    | cons _ hfs => rw [List.length_cons, List.length_cons, ih hfs]

theorem AllStand.getElem? {fs : List Value} {ts : List TypeRef} (h : AllStand P T fs ts) {i : Nat}
    {f : Value} (hf : fs[i]? = some f) : ∃ t, ts[i]? = some t ∧ Stands P T f t := by
  induction fs generalizing ts i with
  | nil => simp at hf
  | cons g fs ih =>
    cases h with
    | cons hg hfs =>
      cases i with
      | zero =>
        obtain rfl : g = f := by simpa using hf
        exact ⟨_, rfl, hg⟩
      | succ i => exact ih hfs (by simpa using hf)

theorem Stands.ne_undefined {f : Value} {t : TypeRef} (h : Stands P T f t) :
    f ≠ .undefined ∧ f ≠ .json .null := by
  cases h with
  | given hanswers =>
    constructor
    · rintro rfl
      exact absurd (hanswers .null []) (by simp [apply])
    · rintro rfl
      exact absurd (hanswers .null []) (by simp [apply])
  | _ => simp

namespace Sound

variable {n : Nat} {σ : Store} {a : Nat} {t : TypeRef} {f : Value}

theorem filled (h : Sound P T n σ) (ha : T a = some (.filled t)) :
    ∃ f, σ[a]? = some (some f) ∧ Stands P T f t := by
  obtain ⟨_, hσ, f, rfl, hf⟩ := h.cells a _ ha
  exact ⟨f, hσ, hf⟩

theorem lazy (h : Sound P T n σ) (ha : T a = some (.lazy t)) : σ[a]? = some (some .undefined) ∨
    ∃ f, σ[a]? = some (some f) ∧ Stands P T f t := by
  obtain ⟨_, hσ, rfl | ⟨f, rfl, hf⟩⟩ := h.cells a _ ha
  · exact .inl hσ
  · exact .inr ⟨f, hσ, hf⟩

theorem constant (h : Sound P T n σ) (ha : T a = some (.constant t)) (hn : a < n) :
    ∃ f, σ[a]? = some (some f) ∧ Stands P T f t := by
  obtain ⟨g, hg⟩ := h.declared a hn
  obtain ⟨_, hσ, rfl | ⟨f, rfl, hf⟩⟩ := h.cells a _ ha
  · rw [hσ] at hg
    cases hg
  · exact ⟨f, hσ, hf⟩

private theorem lt_length (h : Sound P T n σ) {c : Cell} (ha : T a = some c) : a < σ.length := by
  obtain ⟨_, hσ, _⟩ := h.cells a c ha
  exact (List.getElem?_eq_some_iff.mp hσ).1

theorem set (h : Sound P T n σ) (hf : Stands P T f t)
    (ha : T a = some (.lazy t) ∨ T a = some (.constant t)) :
    Sound P T n (σ.set a (some f)) where
  constants := h.constants
  cells b c hb := by
    obtain ⟨content, hσ, hadmits⟩ := h.cells b c hb
    by_cases hab : a = b
    · subst hab
      refine ⟨some f, List.getElem?_set_self (List.getElem?_eq_some_iff.mp hσ).1, ?_⟩
      rcases ha with ha | ha
      · obtain rfl := Option.some.inj (ha.symm.trans hb)
        exact .inr ⟨f, rfl, hf⟩
      · obtain rfl := Option.some.inj (ha.symm.trans hb)
        exact .inr ⟨f, rfl, hf⟩
    · exact ⟨content, by rw [List.getElem?_set_ne hab, hσ], hadmits⟩
  declared i hi := by
    obtain ⟨g, hg⟩ := h.declared i hi
    by_cases hai : a = i
    · subst hai
      exact ⟨f, List.getElem?_set_self (List.getElem?_eq_some_iff.mp hg).1⟩
    · exact ⟨g, by rw [List.getElem?_set_ne hai, hg]⟩

theorem declare (h : Sound P T n σ) (hf : Stands P T f t) (hn : T n = some (.constant t)) :
    Sound P T (n + 1) (σ.set n (some f)) where
  constants := h.constants
  cells := (h.set hf (.inr hn)).cells
  declared i hi := by
    rcases Nat.lt_succ_iff_lt_or_eq.mp hi with hi | rfl
    · exact (h.set hf (.inr hn)).declared i hi
    · exact ⟨f, List.getElem?_set_self (h.lt_length hn)⟩

theorem grows_extend (h : Sound P T n σ) (added : List Cell) :
    T.Grows (T.extend σ.length added) := fun a c ha => by
  rw [Typing.extend, if_pos (h.lt_length ha), ha]

/-- New cells hold what they are for, perhaps with the help of each other. -/
theorem append (h : Sound P T n σ) {added : List Cell} {contents : List (Option Value)}
    (hadded : ∀ (i : Nat) (c : Cell), added[i]? = some c → ∃ content, contents[i]? = some content ∧
      c.Admits P (T.extend σ.length added) content) :
    Sound P (T.extend σ.length added) n (σ ++ contents) where
  constants i b hb := h.grows_extend added _ _ (h.constants i b hb)
  cells a c ha := by
    by_cases hlt : a < σ.length
    · rw [Typing.extend, if_pos hlt] at ha
      obtain ⟨content, hσ, hadmits⟩ := h.cells a c ha
      exact ⟨content, by rw [List.getElem?_append_left hlt, hσ],
        hadmits.grows (h.grows_extend added)⟩
    · rw [Typing.extend, if_neg hlt] at ha
      obtain ⟨content, hcontent, hadmits⟩ := hadded _ c ha
      exact ⟨content, by rw [List.getElem?_append_right (by omega), hcontent], hadmits⟩
  declared i hi := by
    obtain ⟨f, hf⟩ := h.declared i hi
    exact ⟨f, by rw [List.getElem?_append_left (List.getElem?_eq_some_iff.mp hf).1, hf]⟩

end Sound

end SchemaGuard.Script
