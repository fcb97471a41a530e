import SchemaGuard.FileSystem.Path

/-!
Patterns of paths: `?` stands for one character, `*` for any number of them, `[ab-d]` for one of a
class and `[!ab-d]` for one that is in none, and a name `**` for any number of folders.
-/

set_option autoImplicit false
set_option relaxedAutoImplicit false

namespace SchemaGuard

inductive PatternProblem where
  | tooManyStars
  | depthInName
  | unfinishedClass
  deriving DecidableEq, Repr

def PatternProblem.text : PatternProblem → String
  | .tooManyStars => "wildcards are either regular `*` or recursive `**`"
  | .depthInName => "recursive wildcards must form a single path component"
  | .unfinishedClass => "invalid range pattern"

structure PatternError where
  position : Nat
  problem : PatternProblem
  deriving DecidableEq, Repr

def PatternError.message (e : PatternError) : String :=
  "Pattern syntax error near position " ++ toString e.position ++ ": " ++ e.problem.text

/-- A part of a pattern. -/
inductive Glob where
  | char (c : Char)
  | anyChar
  | anyRun
  | oneOf (ranges : List (Char × Char))
  | noneOf (ranges : List (Char × Char))
  | anyDepth
  deriving DecidableEq, Repr

namespace Glob

def isMark (c : Char) : Bool := c == '*' || c == '?' || c == '['

/-- The ranges of a class; a character alone is a range of one. -/
def ranges : List Char → List (Char × Char)
  | a :: '-' :: b :: rest => (a, b) :: ranges rest
  | c :: rest => (c, c) :: ranges rest
  | [] => []

/-- What stands before the bracket that closes a class, and what stands after it. -/
def closed? : List Char → Option (List Char × List Char)
  | [] => none
  | c :: rest =>
    if c = ']' then some ([], rest) else (closed? rest).map fun (cs, after) => (c :: cs, after)

theorem length_of_closed? {s cs rest : List Char} (h : closed? s = some (cs, rest)) :
    rest.length < s.length := by
  induction s generalizing cs with
  | nil => simp [closed?] at h
  | cons c s ih =>
    by_cases hc : c = ']'
    · simp only [closed?, hc, if_true, Option.some.injEq, Prod.mk.injEq] at h
      simp [h.2]
    · simp only [closed?, hc, if_false, Option.map_eq_some_iff, Prod.exists, Prod.mk.injEq] at h
      obtain ⟨cs', rest', h, _, rfl⟩ := h
      have := ih h
      simp only [List.length_cons]
      omega

/-- The parts of a pattern that goes on at position `i` after the character `previous`. -/
def scan (i : Nat) (previous : Option Char) (s : List Char) : Except PatternError (List Glob) :=
  match s with
  | [] => .ok []
  | '?' :: rest => return .anyChar :: (← scan (i + 1) (some '?') rest)
  | '*' :: '*' :: '*' :: _ => .error ⟨i + 2, .tooManyStars⟩
  | '*' :: '*' :: rest =>
    if previous.all (· == Path.separator) then
      match rest with
      | [] => .ok [.anyDepth]
      | c :: rest =>
        if c = Path.separator then return .anyDepth :: (← scan (i + 3) (some c) rest)
        else .error ⟨i + 2, .depthInName⟩
    else .error ⟨i - 1, .depthInName⟩
  | '*' :: rest => return .anyRun :: (← scan (i + 1) (some '*') rest)
  | '[' :: '!' :: c :: rest =>
    match h : closed? rest with
    | some (cs, after) =>
      have : after.length < rest.length := length_of_closed? h
      return .noneOf (ranges (c :: cs)) :: (← scan (i + cs.length + 4) (some ']') after)
    | none => .error ⟨i, .unfinishedClass⟩
  | ['[', '!'] => .error ⟨i, .unfinishedClass⟩
  | '[' :: c :: rest =>
    match h : closed? rest with
    | some (cs, after) =>
      have : after.length < rest.length := length_of_closed? h
      return .oneOf (ranges (c :: cs)) :: (← scan (i + cs.length + 3) (some ']') after)
    | none => .error ⟨i, .unfinishedClass⟩
  | ['['] => .error ⟨i, .unfinishedClass⟩
  | c :: rest => return .char c :: (← scan (i + 1) (some c) rest)
termination_by s.length
decreasing_by all_goals (simp only [List.length_cons]; omega)

def takes (g : Glob) (c : Char) : Bool :=
  match g with
  | .char c' => c == c'
  | .anyChar | .anyRun | .anyDepth => true
  | .oneOf ranges => ranges.any fun (a, b) => a ≤ c && c ≤ b
  | .noneOf ranges => !ranges.any fun (a, b) => a ≤ c && c ≤ b

def allMatch : List Glob → List Char → Bool
  | [], s => s.isEmpty
  | .anyRun :: gs, [] | .anyDepth :: gs, [] => allMatch gs []
  | _ :: _, [] => false
  | g :: gs, c :: cs =>
    match g with
    | .anyRun | .anyDepth => allMatch gs (c :: cs) || allMatch (g :: gs) cs
    | g => g.takes c && allMatch gs cs
termination_by gs s => gs.length + s.length

/-- The text, if the parts are characters only. -/
def literal? : List Glob → Option (List Char)
  | [] => some []
  | .char c :: gs => (literal? gs).map (c :: ·)
  | _ :: _ => none

end Glob

/-- The pattern of one name. -/
inductive NamePattern where
  | literal (name : String)
  | wild (globs : List Glob)
  | anyDepth
  deriving DecidableEq, Repr

namespace NamePattern

def ofText (s : List Char) : Except PatternError NamePattern := do
  match ← Glob.scan 0 none s with
  | [.anyDepth] => return .anyDepth
  | globs =>
    match Glob.literal? globs with
    | some name => return .literal (String.ofList name)
    | none => return .wild globs

def accepts (p : NamePattern) (name : String) : Bool :=
  match p with
  | .literal name' => name == name'
  | .wild globs => Glob.allMatch globs name.toList
  | .anyDepth => true

end NamePattern

/-- The patterns of the names of a path. -/
structure Pattern where
  rooted : Bool
  names : List NamePattern
  folder : Bool
  deriving DecidableEq, Repr

namespace Pattern

def isPattern (s : String) : Bool := s.toList.any Glob.isMark

def collapse : List NamePattern → List NamePattern
  | .anyDepth :: rest =>
    match collapse rest with
    | .anyDepth :: rest => .anyDepth :: rest
    | rest => .anyDepth :: rest
  | p :: rest => p :: collapse rest
  | [] => []

/-- Reads a pattern. The whole has to be one, and so has each name. -/
def ofText (s : String) : Except PatternError Pattern := do
  let _ ← Glob.scan 0 none s.toList
  let rooted := Path.isRooted s
  let pieces := Path.split (if rooted then s.toList.drop 1 else s.toList)
  let folder := pieces.getLast? == some []
  let names ← (if folder then pieces.dropLast else pieces).mapM NamePattern.ofText
  return ⟨rooted, collapse names, folder⟩

end Pattern

end SchemaGuard
