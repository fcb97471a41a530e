/-!
Indentation of texts line by line. A line ends at a line feed, a carriage return before it being
dropped; an empty line stays empty.
-/

set_option autoImplicit false
set_option relaxedAutoImplicit false

namespace SchemaGuard.Text

/-- A line in reverse, without the carriage return before its line feed. -/
private def ended (reversed : List Char) : List Char :=
  match reversed with
  | '\r' :: rest => rest.reverse
  | all => all.reverse

def linesFrom (reversed : List Char) : List Char → List (List Char)
  | [] => if reversed.isEmpty then [] else [reversed.reverse]
  | '\n' :: rest => ended reversed :: linesFrom [] rest
  | c :: rest => linesFrom (c :: reversed) rest

def lines (s : String) : List (List Char) := linesFrom [] s.toList

/-- A line with a pad in front, unless it is empty, and a line feed behind. -/
def padded (pad line : List Char) : List Char :=
  match line with
  | [] => ['\n']
  | line => pad ++ line ++ ['\n']

/-- Indents every line by two blanks for each level and ends it with a line feed. -/
def indent (levels : Nat) (s : String) : String :=
  String.ofList ((lines s).flatMap (padded (List.replicate (2 * levels) ' ')))

end SchemaGuard.Text
