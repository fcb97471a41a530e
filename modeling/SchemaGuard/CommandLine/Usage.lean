/-!
Why arguments lead to no command.
-/

set_option autoImplicit false
set_option relaxedAutoImplicit false

namespace SchemaGuard

/-- Arguments ask for help or for the version, or they are refused. -/
inductive Usage where
  | help
  | version
  | helpForNothing
  | missingSubcommand
  | unknownSubcommand
  | unknownArgument
  | surplusValue
  | invalidValue
  | repeated
  | missingArgument
  deriving DecidableEq, Repr

namespace Usage

def exitCode : Usage → Nat
  | .help | .version => 0
  | _ => 2

def message : Usage → String
  | .help | .version => ""
  | .helpForNothing | .missingSubcommand => "a subcommand is required"
  | .unknownSubcommand => "unrecognized subcommand"
  | .unknownArgument => "unexpected argument"
  | .surplusValue => "unexpected value for an option that takes none"
  | .invalidValue => "an option lacks a valid value"
  | .repeated => "an option cannot be used more than once"
  | .missingArgument => "a required option is missing"

end Usage

end SchemaGuard
