import SchemaGuard.CommandLine.Command
import SchemaGuard.CommandLine.Usage

/-!
Reading arguments. An option is written `--long`, `--long=value`, `-s`, `-svalue` or `-s=value`,
flags of one letter can stand together, and an option that takes values and has none attached takes
the plain arguments after it. Faults are reported in the order they are met; that an option lacks
its value or is repeated shows as soon as the next option is read, or at the end.
-/

set_option autoImplicit false
set_option relaxedAutoImplicit false

namespace SchemaGuard.CommandLine

/-- How many values an option takes. -/
inductive Values where
  | none
  | one
  | several
  deriving DecidableEq, Repr

inductive Key where
  | schema
  | closed
  | guardPrefix
  | noExport
  | typesModule
  | out
  | type
  | value
  | verbose
  | help
  | version
  deriving DecidableEq, Repr

namespace Key

def long : Key → String
  | .schema => "schema"
  | .closed => "closed"
  | .guardPrefix => "guard-prefix"
  | .noExport => "no-export"
  | .typesModule => "types-module"
  | .out => "out"
  | .type => "type"
  | .value => "value"
  | .verbose => "verbose"
  | .help => "help"
  | .version => "version"

def short? : Key → Option Char
  | .schema => some 's'
  | .out => some 'o'
  | .verbose => some 'v'
  | .help => some 'h'
  | .version => some 'V'
  | _ => none

def values : Key → Values
  | .schema | .value => .several
  | .guardPrefix | .typesModule | .out | .type => .one
  | _ => .none

def refuses (k : Key) (value : String) : Bool := k == .out && value.isEmpty

end Key

def rootKeys : List Key := [.verbose, .help, .version]

inductive Subcommand where
  | emit (product : Product)
  | check
  deriving DecidableEq, Repr

namespace Subcommand

def all : List Subcommand := [.emit .declarations, .emit .guards, .emit .bundle, .check]

def name : Subcommand → String
  | .emit .declarations => "declarations"
  | .emit .guards => "guards"
  | .emit .bundle => "bundle"
  | .check => "check"

def helpName : String := "help"

def ofName? (name : String) : Option Subcommand := all.find? fun c => c.name == name

def isName (word : String) : Bool := word == helpName || (ofName? word).isSome

def keys : Subcommand → List Key
  | .emit _ =>
    [.schema, .closed, .guardPrefix, .noExport, .typesModule, .out, .verbose, .help]
  | .check => [.schema, .closed, .type, .value, .verbose, .help]

def required : Subcommand → List Key
  | .emit _ => [.schema]
  | .check => [.schema, .type, .value]

end Subcommand

/-- One argument by its form. -/
inductive Argument where
  | separator
  | long (name : String) (attached : Option String)
  | cluster (letters : List Char)
  | plain (text : String)
  deriving DecidableEq, Repr

def splitValue : List Char → List Char × Option (List Char)
  | [] => ([], none)
  | '=' :: rest => ([], some rest)
  | c :: rest =>
    let (name, value) := splitValue rest
    (c :: name, value)

def Argument.ofText (s : String) : Argument :=
  match s.toList with
  | ['-', '-'] => .separator
  | '-' :: '-' :: rest =>
    let (name, value) := splitValue rest
    .long (String.ofList name) (value.map String.ofList)
  | '-' :: c :: rest => .cluster (c :: rest)
  | _ => .plain s

/-- The options read so far. -/
structure Progress where
  /-- Options with their values, the last of them first. -/
  given : List (Key × List String) := []
  /-- The option read last, which takes plain arguments, and those it has taken, the last first. -/
  pending : Option (Key × List String) := none
  verbosity : Nat := 0
  deriving DecidableEq, Repr

namespace Progress

def has (p : Progress) (k : Key) : Bool := p.given.any fun g => g.1 == k

def values (p : Progress) (k : Key) : List String :=
  (p.given.reverse.filter fun g => g.1 == k).flatMap Prod.snd

def verbosityLimit : Nat := 255

def take (p : Progress) (k : Key) (values : List String) : Except Usage Progress :=
  if k.values ≠ .none && values.isEmpty then .error .invalidValue
  else if k.values ≠ .several && p.has k then .error .repeated
  else if values.any k.refuses then .error .invalidValue
  else .ok { p with given := (k, values) :: p.given }

/-- Takes the option that waited for plain arguments. -/
def settle (p : Progress) : Except Usage Progress :=
  match p.pending with
  | none => .ok p
  | some (k, values) => { p with pending := none }.take k values.reverse

def flag (p : Progress) (k : Key) : Except Usage Progress := do
  let p ← p.settle
  match k with
  | .help => .error .help
  | .version => .error .version
  | .verbose => return { p with verbosity := min (p.verbosity + 1) verbosityLimit }
  | k => p.take k []

/-- Reads an option that takes values. An attached value is its only one. -/
def valued (p : Progress) (k : Key) (attached : Option String) : Except Usage Progress := do
  let p ← p.settle
  match attached with
  | some value => p.take k [value]
  | none => return { p with pending := some (k, []) }

def long (p : Progress) (k : Key) (attached : Option String) : Except Usage Progress :=
  match k.values, attached with
  | .none, none => p.flag k
  | .none, some _ => .error .surplusValue
  | _, attached => p.valued k attached

/-- Reads letters that stand together: flags up to an option that takes values, which has the rest
of them attached. -/
def cluster (keys : List Key) : Progress → List Char → Except Usage Progress
  | p, [] => .ok p
  | p, c :: rest =>
    match keys.find? fun k => k.short? == some c with
    | none => .error .unknownArgument
    | some k =>
      if k.values = .none then do cluster keys (← p.flag k) rest
      else
        match rest with
        | [] => p.valued k none
        | '=' :: value => p.valued k (some (String.ofList value))
        | value => p.valued k (some (String.ofList value))

def plain (p : Progress) (text : String) : Except Usage Progress :=
  match p.pending with
  | some (k, values) =>
    if k.values = .several || values.isEmpty then .ok { p with pending := some (k, text :: values) }
    else .error .unknownArgument
  | none => .error .unknownArgument

def readAll (keys : List Key) : Progress → List String → Except Usage Progress
  | p, [] => p.settle
  | p, arg :: rest =>
    match Argument.ofText arg with
    | .separator => if rest.isEmpty then p.settle else .error .unknownArgument
    | .long name attached =>
      match keys.find? fun k => k.long == name with
      | none => .error .unknownArgument
      | some k => do readAll keys (← p.long k attached) rest
    | .cluster letters => do readAll keys (← p.cluster keys letters) rest
    | .plain text => do readAll keys (← p.plain text) rest

def shape (p : Progress) : ShapePolicy := if p.has .closed then .closed else .opened

def command (p : Progress) : Subcommand → Command
  | .emit product =>
    .emit {
      product
      schema := p.values .schema
      options := {
        shape := p.shape
        guardPrefix := (p.values .guardPrefix).head?.getD ({} : Options).guardPrefix
        exported := !p.has .noExport
        typesModule := (p.values .typesModule).head? }
      out := (p.values .out).head? }
  | .check =>
    .check {
      schema := p.values .schema
      shape := p.shape
      type := (p.values .type).head?.getD ""
      values := p.values .value }

end Progress

/-- The answer to a call for help on a subcommand, or on the call for help itself. -/
def helpOn : List String → Usage
  | [] => .help
  | [word] => if Subcommand.isName word then .help else .unknownSubcommand
  | _ => .unknownSubcommand

/-- Reads what follows a subcommand. A verbosity given there replaces the one before it. -/
def readSubcommand (verbosity : Nat) (c : Subcommand) (args : List String) :
    Except Usage Invocation := do
  let p ← ({} : Progress).readAll c.keys args
  if c.required.all p.has then
    return ⟨p.command c, if p.verbosity = 0 then verbosity else p.verbosity⟩
  else .error .missingArgument

def Progress.withoutSubcommand (p : Progress) : Usage :=
  if p.verbosity = 0 then .helpForNothing else .missingSubcommand

def readRoot (p : Progress) : List String → Except Usage Invocation
  | [] => .error p.withoutSubcommand
  | arg :: rest =>
    if arg = Subcommand.helpName then .error (helpOn rest)
    else
      match Subcommand.ofName? arg with
      | some c => readSubcommand p.verbosity c rest
      | none =>
        match Argument.ofText arg with
        | .separator =>
          match rest with
          | [] => .error p.withoutSubcommand
          | word :: _ =>
            .error (if Subcommand.isName word then .unknownArgument else .unknownSubcommand)
        | .long name attached =>
          match rootKeys.find? fun k => k.long == name with
          | none => .error .unknownArgument
          | some k => do readRoot (← p.long k attached) rest
        | .cluster letters => do readRoot (← p.cluster rootKeys letters) rest
        | .plain _ => .error .unknownSubcommand

end CommandLine

open CommandLine in
def Invocation.ofArguments (args : List String) : Except Usage Invocation := readRoot {} args

end SchemaGuard
