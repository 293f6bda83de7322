import StaticGql.Config

/-!
The arguments of the command line. Options that stand before the command and after it are read
alike, one after another. An option that takes a value has it attached or in the next argument, and
such a value is looked at only when the next option starts or the arguments end; so an argument that
does not belong here is told before a value that is not allowed.
-/

namespace StaticGql.Cli

inductive LogLevel where
  | off
  | error
  | warn
  | info
  | debug
  | trace
  deriving DecidableEq, Repr

namespace LogLevel

def all : List LogLevel := [off, error, warn, info, debug, trace]

def name : LogLevel → String
  | off => "off"
  | error => "error"
  | warn => "warn"
  | info => "info"
  | debug => "debug"
  | trace => "trace"

def ofName? (s : String) : Option LogLevel := all.find? (·.name = s)

end LogLevel

/-- Why the arguments lead to no command. -/
inductive Usage where
  | help
  | version
  | nothingGiven
  | noCommand
  | unknownCommand
  | unknownArgument
  | missingArgument
  | invalidValue
  | rejectedValue
  | givenTwice
  | needlessValue
  deriving DecidableEq, Repr

namespace Usage

/-- Only what was asked for is a success. -/
def exitCode : Usage → Nat
  | help | version => 0
  | _ => 2

def synopsis : String :=
  "Usage: tessera [OPTIONS] <COMMAND>\n\n" ++
  "Commands:\n" ++
  "  build      Build the artifact for a project\n" ++
  "  transform  Replace the declaration call-sites of one file\n" ++
  "  scan       Show which files changed since the last build\n" ++
  "  help       Print this message\n"

def text : Usage → String
  | help | nothingGiven => synopsis
  | version => "tessera\n"
  | noCommand => "error: a command is required\n"
  | unknownCommand => "error: unrecognized command\n"
  | unknownArgument => "error: unexpected argument\n"
  | missingArgument => "error: a required argument was not provided\n"
  | invalidValue => "error: a value is missing or not allowed\n"
  | rejectedValue => "error: a value is not valid\n"
  | givenTwice => "error: an argument cannot be used multiple times\n"
  | needlessValue => "error: an argument takes no value\n"

end Usage

inductive CommandName where
  | build
  | transform
  | scan
  deriving DecidableEq, Repr

namespace CommandName

def name : CommandName → String
  | build => "build"
  | transform => "transform"
  | scan => "scan"

def ofName? (s : String) : Option CommandName := [build, transform, scan].find? (·.name = s)

end CommandName

inductive Arg where
  | help
  | version
  | logLevel
  | verbose
  | config
  | entry
  | out
  | frontend
  | relativeIds
  | async
  | artifact
  | mode
  | cjs
  /-- The one argument without a name. -/
  | file
  deriving DecidableEq, Repr

namespace Arg

def takesValue : Arg → Bool
  | help | version | verbose | relativeIds | async | cjs => false
  | _ => true

def long? : Arg → Option String
  | help => some "help"
  | version => some "version"
  | logLevel => some "log-level"
  | verbose => some "verbose"
  | config => some "config"
  | entry => some "entry"
  | out => some "out"
  | frontend => some "frontend"
  | relativeIds => some "relative-ids"
  | async => some "async"
  | artifact => some "artifact"
  | mode => some "mode"
  | cjs => some "cjs"
  | file => none

def short? : Arg → Option Char
  | help => some 'h'
  | version => some 'V'
  | logLevel => some 'l'
  | verbose => some 'v'
  | config => some 'C'
  | entry => some 'e'
  | out => some 'o'
  | artifact => some 'a'
  | mode => some 'm'
  | frontend | relativeIds | async | cjs | file => none

/-- The options before a command, or of one. -/
def options : Option CommandName → List Arg
  | none => [help, version, logLevel, verbose]
  | some .build =>
    [help, logLevel, verbose, config, entry, out, frontend, relativeIds, async]
  | some .transform => [help, logLevel, verbose, config, artifact, mode, cjs]
  | some .scan => [help, logLevel, verbose, config]

def ofLong? (place : Option CommandName) (name : String) : Option Arg :=
  (options place).find? (·.long? = some name)

def ofShort? (place : Option CommandName) (c : Char) : Option Arg :=
  (options place).find? (·.short? = some c)

end Arg

/-- What was given so far in one place. -/
structure Given where
  logLevel : Option LogLevel
  verbose : Bool
  config : Option String
  entries : List String
  out : Option String
  frontend : Option Frontend
  relativeIds : Bool
  async : Bool
  artifact : Option String
  mode : Option TransformMode
  cjs : Bool
  file : Option String
  deriving DecidableEq, Repr

namespace Given

def none : Given :=
  ⟨.none, false, .none, [], .none, .none, false, false, .none, .none, false, .none⟩

def isEmpty (g : Given) : Bool := g = none

/-- A value for an option that may be given once. -/
def once {α : Type} (old : Option α) (new : Except Usage α) : Except Usage (Option α) :=
  match old with
  | some _ => .error .givenTwice
  | .none => new.map some

def flag (old : Bool) : Except Usage Bool := if old then .error .givenTwice else .ok true

def path (s : String) : Except Usage String := if s.isEmpty then .error .invalidValue else .ok s

def known {α : Type} (o : Option α) : Except Usage α :=
  match o with
  | some a => .ok a
  | .none => .error .invalidValue

variable (g : Given)

/-- An option without a value. -/
def switch : Arg → Except Usage Given
  | .help => .error .help
  | .version => .error .version
  | .verbose => return { g with verbose := ← flag g.verbose }
  | .relativeIds => return { g with relativeIds := ← flag g.relativeIds }
  | .async => return { g with async := ← flag g.async }
  | .cjs => return { g with cjs := ← flag g.cjs }
  | _ => .error .invalidValue

/-- An option with its value. -/
def set (a : Arg) (v : String) : Except Usage Given :=
  match a with
  | .logLevel => return { g with logLevel := ← once g.logLevel (known (LogLevel.ofName? v)) }
  | .config => return { g with config := ← once g.config (path v) }
  | .entry => return { g with entries := g.entries ++ [v] }
  | .out => return { g with out := ← once g.out (path v) }
  | .frontend =>
    return { g with
      frontend := ← once g.frontend ((Frontend.ofText v).mapError fun _ => .rejectedValue) }
  | .artifact => return { g with artifact := ← once g.artifact (path v) }
  | .mode => return { g with mode := ← once g.mode (known (TransformMode.ofName? v)) }
  | .file => return { g with file := ← once g.file (path v) }
  | _ => .error .needlessValue

end Given

/-- The reading of the arguments of one place. -/
structure Progress where
  given : Given
  /-- The last option that takes a value, with the value if it has come. -/
  pending : Option (Arg × Option String)

namespace Progress

def start : Progress := ⟨.none, none⟩

variable (p : Progress)

def awaiting? : Option Arg :=
  match p.pending with
  | some (a, none) => some a
  | _ => none

/-- What was given, with what is pending. -/
def settle : Except Usage Given :=
  match p.pending with
  | none => .ok p.given
  | some (_, none) => .error .invalidValue
  | some (a, some v) => p.given.set a v

def switch (a : Arg) : Except Usage Progress := return ⟨← (← p.settle).switch a, none⟩

def attach (a : Arg) (v : String) : Except Usage Progress := return ⟨← (← p.settle).set a v, none⟩

def await (a : Arg) : Except Usage Progress := return ⟨← p.settle, some (a, none)⟩

/-- An argument that stands by itself. -/
def standAlone (v : String) : Except Usage Progress := return ⟨← p.settle, some (.file, some v)⟩

/-- An option by its long name, after the two hyphens. -/
def long (place : Option CommandName) (text : List Char) : Except Usage Progress :=
  let name := String.ofList (text.takeWhile (· ≠ '='))
  let value := text.dropWhile (· ≠ '=')
  match Arg.ofLong? place name with
  | none => .error .unknownArgument
  | some a =>
    match a.takesValue, value with
    | true, [] => p.await a
    | true, _ :: v => p.attach a (String.ofList v)
    | false, [] => p.switch a
    | false, _ => .error .needlessValue

/-- Options by their short names; the first that takes a value takes the rest. -/
def short (place : Option CommandName) : List Char → Progress → Except Usage Progress
  | [], p => .ok p
  | c :: cs, p =>
    match Arg.ofShort? place c with
    | none => .error .unknownArgument
    | some a =>
      if a.takesValue then
        match cs with
        | [] => p.await a
        | '=' :: v => p.attach a (String.ofList v)
        | v => p.attach a (String.ofList v)
      else do short place cs (← p.switch a)

/-- An argument that is an option of its place. -/
def option? (place : Option CommandName) (text : List Char) : Option (Except Usage Progress) :=
  match text with
  | '-' :: '-' :: name => some (p.long place name)
  | '-' :: c :: cs => some (short place (c :: cs) p)
  | _ => none

/-- Any argument but a command, where a value may be awaited. -/
def argument (place : Option CommandName) (arg : String) : Except Usage Progress :=
  match p.option? place arg.toList with
  | some r => r
  | none =>
    match p.awaiting? with
    | some a => .ok ⟨p.given, some (a, some arg)⟩
    | none =>
      match place with
      | none => .error .unknownCommand
      | some .transform =>
        if p.given.file.isSome || (p.pending.map (·.1)) = some .file then .error .unknownArgument
        else p.standAlone arg
      | some _ => .error .unknownArgument

/-- An argument after `--`, where nothing is an option. -/
def trailing (place : Option CommandName) (arg : String) : Except Usage Progress :=
  match place with
  | none => .error (if (CommandName.ofName? arg).isSome then .unknownArgument else .unknownCommand)
  | some .transform =>
    if p.given.file.isSome || (p.pending.map (·.1)) = some .file then .error .unknownArgument
    else p.standAlone arg
  | some _ => .error .unknownArgument

/-- The arguments after a command. -/
def ofCommand (name : CommandName) : Progress → List String → Except Usage Given
  | p, [] => p.settle
  | p, arg :: args =>
    if arg = "--" then do (← args.foldlM (fun p a => p.trailing (some name) a) p).settle
    else do ofCommand name (← p.argument (some name) arg) args

end Progress

structure BuildArgs where
  config : Option String
  entries : List String
  out : Option String
  frontend : Option Frontend
  relativeIds : Bool
  async : Bool
  deriving DecidableEq, Repr

structure TransformArgs where
  file : String
  artifact : String
  config : Option String
  mode : Option TransformMode
  cjs : Bool
  deriving DecidableEq, Repr

inductive Command where
  | build (args : BuildArgs)
  | transform (args : TransformArgs)
  | scan (config : Option String)
  deriving DecidableEq, Repr

structure Invocation where
  level : LogLevel
  command : Command
  deriving DecidableEq, Repr

def Command.ofGiven (name : CommandName) (g : Given) : Except Usage Command :=
  match name with
  | .build => .ok (.build ⟨g.config, g.entries, g.out, g.frontend, g.relativeIds, g.async⟩)
  | .scan => .ok (.scan g.config)
  | .transform =>
    match g.file, g.artifact with
    | some file, some artifact => .ok (.transform ⟨file, artifact, g.config, g.mode, g.cjs⟩)
    | _, _ => .error .missingArgument

/-- The level that was named, nearest to the command first; being verbose means `debug`. -/
def levelOf (before after : Given) : LogLevel :=
  match after.logLevel.or before.logLevel with
  | some level => level
  | none => if before.verbose || after.verbose then .debug else .warn

/-- The arguments of `help`: it knows the commands and itself. -/
def helpUsage : List String → Usage
  | [] | ["help"] => .help
  | [arg] => if (CommandName.ofName? arg).isSome then .help else .unknownCommand
  | _ => .unknownCommand

/-- The arguments before the command, and then those after it. -/
def parseFrom : Progress → List String → Except Usage Invocation
  | p, [] => do
    let g ← p.settle
    throw (if g.isEmpty then .nothingGiven else .noCommand)
  | p, arg :: args =>
    match p.awaiting?, CommandName.ofName? arg with
    | none, some name => do
      let after ← Progress.ofCommand name .start args
      let command ← Command.ofGiven name after
      let before ← p.settle
      return ⟨levelOf before after, command⟩
    | _, _ =>
      if p.awaiting?.isNone && arg = "help" then .error (helpUsage args)
      else if arg = "--" then do
        let p ← args.foldlM (fun p a => p.trailing none a) p
        let g ← p.settle
        throw (if g.isEmpty then .nothingGiven else .noCommand)
      else do parseFrom (← p.argument none arg) args

def parse (args : List String) : Except Usage Invocation := parseFrom .start args

end StaticGql.Cli
