namespace Chess

/-! Command lines. A program has named commands; a command has flags, options that take a
value, and at most one positional argument, and every command has the flags `-h, --help`
and `-V, --version`. The program itself takes only those two flags, and the command `help`,
which shows the help of the program or of the command named after it.

Arguments are read from the left. After `--` every argument is positional. An argument
that starts with `--` names a switch by its long name, with leading dashes and anything
from the first `=` removed; an option's value is what follows that `=`, leading `=`s
dropped, or else the next argument. An argument that starts with one `-` and has more
characters is a run of short flags, where the first short option takes the rest of the
run as its value, leading `=`s dropped, or else the next argument. The next argument is
taken as a value only when it does not itself look like a switch: a switch read while an
option waits for its value is read as a switch, and the option goes without. Help and version
are shown as soon as they are read; an unknown switch or a surplus positional argument
refuses the line as soon as it is read. At the end the line is refused when an option was
given without a value, a switch is given twice, or a required positional argument is
missing. -/

namespace Cli

/-- A switch of a command: a flag, or an option when it names its value. -/
structure Switch where
  key : String
  short : Option Char := none
  long : String
  valueName : Option String := none
  help : String
  deriving Inhabited

/-- The positional argument of a command. -/
structure Positional where
  name : String
  help : String
  required : Bool := false
  multiple : Bool := false
  deriving Inhabited

/-- A command: its name, what it does, its switches and positional argument, and whether it
takes the flags for help and version. -/
structure Command where
  name : String
  about : String
  switches : List Switch := []
  positional : Option Positional := none
  standardFlags : Bool := true
  deriving Inhabited

/-- A program: its name, version, author, what it does and its commands. -/
structure App where
  name : String
  version : String
  author : String
  about : String
  commands : List Command
  deriving Inhabited

def helpFlag : Switch :=
  { key := "help", short := some 'h', long := "help", help := "Prints help information" }

def versionFlag : Switch :=
  { key := "version", short := some 'V', long := "version",
    help := "Prints version information" }

def helpCommand : Command :=
  { name := "help", about := "Prints this message or the help of the given subcommand(s)",
    positional := some { name := "subcommand", multiple := true,
                         help := "The subcommand whose help message to display" },
    standardFlags := false }

/-! ### Help text -/

def spaces (n : Nat) : String := String.ofList (List.replicate n ' ')

/-- A line of a help section: what stands before the name, the name, and its help. -/
structure Row where
  lead : String
  shown : String
  help : String

/-- The lines of a help section, each help text four columns after the widest name. -/
def Row.render (rows : List Row) : String :=
  let longest := rows.foldl (fun n r => max n r.shown.length) 2
  "\n".intercalate (rows.map fun r =>
    "    " ++ r.lead ++ r.shown ++ spaces (longest + 4 - r.shown.length) ++ r.help)

def sortByKey (switches : List Switch) : List Switch :=
  switches.mergeSort fun a b => decide (a.key ≤ b.key)

def Switch.row (s : Switch) : Row :=
  { lead := match s.short with
      | some c => "-" ++ String.singleton c ++ ", "
      | none => "    "
    shown := "--" ++ s.long ++ (match s.valueName with
      | some v => " <" ++ v ++ ">"
      | none => "")
    help := s.help }

def Positional.shown (p : Positional) : String :=
  "<" ++ p.name ++ ">" ++ (if p.multiple then "..." else "")

/-- Help text: a title, lines about the program, the usage and the non-empty sections. -/
def helpText (title : String) (about : List String) (usage : String)
    (sections : List (String × List Row)) : String :=
  title ++ "\n" ++ String.join (about.map (· ++ "\n")) ++ "\nUSAGE:\n    " ++ usage ++ "\n\n" ++
    "\n\n".intercalate ((sections.filter fun s => !s.2.isEmpty).map fun (name, rows) =>
      name ++ ":\n" ++ Row.render rows)

namespace Command

def allSwitches (c : Command) : List Switch :=
  c.switches ++ (if c.standardFlags then [helpFlag, versionFlag] else [])

def usage (c : Command) (bin : String) : String :=
  bin ++ (if c.switches.any (·.valueName.isNone) then " [FLAGS]" else "")
    ++ (if c.switches.any (·.valueName.isSome) then " [OPTIONS]" else "")
    ++ (match c.positional with
      | some p =>
        if p.required then " <" ++ p.name ++ ">"
        else " [" ++ p.name ++ "]" ++ (if p.multiple then "..." else "")
      | none => "")

/-- The title of a command run as `bin`: the words of `bin` joined by dashes, and a space
for the version a command does not have. -/
def title (bin : String) : String := "-".intercalate (bin.splitOn " ") ++ " "

def help (c : Command) (bin : String) : String :=
  let switches := sortByKey c.allSwitches
  helpText (title bin) [c.about] (c.usage bin)
    [("FLAGS", (switches.filter (·.valueName.isNone)).map Switch.row),
     ("OPTIONS", (switches.filter (·.valueName.isSome)).map Switch.row),
     ("ARGS", c.positional.toList.map fun p => { lead := "", shown := p.shown, help := p.help })]

end Command

namespace App

/-- The commands listed by the program, the command `help` among them, ordered by name. -/
def listed (app : App) : List Command :=
  (app.commands ++ [helpCommand]).mergeSort fun a b => decide (a.name ≤ b.name)

def usage (app : App) : String := app.name ++ " [SUBCOMMAND]"

def help (app : App) : String :=
  helpText (app.name ++ " " ++ app.version) [app.author, app.about] app.usage
    [("FLAGS", [helpFlag.row, versionFlag.row]),
     ("SUBCOMMANDS", app.listed.map fun c => { lead := "", shown := c.name, help := c.about })]

end App

/-! ### Reading a command line -/

/-- What a command was given: option values and flags by key, the keys of all switches once
per use, the positional values, and the option waiting for its value. -/
structure Given where
  values : List (String × String) := []
  flags : List String := []
  uses : List String := []
  positional : List String := []
  pending : Option Switch := none
  deriving Inhabited

namespace Given

def value? (g : Given) (key : String) : Option String :=
  (g.values.find? (·.1 = key)).map (·.2)

def has (g : Given) (key : String) : Bool := g.flags.contains key

def use (g : Given) (s : Switch) : Given :=
  { g with uses := g.uses ++ [s.key], pending := none }

def withFlag (g : Given) (s : Switch) : Given :=
  { g.use s with flags := g.flags ++ [s.key] }

def withValue (g : Given) (s : Switch) (v : String) : Given :=
  { g with values := g.values ++ [(s.key, v)] }

end Given

/-- What a command line asks for. -/
inductive Request where
  /-- Show this help text. -/
  | help (text : String)
  /-- Show this version line. -/
  | version (text : String)
  /-- The line is refused. -/
  | invalid
  /-- No command was named. -/
  | usage
  /-- Run a command with what it was given. -/
  | run (command : String) (given : Given)
  deriving Inhabited

def attached (text : String) : String := String.ofList (text.toList.dropWhile (· = '='))

def looksLikeSwitch (arg : String) : Bool := arg.startsWith "-" && arg.length ≠ 1

namespace Command

def shortRun (c : Command) (bin : String) : List Char → Given → Except Request Given
  | [], g => .ok g
  | ch :: rest, g =>
    match c.allSwitches.find? (·.short = some ch) with
    | none => .error .invalid
    | some s =>
      if s.valueName.isSome then
        if rest.isEmpty then .ok { g.use s with pending := some s }
        else .ok ((g.use s).withValue s (attached (String.ofList rest)))
      else if s.key = "help" && c.standardFlags then .error (.help (c.help bin))
      else if s.key = "version" && c.standardFlags then .error (.version (title bin))
      else c.shortRun bin rest (g.withFlag s)

def longSwitch (c : Command) (bin : String) (arg : String) (g : Given) : Except Request Given :=
  let body := arg.toList.dropWhile (· = '-')
  let name := String.ofList (body.takeWhile (· ≠ '='))
  let value := if body.contains '=' then some (attached (String.ofList (body.dropWhile (· ≠ '='))))
    else none
  match c.allSwitches.find? (·.long = name) with
  | none => .error .invalid
  | some s =>
    if s.valueName.isSome then
      match value with
      | some v => .ok ((g.use s).withValue s v)
      | none => .ok { g.use s with pending := some s }
    else if s.key = "help" && c.standardFlags then .error (.help (c.help bin))
    else if s.key = "version" && c.standardFlags then .error (.version (title bin))
    else .ok (g.withFlag s)

def takePositional (c : Command) (arg : String) (g : Given) : Except Request Given :=
  match c.positional with
  | some p =>
    if p.multiple || g.positional.isEmpty then .ok { g with positional := g.positional ++ [arg] }
    else .error .invalid
  | none => .error .invalid

def readArgs (c : Command) (bin : String) : List String → Given → Bool → Except Request Given
  | [], g, _ => .ok g
  | arg :: rest, g, trailing =>
    let step : Except Request (Given × Bool) :=
      if !trailing && arg = "--" then .ok (g, true)
      else if !trailing && looksLikeSwitch arg then
        if arg.startsWith "--" then (·, trailing) <$> c.longSwitch bin arg g
        else (·, trailing) <$> c.shortRun bin (arg.toList.dropWhile (· = '-')) g
      else if !trailing && g.pending.isSome then
        match g.pending with
        | some s => .ok ({ g.withValue s arg with pending := none }, trailing)
        | none => .ok (g, trailing)
      else (·, trailing) <$> c.takePositional arg g
    match step with
    | .error r => .error r
    | .ok (g, trailing) => c.readArgs bin rest g trailing

def repeated (keys : List String) : Bool :=
  keys.any fun k => keys.count k > 1

def lacksValue (c : Command) (g : Given) : Bool :=
  g.uses.any fun k =>
    c.allSwitches.any (fun s => s.key = k && s.valueName.isSome) && (g.value? k).isNone

def parse (c : Command) (bin : String) (args : List String) : Request :=
  match c.readArgs bin args {} false with
  | .error r => r
  | .ok g =>
    if c.lacksValue g then .invalid
    else if repeated g.uses then .invalid
    else if (c.positional.any (·.required)) && g.positional.isEmpty then .invalid
    else .run c.name g

end Command

namespace App

def helpOf (app : App) : List String → Request
  | [] => .help app.help
  | [name] =>
    if name = "help" then .help (helpCommand.help (app.name ++ " help"))
    else match app.commands.find? (·.name = name) with
      | some c => .help (c.help (app.name ++ " " ++ c.name))
      | none => .invalid
  | _ => .invalid

/-- Reads the program's own arguments up to the command; `trailing` is set after `--`. -/
def readArgs (app : App) : List String → Bool → Request
  | [], _ => .usage
  | arg :: rest, trailing =>
    if trailing then .invalid
    else if arg = "--" then app.readArgs rest true
    else if arg = "help" then app.helpOf rest
    else match app.commands.find? (·.name = arg) with
      | some c => c.parse (app.name ++ " " ++ c.name) rest
      | none =>
        if arg.startsWith "--" then
          let name := String.ofList ((arg.toList.dropWhile (· = '-')).takeWhile (· ≠ '='))
          if name = "help" then .help app.help
          else if name = "version" then .version (app.name ++ " " ++ app.version)
          else .invalid
        else if looksLikeSwitch arg then
          match (arg.toList.dropWhile (· = '-')).head? with
          | some 'h' => .help app.help
          | some 'V' => .version (app.name ++ " " ++ app.version)
          | _ => .invalid
        else .invalid

def parse (app : App) (args : List String) : Request := app.readArgs args false

end App

end Cli

end Chess
