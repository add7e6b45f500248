import ScriptFold.Syntax.Parse
import ScriptFold.Syntax.Print
import ScriptFold.Syntax.Dump
/-!
The command line, apart from its input and output. `Invocation.ofArgs` reads the arguments
into a `Request` (a task, a file name and the parser's limits) or into the text to answer at
once: help, the version, or what was wrong with the arguments. `Request.report` is what a
request prints for a given source text and the status it exits with:

* `tokenize` prints every token and reports every lexical error; status 65 after an error.
* `parse` prints the folded tree as source text (as a JSON dump with `--json`), or the error
  with status 65.
* `fold` prints the value the source folds to; a source that does not fold to a constant is
  reported with status 70, an error with status 65.

Options may stand before or after the task: `--max-depth N` and `--max-height N` (also as
`--max-depth=N`) set the parser's limits, `--log` is accepted and has no effect, and `--json`
belongs to `parse`. Mistakes in the arguments end with status 2.
-/
namespace ScriptFold

set_option autoImplicit false

-- Powers are core's `Nat.pow` and `Int.pow`, whatever other power instances are in scope; a
-- literal exponent is written with its type, so that no default power instance is taken for it.
attribute [local instance (high)] instPowNat

namespace Command

def programName : String := "scriptfold"

/-- Where a line of output goes. -/
inductive Channel where
  | out
  | err
deriving DecidableEq, Repr

/-- What a run prints, line by line, and the status it exits with. -/
structure Report where
  lines : List (Channel × String)
  status : Nat
deriving Repr

/-- What the program does with a source file. -/
inductive Task where
  | tokenize
  /-- Parse and fold; `json` asks for the tree as a JSON dump. -/
  | parse (json : Bool)
  | fold
deriving DecidableEq, Repr

/-- A task on a file, with the parser's limits. -/
structure Request where
  task : Task
  file : String
  limits : Limits
deriving Repr

/-- What the arguments ask for: a request to run, or a report to give at once. -/
inductive Invocation where
  | run (request : Request)
  | answer (report : Report)
deriving Repr

/-! ## Help and mistakes -/

def helpLines : List String :=
  [ "Classic ASP expression parser and constant folder",
    "",
    "Usage: " ++ programName ++ " [OPTIONS] <COMMAND>",
    "",
    "Commands:",
    "  tokenize  Tokenizes an expression from a file, printing each token",
    "  parse     Parses an expression from a file and prints its folded AST",
    "  fold      Folds an expression from a file and prints its constant value",
    "  help      Print this message",
    "",
    "Options:",
    "      --log                      Accepted; has no effect",
    "      --max-depth <MAX_DEPTH>    Deepest allowed expression nesting [default: 32]",
    "      --max-height <MAX_HEIGHT>  Tallest allowed deferred expression tree [default: 1024]",
    "      --json                     With parse: print the tree as JSON",
    "  -h, --help                     Print help",
    "  -V, --version                  Print version" ]

/-- Help, asked for: printed, status 0. -/
def help : Report :=
  ⟨helpLines.map (Channel.out, ·), 0⟩

def version : Report :=
  ⟨[(.out, programName ++ " 0.1.0")], 0⟩

/-- A mistake in the arguments: the message, the usage line when given, and a pointer to the
help; status 2. -/
def mistake (message : String) (usage : Option String) : Report :=
  let usageLines := match usage with
    | some u => ["", "Usage: " ++ u]
    | none => []
  ⟨(("error: " ++ message) :: usageLines ++ ["", "For more information, try '--help'."]).map
    (Channel.err, ·), 2⟩

/-- The usage line of the program, or of one of its tasks. -/
def usage (task : Option String) : String :=
  match task with
  | some t => programName ++ " " ++ t ++ " [OPTIONS] <FILENAME>"
  | none => programName ++ " [OPTIONS] <COMMAND>"

/-! ## Reading the arguments -/

/-- A count given to an option: an optional `+`, then decimal digits, below `2 ^ 64`. -/
def readCount (s : String) : Except String Nat :=
  let cs := s.toList
  let digits := match cs with
    | '+' :: ds => ds
    | ds => ds
  if cs.isEmpty then .error "cannot parse integer from empty string"
  else if digits.isEmpty || !digits.all Char.isDigit then .error "invalid digit found in string"
  else
    let n := Numeral.digitsValue digits
    if n < 2 ^ (64 : Nat) then .ok n else .error "number too large to fit in target type"

structure Draft where
  task : Option String := none
  file : Option String := none
  limits : Limits := {}
  json : Bool := false
  /-- After `--`, every argument is positional. -/
  positionalOnly : Bool := false

/-- Set a limit from an option's value. -/
def Draft.setLimit (d : Draft) (option value : String) : Except Report Draft :=
  match readCount value with
  | .error why =>
    .error (mistake ("invalid value '" ++ value ++ "' for '" ++ option ++ "': " ++ why) none)
  | .ok n =>
    if option.startsWith "--max-depth" then
      .ok { d with limits := { d.limits with maxDepth := n } }
    else .ok { d with limits := { d.limits with maxHeight := n } }

def valueName (option : String) : String :=
  if option = "--max-depth" then "--max-depth <MAX_DEPTH>" else "--max-height <MAX_HEIGHT>"

/-- A positional argument: the task first, then the file. -/
def Draft.positional (d : Draft) (arg : String) : Except Report Draft :=
  match d.task with
  | none =>
    if arg = "tokenize" ∨ arg = "parse" ∨ arg = "fold" then .ok { d with task := some arg }
    else if arg = "help" then .error help
    else .error (mistake ("unrecognized subcommand '" ++ arg ++ "'") (some (usage none)))
  | some t =>
    match d.file with
    | none => .ok { d with file := some arg }
    | some _ =>
      .error (mistake ("unexpected argument '" ++ arg ++ "' found") (some (usage (some t))))

/-- Read the arguments from left to right. -/
def Draft.collect (d : Draft) : List String → Except Report Draft
  | [] => .ok d
  | arg :: rest =>
    if d.positionalOnly then d.positional arg >>= (·.collect rest)
    else if arg = "--" then { d with positionalOnly := true }.collect rest
    else if arg = "-h" ∨ arg = "--help" then .error help
    else if (arg = "-V" ∨ arg = "--version") ∧ d.task.isNone then .error version
    else if arg = "--log" then d.collect rest
    else if arg = "--json" ∧ d.task = some "parse" then { d with json := true }.collect rest
    else if arg = "--max-depth" ∨ arg = "--max-height" then
      match rest with
      | value :: rest' => d.setLimit (valueName arg) value >>= (·.collect rest')
      | [] =>
        .error (mistake ("a value is required for '" ++ valueName arg ++
          "' but none was supplied") none)
    else if arg.startsWith "--max-depth=" then
      d.setLimit (valueName "--max-depth") ((arg.drop 12).toString) >>= (·.collect rest)
    else if arg.startsWith "--max-height=" then
      d.setLimit (valueName "--max-height") ((arg.drop 13).toString) >>= (·.collect rest)
    else if arg.startsWith "-" ∧ arg ≠ "-" then
      .error (mistake ("unexpected argument '" ++ arg ++ "' found") (some (usage d.task)))
    else d.positional arg >>= (·.collect rest)

def Invocation.ofArgs (args : List String) : Invocation :=
  -- no arguments at all: the help, as a mistake
  if args.isEmpty then .answer ⟨helpLines.map (Channel.err, ·), 2⟩
  else
    match ({} : Draft).collect args with
    | .error r => .answer r
    | .ok d =>
      match d.task, d.file with
      | none, _ =>
        .answer (mistake ("'" ++ programName ++
          "' requires a subcommand but one was not provided") (some (usage none)))
      | some t, none =>
        .answer (mistake "the following required arguments were not provided:\n  <FILENAME>"
          (some (usage (some t))))
      | some t, some file =>
        let task : Task :=
          if t = "tokenize" then .tokenize else if t = "parse" then .parse d.json else .fold
        .run ⟨task, file, d.limits⟩

/-! ## Running a request -/

/-- A file name quoted, with backslash escapes for quotes, backslashes and control
characters. -/
def quotedPath (path : String) : String :=
  let escape (c : Char) : String :=
    match c with
    | '"' => "\\\""
    | '\\' => "\\\\"
    | '\n' => "\\n"
    | '\r' => "\\r"
    | '\t' => "\\t"
    | '\x00' => "\\0"
    | c =>
      if c.toNat < 0x20 ∨ c.toNat = 0x7f then
        "\\u\x7b" ++ String.ofList (Nat.toDigits 16 c.toNat) ++ "\x7d"
      else c.toString
  "\"" ++ String.join (path.toList.map escape) ++ "\""

/-- The report for a file that could not be read, with the reason given by the system. -/
def unreadable (path cause : String) : Report :=
  ⟨[(.err, "Error: Failed to open file " ++ quotedPath path), (.err, ""), (.err, "Caused by:"),
    (.err, "    " ++ cause)], 1⟩

/-- The report of a request run on the source text of its file. -/
def Request.report (r : Request) (source : String) : Report :=
  match r.task with
  | .tokenize =>
    let items := Token.scan source
    let line : Except ScanError Token → Channel × String
      | .ok t => (.out, t.text)
      | .error e => (.err, e.message)
    let failed := items.any fun
      | .ok _ => false
      | .error _ => true
    ⟨items.map line, if failed then 65 else 0⟩
  | .parse json =>
    match Expr.parse source r.limits with
    | .ok e => ⟨[(.out, if json then e.dump.pretty 0 else e.print)], 0⟩
    | .error e => ⟨[(.err, e.message)], 65⟩
  | .fold =>
    match Expr.parse source r.limits with
    | .ok (.const v _) => ⟨[(.out, v.display)], 0⟩
    | .ok e => ⟨[(.err, "Expression is not constant: " ++ e.print)], 70⟩
    | .error e => ⟨[(.err, e.message)], 65⟩

end Command

end ScriptFold
