/-!
# The command line

`run PATH` runs a script and `repl`, or nothing, starts an interactive session. Options may stand
before or after the subcommand. Arguments are read from left to right, and the first that asks
for information, or that cannot be understood, decides.

## Main definitions

* `Invocation` — what a command line asks for
* `Invocation.ofArgs` — reads a command line
-/

namespace BlockScript

/-- What to do. -/
inductive Command where
  | interactive
  /-- run the script at the path, and show its tree first if asked to -/
  | run (path : String) (showTree : Bool)
deriving DecidableEq, Repr

/-- Why a command line leads to no command. -/
inductive Dismissal where
  /-- it asks for help or for the version -/
  | information
  /-- it cannot be understood -/
  | usage
deriving DecidableEq, Repr

/-- What a command line asks for. -/
structure Invocation where
  verbosity : Nat
  /-- the subcommand, if there is one -/
  command : Option Command
deriving DecidableEq, Repr

namespace Invocation

/-- The options. -/
inductive Flag where
  | verbose
  | information
  | showTree
deriving DecidableEq, Repr

/-- A word of a command line. -/
inductive Word where
  | flags (flags : List (Option Flag))
  /-- the word after which all words are operands -/
  | separator
  | operand (text : String)

/-- The option with a long name. -/
def longFlag? (name : String) : Option Flag :=
  if name = "verbose" then some .verbose
  else if name = "help" || name = "version" then some .information
  else if name = "print-ast" then some .showTree
  else none

/-- The option with a letter. -/
def shortFlag? : Char → Option Flag
  | 'v' => some .verbose
  | 'h' | 'V' => some .information
  | _ => none

/-- What a word is. Letters can be put together behind one dash, and a dash alone is an
operand. -/
def Word.ofText (text : String) : Word :=
  match text.toList with
  | ['-', '-'] => .separator
  | '-' :: '-' :: name => .flags [longFlag? (String.ofList name)]
  | '-' :: c :: cs => .flags ((c :: cs).map shortFlag?)
  | _ => .operand text

/-- What was read of a subcommand so far. -/
structure Draft where
  verbosity : Nat
  path : Option String
  showTree : Bool

/-- Which subcommand is read. -/
inductive Subcommand where
  | interactive
  | run
deriving DecidableEq, Repr

/-- Takes one option of a subcommand. -/
def Draft.flag (sub : Subcommand) (d : Draft) : Option Flag → Except Dismissal Draft
  | some .verbose => .ok { d with verbosity := d.verbosity + 1 }
  | some .information => .error .information
  | some .showTree =>
    if sub = .run && !d.showTree then .ok { d with showTree := true } else .error .usage
  | none => .error .usage

/-- Takes one operand of a subcommand: only `run` has one, and it is not empty. -/
def Draft.operand (sub : Subcommand) (d : Draft) (text : String) :
    Except Dismissal Draft :=
  if sub = .run && d.path.isNone && !text.isEmpty then .ok { d with path := some text }
  else .error .usage

/-- Reads the arguments of a subcommand. -/
def readSub (sub : Subcommand) (d : Draft) : List String → Except Dismissal Draft
  | [] => .ok d
  | arg :: args =>
    match Word.ofText arg with
    | .flags flags => do readSub sub (← flags.foldlM (Draft.flag sub) d) args
    | .separator => args.foldlM (Draft.operand sub) d
    | .operand text => do readSub sub (← d.operand sub text) args

/-- The command of a subcommand whose arguments were all read. -/
def Draft.command (sub : Subcommand) (d : Draft) : Except Dismissal Command :=
  match sub, d.path with
  | .interactive, _ => .ok .interactive
  | .run, some path => .ok (.run path d.showTree)
  | .run, none => .error .usage

/-- The subcommand of the given name. -/
def subcommand? (name : String) : Option Subcommand :=
  if name = "run" then some .run else if name = "repl" then some .interactive else none

/-- The largest verbosity that is counted. -/
def maxVerbosity : Nat := 255

/-- Takes one option before any subcommand. -/
def topFlag (verbosity : Nat) : Option Flag → Except Dismissal Nat
  | some .verbose => .ok (verbosity + 1)
  | some .information => .error .information
  | some .showTree | none => .error .usage

/-- Reads the arguments after the given number of verbose options. Verbose options of a
subcommand replace those before it. -/
def readTop (verbosity : Nat) : List String → Except Dismissal Invocation
  | [] => .ok ⟨min verbosity maxVerbosity, none⟩
  | arg :: args =>
    match Word.ofText arg with
    | .flags flags => do readTop (← flags.foldlM topFlag verbosity) args
    | .separator =>
      if args.isEmpty then .ok ⟨min verbosity maxVerbosity, none⟩ else .error .usage
    | .operand text =>
      match subcommand? text with
      | none => .error .usage
      | some sub => do
        let draft ← readSub sub ⟨0, none, false⟩ args
        let command ← draft.command sub
        let verbosity := if draft.verbosity = 0 then verbosity else draft.verbosity
        return ⟨min verbosity maxVerbosity, some command⟩

/-- Reads a command line without the name of the program. -/
def ofArgs (args : List String) : Except Dismissal Invocation := readTop 0 args

end Invocation

end BlockScript
