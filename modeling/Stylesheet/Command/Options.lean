import Stylesheet.Event

/-! The arguments of the command: at most one FILE, `--css CSS` in its place, `--only KIND` any
number of times, and the flags `--json`, `-q` or `--quiet`, each at most once. -/
namespace Stylesheet

structure Options where
  file : Option Text
  css : Option Text
  json : Bool
  only : List EventKind
  quiet : Bool
deriving DecidableEq

inductive UsageError where
  | unknownOption (arg : Text)
  | unexpectedValue (name : Text)
  | missingValue (name : Text)
  | invalidValue (name value : Text)
  | repeated (name : Text)
  | unexpectedFile (arg : Text)
  | conflict
deriving DecidableEq

/-- What a command line asks for. -/
inductive Request where
  | help
  | version
  | list (o : Options)
deriving DecidableEq

def UsageError.message : UsageError → Text
  | unknownOption arg => "unexpected argument ".toList ++ arg
  | unexpectedValue name => "no value is allowed for ".toList ++ name
  | missingValue name => "a value is required for ".toList ++ name
  | invalidValue name value => "invalid value ".toList ++ value ++ " for ".toList ++ name
  | repeated name => name ++ " cannot be used multiple times".toList
  | unexpectedFile arg => "unexpected argument ".toList ++ arg
  | conflict => "--css cannot be used with FILE".toList

namespace Options

def none : Options := ⟨.none, .none, false, [], false⟩

def setFile (o : Options) (path : Text) : Except UsageError Options :=
  if o.file.isSome then .error (.unexpectedFile path)
  else if path = [] then .error (.invalidValue "FILE".toList path)
  else .ok { o with file := some path }

def setCss (o : Options) (css : Text) : Except UsageError Options :=
  if o.css.isSome then .error (.repeated "--css".toList) else .ok { o with css := some css }

def addKind (o : Options) (name : Text) : Except UsageError Options :=
  match EventKind.ofName? name with
  | some k => .ok { o with only := o.only ++ [k] }
  | .none => .error (.invalidValue "--only".toList name)

def setJson (o : Options) : Except UsageError Options :=
  if o.json then .error (.repeated "--json".toList) else .ok { o with json := true }

def setQuiet (o : Options) : Except UsageError Options :=
  if o.quiet then .error (.repeated "--quiet".toList) else .ok { o with quiet := true }

/-- A text that may be the value of the option before it: a hyphen in front makes it an option. -/
def isValue (arg : Text) : Bool := arg = ['-'] || arg.head? ≠ some '-'

/-- The options that take a value. -/
def setter? (name : Text) : Option (Options → Text → Except UsageError Options) :=
  if name = "css".toList then some setCss
  else if name = "only".toList then some addKind
  else .none

def isFlag (name : Text) : Bool :=
  ["json".toList, "quiet".toList, "help".toList, "version".toList].contains name

/-- Letters behind one hyphen, read until one of them asks for help or the version. -/
def readShort (o : Options) : Text → Except UsageError (Options ⊕ Request)
  | [] => .ok (.inl o)
  | c :: cs =>
    if c = 'q' then do readShort (← o.setQuiet) cs
    else if c = 'h' then .ok (.inr .help)
    else if c = 'V' then .ok (.inr .version)
    else .error (.unknownOption ['-', c])

/-- After `--` every argument is a file. -/
def readFiles (o : Options) : List Text → Except UsageError Options
  | [] => .ok o
  | arg :: rest => do readFiles (← o.setFile arg) rest

def finish (o : Options) : Except UsageError Request :=
  if o.css.isSome && o.file.isSome then .error .conflict else .ok (.list o)

/-- Arguments are read in order; the first error wins, and help or the version is answered at
once. -/
def read (o : Options) : List Text → Except UsageError Request
  | [] => o.finish
  | arg :: rest =>
    if arg = "--".toList then do (← o.readFiles rest).finish
    else if arg.take 2 = "--".toList then
      let name := (arg.drop 2).takeWhile (· ≠ '=')
      let value := ((arg.drop 2).dropWhile (· ≠ '=')).drop 1
      let attached := '=' ∈ arg
      match setter? name with
      | some set =>
        if attached then do read (← set o value) rest
        else match rest with
          | v :: rest' =>
            if isValue v then do read (← set o v) rest' else .error (.missingValue arg)
          | [] => .error (.missingValue arg)
      | .none =>
        if !isFlag name then .error (.unknownOption arg)
        else if attached then .error (.unexpectedValue name)
        else if name = "help".toList then .ok .help
        else if name = "version".toList then .ok .version
        else if name = "json".toList then do read (← o.setJson) rest
        else do read (← o.setQuiet) rest
    else if isValue arg then do read (← o.setFile arg) rest
    else do
      match ← o.readShort (arg.drop 1) with
      | .inl o => read o rest
      | .inr r => .ok r

end Options
end Stylesheet
