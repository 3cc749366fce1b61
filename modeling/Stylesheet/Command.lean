import Stylesheet.Command.Options
import Stylesheet.Event.Json
import Stylesheet.Listing
import Stylesheet.Parse

/-! The command that lists the events of a style sheet: what it writes and how it exits. -/
namespace Stylesheet

/-- Why a file cannot be read. -/
inductive ReadError where
  | missing
  | directory
  | notDirectory
  | nameTooLong
  | notUtf8
  | other (message : Text)
deriving DecidableEq

def ReadError.message : ReadError → Text
  | missing => "No such file or directory (os error 2)".toList
  | directory => "Is a directory (os error 21)".toList
  | notDirectory => "Not a directory (os error 20)".toList
  | nameTooLong => "File name too long (os error 36)".toList
  | notUtf8 => "stream did not contain valid UTF-8".toList
  | other m => m

namespace Command

/-- The text of a file. A byte order mark is a character of it. -/
def decode (bytes : ByteArray) : Except ReadError Text :=
  match String.fromUTF8? bytes with
  | some s => .ok s.toList
  | none => .error .notUtf8

structure Output where
  code : Nat
  out : Text
  err : Text
deriving DecidableEq

/-- Every row after the first is indented by four spaces, empty ones too. -/
def indentRows (s : Text) : Text :=
  s.flatMap fun c => if c = '\n' then "\n    ".toList else [c]

/-- How a failure is reported: what was done, and why it failed. -/
def report (context cause : Text) : Text :=
  "Error: ".toList ++ context ++ "\n\nCaused by:\n    ".toList ++ indentRows cause ++ ['\n']

def warningLine (w : Warning) : Text :=
  Style.yellow.apply ("[Cascara ".toList ++ w.component ++ "] ⚠ ".toList ++ w.message) ++ ['\n']

/-- An event is listed if its kind is asked for, or no kind is. -/
def shows (o : Options) (e : Event) : Bool := o.only.isEmpty || o.only.contains e.kind

def eventLine (o : Options) (e : Event) : Text :=
  (if o.json then e.json.text else e.listed) ++ ['\n']

def listing (o : Options) (es : List Event) : Text :=
  (es.filter (shows o)).flatMap (eventLine o)

def notices (o : Options) (css : Text) : Text :=
  if o.quiet then [] else (warnings css).flatMap warningLine

/-- The listing of a text that came from `source`. -/
def list (o : Options) (source css : Text) : Output :=
  let p := parse css
  match p.error with
  | none => ⟨0, listing o p.events, notices o css⟩
  | some e =>
    ⟨1, listing o p.events,
      notices o css ++ report ("failed to parse ".toList ++ source) e.message⟩

def listFile (o : Options) (path : Text) (content : Except ReadError Text) : Output :=
  match content with
  | .ok css => list o path css
  | .error e => ⟨1, [], report ("failed to read ".toList ++ path) e.message⟩

def run (o : Options) (read : Text → Except ReadError Text) : Output :=
  match o.css, o.file with
  | some css, _ => list o "<inline>".toList css
  | none, some path => listFile o path (read path)
  | none, none => ⟨1, [], "Error: no input: pass a FILE or --css TEXT (see --help)\n".toList⟩

def usage : Text :=
  ("Print the events fired while parsing a CSS2 stylesheet\n\n" ++
    "Usage: cascara [OPTIONS] [FILE]\n\n" ++
    "Options:\n" ++
    "      --css <CSS>    Parse CSS text directly instead of a file\n" ++
    "      --json         Print one JSON object per event\n" ++
    "      --only <KIND>  Only print events of this kind (repeatable)\n" ++
    "  -q, --quiet        Suppress tokenizer warnings\n" ++
    "  -h, --help         Print help\n" ++
    "  -V, --version      Print version\n").toList

/-- What the command does with its arguments, reading files by `read`. -/
def answer (args : List Text) (read : Text → Except ReadError Text) : Output :=
  match Options.none.read args with
  | .error e => ⟨2, [], "error: ".toList ++ e.message ++ "\n\n".toList ++ usage⟩
  | .ok .help => ⟨0, usage, []⟩
  | .ok .version => ⟨0, "cascara 0.1.0\n".toList, []⟩
  | .ok (.list o) => run o read

end Command
end Stylesheet
