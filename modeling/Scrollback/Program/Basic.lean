import Scrollback.CommandLine
import Scrollback.Log.File
import Scrollback.Log.Memory
import Scrollback.Ring.Contents
import Scrollback.Ring.Listing
import Scrollback.Ring.Load
import Scrollback.Ring.Rewrap
import Scrollback.Text.Utf8

/-!
This module contains the program: it loads text into a ring, changes the number of columns if asked
to, and prints the ring.
-/

namespace Scrollback

namespace Program

def name : String := "scrollring"

def version : String := "0.1.0-alpha.3"

def usage : String :=
  "Usage: " ++ name ++ " [OPTIONS] [FILE]\n\n" ++
  "Options:\n" ++
  "      --config <PATH>          Path to configuration file\n" ++
  "      --columns <COLUMNS>      Width the input is wrapped at\n" ++
  "      --max-rows <ROWS>        Rows retained before the oldest are evicted\n" ++
  "      --window-rows <ROWS>     Initial size of the mutable window\n" ++
  "      --storage <STORAGE>      Where frozen rows are kept: memory or file\n" ++
  "      --rewrap <COLUMNS>       Rewrap to this width after loading\n" ++
  "      --rows                   Print an annotated row listing\n" ++
  "  -h, --help                   Print help\n" ++
  "  -V, --version                Print version\n"

inductive Failure where
  | create (cause : RingError)
  | read (path : String)
  | settings (path : String)
  | load (cause : RingError)
  | rewrap (columns : Nat) (cause : RingError)
  | listing (cause : RingError)
  | contents (cause : RingError)
  deriving DecidableEq, Repr

namespace Failure

def message : Failure → String
  | .create cause => cause.message
  | .read path => s!"failed to read {path}"
  | .settings path => s!"parse error in {path}"
  | .load _ => "failed to load input"
  | .rewrap columns _ => s!"failed to rewrap to {columns} columns"
  | .listing cause => cause.message
  | .contents _ => "failed to write contents"

/--
Whether the program is aborted on the spot.
-/
def isCrash : Failure → Bool
  | .create .capacity | .load .capacity => true
  | _ => false

end Failure

structure Host (m : Type → Type) where
  readFile : String → m (Option ByteArray)
  readInput : m ByteArray
  environment : String → m (Option String)

section

variable {σ : Type} [ByteLog σ]

def present (rules : TextRules) (settings : Settings) (options : Options) (text : String)
    (ring : Ring σ) : Except Failure ByteArray := do
  let (cursor, ring) ←
    match Ring.load rules settings.columns text.toList ring with
    | .ok cursor ring => .ok (cursor, ring)
    | .error e _ => .error (.load e)
  let (cursor, ring) ←
    match options.rewrap with
    | none => .ok (cursor, ring)
    | some columns =>
      match Ring.rewrap columns [cursor] ring with
      | .ok markers ring => .ok (markers.headD cursor, ring)
      | .error e _ => .error (.rewrap columns e)
  if options.rows then
    match Ring.listing cursor ring with
    | .ok text _ => .ok text.toUTF8
    | .error e _ => .error (.listing e)
  else
    match Ring.writeContents (ring, ByteArray.empty) with
    | .ok () (_, written) => .ok written
    | .error e _ => .error (.contents e)

end

def presentIn (rules : TextRules) (settings : Settings) (options : Options) (text : String) :
    Except Failure ByteArray :=
  match settings.storage with
  | .memory => do
    let ring : Ring MemoryLog ←
      (Ring.empty settings.maxRows settings.windowRows).mapError .create
    present rules settings options text ring
  | .file => do
    let ring : Ring FileLog ←
      (Ring.empty settings.maxRows settings.windowRows).mapError .create
    present rules settings options text ring

section

variable {m : Type → Type} [Monad m]

def join (directory name : String) : String :=
  if directory.isEmpty || directory.endsWith "/" then directory ++ name else directory ++ "/" ++ name

def defaultConfig (host : Host m) : m String := do
  let directory ←
    match ← host.environment "XDG_CONFIG_HOME" with
    | some directory => pure directory
    | none =>
      match ← host.environment "HOME" with
      | some home => pure (join home ".config")
      | none => pure "."
  return join (join directory name) "config.toml"

def readSettings (host : Host m) (path : String) : m (Except Failure Settings) := do
  match (← host.readFile path).bind String.fromUTF8? with
  | none => return .error (.read path)
  | some text =>
    match Settings.parse? text with
    | none => return .error (.settings path)
    | some settings => return .ok settings

/--
The settings of the program. A configuration file that was not asked for may be missing or wrong.
-/
def settingsFor (host : Host m) (options : Options) : m (Except Failure Settings) := do
  match options.config with
  | some path => readSettings host path
  | none =>
    match ← readSettings host (← defaultConfig host) with
    | .ok settings => return .ok settings
    | .error _ => return .ok {}

def readInput (host : Host m) (options : Options) : m (Except Failure ByteArray) := do
  match options.input with
  | none | some "-" => return .ok (← host.readInput)
  | some path =>
    match ← host.readFile path with
    | some bytes => return .ok bytes
    | none => return .error (.read path)

def print (rules : TextRules) (host : Host m) (options : Options) :
    m (Except Failure ByteArray) := do
  match ← settingsFor host options with
  | .error e => return .error e
  | .ok settings =>
    match ← readInput host options with
    | .error e => return .error e
    | .ok bytes =>
      return presentIn rules (options.apply settings) options (Text.decodeUtf8 bytes)

inductive Outcome where
  | printed (output : ByteArray)
  | failed (failure : Failure)
  | crashed
  | misused

def run (rules : TextRules) (host : Host m) (arguments : List String) : m Outcome := do
  match Command.parse? arguments with
  | none => return .misused
  | some .version => return .printed (name ++ " " ++ version ++ "\n").toUTF8
  | some .help => return .printed usage.toUTF8
  | some (.print options) =>
    match ← print rules host options with
    | .ok output => return .printed output
    | .error failure => return if failure.isCrash then .crashed else .failed failure

end

end Program

end Scrollback
