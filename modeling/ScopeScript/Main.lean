import Std.Time.DateTime.Timestamp
import ScopeScript.CommandLine

/-! The command line: `COMMAND [--log] [FILE]`. -/
namespace ScopeScript.CommandLine

/-- Bounds the steps of one run far beyond what any run can take. -/
def stepLimit : Nat := Nat.pow 10 18

/-- The clock tells the milliseconds since the beginning of 1970. -/
def limitsNow : IO Limits := do
  let now := (← Std.Time.Timestamp.now).toMillisecondsSinceUnixEpoch.val
  return { fuel := stepLimit, clock := { reading := fun _ => .ofInt now } }

/-- The system's reason for refusing a file. -/
def reason : IO.Error → String
  | .noFileOrDirectory _ code details => details ++ s!" (os error {code})"
  | .permissionDenied _ code details => details ++ s!" (os error {code})"
  | .inappropriateType _ code details => details ++ s!" (os error {code})"
  | e => toString e

def readFile (path : String) : IO FileRead := do
  match ← (IO.FS.Handle.mk path .read).toBaseIO with
  | .error e => return .unopened (reason e)
  | .ok handle =>
    match ← handle.readBinToEnd.toBaseIO with
    | .error e => return .unread (reason e)
    | .ok bytes => return .contents bytes.toList

def emit (r : Response) : IO UInt32 := do
  IO.print r.stdout
  IO.eprint r.stderr
  return r.code.toUInt32

/-- The bytes of the next line with the newline that ends it; none are left at the end. -/
partial def readLine (stdin : IO.FS.Stream) (line : Array UInt8) : IO (List UInt8) := do
  match (← stdin.read 1).toList with
  | [] => return line.toList
  | b :: _ => if b = 10 then return (line.push b).toList else readLine stdin (line.push b)

/-- Reads and answers lines until the input ends or the session does. -/
partial def readLoop (session : Session) : IO UInt32 := do
  let stdout ← IO.getStdout
  stdout.putStr promptText
  stdout.flush
  let line ← readLine (← IO.getStdin) #[]
  if line.isEmpty then return 0
  let limits ← limitsNow
  let machine := { session.machine with clock := limits.clock }
  match reply limits.fuel { session with machine } line with
  | .ends stderr code => do
    IO.eprint stderr
    return code.toUInt32
  | .goesOn printed stderr session => do
    stdout.putStr printed
    IO.eprint stderr
    readLoop session

def command? : String → Option Command
  | "tokenize" => some .tokenize
  | "parse" => some .parse
  | "resolve" => some .resolve
  | "run" => some .run
  | _ => none

def usage : String := "usage: (tokenize | parse | resolve | run | repl) [--log] [FILE]\n"

def serve (arguments : List String) : IO UInt32 := do
  if "--log" ∈ arguments then IO.FS.writeFile "app.log" ""
  let limits ← limitsNow
  match arguments.filter (· ≠ "--log") with
  | ["repl"] => readLoop (.start {} limits.clock)
  | [name] =>
    match command? name with
    | some _ => emit noFile
    | none => emit { stderr := usage, code := 2 }
  | [name, path] =>
    match command? name with
    | some command => emit (onFile limits command path (← readFile path))
    | none => emit { stderr := usage, code := 2 }
  | _ => emit { stderr := usage, code := 2 }

end ScopeScript.CommandLine

def main (arguments : List String) : IO UInt32 :=
  ScopeScript.CommandLine.serve arguments
