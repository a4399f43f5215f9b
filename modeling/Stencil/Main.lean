import Stencil.Command.Run

namespace Stencil.Program

/-- More rounds than a render takes that ends. -/
def rounds : Nat := 2 ^ 64

/-- The files on disk under paths. -/
def fetch : List Text → IO (List (Text × Content))
  | [] => pure []
  | path :: paths => do
    let found ←
      try
        let bytes ← IO.FS.readBinFile (String.ofList path)
        pure [(path, Content.ofBytes bytes)]
      catch _ => pure []
    pure (found ++ (← fetch paths))

def filesOf (a : Command.Arguments) : IO Files := do
  let folder := a.path.getD []
  let places ← fetch (Config.places.map (Path.join folder))
  let named := match Config.load ((Files.ofList places).under folder) with
    | .ok (some c) => c.paths
    | _ => []
  let others ← fetch ((named ++ a.documents).map (Path.join folder))
  pure (Files.ofList (places ++ others))

/-- An event on a line of the log, with the log's default settings. -/
def eventLine : Event → String
  | .rendering n => "DEBUG dollar_core::engine: rendering document length=" ++ toString n
  | .collecting n => "DEBUG dollar_core::engine: collecting declarations length=" ++ toString n
  | .loaded n => "DEBUG dollar_core::engine: loaded global declarations count=" ++ toString n
  | .raised d =>
    (if d.isError then "ERROR" else " INFO") ++ " dollar_core::diagnostics: " ++ d.message ++
      d.index.elim "" fun i => " index=" ++ toString i

/-- Does what effects say, up to the first that fails, and tells whether none did. -/
def perform : List Command.Effect → IO Bool
  | [] => pure true
  | e :: es => do
    let succeeded ←
      match e with
      | .print t => do
        let out ← IO.getStdout
        out.putStr (String.ofList t)
        out.flush
        pure true
      | .report t => do
        IO.eprint (String.ofList t)
        pure true
      | .trace event => do
        IO.eprintln (eventLine event)
        pure true
      | .write path content =>
        try
          IO.FS.writeFile (String.ofList path) (String.ofList content)
          pure true
        catch error => do
          IO.eprintln ("error: " ++ toString error)
          pure false
    if succeeded then perform es else pure false

def run (arguments : List String) : IO UInt32 := do
  let arguments := arguments.map String.toList
  let mayColor := (← IO.getEnv "NO_COLOR").isNone
  let files ← match Command.Request.ofList? arguments with
    | some (.run a) => filesOf a
    | _ => pure (Files.ofList [])
  match Command.runLine? rounds files mayColor arguments with
  | some o =>
    let succeeded ← perform o.effects
    pure (if succeeded then o.code else Command.failureCode).toUInt32
  | none => pure Command.failureCode.toUInt32

end Stencil.Program

def main (arguments : List String) : IO UInt32 := Stencil.Program.run arguments
