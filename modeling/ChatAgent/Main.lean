import ChatAgent.Server.Startup

/-!
The command line. It takes no arguments: everything is set in the environment, or in the file `.env`
of the directory in which the program is started.
-/

namespace ChatAgent.Main

/-- The environment variables that matter. -/
def environment : IO Environment := do
  let values ← Settings.variableNames.mapM fun name => do
    pure (name, ← IO.getEnv name)
  pure fun name => (values.lookup name).join

/-- The variables of the environment file, if there is one. -/
def environmentFile : IO Environment := do
  try
    pure (.ofText (← IO.FS.readFile ".env"))
  catch _ => pure fun _ => none

end ChatAgent.Main

open ChatAgent in
/-- Reads the settings and says for which port they are, or why they are not valid. -/
def main : IO UInt32 := do
  let env ← Main.environment
  let file ← Main.environmentFile
  match Settings.start env file fun _ => none with
  | .error f =>
    (← IO.getStderr).putStr f.report
    pure 1
  | .ok s =>
    (← IO.getStdout).putStrLn ("Settings for port " ++ toString s.port ++ " are valid")
    pure 0
