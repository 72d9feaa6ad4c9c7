import ChatAgent.Duration
import ChatAgent.Text.Blank
import ChatAgent.Text.Utf8
import ChatAgent.Tool.Outcome

/-!
A local interpreter, which runs program texts when they cannot be handed to the execution service.
What it prints is the result; when it fails, what it complains of is the error, or else how it
ended.
-/

namespace ChatAgent

/-- How a program ends that has been started. -/
inductive ProgramExit where
  | code (n : Nat)
  /-- A signal has ended it. -/
  | signal (n : Nat)
  deriving DecidableEq, Repr

namespace ProgramExit

/-- The names of the signals. -/
def signalNames : List (Nat × String) :=
  [(1, "SIGHUP"), (2, "SIGINT"), (3, "SIGQUIT"), (4, "SIGILL"), (5, "SIGTRAP"), (6, "SIGABRT"),
    (7, "SIGBUS"), (8, "SIGFPE"), (9, "SIGKILL"), (10, "SIGUSR1"), (11, "SIGSEGV"),
    (12, "SIGUSR2"), (13, "SIGPIPE"), (14, "SIGALRM"), (15, "SIGTERM"), (16, "SIGSTKFLT"),
    (17, "SIGCHLD"), (18, "SIGCONT"), (19, "SIGSTOP"), (20, "SIGTSTP"), (21, "SIGTTIN"),
    (22, "SIGTTOU"), (23, "SIGURG"), (24, "SIGXCPU"), (25, "SIGXFSZ"), (26, "SIGVTALRM"),
    (27, "SIGPROF"), (28, "SIGWINCH"), (29, "SIGIO"), (30, "SIGPWR"), (31, "SIGSYS")]

def isSuccess : ProgramExit → Bool
  | code n => n == 0
  | signal _ => false

/-- The text that tells of an end. -/
def text : ProgramExit → String
  | code n => "exit status: " ++ toString n
  | signal n =>
    let name :=
      match signalNames.lookup n with
      | some s => " (" ++ s ++ ")"
      | none => ""
    "signal: " ++ toString n ++ name

end ProgramExit

/-- What comes of running a program. -/
inductive ProgramRun where
  /-- It could not be started. -/
  | notStarted (reason : String)
  /-- It has ended after some time, and has printed and complained. -/
  | ended (after : Duration) (exit : ProgramExit) (output complaints : List UInt8)
  /-- It never ends. -/
  | endless
  deriving DecidableEq, Repr

/-- An interpreter: what comes of running a text, and how long that may take. -/
structure Interpreter where
  run : String → ProgramRun
  limit : Duration

namespace Interpreter

/-- How an error of the interpreter begins. -/
def error (text : String) : Outcome := .toolError ("execution error: " ++ text)

/-- What comes of a program that has ended. -/
def ofExit (exit : ProgramExit) (output complaints : List UInt8) : Outcome :=
  if exit.isSuccess then .success (Text.trim (Text.lossy output))
  else
    let told := Text.trim (Text.lossy complaints)
    error (if told.isEmpty then exit.text else told)

/-- What comes of running a text. -/
def outcome (i : Interpreter) (code : String) : Outcome :=
  let late := error ("timed out after " ++ i.limit.text)
  match i.run code with
  | .notStarted reason => error reason
  | .ended after exit output complaints =>
    if after.nanos < i.limit.nanos then ofExit exit output complaints else late
  | .endless => late

end Interpreter

end ChatAgent
