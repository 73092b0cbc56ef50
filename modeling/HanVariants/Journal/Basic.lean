import HanVariants.Text.Basic
/-!
# Journal entries

What the library does is told in entries. An entry is made on a channel, at a level that says how
much it matters. A timed operation makes one entry when it ends.
-/

namespace HanVariants.Journal

open Text

/-- How much an entry matters. -/
abbrev Level := Int

def debug : Level := 10
def info : Level := 20
def warning : Level := 30
def error : Level := 40
def critical : Level := 50

/-- A number in decimal digits. -/
def decimal (n : Int) : Text := (toString n).toList

def levelName (level : Level) : Text :=
  if level = debug then "DEBUG".toList
  else if level = info then "INFO".toList
  else if level = warning then "WARNING".toList
  else if level = error then "ERROR".toList
  else if level = critical then "CRITICAL".toList
  else "Level ".toList ++ decimal level

inductive Message where
  | text (t : Text)
  /-- The end of a timed operation. -/
  | timing (operation : Text)
deriving DecidableEq, Repr

/-- A message in words, with the time that its operation took in milliseconds. -/
def Message.render (elapsed : Text) : Message → Text
  | text t => t
  | timing operation => "[Timing] ".toList ++ operation ++ ": ".toList ++ elapsed ++ "ms".toList

structure Entry where
  channel : Text
  level : Level
  message : Message
deriving DecidableEq, Repr

/-- The timed operations that ended, in order, whether or not their entries are kept. -/
def operations (es : List Entry) : List Text :=
  es.filterMap fun e => match e.message with
    | .timing operation => some operation
    | .text _ => none

end HanVariants.Journal
