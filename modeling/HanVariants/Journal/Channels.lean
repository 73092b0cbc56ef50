import HanVariants.Journal.Basic
import HanVariants.OrderedMap
/-!
# Channels

Channels form a tree by their names: the part of a name before a dot names a channel above it, if
there is one. A channel without a level of its own has that of the nearest channel above it that has
one. An entry is kept when its level is positive and reaches the level of its channel, and when the
main channel is above the channel or is it.
-/

namespace HanVariants.Journal

/-- The channel above all channels of the library. -/
def mainChannel : Text := "zhvariant".toList

def timingChannel : Text := "zhvariant.timing".toList

/-- The level where no channel above has one. -/
def topLevel : Level := warning

/-- The full name of a channel: without a name it is the main one, and a name that does not start
at the main channel is put below it. -/
def channelName : Option Text → Text
  | none => mainChannel
  | some name =>
    if name = [] || name = mainChannel then mainChannel
    else if (Text.read? (mainChannel ++ ['.']) name).isSome then name
    else mainChannel ++ '.' :: name

/-! ## The channels above a channel -/

/-- The parts of a name before its dots, longest first, for a name written backwards. A dot right
before another is not a dot between names, nor is one at the very start. -/
def partsBefore : Text → List Text
  | [] => []
  | '.' :: c :: name => (c :: name) :: partsBefore name
  | _ :: name => partsBefore name

/-- The names that a channel above this one may have, nearest first. -/
def namesAbove (name : Text) : List Text := (partsBefore name.reverse).map List.reverse

theorem length_of_mem_partsBefore {name part : Text} (h : part ∈ partsBefore name) :
    part.length < name.length := by
  fun_induction partsBefore name with
  | case1 => simp at h
  | case2 c name ih =>
    rcases List.mem_cons.1 h with rfl | h
    · simp
    · have := ih h
      simp only [List.length_cons]
      omega
  | case3 c name hc ih =>
    have := ih h
    simp only [List.length_cons]
    omega

theorem length_of_mem_namesAbove {name above : Text} (h : above ∈ namesAbove name) :
    above.length < name.length := by
  obtain ⟨part, hp, rfl⟩ := List.mem_map.1 h
  simpa using length_of_mem_partsBefore hp

/-- A channel and the channels above it, nearest first, among those that exist. -/
def lineage (exists? : Text → Bool) (name : Text) : List Text :=
  name ::
    match _h : (namesAbove name).find? exists? with
    | none => []
    | some above => lineage exists? above
termination_by name.length
decreasing_by exact length_of_mem_namesAbove (List.mem_of_find?_eq_some _h)

/-! ## What is kept -/

structure Channels where
  /-- The channels that exist with their levels; a level of 0 is no level. -/
  levels : OrderedMap Text Level := .ofList [(mainChannel, 0), (timingChannel, 0)]
  /-- Whether entries are printed. -/
  printing : Bool := false
deriving DecidableEq, Repr

namespace Channels

instance : Inhabited Channels := ⟨{}⟩

/-- The level that a channel itself has. -/
def ownLevel (cs : Channels) (name : Text) : Level := (cs.levels.get? name).getD 0

def lineage (cs : Channels) (name : Text) : List Text :=
  Journal.lineage (cs.levels.get? · |>.isSome) name

/-- The level from which on entries of a channel are kept. -/
def effectiveLevel (cs : Channels) (name : Text) : Level :=
  (((cs.lineage name).map cs.ownLevel).find? (· ≠ 0)).getD topLevel

def keeps (cs : Channels) (e : Entry) : Bool :=
  0 < e.level && cs.effectiveLevel e.channel ≤ e.level &&
    (cs.lineage e.channel).contains mainChannel

/-- The entries that are kept. -/
def kept (cs : Channels) (es : List Entry) : List Entry := es.filter cs.keeps

/-- Makes a channel of this name, if there is none. -/
def touch (cs : Channels) (name : Text) : Channels :=
  if (cs.levels.get? name).isSome then cs else { cs with levels := cs.levels.insert name 0 }

/-- Prints entries and gives the main channel a level. -/
def setUp (cs : Channels) (level : Level) : Channels :=
  { levels := cs.levels.insert mainChannel level, printing := true }

/-- Prints every entry from `debug` on. -/
def showDebug (cs : Channels) : Channels := cs.setUp debug

/-- Prints entries from `info` on, and on the timing channel from `debug` on. -/
def showTiming (cs : Channels) : Channels :=
  let cs := cs.setUp info
  { cs with levels := cs.levels.insert timingChannel debug }

/-- A verbose configuration prints everything; any other leaves the channels as they are. -/
def configure (cs : Channels) (verbose : Bool) : Channels := if verbose then cs.showDebug else cs

/-- What can be asked of the channels as a whole. -/
inductive Setting where
  | setUp (level : Level)
  | showDebug
  | showTiming
  | configure (verbose : Bool)
deriving DecidableEq, Repr

def set (cs : Channels) : Setting → Channels
  | .setUp level => cs.setUp level
  | .showDebug => cs.showDebug
  | .showTiming => cs.showTiming
  | .configure verbose => cs.configure verbose

def setAll (cs : Channels) (settings : List Setting) : Channels := settings.foldl set cs

end Channels

/-- The name under which a timed operation is told: the one given, or else its own. -/
def operationName (given : Option Text) (own : Text) : Text :=
  match given with
  | none | some [] => own
  | some name => name

end HanVariants.Journal
