import HanVariants.Rule.Basic
/-!
# Reading rules

A rule is written as items that end with `;`. An item is `code:text`, a spelling, or
`source=>code:text`, a one-way item; blanks around a code, a source and a text do not count. A text
may hold `;` itself: it ends an item only where another item begins after it (`beginsItem`). Codes
are recognised there in any case, and a small letter also by the other characters that fold to it.
-/

namespace HanVariants

inductive RuleError where
  | unknownCode (e : Variant.UnknownCode)
  /-- Nothing in the text is an item that says something. -/
  | noItems (text : Text)
deriving DecidableEq, Repr

def RuleError.message : RuleError → Text
  | unknownCode e => e.message
  | noItems text => "不是合法的轉換規則: ".toList ++ Text.quoted text

namespace Rule

/-! ## Where an item begins -/

/-- Whether `c` is the character `letter` of a code when case is ignored. The long s folds to `s`
and the kelvin sign to `k`. -/
def foldsTo (letter c : Char) : Bool :=
  c.toLower = letter || (letter = 's' && c = 'ſ') || (letter = 'k' && c = Variant.kelvinSign)

/-- Whether a text starts with the code of some variant and, after blanks, a colon. -/
def beginsSpelling (t : Text) : Bool :=
  Variant.all.any fun v =>
    match Text.readAs? foldsTo v.code t with
    | some rest => (Text.dropBlanks rest).head? = some ':'
    | none => false

/-- Whether a text starts with an arrow that leads to a spelling. -/
def beginsTarget (t : Text) : Bool :=
  match Text.read? ['=', '>'] t with
  | some rest => beginsSpelling (Text.dropBlanks rest)
  | none => false

/-- Whether an arrow that leads to a spelling comes before the next `;`. -/
def beginsOneWay : Text → Bool
  | [] => false
  | c :: t => c ≠ ';' && (beginsTarget (c :: t) || beginsOneWay t)

def beginsItem (t : Text) : Bool := beginsSpelling t || beginsOneWay t

/-- Cuts a text at every `;` after which, blanks apart, an item begins. -/
def pieces : Text → List Text
  | [] => [[]]
  | c :: t =>
    if c = ';' && beginsItem (Text.dropBlanks t) then [] :: pieces t
    else match pieces t with
      | [] => [[c]]
      | piece :: rest => (c :: piece) :: rest

/-! ## Items -/

inductive Item where
  | spelling (variant : Variant) (text : Text)
  | oneWay (item : OneWay)
deriving DecidableEq, Repr

/-- Reads one piece. A piece without a colon, a spelling without a text and a one-way item without
a source say nothing; an unknown code is an error whether or not the item says something. -/
def readItem (piece : Text) : Except RuleError (Option Item) :=
  match Text.cut? [':'] piece with
  | none => .ok none
  | some (head, text) =>
    let text := Text.strip text
    match Text.cut? ['=', '>'] head with
    | some (source, code) =>
      match Variant.parse (Text.strip code) with
      | .error e => .error (.unknownCode e)
      | .ok v =>
        let source := Text.strip source
        .ok (if source = [] then none else some (.oneWay ⟨source, v, text⟩))
    | none =>
      match Variant.parse (Text.strip head) with
      | .error e => .error (.unknownCode e)
      | .ok v => .ok (if text = [] then none else some (.spelling v text))

/-- Adds an item; a second spelling for a variant replaces the first in its place. -/
def addItem (r : Rule) : Item → Rule
  | .spelling v t => { r with spellings := r.spellings.insert v t }
  | .oneWay item => { r with oneWay := r.oneWay ++ [item] }

def ofItems (items : List Item) : Rule := items.foldl addItem {}

/-- A rule's text without blanks around it and without one `;` at its end. -/
def body (t : Text) : Text :=
  let t := Text.strip t
  if t.getLast? = some ';' then t.dropLast else t

/-- Reads the items of a rule, up to the first error. -/
def readItems (t : Text) : Except RuleError (List Item) := do
  return ((← (pieces (body t)).mapM readItem).filterMap id)

/-- Reads a rule; a rule has at least one item. -/
def parse (t : Text) : Except RuleError Rule := do
  match ← readItems t with
  | [] => .error (.noItems t)
  | item :: items => .ok (ofItems (item :: items))

end Rule

end HanVariants
