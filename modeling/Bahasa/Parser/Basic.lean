import Bahasa.Parser.Complaint

namespace Bahasa

abbrev Parser := ReaderT Token (StateT (List Token) (Except ParseError))

namespace Parser

/-- The next token; when none is left, the end mark. -/
def peek : Parser Token :=
  fun stop ahead => .ok (ahead.headD stop, ahead)

/-- Reads the next token. The end mark is never used up. -/
def next : Parser Token :=
  fun stop ahead => .ok (ahead.headD stop, ahead.tail)

def tooDeep {α : Type} : Parser α :=
  fun stop ahead => .error (.tooDeep (ahead.headD stop))

def reject {α : Type} (complaint : Complaint) : Parser α :=
  fun stop ahead => .error (.rejected complaint (ahead.headD stop))

def expect (kind : Kind) (complaint : Complaint) : Parser Token := do
  if (← peek).kind = kind then next else reject complaint

def accept (kind : Kind) : Parser Bool := do
  if (← peek).kind = kind then
    let _ ← next
    return true
  else return false

def remaining : Parser (List Token) :=
  fun _ ahead => .ok (ahead, ahead)

/-- Steps from `a` until one has nothing to add, with a turn for each of the given tokens and one
more to see that nothing follows. -/
def foldTurns {α : Type} (step : α → Parser (Option α)) : List Token → α → Parser α
  | [], a => do return (← step a).getD a
  | _ :: turns, a => do
    match ← step a with
    | none => return a
    | some b => foldTurns step turns b

/-- Steps from `a` until one has nothing to add. A step that adds reads at least one token, so the
tokens ahead bound the turns. -/
def foldWhile {α : Type} (step : α → Parser (Option α)) (a : α) : Parser α := do
  foldTurns step (← remaining) a

def commaSeparated {α : Type} (item : Parser α) : Parser (List α) := do
  let first ← item
  let items ← foldWhile (fun items => do
    if ← accept .comma then return some ((← item) :: items) else return none) [first]
  return items.reverse

/-- Items with commas between them up to a closing token, which is read too. -/
def commaListUntil {α : Type} (close : Kind) (complaint : Complaint) (item : Parser α) :
    Parser (List α) := do
  let items ← if (← peek).kind = close then pure [] else commaSeparated item
  let _ ← expect close complaint
  return items

def bracedItems {α : Type} (enclosure : Enclosure) (item : Parser α) : Parser (List α) := do
  let items ← foldWhile (fun items => do
    match (← peek).kind with
    | .rbrace => return none
    | .endOfInput => reject (.unterminated enclosure)
    | _ => return some ((← item) :: items)) []
  let _ ← next
  return items.reverse

end Parser

end Bahasa
