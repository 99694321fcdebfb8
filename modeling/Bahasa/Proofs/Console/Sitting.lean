import Bahasa.Console.Loop
import Bahasa.Proofs.Edges
import Bahasa.Proofs.Parser.Soundness
import Bahasa.Proofs.Session.Rendered
import Bahasa.Proofs.Text.Trimmed
import Bahasa.Proofs.Token.Leading

namespace Bahasa

open Bahasa.Session (Step)

namespace Entry

def step? : Entry → Option Step
  | .interrupt => none
  | .text s =>
    let text := Editing.normalize s
    if Text.isAllBlank text ∨ Text.trim text = "clear" then none
    else if Text.calls text "/reset" then some .reset
    else if (Text.trim text).toList.head? = some '/' then none
    else some (.run text)

end Entry

def Report.shown (r : Report) : List Value :=
  match r.result with
  | .ok .null | .error _ => []
  | .ok v => [v]

def Session.Step.shown (i : Interpreter) (s : Session) : Step → List Value
  | .run source => (s.run i source).1.shown
  | _ => []

namespace Entry

/-- The values that the answer to an entry shows: those that `/vars` lists, or the value of a
run. -/
def shown (i : Interpreter) (s : Session) : Entry → List Value
  | .interrupt => []
  | .text t =>
    let text := Editing.normalize t
    if Text.calls text "/vars" then
      let name := Text.trim (Text.cutAtSpace (Text.trim text)).2
      ((Console.listed? s name).getD []).map (·.value)
    else ((Entry.text t).step?.map (·.shown i s)).getD []

variable (config : Console.Config)

def fits (s : Session) (e : Entry) : Bool :=
  (e.shown config.interpreter s).all config.screen.shows

end Entry

namespace Request

def step? : Request → Option Step
  | .command .reset _ => some .reset
  | .source text => some (.run text)
  | _ => none

def shown (i : Interpreter) (s : Session) : Request → List Value
  | .command .vars arg => ((Console.listed? s arg).getD []).map (·.value)
  | .source text => (Step.run text).shown i s
  | _ => []

end Request

namespace Console

variable (config : Config) (c : Console)

section Loop

variable (entries : List Entry)

end Loop

end Console

namespace Console

open Editing (normalize)

end Console

namespace Value

end Value

namespace Console

open Editing (normalize)

section Nest

variable (n : Nat)

end Nest

end Console

end Bahasa
