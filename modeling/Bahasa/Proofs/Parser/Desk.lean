import Bahasa.Parser.Statement

namespace Bahasa.Parser

/-- The stream that was given last, and how many of its tokens have been read. -/
structure Desk where
  tokens : List Token
  cursor : Nat

namespace Desk

def new : Desk := ⟨[], 0⟩

def load (d : Desk) (tokens : List Token) : Except ParseError Unit × Desk :=
  match tokens.getLast? with
  | some ⟨.endOfInput, _, _⟩ => (.ok (), ⟨tokens, 0⟩)
  | _ => (.error .openStream, d)

/-- Reads a program from the cursor on. If that fails, the cursor stays where `stops` says. -/
def read (stops : Desk → ParseError → Nat) (depth : Nat) (d : Desk) :
    Except ParseError Node × Desk :=
  let ahead := d.tokens.drop d.cursor
  match ahead.dropWhile (·.kind ≠ .endOfInput) with
  | [] => (.error .openStream, d)
  | stop :: after =>
    match program depth stop (ahead.takeWhile (·.kind ≠ .endOfInput)) with
    | .ok (tree, rest) =>
      (.ok tree, { d with cursor := d.tokens.length - (rest.length + (stop :: after).length) })
    | .error e => (.error e, { d with cursor := stops d e })

def parse (stops : Desk → ParseError → Nat) (depth : Nat) (d : Desk) (tokens : List Token) :
    Except ParseError Node × Desk :=
  match d.load tokens with
  | (.error e, d) => (.error e, d)
  | (.ok _, d) => d.read stops depth

theorem read_start (stops : Desk → ParseError → Nat) (depth : Nat) (tokens : List Token) :
    (read stops depth ⟨tokens, 0⟩).1 =
      match tokens.dropWhile (·.kind ≠ .endOfInput) with
      | stop :: _ =>
        (program depth stop (tokens.takeWhile (·.kind ≠ .endOfInput))).map (·.1)
      | [] => .error .openStream := by
  unfold read
  dsimp only
  rw [List.drop_zero]
  cases tokens.dropWhile (fun t => decide (t.kind ≠ .endOfInput)) with
  | nil => rfl
  | cons stop after =>
    dsimp only
    cases program depth stop (tokens.takeWhile fun t => decide (t.kind ≠ .endOfInput)) with
    | ok x => rfl
    | error e => rfl

/-- What is made of a stream does not depend on what was read before, nor on where that ended. -/
theorem parse_fst (stops : Desk → ParseError → Nat) (depth : Nat) (d : Desk)
    (tokens : List Token) : (d.parse stops depth tokens).1 = parseTokens depth tokens := by
  unfold parse load parseTokens
  cases tokens.getLast? with
  | none => rfl
  | some last =>
    obtain ⟨kind, text, position⟩ := last
    cases kind with
    | endOfInput => exact read_start stops depth tokens
    | _ => rfl

end Desk

end Bahasa.Parser
