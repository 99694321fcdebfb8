import Bahasa.Proofs.Session.Joined

namespace Bahasa

namespace Error

def move (m : Motion) : Error → Error
  | lex e => lex (e.move m)
  | parse e => parse (e.move m)
  | run f => run (f.relocate m.place)

/-- The message of an error without the words about where it happened. -/
def headline : Error → String
  | lex e => e.flaw.message
  | parse (.rejected complaint token) => complaint.message token
  | parse (.tooDeep _) => "Expression nesting too deep"
  | run (.error cause _) => cause.message
  | e => e.message

/-- The words about where the error happened. -/
def whereabouts : Error → String
  | lex e => e.position.suffix
  | parse (.rejected _ token) | parse (.tooDeep token) => token.position.suffix
  | run (.error _ (some place)) => place.suffix
  | _ => ""

theorem message_eq (e : Error) : e.message = e.headline ++ e.whereabouts := by
  cases e with
  | lex e => rfl
  | parse e =>
    cases e with
    | openStream => exact String.append_empty.symm
    | _ => rfl
  | run f =>
    cases f with
    | error cause place? =>
      cases place? with
      | none => exact String.append_empty.symm
      | some place => rfl
    | _ => exact String.append_empty.symm

theorem headline_move (m : Motion) (e : Error) : (e.move m).headline = e.headline := by
  cases e with
  | lex e => rfl
  | parse e =>
    cases e with
    | rejected complaint token => cases complaint <;> rfl
    | _ => rfl
  | run f =>
    cases f with
    | error cause place? => exact Cause.message_relocate m.place cause
    | _ => rfl

end Error

def Report.move (m : Motion) (r : Report) : Report :=
  ⟨(r.result.map (Value.relocate m.place)).mapError (Error.move m), r.out, r.log⟩

theorem Report.move_ok (m : Motion) (v : Value) (out : String) (log : List Record) :
    Report.move m ⟨.ok v, out, log⟩ = ⟨.ok (v.relocate m.place), out, log⟩ := rfl

theorem Report.move_error (m : Motion) (e : Error) (out : String) (log : List Record) :
    Report.move m ⟨.error e, out, log⟩ = ⟨.error (e.move m), out, log⟩ := rfl

def Session.move (m : Motion) (s : Session) : Session :=
  { s with store := s.store.relocate m.place }

theorem Parser.parseTokens_map_move (m : Motion) (depth : Nat) (tokens : List Token) :
    parseTokens depth (tokens.map (Token.move m)) =
      ((parseTokens depth tokens).map (Node.move m)).mapError (ParseError.move m) :=
  (parseTokens_move m (Nat.le_refl depth) tokens).resolve_left fun h => Nat.lt_irrefl depth h.1

namespace Session

theorem runTree_move {i : Interpreter} (hi : Eval.BlindHost i.machine.host) (m : Motion)
    (s : Session) (tree : Node) :
    (s.move m).runTree i (tree.move m) =
      ((s.runTree i tree).1.move m, (s.runTree i tree).2.move m) := by
  have hends := (Eval.node_carries_blind hi ⟨m.place, "", []⟩ i.depth tree globalId).outcome
    ⟨s.store, "", [], s.ticks⟩
  simp only [Passage.world, String.empty_append, List.append_nil] at hends
  rw [runTree_eq hi, runTree_eq hi, Node.move, Node.children_relocate, List.length_map]
  unfold Interpreter.eval move
  rw [hends]
  cases Eval.node i.machine i.depth tree globalId ⟨s.store, "", [], s.ticks⟩ with
  | ok v w => simp [Passage.outcome, Passage.world, conclude, Report.move_ok]
  | error failure w =>
    simp [Passage.outcome, Passage.world, conclude, Report.move_error, Error.move]

end Session

end Bahasa
