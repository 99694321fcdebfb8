import Bahasa.CommandLine

namespace Bahasa

namespace Invocation

def isFlag (arg : String) : Bool :=
  arg = "-v" ∨ arg = "--verbose"

def operands (args : List String) : List String :=
  args.filter (!isFlag ·)

/-- What is asked for with these operands: there may be one of them. -/
def ofOperands (verbose : Bool) : List String → Except String Invocation
  | [] => .ok ⟨verbose, none⟩
  | [arg] => .ok ⟨verbose, some arg⟩
  | _ :: arg :: _ => .error arg

theorem extend_eq (known : Invocation) (args : List String) : known.extend args =
    ofOperands (known.verbose || args.any isFlag) (known.source?.toList ++ operands args) := by
  induction args generalizing known with
  | nil =>
    obtain ⟨verbose, source?⟩ := known
    cases source? with
    | none => simp [extend, operands, ofOperands]
    | some source => simp [extend, operands, ofOperands]
  | cons arg rest ih =>
    obtain ⟨verbose, source?⟩ := known
    by_cases hflag : isFlag arg = true
    · have harg : arg = "-v" ∨ arg = "--verbose" := of_decide_eq_true hflag
      rw [extend, if_pos harg, ih]
      simp [operands, hflag]
    · have harg : ¬(arg = "-v" ∨ arg = "--verbose") := fun h => hflag (decide_eq_true h)
      rw [extend, if_neg harg]
      cases source? with
      | none =>
        dsimp only
        rw [ih]
        simp [operands, hflag]
      | some source => simp [operands, hflag, ofOperands]

theorem ofArgs_eq (args : List String) :
    ofArgs args = ofOperands (args.any isFlag) (operands args) := by
  rw [ofArgs, extend_eq]
  simp

theorem operands_operands (args : List String) : operands (operands args) = operands args := by
  simp [operands]

theorem operands_any (args : List String) : (operands args).any isFlag = false := by
  simp [operands]

end Invocation

namespace CommandLine

open Invocation (isFlag operands)

variable (i : Interpreter) (stamp : String) (s : Surroundings) (args : List String)

def shownStamp? : Option String :=
  if showsLog ⟨args.any isFlag, none⟩ s.settings then some stamp else none

def perform (config : Console.Config) (s : Surroundings) : List String → Outcome
  | [] => sit config s
  | [arg] => execute config (s.load arg).2 (s.load arg).1
  | _ :: arg :: _ => ⟨some 2, .errLine ("Unexpected argument: " ++ arg), none, s⟩

theorem run_eq : run i stamp s args =
    perform ⟨i, shownStamp? stamp s args, s.screen⟩ s (operands args) := by
  rw [run, Invocation.ofArgs_eq]
  match operands args with
  | [] => rfl
  | [arg] => rfl
  | _ :: arg :: _ => rfl

end CommandLine

end Bahasa
