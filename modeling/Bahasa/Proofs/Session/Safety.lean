import Bahasa.Proofs.Eval.Safety
import Bahasa.Proofs.Parser.Soundness
import Bahasa.Proofs.Token.Lines
import Bahasa.Proofs.Token.Numeral
import Bahasa.Session

namespace Bahasa

theorem tokenize_readable {source : String} {tokens : List Token}
    (h : tokenize source = .ok tokens) : Numerals Readable tokens := by
  obtain ⟨-, rfl⟩ := tokenize_eq_ok.mp h
  intro t ht hk
  exact Decimal.read?_isSome (Scan.resume_isNumeral [] .start source.toList (by simp) t ht hk)

namespace Interpreter

theorem parse_eq_ok {i : Interpreter} {source : String} {tree : Node} :
    i.parse source = .ok tree ↔
      ∃ tokens, tokenize source = .ok tokens ∧ Parser.parseTokens i.nesting tokens = .ok tree := by
  unfold parse
  cases tokenize source with
  | error e => simp
  | ok tokens => cases hp : Parser.parseTokens i.nesting tokens <;> simp [hp]

theorem parse_fits {i : Interpreter} {source : String} {tree : Node}
    (h : i.parse source = .ok tree) : tree.Fits Readable .program := by
  obtain ⟨tokens, ht, hp⟩ := parse_eq_ok.mp h
  have hr := tokenize_readable ht
  exact (Parser.parseTokens_spells Readable hp).shaped fun t hm =>
    hr t ((List.takeWhile_prefix _).subset hm)

theorem parse_error {i : Interpreter} {source : String} {e : Error}
    (h : i.parse source = .error e) : (∃ flaw, e = .lex flaw) ∨ ∃ flaw, e = .parse flaw := by
  unfold parse at h
  split at h
  · cases h
    exact .inl ⟨_, rfl⟩
  · split at h
    · cases h
      exact .inr ⟨_, rfl⟩
    · cases h

def limited (turns nesting depth : Nat) (clock : Nat → Int) : Interpreter :=
  ⟨⟨Native.standard clock, turns⟩, nesting, depth⟩

theorem limited_safe (turns nesting depth : Nat) (clock : Nat → Int) :
    Eval.SafeHost (limited turns nesting depth clock).machine.host :=
  fun _ args frame hn => Eval.standard_safe clock hn args frame

theorem eval_safe (i : Interpreter) (hi : Eval.SafeHost i.machine.host) {tree : Node}
    (ht : tree.Fits Readable .program) (frame : FrameId) :
    Run.Safe Value.Sound (i.eval tree frame) :=
  Eval.program_safe hi i.depth frame ht

end Interpreter

/-- What a run of a program can end in: a value or one of the errors that programs are told about.
A run that is still in a loop after all the turns it was given has not ended. -/
def Expected : Except Error Value → Prop
  | .ok _ => True
  | .error (.lex _) | .error (.parse _) => True
  | .error (.run .tooDeep) | .error (.run .unfinished) => True
  | .error (.run (.error cause _)) =>
    (∃ name, cause = .redeclared name ∨ cause = .undeclared name ∨ cause = .constant name) ∨
      (∃ operator node, cause = .target operator node) ∨ ∃ v, cause = .notCallable v
  | .error (.run .stuck) => False

theorem Failure.Ordinary.expected {f : Failure} (h : f.Ordinary) : Expected (.error (.run f)) := by
  cases f with
  | error cause place => cases cause <;> simp_all [Expected, Ordinary, Cause.Ordinary]
  | tooDeep => exact trivial
  | unfinished => exact trivial
  | stuck => exact h

theorem builtins_sound : ∀ b ∈ builtins, b.value.Sound := by
  intro b hb
  obtain hb | hb := List.mem_append.mp hb
  · simp only [List.mem_cons, List.not_mem_nil, or_false] at hb
    obtain rfl | rfl | rfl := hb
    · exact .bool true
    · exact .bool false
    · exact .null
  · obtain ⟨name, hn, rfl⟩ := List.mem_map.mp hb
    exact .native hn

namespace Session

theorem new_sound : new.store.Sound := by
  intro id f hf
  simp only [new, startAt, Store.frame?, List.getElem?_toArray] at hf
  obtain rfl := List.mem_singleton.mp (List.mem_of_getElem? hf)
  exact builtins_sound

def performAll (i : Interpreter) (s : Session) (steps : List Step) : Session :=
  steps.foldl (fun s step => (s.perform i step).2) s

theorem runTree_safe {i : Interpreter} (hi : Eval.SafeHost i.machine.host) {s : Session}
    (hs : s.store.Sound) {tree : Node} (ht : tree.Fits Readable .program) :
    (s.runTree i tree).2.store.Sound ∧ Expected (s.runTree i tree).1.result := by
  have h := (i.eval_safe hi ht globalId).keeps
    ⟨s.store, "", [.run (s.runs + 1) tree.children.length], s.ticks⟩ hs
  simp only [runTree]
  split at h
  · next v w hw =>
    rw [hw]
    exact ⟨h.1, trivial⟩
  · next f w hw =>
    rw [hw]
    exact ⟨h.1, h.2.expected⟩

theorem run_safe {i : Interpreter} (hi : Eval.SafeHost i.machine.host) {s : Session}
    (hs : s.store.Sound) (source : String) :
    (s.run i source).2.store.Sound ∧ Expected (s.run i source).1.result := by
  unfold run
  cases hp : i.parse source with
  | ok tree => exact runTree_safe hi hs (Interpreter.parse_fits hp)
  | error e =>
    refine ⟨hs, ?_⟩
    obtain ⟨e, rfl⟩ | ⟨e, rfl⟩ := Interpreter.parse_error hp
    · exact trivial
    · exact trivial

section Limits

variable (turns nesting depth : Nat) (clock : Nat → Int)

theorem performAll_sound {s : Session} (hs : s.store.Sound) (steps : List Step) :
    (s.performAll (.limited turns nesting depth clock) steps).store.Sound := by
  induction steps generalizing s with
  | nil => exact hs
  | cons step steps ih =>
    apply ih
    cases step with
    | run source =>
      exact (run_safe (Interpreter.limited_safe turns nesting depth clock) hs source).1
    | parse source => exact hs
    | reset => exact new_sound

/-- Whatever a session has been asked before, the next text ends in a value or an expected error. -/
theorem run_expected (before : List Step) (source : String) :
    let i := Interpreter.limited turns nesting depth clock
    Expected ((Session.new.performAll i before).run i source).1.result := by
  have hs := performAll_sound turns nesting depth clock new_sound before
  exact (run_safe (Interpreter.limited_safe turns nesting depth clock) hs source).2

end Limits

end Session

end Bahasa
