import Bahasa.Proofs.Eval.Marking
import Bahasa.Proofs.Session.Moving
import Bahasa.Proofs.Token.Order

namespace Bahasa

namespace Motion

/-- The tokens of the text stay where they are. -/
def Fixes (m : Motion) (source : String) : Prop :=
  ∀ tokens, tokenize source = .ok tokens → ∀ t ∈ tokens, m.position t.position = t.position

variable (P : Position → Prop) [DecidablePred P]

def aside : Motion :=
  .ofPositions fun p => if P p then p else ⟨p.line + 1, p.column⟩

theorem eq_of_aside {place : Place} (h : (aside P).place place = place) :
    ∃ p, P p ∧ place = p.place := by
  obtain ⟨line, column⟩ := place
  cases column with
  | none =>
    have hline : line + 1 = line := congrArg Place.line h
    omega
  | some column =>
    by_cases hp : P ⟨line, column⟩
    · exact ⟨_, hp, rfl⟩
    · simp only [aside, ofPositions, if_neg hp] at h
      have hline : line + 1 = line := congrArg Place.line h
      omega

end Motion

theorem Interpreter.parse_fixed {i : Interpreter} {m : Motion} {source : String} {tree : Node}
    (hm : m.Fixes source) (h : i.parse source = .ok tree) : tree.move m = tree := by
  obtain ⟨tokens, ht, hp⟩ := parse_eq_ok.mp h
  have hstay : tokens.map (Token.move m) = tokens := by
    have hid : ∀ t ∈ tokens, t.move m = t := fun t hmem => by
      rw [Token.move, hm tokens ht t hmem]
    rw [List.map_congr_left hid, List.map_id']
  have hmoved := Parser.parseTokens_map_move m i.nesting tokens
  rw [hstay, hp] at hmoved
  exact (Except.ok.inj hmoved).symm

theorem Interpreter.parse_place {i : Interpreter} {source : String} {tree : Node}
    (h : i.parse source = .ok tree) : ∃ place, tree.place? = some place := by
  obtain ⟨tokens, -, hp⟩ := parse_eq_ok.mp h
  obtain ⟨stop, rest, -, hprogram⟩ := Parser.parseTokens_eq_ok hp
  obtain ⟨statements, -, rfl⟩ := Parser.program_eq_ok.mp hprogram
  exact ⟨_, rfl⟩

theorem Eval.node_placed {m : Machine} {depth : Nat} {n : Node} {frame : FrameId} {w w' : World}
    {cause : Cause} {place? : Option Place} {place : Place} (hn : n.place? = some place)
    (h : node m depth n frame w = .error (.error cause place?) w') : place? ≠ none := by
  rintro rfl
  cases depth with
  | zero => cases h
  | succ depth =>
    cases he : step m (node m depth) n frame w with
    | ok v w₁ =>
      rw [node, Run.located_ok he] at h
      cases h
    | error f w₁ =>
      rw [node, Run.located_error he, hn] at h
      cases f with
      | error cause inner =>
        cases inner with
        | none => cases h
        | some _ => cases h
      | _ => cases h

namespace Session

/-- The session knows no places but those of the tokens of the texts. -/
def Remembers (sources : List String) (s : Session) : Prop :=
  ∀ m : Motion, (∀ source ∈ sources, m.Fixes source) → s.move m = s

def textsAfter (sources : List String) : Step → List String
  | .run source => sources ++ [source]
  | .parse _ => sources
  | .reset => []

def sources (steps : List Step) : List String :=
  steps.foldl textsAfter []

theorem startAt_remembers (ticks : Nat) : Remembers [] (startAt ticks) := by
  intro m _
  simp [move, startAt, Store.relocate, Frame.relocate, Frame.global, builtins, Binding.relocate,
    Native.names]

section Runs

variable {i : Interpreter} (hi : Eval.BlindHost i.machine.host) {s : Session}
  {texts : List String}

include hi

theorem runTree_fixed {m : Motion} (hs : s.move m = s) {source : String} {tree : Node}
    (hm : m.Fixes source) (hp : i.parse source = .ok tree) :
    (s.runTree i tree).1.move m = (s.runTree i tree).1 ∧
      (s.runTree i tree).2.move m = (s.runTree i tree).2 := by
  have hrun := runTree_move hi m s tree
  rw [hs, Interpreter.parse_fixed hm hp] at hrun
  exact ⟨congrArg Prod.fst hrun.symm, congrArg Prod.snd hrun.symm⟩

theorem perform_remembers (hs : Remembers texts s) (step : Step) :
    Remembers (textsAfter texts step) (s.perform i step).2 := by
  cases step with
  | run source =>
    intro m hm
    have hold := hs m fun text ht => hm text (List.mem_append_left _ ht)
    have hnew := hm source (List.mem_append_right _ (List.mem_singleton_self _))
    change (s.run i source).2.move m = (s.run i source).2
    unfold run
    cases hp : i.parse source with
    | error e => exact hold
    | ok tree => exact (runTree_fixed hi hold hnew hp).2
  | parse source => exact hs
  | reset => exact startAt_remembers s.ticks

omit hi in
theorem run_failed {source : String} {f : Failure}
    (h : (s.run i source).1.result = .error (.run f)) :
    ∃ tree, i.parse source = .ok tree ∧ (s.runTree i tree).1.result = .error (.run f) := by
  unfold run at h
  cases hp : i.parse source with
  | error e =>
    rw [hp] at h
    obtain ⟨flaw, rfl⟩ | ⟨flaw, rfl⟩ := Interpreter.parse_error hp
    · cases h
    · cases h
  | ok tree =>
    rw [hp] at h
    exact ⟨tree, rfl, h⟩

theorem runTree_placed {tree : Node} {place : Place} {cause : Cause} {place? : Option Place}
    (ht : tree.place? = some place)
    (h : (s.runTree i tree).1.result = .error (.run (.error cause place?))) : place? ≠ none := by
  rw [runTree_eq hi] at h
  cases he : i.eval tree globalId ⟨s.store, "", [], s.ticks⟩ with
  | ok v w =>
    rw [he] at h
    cases h
  | error f w =>
    rw [he] at h
    cases h
    exact Eval.node_placed ht he

theorem run_place (hs : Remembers texts s) {source : String} {cause : Cause} {place? : Option Place}
    (h : (s.run i source).1.result = .error (.run (.error cause place?))) :
    ∃ text ∈ texts ++ [source], ∃ tokens, tokenize text = .ok tokens ∧
      ∃ t ∈ tokens, place? = some t.position.place := by
  classical
  -- all but the tokens of the texts is moved aside: a place that stays is one of theirs
  let P : Position → Prop := fun p =>
    ∃ text ∈ texts ++ [source], ∃ tokens, tokenize text = .ok tokens ∧ ∃ t ∈ tokens, t.position = p
  have hstays : ∀ text ∈ texts ++ [source], (Motion.aside P).Fixes text := by
    intro text htext tokens ht t hmem
    exact if_pos ⟨text, htext, tokens, ht, t, hmem, rfl⟩
  have hold := hs (.aside P) fun text ht => hstays text (List.mem_append_left _ ht)
  have hnew := hstays source (List.mem_append_right _ (List.mem_singleton_self _))
  obtain ⟨tree, hp, hresult⟩ := run_failed h
  have hfixed := congrArg Report.result (runTree_fixed hi hold hnew hp).1
  have hmoved : ((s.runTree i tree).1.move (.aside P)).result =
      .error (.run ((Failure.error cause place?).relocate (Motion.aside P).place)) := by
    rw [Report.move, hresult]
    rfl
  rw [hmoved, hresult] at hfixed
  simp only [Failure.relocate, Except.error.injEq, Error.run.injEq, Failure.error.injEq] at hfixed
  cases place? with
  | none =>
    obtain ⟨place, hplace⟩ := Interpreter.parse_place hp
    exact absurd rfl (runTree_placed hi hplace hresult)
  | some place =>
    obtain ⟨p, ⟨text, htext, tokens, ht, t, hmem, rfl⟩, rfl⟩ :=
      Motion.eq_of_aside P (Option.some.inj hfixed.2)
    exact ⟨text, htext, tokens, ht, t, hmem, rfl⟩

end Runs

theorem performAll_remembers (turns nesting depth : Nat) (clock : Nat → Int) {s : Session}
    {texts : List String} (hs : Remembers texts s) (steps : List Step) :
    Remembers (steps.foldl textsAfter texts)
      (s.performAll (.limited turns nesting depth clock) steps) := by
  induction steps generalizing s texts with
  | nil => exact hs
  | cons step steps ih =>
    exact ih (perform_remembers (fun _ => Eval.standard_carries clock) hs step)

/-- Errors are placed once and for all at the innermost node being evaluated that has a place, and
nowhere if none of them has one. In a session they always have a place, and it is the place of a
token of the text being run or of one that was run before. -/
theorem errors_placed (turns nesting depth : Nat) (clock : Nat → Int) :
    Eval.RawHost (Native.standard clock) ∧
    (∀ (m : Machine) (n : Node) (frame : FrameId) (w w' : World) (cause : Cause)
      (place? : Option Place), Eval.RawHost m.host →
      Eval.node m depth n frame w = .error (.error cause place?) w' →
      ∃ live : List Node, live.getLast? = some n ∧
        (∀ mark, Eval.marked m mark depth [] n frame w =
          .error (.error cause (some (mark live))) w') ∧
        place? = live.findSome? Node.place? ∧
        (place? = none ↔ ∀ x ∈ live, x.place? = none)) ∧
    ∀ (steps : List Step) (source : String) (cause : Cause) (place? : Option Place),
      let i := Interpreter.limited turns nesting depth clock
      ((new.performAll i steps).run i source).1.result = .error (.run (.error cause place?)) →
      ∃ text ∈ sources steps ++ [source], ∃ tokens, tokenize text = .ok tokens ∧
        ∃ t ∈ tokens, place? = some t.position.place := by
  refine ⟨Eval.standard_raw clock, ?_, ?_⟩
  · intro m n frame w w' cause place? hm h
    obtain ⟨live, hlast, rfl, hmarked⟩ := Eval.node_error hm h
    exact ⟨live, hlast, hmarked, rfl, List.findSome?_eq_none_iff⟩
  · intro steps source cause place? i h
    have hs := performAll_remembers turns nesting depth clock (startAt_remembers 0) steps
    exact run_place (fun _ => Eval.standard_carries clock) hs h

theorem errors_placed_elsewhere :
    let program : Node := .tree .program [.leaf .ident "n" none] (some ⟨7, none⟩)
    (∃ live : List Node, live.getLast? = some program ∧
      some ⟨7, none⟩ = live.findSome? Node.place?) ∧
    ∃ text ∈ ["fungsi f() { n }", "f()"], ∃ tokens, tokenize text = .ok tokens ∧
      ∃ t ∈ tokens, some ⟨1, some 14⟩ = some t.position.place := by
  -- a name without a place is placed with the program around it; a function that fails when it is
  -- called from another text is placed in its own one
  have ht₁ : tokenize "fungsi f() { n }" = .ok
      [⟨.fnWord, "fungsi", ⟨1, 1⟩⟩, ⟨.ident, "f", ⟨1, 8⟩⟩, ⟨.lparen, "(", ⟨1, 9⟩⟩,
        ⟨.rparen, ")", ⟨1, 10⟩⟩, ⟨.lbrace, "\x7b", ⟨1, 12⟩⟩, ⟨.ident, "n", ⟨1, 14⟩⟩,
        ⟨.rbrace, "\x7d", ⟨1, 16⟩⟩, .endMark ⟨1, 17⟩] := by cbv
  have ht₂ : tokenize "f()" = .ok
      [⟨.ident, "f", ⟨1, 1⟩⟩, ⟨.lparen, "(", ⟨1, 2⟩⟩, ⟨.rparen, ")", ⟨1, 3⟩⟩,
        .endMark ⟨1, 4⟩] := by cbv
  have hp₁ := Interpreter.parse_eq_ok (i := .limited 1 9 9 fun _ => 0).mpr ⟨_, ht₁, rfl⟩
  have hp₂ := Interpreter.parse_eq_ok (i := .limited 1 9 9 fun _ => 0).mpr ⟨_, ht₂, rfl⟩
  obtain ⟨hraw, htree, hsession⟩ := errors_placed 1 9 9 fun _ => 0
  intro program
  constructor
  · obtain ⟨live, hlast, -, hplace, -⟩ := htree ⟨Native.standard fun _ => 0, 0⟩ program 0
      ⟨new.store, "", [], 0⟩ ⟨new.store, "", [], 0⟩ (.undeclared "n") (some ⟨7, none⟩) hraw rfl
    exact ⟨live, hlast, hplace⟩
  · refine hsession [.run "fungsi f() { n }"] "f()" (.undeclared "n") (some ⟨1, some 14⟩) ?_
    change (((new.run (.limited 1 9 9 fun _ => 0) "fungsi f() { n }").2).run _ "f()").1.result = _
    rw [run_of_parse hp₁, run_of_parse hp₂]
    rfl

end Session

end Bahasa
