import Bahasa.Proofs.Eval.Sequel
import Bahasa.Proofs.Parser.Joined
import Bahasa.Proofs.Session.Safety

namespace Bahasa

open Bahasa.Parser (Separate body)

variable {s₁ s₂ : String} {ts₁ ts₂ : List Token} {tree₁ tree₂ : Node}

theorem Interpreter.parse_append {i : Interpreter} (ht₁ : tokenize s₁ = .ok ts₁)
    (ht₂ : tokenize s₂ = .ok ts₂) (hp₁ : Parser.parseTokens i.nesting ts₁ = .ok tree₁)
    (hp₂ : Parser.parseTokens i.nesting ts₂ = .ok tree₂) (hsep : Separate (body ts₁) (body ts₂)) :
    ∃ place, (tree₁.children ≠ [] → place = tree₁.place?) ∧
      i.parse (s₁ ++ "\n" ++ s₂) = .ok (.tree .program
        (tree₁.children ++ tree₂.children.map (Node.move (.down (lineCount s₁)))) place) := by
  obtain ⟨ts, stop, rfl, hs, hts⟩ := tokenize_stop ht₁
  obtain ⟨us, stop', rfl, hs', hus⟩ := tokenize_stop ht₂
  rw [Parser.body_append_stop hs hts, Parser.body_append_stop hs' hus] at hsep
  obtain ⟨place, hplace, hjoined⟩ := Parser.parseTokens_append_move (.down (lineCount s₁)) hs hs'
    hts hus hsep hp₁ hp₂
  exact ⟨place, hplace, parse_eq_ok.mpr ⟨_, tokenize_append ht₁ ht₂, hjoined⟩⟩

/-- The same value at whatever lines its functions stand, or the same failure, with the same message
but for the place, wherever it happened. -/
def SameEnd : Except Error Value → Except Error Value → Prop
  | .ok v, .ok w => v.relocate Place.anyLine = w.relocate Place.anyLine
  | .error (.run f), .error (.run g) => f.anywhere = g.anywhere
  | _, _ => False

namespace Session

def conclude (s : Session) (statements : Nat) :
    EStateM.Result Failure World Value → Report × Session
  | .ok v w =>
    (⟨.ok v, w.out, .run (s.runs + 1) statements :: w.log.reverse⟩,
      ⟨w.store, s.runs + 1, w.ticks⟩)
  | .error f w =>
    (⟨.error (.run f), w.out, .run (s.runs + 1) statements :: w.log.reverse⟩,
      ⟨w.store, s.runs + 1, w.ticks⟩)

theorem runTree_eq {i : Interpreter} (hi : Eval.BlindHost i.machine.host) (s : Session)
    (tree : Node) : s.runTree i tree =
      s.conclude tree.children.length (i.eval tree globalId ⟨s.store, "", [], s.ticks⟩) := by
  -- the record of a run stands before all that happens in it, and has no influence on it
  let record := Record.run (s.runs + 1) tree.children.length
  have h := (Eval.node_carries_blind hi ⟨id, "", [record]⟩ i.depth tree globalId).outcome
    ⟨s.store, "", [], s.ticks⟩
  simp only [Node.relocate_id, Passage.world, Store.relocate_id] at h
  change i.eval tree globalId ⟨s.store, "", [record], s.ticks⟩ = _ at h
  unfold runTree
  dsimp only
  rw [h]
  change _ = s.conclude tree.children.length (Eval.node i.machine i.depth tree globalId _)
  cases Eval.node i.machine i.depth tree globalId ⟨s.store, "", [], s.ticks⟩ with
  | ok v w =>
    simp [Passage.outcome, Passage.world, conclude, Value.relocate_id, Store.relocate_id, record]
  | error f w =>
    simp [Passage.outcome, Passage.world, conclude, Failure.relocate_id, Store.relocate_id, record]

/-- Both texts together print and record what they do one after the other, and leave the frames
and the clock as the second one leaves them. -/
structure Continues (first second both : Report × Session) : Prop where
  out : both.1.out = first.1.out ++ second.1.out
  log : both.1.log.tail = first.1.log.tail ++ second.1.log.tail
  store : both.2.store.relocate Place.anyLine = second.2.store.relocate Place.anyLine
  ticks : both.2.ticks = second.2.ticks

theorem Continues.of_follows {s s' : Session} {a b c : Nat} {v : Value} {w : World}
    {r r' : EStateM.Result Failure World Value} (h : Run.Follows w.out w.log r r') :
    Continues (s.conclude a (.ok v w)) (s'.conclude b r') (s.conclude c r) ∧
      SameEnd (s.conclude c r).1.result (s'.conclude b r').1.result := by
  cases h with
  | ok hv hw => exact ⟨⟨hw.out, by simp [conclude, hw.log], hw.store, hw.ticks⟩, hv⟩
  | error hf hw => exact ⟨⟨hw.out, by simp [conclude, hw.log], hw.store, hw.ticks⟩, hf⟩

section Append

variable {i : Interpreter} {s : Session} {p₁ p₂ p : Option Place} {c₁ c₂ : List Node}

theorem runTree_append_error (hi : Eval.BlindHost i.machine.host) (hp : c₁ ≠ [] → p = p₁)
    {e : Error} (h : (s.runTree i (.tree .program c₁ p₁)).1.result = .error e) :
    let first := s.runTree i (.tree .program c₁ p₁)
    let both := s.runTree i (.tree .program (c₁ ++ c₂) p)
    both.1.result = .error e ∧ both.1.out = first.1.out ∧ both.1.log.tail = first.1.log.tail ∧
      both.2 = first.2 := by
  rw [runTree_eq hi] at h
  simp only [runTree_eq hi]
  cases he : i.eval (.tree .program c₁ p₁) globalId ⟨s.store, "", [], s.ticks⟩ with
  | ok v w =>
    rw [he] at h
    cases h
  | error f w =>
    have hboth :
        i.eval (.tree .program (c₁ ++ c₂) p) globalId ⟨s.store, "", [], s.ticks⟩ = .error f w :=
      Eval.node_append_error he hp
    rw [he] at h
    rw [hboth]
    exact ⟨h, rfl, rfl, rfl⟩

theorem runTree_append_ok (hi : Eval.BlindHost i.machine.host) (k : Int) {v : Value}
    (h : (s.runTree i (.tree .program c₁ p₁)).1.result = .ok v) :
    let first := s.runTree i (.tree .program c₁ p₁)
    let second := first.2.runTree i (.tree .program c₂ p₂)
    let both := s.runTree i (.tree .program (c₁ ++ c₂.map (Node.move (.down k))) p)
    Continues first second both ∧ (c₂ ≠ [] → SameEnd both.1.result second.1.result) ∧
      (c₂ = [] → both.1.result = .ok v) := by
  rw [runTree_eq hi] at h
  simp only [runTree_eq hi]
  cases he : i.eval (.tree .program c₁ p₁) globalId ⟨s.store, "", [], s.ticks⟩ with
  | error f w =>
    rw [he] at h
    cases h
  | ok v₁ w =>
    rw [he] at h
    cases h
    obtain ⟨d, hd, hjoined⟩ := Eval.node_append_ok (q := p) he
    have hboth : i.eval (.tree .program (c₁ ++ c₂.map (Node.move (.down k))) p) globalId
        ⟨s.store, "", [], s.ticks⟩ = Run.located p (Eval.sequence (Eval.node i.machine d) globalId v
          (c₂.map (Node.move (.down k)))) w := hjoined
    have hstore : ∀ n, (s.conclude n (.ok v w)).2.store = w.store := fun _ => rfl
    have hticks : ∀ n, (s.conclude n (.ok v w)).2.ticks = w.ticks := fun _ => rfl
    have hsecond : i.eval (.tree .program c₂ p₂) globalId ⟨w.store, "", [], w.ticks⟩ =
        Run.located p₂ (Eval.sequence (Eval.node i.machine d) globalId .null c₂)
          ⟨w.store, "", [], w.ticks⟩ := by
      rw [Interpreter.eval, hd]
      rfl
    rw [hstore, hticks, hsecond, hboth]
    cases c₂ with
    | nil =>
      have hout : w.out = w.out ++ "" := String.append_empty.symm
      have hlog : w.log.reverse = w.log.reverse ++ [] := (List.append_nil _).symm
      exact ⟨⟨hout, hlog, rfl, rfl⟩, fun hne => absurd rfl hne, fun _ => rfl⟩
    | cons n ns =>
      have hf := Eval.sequence_follows hi globalId k d v n ns w
      obtain ⟨hcontinues, hend⟩ := Continues.of_follows (hf.located p p₂)
      exact ⟨hcontinues, fun _ => hend, fun hnil => absurd hnil (List.cons_ne_nil n ns)⟩

end Append

theorem run_of_parse {i : Interpreter} {source : String} {tree : Node}
    (h : i.parse source = .ok tree) (s : Session) : s.run i source = s.runTree i tree := by
  rw [run, h]

theorem run_append {i : Interpreter} (ht₁ : tokenize s₁ = .ok ts₁) (ht₂ : tokenize s₂ = .ok ts₂)
    (hp₁ : Parser.parseTokens i.nesting ts₁ = .ok tree₁)
    (hp₂ : Parser.parseTokens i.nesting ts₂ = .ok tree₂)
    (hsep : Separate (body ts₁) (body ts₂)) (s : Session) :
    ∃ place, (tree₁.children ≠ [] → place = tree₁.place?) ∧
      i.parse (s₁ ++ "\n" ++ s₂) = .ok (.tree .program
        (tree₁.children ++ tree₂.children.map (Node.move (.down (lineCount s₁)))) place) ∧
      s.run i s₁ = s.runTree i (.tree .program tree₁.children tree₁.place?) ∧
      (∀ s' : Session, s'.run i s₂ = s'.runTree i (.tree .program tree₂.children tree₂.place?)) ∧
      s.run i (s₁ ++ "\n" ++ s₂) = s.runTree i (.tree .program
        (tree₁.children ++ tree₂.children.map (Node.move (.down (lineCount s₁)))) place) := by
  obtain ⟨place, hplace, hparse⟩ := Interpreter.parse_append (i := i) ht₁ ht₂ hp₁ hp₂ hsep
  have htree₁ := Parser.parseTokens_tree hp₁
  have htree₂ := Parser.parseTokens_tree hp₂
  refine ⟨place, hplace, hparse, ?_, fun s' => ?_, run_of_parse hparse s⟩
  · rw [← htree₁]
    exact run_of_parse (Interpreter.parse_eq_ok.mpr ⟨ts₁, ht₁, hp₁⟩) s
  · rw [← htree₂]
    exact run_of_parse (Interpreter.parse_eq_ok.mpr ⟨ts₂, ht₂, hp₂⟩) s'

/-- Two source texts that can be read by themselves do as one text what they do one after the
other; if the first one fails, the other is not run. -/
theorem run_joined (turns nesting depth : Nat) (clock : Nat → Int) (s : Session)
    (ht₁ : tokenize s₁ = .ok ts₁) (ht₂ : tokenize s₂ = .ok ts₂)
    (hp₁ : Parser.parseTokens nesting ts₁ = .ok tree₁)
    (hp₂ : Parser.parseTokens nesting ts₂ = .ok tree₂)
    (hsep : Separate (body ts₁) (body ts₂)) :
    let i := Interpreter.limited turns nesting depth clock
    let first := s.run i s₁
    let second := first.2.run i s₂
    let both := s.run i (s₁ ++ "\n" ++ s₂)
    (∃ place, i.parse (s₁ ++ "\n" ++ s₂) = .ok (.tree .program
      (tree₁.children ++ tree₂.children.map (Node.move (.down (lineCount s₁)))) place)) ∧
    (∀ v, first.1.result = .ok v →
      Continues first second both ∧
      (tree₂.children ≠ [] → SameEnd both.1.result second.1.result) ∧
      (tree₂.children = [] → both.1.result = .ok v)) ∧
    (∀ e, first.1.result = .error e →
      both.1.result = .error e ∧ both.1.out = first.1.out ∧
      both.1.log.tail = first.1.log.tail ∧ both.2 = first.2) := by
  have hi : Eval.BlindHost (Interpreter.limited turns nesting depth clock).machine.host :=
    fun _ => Eval.standard_carries clock
  obtain ⟨place, hplace, hparse, hfirst, hsecond, hboth⟩ :=
    run_append (i := .limited turns nesting depth clock) ht₁ ht₂ hp₁ hp₂ hsep s
  dsimp only
  rw [hsecond, hfirst, hboth]
  refine ⟨⟨place, hparse⟩, fun v hv => ?_, fun e he => ?_⟩
  · exact runTree_append_ok hi (lineCount s₁) hv
  · exact runTree_append_error hi hplace he

theorem run_joined_parenthesis :
    let i := Interpreter.limited 1 9 9 fun _ => 0
    let first := Session.new.run i "fungsi f() { print(n); }"
    let both := Session.new.run i ("fungsi f() { print(n); }" ++ "\n" ++ "(f)()")
    (∃ v, first.1.result = .ok v) ∧ Continues first (first.2.run i "(f)()") both ∧
      SameEnd both.1.result (first.2.run i "(f)()").1.result := by
  -- a parenthesis after a closing brace calls nothing that stands before it; the function that it
  -- leads to fails on the line above
  have ht₁ : tokenize "fungsi f() { print(n); }" = .ok
      [⟨.fnWord, "fungsi", ⟨1, 1⟩⟩, ⟨.ident, "f", ⟨1, 8⟩⟩, ⟨.lparen, "(", ⟨1, 9⟩⟩,
        ⟨.rparen, ")", ⟨1, 10⟩⟩, ⟨.lbrace, "\x7b", ⟨1, 12⟩⟩, ⟨.ident, "print", ⟨1, 14⟩⟩,
        ⟨.lparen, "(", ⟨1, 19⟩⟩, ⟨.ident, "n", ⟨1, 20⟩⟩, ⟨.rparen, ")", ⟨1, 21⟩⟩,
        ⟨.semicolon, ";", ⟨1, 22⟩⟩, ⟨.rbrace, "\x7d", ⟨1, 24⟩⟩, .endMark ⟨1, 25⟩] := by cbv
  have ht₂ : tokenize "(f)()" = .ok
      [⟨.lparen, "(", ⟨1, 1⟩⟩, ⟨.ident, "f", ⟨1, 2⟩⟩, ⟨.rparen, ")", ⟨1, 3⟩⟩,
        ⟨.lparen, "(", ⟨1, 4⟩⟩, ⟨.rparen, ")", ⟨1, 5⟩⟩, .endMark ⟨1, 6⟩] := by cbv
  have hparse := Interpreter.parse_eq_ok (i := .limited 1 9 9 fun _ => 0).mpr ⟨_, ht₁, rfl⟩
  obtain ⟨-, hok, -⟩ :=
    run_joined 1 9 9 (fun _ => 0) .new ht₁ ht₂ rfl rfl (.inr (.inr ⟨_, rfl, .inr rfl⟩))
  dsimp only at hok ⊢
  obtain ⟨v, hv⟩ : ∃ v, (Session.new.run (.limited 1 9 9 fun _ => 0)
      "fungsi f() { print(n); }").1.result = .ok v := by
    rw [run_of_parse hparse]
    exact ⟨_, rfl⟩
  obtain ⟨h, h', -⟩ := hok v hv
  exact ⟨⟨v, hv⟩, h, h' (List.cons_ne_nil _ _)⟩

end Session

end Bahasa
