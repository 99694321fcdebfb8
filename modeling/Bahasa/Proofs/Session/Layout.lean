import Bahasa.Proofs.Parser.Earliest
import Bahasa.Proofs.Session.Moving
import Bahasa.Proofs.Token.Order

namespace Bahasa

/-- Two texts with the given tokens are read alike: as the same tree but for its places, or rejected
with the same message at the token with the same index. -/
inductive SameReading (ts₁ ts₂ : List Token) : Except Error Node → Except Error Node → Prop
  | tree {tree₁ tree₂ : Node} (h : tree₁.bare = tree₂.bare) :
      SameReading ts₁ ts₂ (.ok tree₁) (.ok tree₂)
  | rejected {complaint : Complaint} {t₁ t₂ : Token} (k : Nat)
      (hm : complaint.message t₁ = complaint.message t₂) (h₁ : ∀ j, ts₁[j]? = some t₁ ↔ j = k)
      (h₂ : ∀ j, ts₂[j]? = some t₂ ↔ j = k) :
      SameReading ts₁ ts₂ (.error (.parse (.rejected complaint t₁)))
        (.error (.parse (.rejected complaint t₂)))
  | tooDeep {t₁ t₂ : Token} (h : t₁.shape = t₂.shape) :
      SameReading ts₁ ts₂ (.error (.parse (.tooDeep t₁))) (.error (.parse (.tooDeep t₂)))

section Gathered

variable (m : Motion)

theorem Node.gather_move (n : Node) : (n.move m).move .gather = n.move .gather :=
  Node.relocate_relocate Motion.gather.place n

theorem Error.gather_move (e : ParseError) :
    ((parse e).move m).move .gather = (parse e).move .gather := by
  cases e with
  | rejected complaint t => rfl
  | _ => rfl

end Gathered

theorem Complaint.message_move (m : Motion) (complaint : Complaint) (t : Token) :
    complaint.message (t.move m) = complaint.message t := by
  cases complaint <;> rfl

theorem Parser.EndMarked.of_tokenize {source : String} {tokens : List Token}
    (h : tokenize source = .ok tokens) : EndMarked tokens := by
  obtain ⟨ts, stop, rfl, hs, -⟩ := tokenize_stop h
  exact .append_stop hs

theorem Interpreter.parse_of_tokenize (i : Interpreter) {source : String} {tokens : List Token}
    (h : tokenize source = .ok tokens) :
    i.parse source = (Parser.parseTokens i.nesting tokens).mapError .parse := by
  unfold parse
  rw [h]
  cases hp : Parser.parseTokens i.nesting tokens with
  | ok tree =>
    simp only [hp]
    rfl
  | error e =>
    simp only [hp]
    rfl

section Texts

variable {m : Motion} {source₁ source₂ : String} {tokens : List Token}
  (ht₁ : tokenize source₁ = .ok tokens) (ht₂ : tokenize source₂ = .ok (tokens.map (Token.move m)))

include ht₁ ht₂

theorem SameReading.of_motion (i : Interpreter) :
    SameReading tokens (tokens.map (Token.move m)) (i.parse source₁) (i.parse source₂) := by
  have hmarked := Parser.EndMarked.of_tokenize ht₁
  rw [i.parse_of_tokenize ht₁, i.parse_of_tokenize ht₂, Parser.parseTokens_map_move]
  cases hp : Parser.parseTokens i.nesting tokens with
  | ok tree => exact .tree (Node.bare_move tree).symm
  | error e =>
    cases e with
    | openStream => exact absurd hp (Parser.parseTokens_marked hmarked)
    | tooDeep t => exact .tooDeep rfl
    | rejected complaint t =>
      obtain ⟨k, hk⟩ := Parser.parseTokens_rejects hmarked hp
      obtain ⟨_, _, hoffends, hget⟩ := hk.offends
      cases hoffends
      have hget' : (tokens.map (Token.move m))[k]? = some (t.move m) := by
        rw [List.getElem?_map, hget, Option.map_some]
      exact .rejected k (complaint.message_move m t).symm
        ((tokenize_increasing ht₁).getElem?_eq_some_iff hget)
        ((tokenize_increasing ht₂).getElem?_eq_some_iff hget')

theorem Session.run_gather {i : Interpreter} (hi : Eval.BlindHost i.machine.host) {s₁ s₂ : Session}
    (hs : s₁.move .gather = s₂.move .gather) :
    (s₁.run i source₁).1.move .gather = (s₂.run i source₂).1.move .gather ∧
      (s₁.run i source₁).2.move .gather = (s₂.run i source₂).2.move .gather := by
  unfold run
  rw [i.parse_of_tokenize ht₁, i.parse_of_tokenize ht₂, Parser.parseTokens_map_move]
  cases Parser.parseTokens i.nesting tokens with
  | error e =>
    have he : (Error.parse e).move .gather = (Error.parse (e.move m)).move .gather :=
      (Error.gather_move m e).symm
    change Report.move _ ⟨.error (.parse e), "", []⟩ =
      Report.move _ ⟨.error (.parse (e.move m)), "", []⟩ ∧ _
    rw [Report.move_error, Report.move_error, he]
    exact ⟨rfl, hs⟩
  | ok tree =>
    have h₁ := runTree_move hi .gather s₁ tree
    have h₂ := runTree_move hi .gather s₂ (tree.move m)
    rw [Node.gather_move, ← hs, h₁] at h₂
    exact ⟨congrArg Prod.fst h₂, congrArg Prod.snd h₂⟩

end Texts

theorem Report.headline_eq {r₁ r₂ : Report} (h : r₁.move .gather = r₂.move .gather) {e₁ : Error}
    (he : r₁.result = .error e₁) : ∃ e₂, r₂.result = .error e₂ ∧ e₂.headline = e₁.headline ∧
      e₂.message = e₁.headline ++ e₂.whereabouts := by
  have hresult := congrArg Report.result h
  simp only [Report.move, he] at hresult
  cases hr : r₂.result with
  | ok v =>
    rw [hr] at hresult
    cases hresult
  | error e₂ =>
    rw [hr] at hresult
    have hmove : e₁.move .gather = e₂.move .gather := Except.error.inj hresult
    have hheadline : e₂.headline = e₁.headline := by
      rw [← Error.headline_move .gather e₂, ← hmove, Error.headline_move]
    exact ⟨e₂, rfl, hheadline, hheadline ▸ e₂.message_eq⟩

/-- Texts with the same tokens at whatever positions are read alike, and rejected alike. Run in
sessions that are the same but for the places in their functions, they give the same value, output,
records and error, told with the same words but for the place, and leave such sessions again. -/
theorem Session.layout_irrelevant (turns nesting depth : Nat) (clock : Nat → Int)
    {source₁ source₂ : String} {tokens₁ tokens₂ : List Token}
    (ht₁ : tokenize source₁ = .ok tokens₁) (ht₂ : tokenize source₂ = .ok tokens₂)
    (hsame : tokens₁.map Token.shape = tokens₂.map Token.shape) :
    let i := Interpreter.limited turns nesting depth clock
    SameReading tokens₁ tokens₂ (i.parse source₁) (i.parse source₂) ∧
    ∀ s₁ s₂ : Session, s₁.move .gather = s₂.move .gather →
      (s₁.run i source₁).1.move .gather = (s₂.run i source₂).1.move .gather ∧
      (∀ e₁, (s₁.run i source₁).1.result = .error e₁ →
        e₁.message = e₁.headline ++ e₁.whereabouts ∧
        ∃ e₂, (s₂.run i source₂).1.result = .error e₂ ∧ e₂.headline = e₁.headline ∧
          e₂.message = e₁.headline ++ e₂.whereabouts) ∧
      (s₁.run i source₁).2.move .gather = (s₂.run i source₂).2.move .gather := by
  obtain ⟨m, rfl⟩ := (tokenize_increasing ht₁).exists_motion hsame
  refine ⟨.of_motion ht₁ ht₂ _, fun s₁ s₂ hs => ?_⟩
  obtain ⟨hreport, hsession⟩ := run_gather ht₁ ht₂
    (i := .limited turns nesting depth clock) (fun _ => Eval.standard_carries clock) hs
  exact ⟨hreport, fun e₁ he => ⟨e₁.message_eq, Report.headline_eq hreport he⟩, hsession⟩

theorem Session.layout_irrelevant_lines :
    let i := Interpreter.limited 1 9 9 fun _ => 0
    (Session.new.run i "fungsi f() { n } f()").2.move .gather =
      (Session.new.run i "fungsi f()\n{ n }\nf()").2.move .gather ∧
    ∃ e, (Session.new.run i "fungsi f()\n{ n }\nf()").1.result = .error e ∧
      e.headline = (Cause.undeclared "n").message := by
  -- a function that fails does so on whatever line it stands
  have ht₁ : tokenize "fungsi f() { n } f()" = .ok
      [⟨.fnWord, "fungsi", ⟨1, 1⟩⟩, ⟨.ident, "f", ⟨1, 8⟩⟩, ⟨.lparen, "(", ⟨1, 9⟩⟩,
        ⟨.rparen, ")", ⟨1, 10⟩⟩, ⟨.lbrace, "\x7b", ⟨1, 12⟩⟩, ⟨.ident, "n", ⟨1, 14⟩⟩,
        ⟨.rbrace, "\x7d", ⟨1, 16⟩⟩, ⟨.ident, "f", ⟨1, 18⟩⟩, ⟨.lparen, "(", ⟨1, 19⟩⟩,
        ⟨.rparen, ")", ⟨1, 20⟩⟩, .endMark ⟨1, 21⟩] := by cbv
  have ht₂ : tokenize "fungsi f()\n{ n }\nf()" = .ok
      [⟨.fnWord, "fungsi", ⟨1, 1⟩⟩, ⟨.ident, "f", ⟨1, 8⟩⟩, ⟨.lparen, "(", ⟨1, 9⟩⟩,
        ⟨.rparen, ")", ⟨1, 10⟩⟩, ⟨.lbrace, "\x7b", ⟨2, 1⟩⟩, ⟨.ident, "n", ⟨2, 3⟩⟩,
        ⟨.rbrace, "\x7d", ⟨2, 5⟩⟩, ⟨.ident, "f", ⟨3, 1⟩⟩, ⟨.lparen, "(", ⟨3, 2⟩⟩,
        ⟨.rparen, ")", ⟨3, 3⟩⟩, .endMark ⟨3, 4⟩] := by cbv
  have hp := Interpreter.parse_eq_ok (i := .limited 1 9 9 fun _ => 0).mpr ⟨_, ht₁, rfl⟩
  obtain ⟨-, hruns⟩ := Session.layout_irrelevant 1 9 9 (fun _ => 0) ht₁ ht₂ rfl
  obtain ⟨-, herror, hsession⟩ := hruns .new .new rfl
  have hfirst : (Session.new.run (.limited 1 9 9 fun _ => 0) "fungsi f() { n } f()").1.result =
      .error (.run (.error (.undeclared "n") (some ⟨1, some 14⟩))) := by
    rw [Session.run_of_parse hp]
    rfl
  obtain ⟨-, e, he, hheadline, -⟩ := herror _ hfirst
  exact ⟨hsession, e, he, hheadline⟩

end Bahasa
