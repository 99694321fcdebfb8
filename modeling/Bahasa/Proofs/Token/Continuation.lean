import Bahasa.Proofs.Token.Language
import Bahasa.Proofs.Token.Lines

namespace Bahasa

theorem Lexeme.read_unrecognized_append {c d : Char} {rest : List Char}
    (h : Lexeme.read c rest = .error (.unrecognized d)) (ds : List Char) :
    Lexeme.read c (rest ++ '\n' :: ds) = .error (.unrecognized d) := by
  obtain ⟨hd, hq, hdigit, hword, hmark, hpair⟩ := read_eq_unrecognized.mp h
  refine read_eq_unrecognized.mpr ⟨hd, hq, hdigit, hword, hmark, ?_⟩
  cases rest with
  | nil => simpa using Kind.ofPair?_newline c
  | cons e rest => simpa using hpair

theorem Scan.resume_unrecognized (ds : List Char) {done : List Token} {p q : Position}
    {cs : List Char} {d : Char} (h : (resume done p cs).error? = some ⟨.unrecognized d, q⟩) :
    resume done p (cs ++ '\n' :: ds) = resume done p cs := by
  fun_induction resume done p cs with
  | case1 done p => cases h
  | case2 done p c rest hc ih =>
    rw [List.cons_append, resume_spacing hc]
    exact ih h
  | case3 done p rest _ ih =>
    rw [List.cons_append, resume_comment_append]
    exact ih h
  | case4 done p c rest hc hc' flaw hl =>
    obtain ⟨rfl, rfl⟩ : flaw = .unrecognized d ∧ p = q := by simpa using h
    rw [List.cons_append, resume_flaw hc hc' (Lexeme.read_unrecognized_append hl ds)]
  | case5 done p c rest hc hc' l tail hl ih =>
    rw [List.cons_append, resume_lexeme hc hc' (Lexeme.read_append hl ds)]
    exact ih h

theorem tokenize_eq_error {s : String} {e : LexError} :
    tokenize s = .error e ↔ (Scan.ofSource s).error? = some e := by
  unfold tokenize
  dsimp only
  cases (Scan.ofSource s).error? with
  | none => simp
  | some e => simp

/-- The tokens of the next lines, and the flaw that ends them, follow those of a text that can be
scanned, moved down; no line that comes after a character that is not recognized is looked at. -/
theorem tokenize_lines (s₁ s₂ : String) :
    (∀ ts, tokenize s₁ = .ok ts → ∃ body stop, ts = body ++ [stop] ∧ stop.kind = .endOfInput ∧
      (∀ t ∈ body, t.kind ≠ .endOfInput) ∧
      (Scan.ofSource (s₁ ++ "\n" ++ s₂)).tokens =
        body ++ (Scan.ofSource s₂).tokens.map (Token.move (.down (lineCount s₁))) ∧
      (∀ us, tokenize s₂ = .ok us → tokenize (s₁ ++ "\n" ++ s₂) =
        .ok (body ++ us.map (Token.move (.down (lineCount s₁))))) ∧
      (∀ e, tokenize s₂ = .error e → tokenize (s₁ ++ "\n" ++ s₂) =
        .error (e.move (.down (lineCount s₁))))) ∧
    (∀ c p, tokenize s₁ = .error ⟨.unrecognized c, p⟩ →
      (Scan.ofSource (s₁ ++ "\n" ++ s₂)).tokens = (Scan.ofSource s₁).tokens ∧
      tokenize (s₁ ++ "\n" ++ s₂) = .error ⟨.unrecognized c, p⟩) := by
  constructor
  · intro ts h
    obtain ⟨he, rfl⟩ := tokenize_eq_ok.mp h
    obtain ⟨body, stop, ht, hstop, hbody, hj⟩ := Scan.ofSource_append s₂ he
    refine ⟨body, stop, ht, hstop, hbody, congrArg Scan.tokens hj, ?_, ?_⟩
    · intro us h₂
      exact tokenize_append (ht ▸ h) h₂
    · intro e h₂
      rw [tokenize_eq_error, hj, tokenize_eq_error.mp h₂]
      rfl
  · intro c p h
    have he := tokenize_eq_error.mp h
    have hlist : (s₁ ++ "\n" ++ s₂).toList = s₁.toList ++ '\n' :: s₂.toList := by simp
    have hscan : Scan.ofSource (s₁ ++ "\n" ++ s₂) = Scan.ofSource s₁ := by
      rw [Scan.ofSource, hlist, Scan.resume_unrecognized s₂.toList he, Scan.ofSource]
    exact ⟨congrArg Scan.tokens hscan, by rw [tokenize_eq_error, hscan, he]⟩

theorem tokenize_lines_halves :
    tokenize ("a =" ++ "\n" ++ "= \"") = .error ⟨.unterminated, ⟨2, 3⟩⟩ ∧
      tokenize ("a &" ++ "\n" ++ "& b") = .error ⟨.unrecognized '&', ⟨1, 3⟩⟩ := by
  -- the two halves of an operator stay apart, whether the first half alone is one or not
  have h₁ : tokenize "a =" =
      .ok [⟨.ident, "a", ⟨1, 1⟩⟩, ⟨.assign, "=", ⟨1, 3⟩⟩, .endMark ⟨1, 4⟩] := by cbv
  have h₂ : tokenize "= \"" = .error ⟨.unterminated, ⟨1, 3⟩⟩ := by cbv
  have h₃ : tokenize "a &" = .error ⟨.unrecognized '&', ⟨1, 3⟩⟩ := by cbv
  obtain ⟨_, _, _, _, _, _, _, herror⟩ := (tokenize_lines "a =" "= \"").1 _ h₁
  exact ⟨herror _ h₂, ((tokenize_lines "a &" "& b").2 _ _ h₃).2⟩

end Bahasa
