import Bahasa.Proofs.Node.Places
import Bahasa.Proofs.Token.Lexeme

namespace Bahasa

namespace Position

theorem past_append (p : Position) (cs ds : List Char) :
    p.past (cs ++ ds) = (p.past cs).past ds :=
  List.foldl_append

theorem past_cons (p : Position) (c : Char) (cs : List Char) :
    p.past (c :: cs) = (p.step c).past cs := rfl

theorem line_past (p : Position) (cs : List Char) :
    (p.past cs).line = p.line + cs.count '\n' := by
  induction cs generalizing p with
  | nil => simp [past]
  | cons c cs ih =>
    rw [past_cons, ih]
    by_cases hc : c = '\n'
    · subst hc
      simp only [step, if_true, List.count_cons_self]
      omega
    · rw [List.count_cons_of_ne hc, step, if_neg hc]

theorem step_down (k : Int) (p : Position) (c : Char) :
    ((Motion.down k).position p).step c = (Motion.down k).position (p.step c) := by
  by_cases hc : c = '\n'
  · simp only [step, if_pos hc, Motion.down, mk.injEq, and_true]
    omega
  · simp only [step, if_neg hc, Motion.down]

theorem past_down (k : Int) (p : Position) (cs : List Char) :
    ((Motion.down k).position p).past cs = (Motion.down k).position (p.past cs) := by
  induction cs generalizing p with
  | nil => rfl
  | cons c cs ih => rw [past_cons, past_cons, step_down, ih]

end Position

def LexError.move (m : Motion) (e : LexError) : LexError :=
  { e with position := m.position e.position }

namespace Scan

section Steps

variable {done : List Token} {p : Position} {c : Char} {rest : List Char}

theorem resume_spacing (hc : isSpacing c = true) :
    resume done p (c :: rest) = resume done (p.step c) rest := by
  rw [resume, if_pos hc]

theorem resume_comment : resume done p ('#' :: rest) =
    resume done (p.past (('#' :: rest).takeWhile (· ≠ '\n'))) (rest.dropWhile (· ≠ '\n')) := by
  rw [resume, if_neg (by decide), if_pos rfl]

theorem resume_flaw (hc : ¬ isSpacing c = true) (hc' : ¬ c = '#') {flaw : Flaw}
    (h : Lexeme.read c rest = .error flaw) :
    resume done p (c :: rest) = ⟨done.reverse, some ⟨flaw, p⟩⟩ := by
  rw [resume, if_neg hc, if_neg hc']
  split
  · next flaw' h' =>
    rw [h] at h'
    cases h'
    rfl
  · next l tail h' =>
    rw [h] at h'
    cases h'

theorem resume_lexeme (hc : ¬ isSpacing c = true) (hc' : ¬ c = '#') {l : Lexeme} {tail : List Char}
    (h : Lexeme.read c rest = .ok (l, tail)) :
    resume done p (c :: rest) =
      resume (⟨l.kind, String.ofList l.body, p⟩ :: done) (p.past l.spelling) tail := by
  rw [resume, if_neg hc, if_neg hc']
  split
  · next flaw h' =>
    rw [h] at h'
    cases h'
  · next l' tail' h' =>
    rw [h] at h'
    cases h'
    rfl

theorem resume_comment_append (ds : List Char) : resume done p ('#' :: (rest ++ '\n' :: ds)) =
    resume done (p.past (('#' :: rest).takeWhile (· ≠ '\n')))
      (rest.dropWhile (· ≠ '\n') ++ '\n' :: ds) := by
  have hstop : (fun c : Char => decide (c ≠ '\n')) '\n' = false := by decide
  rw [resume_comment, dropWhile_append_stop hstop, ← List.cons_append, takeWhile_append_stop hstop]

end Steps

theorem resume_down (k : Int) (before done : List Token) (p : Position) (cs : List Char) :
    resume (done.map (Token.move (.down k)) ++ before) ((Motion.down k).position p) cs =
      ⟨before.reverse ++ (resume done p cs).tokens.map (Token.move (.down k)),
        (resume done p cs).error?.map (LexError.move (.down k))⟩ := by
  fun_induction resume done p cs with
  | case1 done p =>
    rw [resume]
    simp [Token.endMark, Token.move]
  | case2 done p c rest hc ih => rw [resume_spacing hc, Position.step_down, ih]
  | case3 done p rest _ ih => rw [resume_comment, Position.past_down, ih]
  | case4 done p c rest hc hc' flaw hl =>
    rw [resume_flaw hc hc' hl]
    simp [LexError.move]
  | case5 done p c rest hc hc' l tail hl ih =>
    rw [resume_lexeme hc hc' hl, Position.past_down, ← ih]
    rfl

/-- A scan that has reached the end of a line goes on with the next. -/
theorem resume_append (ds : List Char) (done : List Token) (p : Position) (cs : List Char)
    (h : (resume done p cs).error? = none) (hd : ∀ t ∈ done, t.kind ≠ .endOfInput) :
    ∃ found, (∀ t ∈ found, t.kind ≠ .endOfInput) ∧
      (resume done p cs).tokens = (Token.endMark (p.past cs) :: found).reverse ∧
      resume done p (cs ++ '\n' :: ds) = resume found ((p.past cs).step '\n') ds := by
  fun_induction resume done p cs with
  | case1 done p => exact ⟨done, hd, rfl, resume_spacing (by decide)⟩
  | case2 done p c rest hc ih =>
    rw [List.cons_append, resume_spacing hc]
    exact ih h hd
  | case3 done p rest _ ih =>
    have hpast : p.past ('#' :: rest) =
        (p.past (('#' :: rest).takeWhile (· ≠ '\n'))).past (rest.dropWhile (· ≠ '\n')) := by
      rw [← Position.past_append]
      simp
    rw [List.cons_append, resume_comment_append, hpast]
    exact ih h hd
  | case4 done p c rest hc hc' flaw hl => cases h
  | case5 done p c rest hc hc' l tail hl ih =>
    have hh := Lexeme.read_heads hl
    have hpast : p.past (c :: rest) = (p.past l.spelling).past tail := by
      rw [← Position.past_append, hh.whole]
    rw [List.cons_append, resume_lexeme hc hc' (Lexeme.read_append hl ds), hpast]
    refine ih h ?_
    intro t ht
    obtain rfl | ht := List.mem_cons.mp ht
    · exact hh.notEnd
    · exact hd t ht

end Scan

def lineCount (source : String) : Int :=
  1 + source.toList.count '\n'

theorem Scan.ofSource_append {s₁ : String} (s₂ : String) (h : (ofSource s₁).error? = none) :
    ∃ body stop, (ofSource s₁).tokens = body ++ [stop] ∧ stop.kind = .endOfInput ∧
      (∀ t ∈ body, t.kind ≠ .endOfInput) ∧
      ofSource (s₁ ++ "\n" ++ s₂) =
        ⟨body ++ (ofSource s₂).tokens.map (Token.move (.down (lineCount s₁))),
          (ofSource s₂).error?.map (LexError.move (.down (lineCount s₁)))⟩ := by
  obtain ⟨found, hf, ht, hr⟩ := resume_append s₂.toList [] .start s₁.toList h (by simp)
  refine ⟨found.reverse, .endMark (Position.start.past s₁.toList), ?_, rfl, by simpa using hf, ?_⟩
  · rw [ofSource, ht, List.reverse_cons]
  · have hstart : (Position.start.past s₁.toList).step '\n' =
        (Motion.down (lineCount s₁)).position .start := by
      have hline := Position.line_past .start s₁.toList
      simp only [Position.start] at hline
      simp only [Position.step, if_true, Motion.down, Position.start, lineCount,
        Position.mk.injEq, and_true]
      omega
    have hdown := resume_down (lineCount s₁) found [] .start s₂.toList
    have hlist : (s₁ ++ "\n" ++ s₂).toList = s₁.toList ++ '\n' :: s₂.toList := by simp
    rw [ofSource, hlist, hr, hstart]
    exact hdown

theorem tokenize_eq_ok {s : String} {ts : List Token} :
    tokenize s = .ok ts ↔ (Scan.ofSource s).error? = none ∧ (Scan.ofSource s).tokens = ts := by
  unfold tokenize
  dsimp only
  cases (Scan.ofSource s).error? with
  | none => simp
  | some e => simp

theorem tokenize_stop {s : String} {ts : List Token} (h : tokenize s = .ok ts) :
    ∃ body stop, ts = body ++ [stop] ∧ stop.kind = .endOfInput ∧
      ∀ t ∈ body, t.kind ≠ .endOfInput := by
  obtain ⟨he, rfl⟩ := tokenize_eq_ok.mp h
  obtain ⟨body, stop, ht, hs, hb, -⟩ := Scan.ofSource_append "" he
  exact ⟨body, stop, ht, hs, hb⟩

theorem tokenize_append {s₁ s₂ : String} {body ts : List Token} {stop : Token}
    (h₁ : tokenize s₁ = .ok (body ++ [stop])) (h₂ : tokenize s₂ = .ok ts) :
    tokenize (s₁ ++ "\n" ++ s₂) = .ok (body ++ ts.map (Token.move (.down (lineCount s₁)))) := by
  obtain ⟨he₁, ht₁⟩ := tokenize_eq_ok.mp h₁
  obtain ⟨he₂, rfl⟩ := tokenize_eq_ok.mp h₂
  obtain ⟨found, mark, ht, -, -, hj⟩ := Scan.ofSource_append s₂ he₁
  obtain ⟨rfl, -⟩ := List.append_inj' (ht₁.symm.trans ht) rfl
  rw [tokenize_eq_ok, hj, he₂]
  exact ⟨rfl, rfl⟩

end Bahasa
