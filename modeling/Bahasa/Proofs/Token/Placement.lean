import Bahasa.Proofs.Token.Order
import Bahasa.Proofs.Token.Segmentation
import Mathlib.Data.List.DropRight

namespace Bahasa

namespace Position

/-- The position behind a text: the line feeds in it and the characters after the last of them,
both counted from one. -/
def behind (text : List Char) : Position :=
  ⟨1 + text.count '\n', 1 + (text.rtakeWhile (· ≠ '\n')).length⟩

theorem behind_concat (text : List Char) (c : Char) :
    behind (text ++ [c]) = (behind text).step c := by
  by_cases hc : c = '\n'
  · subst hc
    rw [behind, List.rtakeWhile_concat_neg _ _ _ (by decide), List.count_append]
    simp only [behind, step, if_true, mk.injEq, List.count_singleton_self, List.length_nil]
    omega
  · rw [behind, List.rtakeWhile_concat_pos _ _ _ (by simpa using hc), List.count_append]
    simp only [behind, step, if_neg hc, mk.injEq, List.count_singleton, List.length_append,
      List.length_singleton, beq_iff_eq]
    omega

theorem behind_append (text more : List Char) :
    behind (text ++ more) = (behind text).past more := by
  induction more generalizing text with
  | nil => rw [List.append_nil, past, List.foldl_nil]
  | cons c more ih => rw [List.append_cons, ih, behind_concat, past_cons]

end Position

/-- The text `cs`, which follows the text `before`, holds the lexemes of the tokens `ts` and gaps
between them, up to the text `rest`. Each token bears the position at which its lexeme starts. -/
inductive Laid : List Char → List Token → List Char → List Char → Prop
  | stop {before gap rest : List Char} (hg : Gap gap rest) : Laid before [] (gap ++ rest) rest
  | token {before gap tail rest : List Char} {t : Token} {ts : List Token}
    (hg : Gap gap (t.lexeme.spelling ++ tail)) (hl : t.lexeme.Longest (t.lexeme.spelling ++ tail))
    (hp : t.position = .behind (before ++ gap))
    (h : Laid (before ++ gap ++ t.lexeme.spelling) ts tail rest) :
    Laid before (t :: ts) (gap ++ (t.lexeme.spelling ++ tail)) rest

namespace Laid

variable {before cs tail rest : List Char} {t : Token} {ts : List Token}

theorem cons {l : Lexeme} (hlex : t.lexeme = l) (hl : l.Longest (l.spelling ++ tail))
    (hp : t.position = .behind before) (h : Laid (before ++ l.spelling) ts tail rest) :
    Laid before (t :: ts) (l.spelling ++ tail) rest := by
  subst hlex
  have hnil := before.append_nil
  exact .token .none hl (hnil.symm ▸ hp) (hnil.symm ▸ h)

theorem spaced {stretch : List Char} (h : Laid (before ++ stretch) ts cs rest)
    (hs : ∀ gap more, gap ++ more = cs → Gap gap more → Gap (stretch ++ gap) more) :
    Laid before ts (stretch ++ cs) rest := by
  generalize hb : before ++ stretch = start at h
  cases h with
  | stop hg =>
    rw [← List.append_assoc]
    exact .stop (hs _ _ rfl hg)
  | token hg hl hp h =>
    subst hb
    rw [← List.append_assoc]
    rw [List.append_assoc before] at hp h
    exact .token (hs _ _ rfl hg) hl hp h

end Laid

theorem Lexeme.read_flaw {c : Char} {rest : List Char} {flaw : Flaw}
    (h : Lexeme.read c rest = .error flaw) :
    flaw = .unterminated ∧ c = '"' ∨ flaw = .unrecognized c := by
  cases flaw with
  | unterminated => exact .inl ⟨rfl, (read_unterminated h).mp rfl⟩
  | unrecognized d => exact .inr (congrArg _ (read_eq_unrecognized.mp h).1)

namespace Scan

/-- Where the scan of a text stops that has found the tokens `found` up to the text `rest`, after
those of `done`. -/
structure Stops (text : List Char) (done found : List Token) (rest : List Char) (scan : Scan) :
    Prop where
  finished : rest = [] → scan = ⟨done.reverse ++ (found ++ [.endMark (.behind text)]), none⟩
  broken : ∀ c after, rest = c :: after → ∃ read flaw, text = read ++ c :: after ∧
    scan = ⟨done.reverse ++ found, some ⟨flaw, .behind read⟩⟩ ∧
    (flaw = .unterminated ∧ c = '"' ∨ flaw = .unrecognized c)

theorem Stops.cons {text rest : List Char} {done found : List Token} {t : Token} {scan : Scan}
    (h : Stops text (t :: done) found rest scan) : Stops text done (t :: found) rest scan := by
  obtain ⟨hfin, hbro⟩ := h
  simp only [List.reverse_cons, List.append_assoc, List.singleton_append] at hfin hbro
  exact ⟨hfin, hbro⟩

theorem resume_laid (done : List Token) (before cs : List Char) :
    ∃ found rest, Laid before found cs rest ∧
      Stops (before ++ cs) done found rest (resume done (.behind before) cs) := by
  -- the scan itself knows its position only, whatever the text before it
  generalize hp : Position.behind before = p
  fun_induction resume done p cs generalizing before with
  | case1 done p =>
    subst hp
    exact ⟨[], [], .stop .none, by simp, by simp⟩
  | case2 done p c rest hc ih =>
    obtain ⟨found, stop, hl, hs⟩ := ih (before ++ [c]) (hp ▸ Position.behind_concat before c)
    rw [List.append_cons]
    exact ⟨found, stop, hl.spaced fun _ _ _ hg => .blank (isSpacing_iff.mp hc) hg, hs⟩
  | case3 done p rest _ ih =>
    have hsplit := List.takeWhile_append_dropWhile (p := fun c => decide (c ≠ '\n')) (l := rest)
    obtain ⟨hbody, hend⟩ := comment_line rest
    obtain ⟨found, stop, hl, hs⟩ := ih (before ++ '#' :: rest.takeWhile (· ≠ '\n'))
      (hp ▸ Position.behind_append _ _)
    have hlaid := hl.spaced fun _ _ he hg => .comment hbody (he ▸ hend) hg
    rw [List.cons_append, hsplit] at hlaid
    rw [List.append_assoc, List.cons_append, hsplit] at hs
    exact ⟨found, stop, hlaid, hs⟩
  | case4 done p c rest hc hc' flaw hl =>
    subst hp
    refine ⟨[], c :: rest, .stop .none, by simp, ?_⟩
    rintro d after hd
    obtain ⟨rfl, rfl⟩ := List.cons.inj hd
    exact ⟨before, flaw, rfl, by simp, Lexeme.read_flaw hl⟩
  | case5 done p c rest hc hc' l tail hl ih =>
    obtain ⟨hlong, hw⟩ := Lexeme.read_eq_ok.mp hl
    obtain ⟨found, stop, hf, hs⟩ := ih (before ++ l.spelling) (hp ▸ Position.behind_append _ _)
    have hlex : Token.lexeme ⟨l.kind, String.ofList l.body, p⟩ = l := by
      simp [Token.lexeme]
    have hlaid := Laid.cons hlex (hw ▸ hlong) hp.symm hf
    rw [hw] at hlaid
    rw [List.append_assoc, hw] at hs
    exact ⟨_, stop, hlaid, hs.cons⟩

end Scan

/-- The tokens of a source text bear the positions of their lexemes, and the end mark bears that
behind the whole text. A flaw bears the position of the character that starts nothing, or of the
quote that opens a string without end. Positions come in the order of the text. -/
theorem positions_exact (source : String) :
    ∃ (ts : List Token) (rest : List Char), Laid [] ts source.toList rest ∧
      Increasing (Scan.ofSource source).tokens ∧
      (rest = [] → tokenize source = .ok (ts ++ [.endMark (.behind source.toList)])) ∧
      (∀ c after, rest = c :: after → ∃ before flaw, source.toList = before ++ c :: after ∧
        (Scan.ofSource source).tokens = ts ∧ tokenize source = .error ⟨flaw, .behind before⟩ ∧
        (flaw = .unterminated ∧ c = '"' ∨ flaw = .unrecognized c)) := by
  obtain ⟨ts, rest, hl, hs⟩ := Scan.resume_laid [] [] source.toList
  have hincreasing :=
    Scan.resume_increasing [] .start source.toList (by simp [Increasing]) (by simp)
  refine ⟨ts, rest, hl, hincreasing, ?_, ?_⟩
  · intro hr
    have hscan := hs.finished hr
    exact tokenize_eq_ok.mpr ⟨congrArg Scan.error? hscan, congrArg Scan.tokens hscan⟩
  · intro c after hr
    obtain ⟨before, flaw, htext, hscan, hflaw⟩ := hs.broken c after hr
    have hsource : Scan.ofSource source = ⟨ts, some ⟨flaw, .behind before⟩⟩ := hscan
    refine ⟨before, flaw, htext, congrArg Scan.tokens hsource, ?_, hflaw⟩
    rw [tokenize, hsource]

end Bahasa
