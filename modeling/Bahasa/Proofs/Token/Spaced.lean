import Bahasa.Proofs.Token.Spelling

namespace Bahasa

/-- Blanks and comments in any order, each comment closed by a line feed. -/
inductive Trivia : List Char → Prop
  | none : Trivia []
  | blank {c : Char} {gap : List Char} (hc : c ∈ blanks) (h : Trivia gap) : Trivia (c :: gap)
  | comment {body gap : List Char} (hb : '\n' ∉ body) (h : Trivia gap) :
    Trivia ('#' :: body ++ '\n' :: gap)

def written (pieces : List (Lexeme × List Char)) : List Char :=
  pieces.flatMap fun piece => piece.1.spelling ++ piece.2

namespace Trivia

variable {gap : List Char}

theorem dividing (h : Trivia gap) (hne : gap ≠ []) (rest : List Char) : Dividing (gap ++ rest) := by
  cases h with
  | none => exact absurd rfl hne
  | blank hc _ =>
    have hall : blanks.all (Divides ·) = true := by decide
    exact dividing_cons (of_decide_eq_true (List.all_eq_true.mp hall _ hc)) _
  | comment _ _ => exact dividing_cons (by decide) _

theorem segments (h : Trivia gap) {ls : List Lexeme} {cs rest : List Char}
    (hs : Segments ls cs rest) : Segments ls (gap ++ cs) rest := by
  induction h with
  | none => exact hs
  | blank hc _ ih => exact ih.blank hc
  | @comment body gap hb _ ih =>
    have hline : Segments ls ('\n' :: (gap ++ cs)) rest := ih.blank (by decide)
    have hstop : ∀ c ∈ ('\n' :: (gap ++ cs)).head?, c = '\n' := by
      intro c hc
      simpa using hc.symm
    simpa using hline.comment hb hstop

end Trivia

theorem written_segments {pieces : List (Lexeme × List Char)}
    (hl : ∀ piece ∈ pieces, piece.1.Lawful) (ht : ∀ piece ∈ pieces, Trivia piece.2)
    (hne : ∀ piece ∈ pieces.dropLast, piece.2 ≠ []) :
    Segments (pieces.map Prod.fst) (written pieces) [] := by
  induction pieces with
  | nil => exact .stop .none
  | cons piece rest ih =>
    obtain ⟨l, gap⟩ := piece
    obtain ⟨hlawful, hl⟩ := List.forall_mem_cons.mp hl
    obtain ⟨hgap, ht⟩ := List.forall_mem_cons.mp ht
    have hrest : ∀ piece ∈ rest.dropLast, piece.2 ≠ [] := by
      intro piece hp
      cases rest with
      | nil => cases hp
      | cons next rest => exact hne piece (List.mem_cons_of_mem _ hp)
    -- only behind the last lexeme there may be nothing, and then the text is at its end
    have hdiv : Dividing (gap ++ written rest) := by
      by_cases hnil : gap = []
      · cases rest with
        | nil =>
          rw [hnil]
          exact dividing_nil
        | cons next rest => exact absurd hnil (hne _ (List.mem_cons_self ..))
      · exact hgap.dividing hnil _
    have hsegments := hgap.segments (ih hl ht hrest)
    simpa [written] using Segments.lexeme .none (hlawful.longest hdiv) hsegments

/-- Lexemes are written with blanks and comments between each two of them, and perhaps before the
first and behind the last. The tokens of that text are these lexemes, with the end mark behind. -/
theorem tokenize_written {lead : List Char} {pieces : List (Lexeme × List Char)}
    (hlead : Trivia lead) (hl : ∀ piece ∈ pieces, piece.1.Lawful)
    (ht : ∀ piece ∈ pieces, Trivia piece.2) (hne : ∀ piece ∈ pieces.dropLast, piece.2 ≠ []) :
    ∃ ts p, tokenize (String.ofList (lead ++ written pieces)) = .ok (ts ++ [.endMark p]) ∧
      ts.map Token.lexeme = pieces.map Prod.fst := by
  refine tokenize_of_segments ?_
  rw [String.toList_ofList]
  exact hlead.segments (written_segments hl ht hne)

theorem tokenize_written_quotes :
    let string : Lexeme := ⟨.string, "#\n==".toList⟩
    let pieces : List (Lexeme × List Char) :=
      [(⟨.assign, ['=']⟩, "#\"=\n".toList), (⟨.eq, ['=', '=']⟩, "\t".toList), (string, [])]
    (Trivia "\r\n".toList ∧ (∀ piece ∈ pieces, piece.1.Lawful) ∧
      (∀ piece ∈ pieces, Trivia piece.2) ∧ ∀ piece ∈ pieces.dropLast, piece.2 ≠ []) ∧
    ∃ ts p, tokenize "\r\n=#\"=\n==\t\"#\n==\"" = .ok (ts ++ [.endMark p]) ∧
      ts.map Token.lexeme = pieces.map Prod.fst := by
  -- a quote in a comment opens no string, and the sign of a comment in a string opens no comment
  intro string pieces
  have hlead : Trivia "\r\n".toList := .blank (by decide) (.blank (by decide) .none)
  have hl : ∀ piece ∈ pieces, piece.1.Lawful := by
    simp only [pieces, string, List.forall_mem_cons]
    exact ⟨.mark (by decide), .pair (by decide), .string (by decide), nofun⟩
  have hcomment : Trivia ('#' :: ['"', '='] ++ '\n' :: []) := .comment (by decide) .none
  have ht : ∀ piece ∈ pieces, Trivia piece.2 := by
    simp only [pieces, List.forall_mem_cons]
    exact ⟨hcomment, .blank (by decide) .none, .none, nofun⟩
  have hne : ∀ piece ∈ pieces.dropLast, piece.2 ≠ [] := by decide
  have hsource : String.ofList ("\r\n".toList ++ written pieces) = "\r\n=#\"=\n==\t\"#\n==\"" := by
    decide
  exact ⟨⟨hlead, hl, ht, hne⟩, hsource ▸ tokenize_written hlead hl ht hne⟩

end Bahasa
