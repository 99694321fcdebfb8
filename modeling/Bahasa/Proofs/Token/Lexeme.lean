import Bahasa.Token.Scan

namespace Bahasa

/-- The kinds of words and marks, whose spelling says it all. -/
def Kind.Fixed (k : Kind) : Prop :=
  k ≠ .number ∧ k ≠ .string ∧ k ≠ .endOfInput

instance (k : Kind) : Decidable k.Fixed :=
  inferInstanceAs (Decidable (_ ∧ _ ∧ _))

namespace Kind

theorem ofWord_fixed (word : String) : (ofWord word).Fixed := by
  unfold ofWord
  split <;> decide

theorem ofPair?_fixed {a b : Char} {k : Kind} (h : ofPair? a b = some k) : k.Fixed := by
  unfold ofPair? at h
  split at h
  all_goals
    cases h
    try decide

theorem ofChar?_fixed {c : Char} {k : Kind} (h : ofChar? c = some k) : k.Fixed := by
  unfold ofChar? at h
  split at h
  all_goals
    cases h
    try decide

theorem ofPair?_newline (a : Char) : ofPair? a '\n' = none := by
  unfold ofPair?
  split
  all_goals first | rfl | simp_all

end Kind

theorem span_append {p : Char → Bool} {run : List Char} (rest : List Char)
    (hrun : ∀ c ∈ run, p c = true) (hrest : ∀ c ∈ rest.head?, p c = false) :
    (run ++ rest).takeWhile p = run ∧ (run ++ rest).dropWhile p = rest := by
  rw [List.takeWhile_append_of_pos hrun, List.dropWhile_append_of_pos hrun]
  cases rest with
  | nil => simp
  | cons c rest => simp [hrest c rfl]

theorem takeWhile_append_stop {p : Char → Bool} {c : Char} (hc : p c = false) (cs ds : List Char) :
    (cs ++ c :: ds).takeWhile p = cs.takeWhile p := by
  induction cs with
  | nil => simp [hc]
  | cons d cs ih => simp only [List.cons_append, List.takeWhile_cons, ih]

theorem dropWhile_append_stop {p : Char → Bool} {c : Char} (hc : p c = false) (cs ds : List Char) :
    (cs ++ c :: ds).dropWhile p = cs.dropWhile p ++ c :: ds := by
  induction cs with
  | nil => simp [hc]
  | cons d cs ih =>
    simp only [List.cons_append, List.dropWhile_cons, ih]
    split <;> rfl

namespace Lexeme

section Spelling

theorem spelling_of_fixed {l : Lexeme} (h : l.kind.Fixed) : l.spelling = l.body :=
  if_neg h.2.1

structure Heads (cs : List Char) (l : Lexeme) (tail : List Char) : Prop where
  whole : l.spelling ++ tail = cs
  notEnd : l.kind ≠ .endOfInput

variable {c : Char} {cs rest tail : List Char} {l : Lexeme}

theorem readString_eq_ok : readString rest = .ok (l, tail) ↔
    ∃ body, '"' ∉ body ∧ rest = body ++ '"' :: tail ∧ l = ⟨.string, body⟩ := by
  constructor
  · intro h
    have hsplit := List.takeWhile_append_dropWhile (p := fun c => decide (c ≠ '"')) (l := rest)
    have hbody : '"' ∉ rest.takeWhile (fun c => decide (c ≠ '"')) :=
      fun hq => by simpa using List.all_eq_true.mp List.all_takeWhile _ hq
    have hstop := List.head?_dropWhile_not (fun c => decide (c ≠ '"')) rest
    unfold readString at h
    split at h
    · cases h
    · next q more hd =>
      cases h
      rw [hd] at hsplit hstop
      obtain rfl : q = '"' := by simpa using hstop
      exact ⟨_, hbody, hsplit.symm, rfl⟩
  · rintro ⟨body, hbody, rfl, rfl⟩
    have hrun : ∀ c ∈ body, decide (c ≠ '"') = true := by
      intro c hc
      simpa using fun he : c = '"' => hbody (he ▸ hc)
    obtain ⟨ht, hd⟩ := span_append ('"' :: tail) hrun (by simp)
    unfold readString
    rw [hd, ht]

theorem readString_heads (h : readString rest = .ok (l, tail)) : Heads ('"' :: rest) l tail := by
  obtain ⟨body, -, rfl, rfl⟩ := readString_eq_ok.mp h
  exact ⟨by simp [spelling], by simp⟩

theorem readFraction_whole (cs : List Char) : (readFraction cs).1 ++ (readFraction cs).2 = cs := by
  unfold readFraction
  split
  · next d rest =>
    split
    · rw [List.cons_append, List.takeWhile_append_dropWhile]
    · rfl
  · rfl

theorem readNumber_heads (cs : List Char) : Heads cs (readNumber cs).1 (readNumber cs).2 := by
  refine ⟨?_, by simp [readNumber]⟩
  have hf := readFraction_whole (cs.dropWhile Text.isDigit)
  have hsplit := List.takeWhile_append_dropWhile (p := Text.isDigit) (l := cs)
  simp only [readNumber, spelling, reduceCtorEq, if_false, List.append_assoc, hf, hsplit]

theorem readWord_heads (cs : List Char) : Heads cs (readWord cs).1 (readWord cs).2 := by
  have hk : (readWord cs).1.kind.Fixed := Kind.ofWord_fixed _
  refine ⟨?_, hk.2.2⟩
  rw [spelling_of_fixed hk]
  exact List.takeWhile_append_dropWhile

theorem readMark_heads (h : readMark c rest = .ok (l, tail)) :
    Heads (c :: rest) l tail ∧ l.kind.Fixed := by
  unfold readMark at h
  split at h
  · next kind hk =>
    cases h
    have hf := Kind.ofChar?_fixed hk
    exact ⟨⟨by rw [spelling_of_fixed hf]; rfl, hf.2.2⟩, hf⟩
  · cases h

theorem readOperator_heads (h : readOperator c rest = .ok (l, tail)) :
    Heads (c :: rest) l tail ∧ l.kind.Fixed := by
  unfold readOperator at h
  split at h
  · exact readMark_heads h
  · next d more =>
    split at h
    · next kind hk =>
      cases h
      have hf := Kind.ofPair?_fixed hk
      exact ⟨⟨by rw [spelling_of_fixed hf]; rfl, hf.2.2⟩, hf⟩
    · exact readMark_heads h

theorem read_heads (h : read c rest = .ok (l, tail)) : Heads (c :: rest) l tail := by
  unfold read at h
  split at h
  · next hc =>
    subst hc
    exact readString_heads h
  · split at h
    · have hn := readNumber_heads (c :: rest)
      rw [Except.ok.inj h] at hn
      exact hn
    · split at h
      · have hw := readWord_heads (c :: rest)
        rw [Except.ok.inj h] at hw
        exact hw
      · exact (readOperator_heads h).1

end Spelling

section Lines

variable {c : Char} {rest tail : List Char} {l : Lexeme}

theorem readString_append (h : readString rest = .ok (l, tail)) (ds : List Char) :
    readString (rest ++ ds) = .ok (l, tail ++ ds) := by
  obtain ⟨body, hbody, rfl, rfl⟩ := readString_eq_ok.mp h
  exact readString_eq_ok.mpr ⟨body, hbody, List.append_assoc .., rfl⟩

theorem isDigit_newline : Text.isDigit '\n' = false := by decide

theorem isWordChar_newline : isWordChar '\n' = false := by decide

/-- A point at the end of a line is not part of a number. -/
theorem readFraction_append (cs ds : List Char) :
    readFraction (cs ++ '\n' :: ds) = ((readFraction cs).1, (readFraction cs).2 ++ '\n' :: ds) := by
  match cs with
  | [] => simp [readFraction]
  | [c] =>
    by_cases hc : c = '.'
    · subst hc
      simp [readFraction, isDigit_newline]
    · simp [readFraction, hc]
  | c :: d :: rest =>
    by_cases hc : c = '.'
    · subst hc
      have ht := takeWhile_append_stop isDigit_newline (d :: rest) ds
      have hd := dropWhile_append_stop isDigit_newline (d :: rest) ds
      simp only [List.cons_append] at ht hd ⊢
      simp only [readFraction, ht, hd]
      split <;> rfl
    · simp [readFraction, hc]

theorem readNumber_append (cs ds : List Char) :
    readNumber (cs ++ '\n' :: ds) = ((readNumber cs).1, (readNumber cs).2 ++ '\n' :: ds) := by
  have ht := takeWhile_append_stop isDigit_newline cs ds
  have hd := dropWhile_append_stop isDigit_newline cs ds
  simp only [readNumber, ht, hd, readFraction_append]

theorem readWord_append (cs ds : List Char) :
    readWord (cs ++ '\n' :: ds) = ((readWord cs).1, (readWord cs).2 ++ '\n' :: ds) := by
  have ht := takeWhile_append_stop isWordChar_newline cs ds
  have hd := dropWhile_append_stop isWordChar_newline cs ds
  simp only [readWord, ht, hd]

theorem readMark_append (h : readMark c rest = .ok (l, tail)) (ds : List Char) :
    readMark c (rest ++ ds) = .ok (l, tail ++ ds) := by
  unfold readMark at h ⊢
  split at h
  · cases h
    rfl
  · cases h

theorem readOperator_append (h : readOperator c rest = .ok (l, tail)) (ds : List Char) :
    readOperator c (rest ++ '\n' :: ds) = .ok (l, tail ++ '\n' :: ds) := by
  cases rest with
  | nil =>
    have hm := readMark_append h ('\n' :: ds)
    simp only [readOperator, List.nil_append, Kind.ofPair?_newline] at hm ⊢
    exact hm
  | cons d rest =>
    unfold readOperator at h ⊢
    dsimp only [List.cons_append] at h ⊢
    cases hk : Kind.ofPair? c d with
    | some kind =>
      rw [hk] at h
      cases h
      rfl
    | none =>
      rw [hk] at h
      exact readMark_append h ('\n' :: ds)

theorem read_append (h : read c rest = .ok (l, tail)) (ds : List Char) :
    read c (rest ++ '\n' :: ds) = .ok (l, tail ++ '\n' :: ds) := by
  unfold read at h ⊢
  split at h
  · next hc =>
    rw [if_pos hc]
    exact readString_append h _
  · next hc =>
    rw [if_neg hc]
    split at h
    · next hd =>
      rw [if_pos hd, ← List.cons_append, readNumber_append, Except.ok.inj h]
    · next hd =>
      rw [if_neg hd]
      split at h
      · next hw =>
        rw [if_pos hw, ← List.cons_append, readWord_append, Except.ok.inj h]
      · next hw =>
        rw [if_neg hw]
        exact readOperator_append h ds

end Lines

end Lexeme

end Bahasa
