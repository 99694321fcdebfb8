import Bahasa.Proofs.Token.Segmentation
import Bahasa.Text.Blank

namespace Bahasa

open Text (isBlank trimLeft)

theorem isBlank_of_mem_blanks {c : Char} (hc : c ∈ blanks) : isBlank c = true :=
  List.all_eq_true.mp (by decide : blanks.all isBlank = true) c hc

theorem isBlank_of_visible {c : Char} (h : 0x21 ≤ c.toNat) (h' : c.toNat ≤ 0x7E) :
    isBlank c = false := by
  simp only [isBlank, Bool.or_eq_false_iff, Bool.and_eq_false_iff, beq_eq_false_iff_ne,
    decide_eq_false_iff_not]
  omega

theorem Lexeme.isBlank_of_starts {c : Char} (h : starts c = true) : isBlank c = false := by
  simp only [starts, Bool.or_eq_true] at h
  obtain (hd | hw) | hm := h
  · obtain ⟨h₁, h₂⟩ := (Text.isDigit_iff c).mp hd
    exact isBlank_of_visible (by omega) (by omega)
  · simp only [isWordStart, Bool.or_eq_true, Bool.and_eq_true, decide_eq_true_eq, beq_iff_eq,
      Char.le_def, UInt32.le_iff_toNat_le] at hw
    obtain (hlower | hupper) | rfl := hw
    · change 97 ≤ c.toNat ∧ c.toNat ≤ 122 at hlower
      exact isBlank_of_visible (by omega) (by omega)
    · change 65 ≤ c.toNat ∧ c.toNat ≤ 90 at hupper
      exact isBlank_of_visible (by omega) (by omega)
    · decide
  · have hall : ('"' :: Kind.pairs.map (·.1.1) ++ Kind.marks.map (·.1)).all (!isBlank ·) = true :=
      by decide
    simpa using List.all_eq_true.mp hall c (List.contains_iff_mem.mp hm)

theorem Gap.dropWhile {gap rest : List Char} (h : Gap gap rest) :
    ((gap ++ rest).dropWhile isBlank).head? = some '#' ∨
      (gap ++ rest).dropWhile isBlank = rest.dropWhile isBlank := by
  induction h with
  | none => exact .inr rfl
  | blank hc _ ih =>
    rw [List.cons_append, List.dropWhile_cons_of_pos (isBlank_of_mem_blanks hc)]
    exact ih
  | comment _ _ _ => exact .inl rfl

theorem Segments.trimLeft {ls : List Lexeme} {cs : List Char} (h : Segments ls cs []) :
    trimLeft cs = [] ∧ ls = [] ∨ (trimLeft cs).head? = some '#' ∨
      ∃ l ls', ls = l :: ls' ∧ l.Longest (trimLeft cs) := by
  cases h with
  | stop hg =>
    obtain hhash | hnone := hg.dropWhile
    · exact .inr (.inl hhash)
    · exact .inl ⟨hnone, rfl⟩
  | @lexeme l ls gap tail _ hg hl _ =>
    obtain hhash | hsame := hg.dropWhile
    · exact .inr (.inl hhash)
    · obtain ⟨c, more, hs, hc⟩ := hl.lawful.starts
      have hblank := Lexeme.isBlank_of_starts hc
      refine .inr (.inr ⟨l, ls, rfl, ?_⟩)
      have hstay : (l.spelling ++ tail).dropWhile isBlank = l.spelling ++ tail := by
        rw [hs, List.cons_append, List.dropWhile_cons_of_neg (by simp [hblank])]
      rw [Text.trimLeft, hsame, hstay]
      exact hl

end Bahasa
