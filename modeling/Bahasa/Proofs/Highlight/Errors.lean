import Bahasa.Proofs.Highlight.Fragments
import Bahasa.Proofs.Token.Continuation
import Bahasa.Proofs.Token.Leading

namespace Bahasa

theorem Gap.blanks_of_line {gap rest : List Char} (h : Gap gap rest) (hr : rest ≠ [])
    (hn : '\n' ∉ gap ++ rest) : ∀ c ∈ gap, c ∈ blanks := by
  induction h with
  | none => exact nofun
  | blank hc h ih =>
    refine List.forall_mem_cons.mpr ⟨hc, ih hr fun hm => hn ?_⟩
    exact List.mem_cons_of_mem _ hm
  | @comment body gap rest hb he h ih =>
    have hne : gap ++ rest ≠ [] := by simp [hr]
    obtain ⟨c, more, hc⟩ := List.exists_cons_of_ne_nil hne
    obtain rfl : c = '\n' := he c (by simp [hc])
    rw [List.append_assoc, hc] at hn
    exact absurd (by simp) hn

theorem Scan.solid_of_unrecognized {done : List Token} {p q : Position} {cs : List Char} {c : Char}
    (h : (resume done p cs).error? = some ⟨.unrecognized c, q⟩) :
    ¬ isSpacing c = true ∧ c ≠ '#' := by
  fun_induction resume done p cs with
  | case1 done p => cases h
  | case2 done p d rest hd ih => exact ih h
  | case3 done p rest _ ih => exact ih h
  | case4 done p d rest hd hd' flaw hl =>
    obtain ⟨rfl, -⟩ : flaw = .unrecognized c ∧ p = q := by simpa using h
    obtain ⟨rfl, -⟩ := Lexeme.read_eq_unrecognized.mp hl
    exact ⟨hd, hd'⟩
  | case5 done p d rest hd hd' l tail hl ih => exact ih h

namespace Highlight

open Text (trimLeft isBlank)

theorem trimLeft_append {gap : List Char} (rest : List Char) (h : ∀ c ∈ gap, c ∈ blanks) :
    trimLeft (gap ++ rest) = trimLeft rest :=
  List.dropWhile_append_of_pos fun c hc => isBlank_of_mem_blanks (h c hc)

/-- A line is marked for what follows its last token, and that is up to the scan's end. -/
theorem line_error {text : String} (hn : '\n' ∉ text.toList) :
    ∃ ts gap rest shown, text.toList = shown ++ (gap ++ rest) ∧ Gap gap rest ∧
      Scan.Stops text.toList [] ts rest (Scan.ofSource text) ∧
      ((∃ f ∈ line text, f.style = Group.error.style) ↔
        ∃ c ∈ (trimLeft (gap ++ rest)).head?, c ≠ '#') := by
  obtain ⟨ts, rest, hl, hspans, hs⟩ := exists_laid text
  obtain ⟨pieces, shown, gap, hgap, htext, -, hplain, heq⟩ := fragments_laid hl hn
  refine ⟨ts, gap, rest, shown, htext, hgap, hs, ?_⟩
  have heq : fragments text.toList 0 (spans text) = pieces ++ tail (gap ++ rest) := hspans ▸ heq
  rw [← tail_error]
  obtain hline | ⟨hnil, hline⟩ := line_eq text
  · rw [hline, heq]
    constructor
    · rintro ⟨f, hf, hstyle⟩
      exact ⟨f, (List.mem_append.mp hf).resolve_left fun hp => hplain f hp hstyle, hstyle⟩
    · rintro ⟨f, hf, hstyle⟩
      exact ⟨f, List.mem_append_right pieces hf, hstyle⟩
  · obtain ⟨-, htail⟩ := List.append_eq_nil_iff.mp (heq.symm.trans hnil)
    rw [hline, htail]
    refine iff_of_false ?_ (by simp)
    rintro ⟨f, hf, hstyle⟩
    obtain rfl := List.mem_singleton.mp hf
    exact (by decide : "" ≠ Group.error.style) hstyle

theorem flaw_stands {text : String} {ts : List Token} {c : Char} {after : List Char}
    (hs : Scan.Stops text.toList [] ts (c :: after) (Scan.ofSource text))
    (hn : '\n' ∉ text.toList) :
    ∃ e, tokenize text = .error e ∧ text.toList.drop (e.position.column - 1).toNat = c :: after ∧
      (c = '"' ∨ ¬ isSpacing c = true ∧ c ≠ '#') := by
  obtain ⟨read, flaw, hread, hscan, hflaw⟩ := hs.broken c after rfl
  have he := tokenize_eq_error.mpr (congrArg Scan.error? hscan)
  have hline : '\n' ∉ read := fun hm => hn (hread ▸ List.mem_append_left _ hm)
  refine ⟨_, he, by rw [Position.offset_behind hline, hread, List.drop_left], ?_⟩
  obtain ⟨-, hquote⟩ | rfl := hflaw
  · exact .inl hquote
  · exact .inr (Scan.solid_of_unrecognized (tokenize_eq_error.mp he))

theorem line_marks {text : String} (hn : '\n' ∉ text.toList) :
    (∃ tokens, tokenize text = .ok tokens ∧ ¬ ∃ f ∈ line text, f.style = Group.error.style) ∨
    ∃ e c after, tokenize text = .error e ∧
      text.toList.drop (e.position.column - 1).toNat = c :: after ∧
      (c = '"' ∨ ¬ isSpacing c = true ∧ c ≠ '#') ∧
      ((∃ f ∈ line text, f.style = Group.error.style) ↔
        ∃ d ∈ (trimLeft (c :: after)).head?, d ≠ '#') := by
  obtain ⟨ts, gap, rest, shown, htext, hgap, hs, hmarks⟩ := line_error hn
  rw [hmarks]
  cases hr : rest with
  | nil =>
    have hscan := hs.finished hr
    have hok := tokenize_eq_ok.mpr ⟨congrArg Scan.error? hscan, congrArg Scan.tokens hscan⟩
    refine .inl ⟨_, hok, ?_⟩
    rintro ⟨c, hc, hne⟩
    obtain hhash | hnone := (hr ▸ hgap : Gap gap []).dropWhile
    · rw [trimLeft, hhash] at hc
      exact hne (Option.some.inj hc).symm
    · rw [trimLeft, hnone] at hc
      cases hc
  | cons c after =>
    subst hr
    obtain ⟨e, he, hdrop, hsolid⟩ := flaw_stands hs hn
    have hgapline : '\n' ∉ gap ++ c :: after :=
      fun hm => hn (htext ▸ List.mem_append_right shown hm)
    have hblanks := hgap.blanks_of_line (List.cons_ne_nil c after) hgapline
    exact .inr ⟨e, c, after, he, hdrop, hsolid, by rw [trimLeft_append _ hblanks]⟩

/-- A line is marked as an error if and only if it cannot be scanned and what stands from the flaw
on is, behind white space of any kind, neither nothing nor a comment. On lines without white space
that separates no lexemes, that is all lines that cannot be scanned. -/
theorem error_marks (text : String) (hn : '\n' ∉ text.toList) :
    ((∃ f ∈ line text, f.style = Group.error.style) ↔
      ∃ e, tokenize text = .error e ∧
        ∃ c ∈ (trimLeft (text.toList.drop (e.position.column - 1).toNat)).head?, c ≠ '#') ∧
    ((∀ c ∈ text.toList, isBlank c = true → isSpacing c = true) →
      ((∃ f ∈ line text, f.style = Group.error.style) ↔ ∃ e, tokenize text = .error e)) := by
  obtain ⟨tokens, hok, hplain⟩ | ⟨e, c, after, he, hdrop, hsolid, hmarks⟩ := line_marks hn
  · have hnone : ¬ ∃ e, tokenize text = .error e := by
      rintro ⟨e, he⟩
      cases hok.symm.trans he
    exact ⟨iff_of_false hplain fun ⟨e, he, _⟩ => hnone ⟨e, he⟩, fun _ => iff_of_false hplain hnone⟩
  · refine ⟨⟨fun h => ⟨e, he, hdrop ▸ hmarks.mp h⟩, ?_⟩, fun hblank => iff_of_true ?_ ⟨e, he⟩⟩
    · rintro ⟨e', he', h⟩
      obtain rfl := Except.error.inj (he.symm.trans he')
      exact hmarks.mpr (hdrop ▸ h)
    · have hc : c ∈ text.toList := List.mem_of_mem_drop (hdrop ▸ List.mem_cons_self ..)
      have hvisible : isBlank c = false ∧ c ≠ '#' := by
        obtain rfl | ⟨hspacing, hhash⟩ := hsolid
        · decide
        · exact ⟨Bool.eq_false_iff.mpr fun hb => hspacing (hblank c hc hb), hhash⟩
      refine hmarks.mpr ⟨c, ?_, hvisible.2⟩
      rw [trimLeft, List.dropWhile_cons_of_neg (by simp [hvisible.1])]
      rfl

theorem error_marks_blanks :
    '\n' ∉ "x \u00a0# c".toList ∧ '\n' ∉ "x \u00a0y".toList ∧
      (¬ ∃ f ∈ line "x \u00a0# c", f.style = Group.error.style) ∧
      ∃ f ∈ line "x \u00a0y", f.style = Group.error.style := by
  -- a blank that separates no lexemes stops both scans, but only what is no comment is marked
  have h₁ : tokenize "x \u00a0# c" = .error ⟨.unrecognized '\u00a0', ⟨1, 3⟩⟩ := by cbv
  have h₂ : tokenize "x \u00a0y" = .error ⟨.unrecognized '\u00a0', ⟨1, 3⟩⟩ := by cbv
  refine ⟨by decide, by decide, fun h => ?_, ?_⟩
  · obtain ⟨e, he, c, hc, hne⟩ := (error_marks _ (by decide)).1.mp h
    obtain rfl := Except.error.inj (h₁.symm.trans he)
    exact hne (Option.some.inj hc).symm
  · exact (error_marks _ (by decide)).1.mpr ⟨_, h₂, 'y', rfl, by decide⟩

theorem blank_unmarked :
    ¬ ∀ text : String, '\n' ∉ text.toList →
      ((∃ f ∈ line text, f.style = Group.error.style) ↔ ∃ e, tokenize text = .error e) := by
  -- a line of one blank that separates no lexemes cannot be scanned and is not marked
  intro h
  have hflaw : tokenize "\u3000" = .error ⟨.unrecognized '\u3000', ⟨1, 1⟩⟩ := by cbv
  have hline : line "\u3000" = [⟨"", "\u3000"⟩] := by cbv
  obtain ⟨f, hf, hs⟩ := (h "\u3000" (by decide)).mpr ⟨_, hflaw⟩
  rw [hline] at hf
  obtain rfl := List.mem_singleton.mp hf
  exact absurd hs (by decide)

end Highlight

end Bahasa
