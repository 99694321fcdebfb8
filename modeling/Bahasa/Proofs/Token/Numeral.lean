import Bahasa.Decimal.Reading
import Bahasa.Proofs.Token.Lexeme

namespace Bahasa

/-- Digits with an optional fraction. -/
def IsNumeral (cs : List Char) : Prop :=
  ∃ whole fraction, cs = whole ++ fraction ∧ whole ≠ [] ∧ (∀ c ∈ whole, Text.isDigit c) ∧
    (fraction = [] ∨ ∃ places, fraction = '.' :: places ∧ ∀ c ∈ places, Text.isDigit c)

theorem Text.isDigit_iff (c : Char) : isDigit c = true ↔ 48 ≤ c.toNat ∧ c.toNat ≤ 57 := by
  simp only [isDigit, Bool.and_eq_true, decide_eq_true_eq, Char.le_def, UInt32.le_iff_toNat_le]
  rfl

namespace Lexeme

theorem readFraction_fst (cs : List Char) :
    (readFraction cs).1 = [] ∨
      ∃ places, (readFraction cs).1 = '.' :: places ∧ (∀ c ∈ places, Text.isDigit c) ∧
        places ≠ [] := by
  unfold readFraction
  split
  · next d rest =>
    split
    · next hd =>
      exact .inr ⟨_, rfl, fun c hc => List.all_eq_true.mp List.all_takeWhile c hc, by simp [hd]⟩
    · exact .inl rfl
  · exact .inl rfl

theorem readNumber_isNumeral {c : Char} (rest : List Char) (h : Text.isDigit c = true) :
    IsNumeral (readNumber (c :: rest)).1.body := by
  refine ⟨(c :: rest).takeWhile Text.isDigit, _, rfl, by simp [h],
    fun d hd => List.all_eq_true.mp List.all_takeWhile d hd, ?_⟩
  obtain hf | ⟨places, hf, hp, -⟩ := readFraction_fst ((c :: rest).dropWhile Text.isDigit)
  · exact .inl hf
  · exact .inr ⟨places, hf, hp⟩

theorem read_isNumeral {c : Char} {rest tail : List Char} {l : Lexeme}
    (h : read c rest = .ok (l, tail)) (hk : l.kind = .number) : IsNumeral l.body := by
  unfold read at h
  split at h
  · unfold readString at h
    split at h
    · cases h
    · cases h
      cases hk
  · split at h
    · next hd =>
      simp only [Except.ok.injEq] at h
      have hn := readNumber_isNumeral rest hd
      rwa [h] at hn
    · split at h
      · simp only [Except.ok.injEq, readWord, Prod.mk.injEq] at h
        rw [← h.1] at hk
        exact absurd hk (Kind.ofWord_fixed _).1
      · exact absurd hk (readOperator_heads h).2.1

end Lexeme

namespace Scan

theorem resume_isNumeral (done : List Token) (p : Position) (cs : List Char)
    (hd : ∀ t ∈ done, t.kind = .number → IsNumeral t.text.toList) :
    ∀ t ∈ (resume done p cs).tokens, t.kind = .number → IsNumeral t.text.toList := by
  fun_induction resume done p cs with
  | case1 done p =>
    intro t ht hk
    simp only [List.mem_reverse, List.mem_cons] at ht
    obtain rfl | ht := ht
    · cases hk
    · exact hd t ht hk
  | case2 done p c rest _ ih => exact ih hd
  | case3 done p rest _ ih => exact ih hd
  | case4 done p c rest _ _ flaw _ =>
    intro t ht hk
    exact hd t (List.mem_reverse.mp ht) hk
  | case5 done p c rest _ _ lexeme tail hl ih =>
    refine ih fun t ht hk => ?_
    obtain rfl | ht := List.mem_cons.mp ht
    · simpa using Lexeme.read_isNumeral hl hk
    · exact hd t ht hk

end Scan

theorem IsNumeral.char {cs : List Char} (h : IsNumeral cs) {c : Char} (hc : c ∈ cs) :
    Text.isDigit c = true ∨ c = '.' := by
  obtain ⟨whole, fraction, rfl, -, hw, hf⟩ := h
  obtain hc | hc := List.mem_append.mp hc
  · exact .inl (hw c hc)
  · obtain rfl | ⟨places, rfl, hp⟩ := hf
    · cases hc
    · obtain rfl | hc := List.mem_cons.mp hc
      · exact .inr rfl
      · exact .inl (hp c hc)

theorem IsNumeral.isDecimal {cs : List Char} (h : IsNumeral cs) : Decimal.isDecimal cs = true := by
  obtain ⟨whole, fraction, rfl, hne, hw, hf⟩ := h
  have hw : ∀ c ∈ whole, Text.isDigit c = true := hw
  obtain rfl | ⟨places, rfl, hp⟩ := hf
  · obtain ⟨ht, hd⟩ := span_append [] hw (by simp)
    simp only [Decimal.isDecimal, ht, hd]
    simpa using hne
  · obtain ⟨ht, hd⟩ := span_append ('.' :: places) hw (fun d hd => by cases hd; decide)
    have hall : places.all Text.isDigit = true := List.all_eq_true.mpr hp
    simp only [Decimal.isDecimal, ht, hd, hall]
    simp [hne]

namespace Decimal

theorem numeral_char {c : Char} (h : Text.isDigit c = true ∨ c = '.') :
    Text.isBlank c = false ∧ Text.latinDigit c = c ∧ c ≠ '_' ∧ c ≠ 'e' ∧ c ≠ 'E' ∧ c ≠ '+' ∧
      c ≠ '-' := by
  obtain h | rfl := h
  · have hd := (Text.isDigit_iff c).mp h
    refine ⟨?_, ?_, ?_, ?_, ?_, ?_, ?_⟩
    · simp only [Text.isBlank, Bool.or_eq_false_iff, Bool.and_eq_false_iff, beq_eq_false_iff_ne,
        decide_eq_false_iff_not]
      omega
    · have hlt : c.toNat < 0x80 := by omega
      simp [Text.latinDigit, hlt]
    all_goals
      rintro rfl
      revert hd
      decide
  · decide

theorem trim_eq_self {text : String} (h : ∀ c ∈ text.toList, Text.isBlank c = false) :
    Text.trim text = text := by
  have hdrop : ∀ cs : List Char, (∀ c ∈ cs, Text.isBlank c = false) →
      cs.dropWhile Text.isBlank = cs := by
    intro cs hcs
    cases cs with
    | nil => rfl
    | cons c cs => simp [hcs c (by simp)]
  have hleft := hdrop text.toList h
  have hright := hdrop text.toList.reverse (by simpa using h)
  simp only [Text.trim, Text.trimLeft, Text.trimRight, hleft, hright, List.reverse_reverse]
  exact String.ofList_toList

theorem readUnsigned?_isSome {cs : List Char} (h : IsNumeral cs) :
    (readUnsigned? false cs).isSome := by
  have he : ∀ c ∈ cs, (c != 'e' && c != 'E') = true := by
    intro c hc
    obtain ⟨-, -, -, he, hE, -⟩ := numeral_char (h.char hc)
    simp [he, hE]
  obtain ⟨ht, hd⟩ := span_append [] he (by simp)
  rw [List.append_nil] at ht hd
  simp only [readUnsigned?, ht, hd, h.isDecimal]
  rfl

theorem readTrimmed?_isSome {cs : List Char} (h : IsNumeral cs) : (readTrimmed? cs).isSome := by
  have hread : (readSigned? false cs).isSome := by
    simp [readSigned?, readUnsigned?_isSome h]
  unfold readTrimmed?
  split
  · exact absurd rfl (numeral_char (h.char (List.mem_cons_self ..))).2.2.2.2.2.1
  · exact absurd rfl (numeral_char (h.char (List.mem_cons_self ..))).2.2.2.2.2.2
  · exact hread

theorem read?_isSome {text : String} (h : IsNumeral text.toList) : (read? text).isSome := by
  have htrim : Text.trim text = text :=
    trim_eq_self fun c hc => (numeral_char (h.char hc)).1
  have hmap : text.toList.map Text.latinDigit = text.toList :=
    (List.map_congr_left fun c hc => (numeral_char (h.char hc)).2.1).trans (List.map_id _)
  have hbar : text.toList.contains '_' = false := by
    rw [List.contains_eq_mem, decide_eq_false_iff_not]
    exact fun hc => (numeral_char (h.char hc)).2.2.1 rfl
  simp only [read?, htrim, hmap, hbar]
  exact readTrimmed?_isSome h

end Decimal

end Bahasa
