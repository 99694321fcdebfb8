import Bahasa.Proofs.Token.Numeral

namespace Bahasa

namespace Kind

def keywords : List (String × Kind) :=
  [("tetapkan", letWord), ("konstan", constWord), ("fungsi", fnWord), ("jika", ifWord),
    ("lainnyajika", elifWord), ("lainnya", elseWord), ("untuk", forWord)]

def pairs : List ((Char × Char) × Kind) :=
  [(('=', '='), eq), (('!', '='), neq), (('<', '='), lte), (('>', '='), gte), (('&', '&'), and),
    (('|', '|'), or), (('+', '='), plusAssign), (('-', '='), minusAssign)]

def marks : List (Char × Kind) :=
  [('+', arith), ('-', arith), ('*', arith), ('/', arith), ('%', arith), ('<', lt), ('>', gt),
    ('=', assign), ('(', lparen), (')', rparen), ('{', lbrace), ('}', rbrace), ('[', lbracket),
    (']', rbracket), (',', comma), ('.', dot), (':', colon), (';', semicolon)]

theorem ofWord_keyword {word : String} {k : Kind} (h : (word, k) ∈ keywords) : ofWord word = k :=
  (by decide : ∀ x ∈ keywords, ofWord x.1 = x.2) _ h

theorem ofWord_cases (word : String) :
    (word, ofWord word) ∈ keywords ∨ ofWord word = ident ∧ ∀ k, (word, k) ∉ keywords := by
  unfold ofWord
  split
  all_goals try exact .inl (by decide)
  exact .inr ⟨rfl, by simp_all [keywords]⟩

theorem ofWord_ident {word : String} (h : ∀ k, (word, k) ∉ keywords) : ofWord word = ident :=
  (ofWord_cases word).elim (fun hin => absurd hin (h _)) And.left

theorem ofPair?_eq_some {a b : Char} {k : Kind} : ofPair? a b = some k ↔ ((a, b), k) ∈ pairs := by
  constructor
  · intro h
    unfold ofPair? at h
    split at h
    all_goals
      cases h
      try decide
  · exact (by decide : ∀ x ∈ pairs, ofPair? x.1.1 x.1.2 = some x.2) _

theorem ofChar?_eq_some {c : Char} {k : Kind} : ofChar? c = some k ↔ (c, k) ∈ marks := by
  constructor
  · intro h
    unfold ofChar? at h
    split at h
    all_goals
      cases h
      try decide
  · exact (by decide : ∀ x ∈ marks, ofChar? x.1 = some x.2) _

end Kind

namespace Lexeme

inductive Lawful : Lexeme → Prop
  | whole {digits : List Char} (hne : digits ≠ []) (hd : ∀ c ∈ digits, Text.isDigit c = true) :
    Lawful ⟨.number, digits⟩
  | fraction {digits places : List Char} (hne : digits ≠ [])
    (hd : ∀ c ∈ digits, Text.isDigit c = true)
    (hne' : places ≠ []) (hp : ∀ c ∈ places, Text.isDigit c = true) :
    Lawful ⟨.number, digits ++ '.' :: places⟩
  | keyword {word : List Char} {k : Kind} (hw : (String.ofList word, k) ∈ Kind.keywords) :
    Lawful ⟨k, word⟩
  | ident {c : Char} {word : List Char} (hc : isWordStart c = true)
    (hw : ∀ d ∈ word, isWordChar d = true)
    (hk : ∀ k, (String.ofList (c :: word), k) ∉ Kind.keywords) : Lawful ⟨.ident, c :: word⟩
  | string {body : List Char} (hb : '"' ∉ body) : Lawful ⟨.string, body⟩
  | pair {a b : Char} {k : Kind} (h : ((a, b), k) ∈ Kind.pairs) : Lawful ⟨k, [a, b]⟩
  | mark {c : Char} {k : Kind} (h : (c, k) ∈ Kind.marks) : Lawful ⟨k, [c]⟩

/-- A lexeme that starts a text and is the longest of those that do. -/
structure Longest (l : Lexeme) (cs : List Char) : Prop where
  lawful : l.Lawful
  heads : l.spelling <+: cs
  longest : ∀ other : Lexeme, other.Lawful → other.spelling <+: cs →
    other.spelling.length ≤ l.spelling.length

section Reading

variable {c : Char} {rest tail : List Char} {l : Lexeme}

theorem readString_lawful (h : readString rest = .ok (l, tail)) : l.Lawful := by
  obtain ⟨body, hb, -, rfl⟩ := readString_eq_ok.mp h
  exact .string hb

theorem readNumber_lawful (hc : Text.isDigit c = true) (rest : List Char) :
    (readNumber (c :: rest)).1.Lawful := by
  have hne : (c :: rest).takeWhile Text.isDigit ≠ [] := by simp [hc]
  have hd : ∀ d ∈ (c :: rest).takeWhile Text.isDigit, Text.isDigit d = true :=
    fun d hd => List.all_eq_true.mp List.all_takeWhile d hd
  obtain hf | ⟨places, hf, hp, hne'⟩ := readFraction_fst ((c :: rest).dropWhile Text.isDigit)
  · simp only [readNumber, hf, List.append_nil]
    exact .whole hne hd
  · simp only [readNumber, hf]
    exact .fraction hne hd hne' hp

theorem word_lawful {word : List Char} (hc : isWordStart c = true)
    (hw : ∀ d ∈ word, isWordChar d = true) :
    Lawful ⟨.ofWord (String.ofList (c :: word)), c :: word⟩ := by
  obtain hk | ⟨hk, hno⟩ := Kind.ofWord_cases (String.ofList (c :: word))
  · exact .keyword hk
  · rw [hk]
    exact .ident hc hw hno

theorem readWord_lawful (hc : isWordStart c = true) (rest : List Char) :
    (readWord (c :: rest)).1.Lawful := by
  have hw : isWordChar c = true := by simp [isWordChar, hc]
  simp only [readWord, List.takeWhile_cons, hw, if_true]
  exact word_lawful hc fun d hd => List.all_eq_true.mp List.all_takeWhile d hd

theorem readMark_lawful (h : readMark c rest = .ok (l, tail)) : l.Lawful := by
  unfold readMark at h
  split at h
  · next kind hk =>
    cases h
    exact .mark (Kind.ofChar?_eq_some.mp hk)
  · cases h

theorem readOperator_lawful (h : readOperator c rest = .ok (l, tail)) : l.Lawful := by
  unfold readOperator at h
  split at h
  · exact readMark_lawful h
  · split at h
    · next kind hk =>
      cases h
      exact .pair (Kind.ofPair?_eq_some.mp hk)
    · exact readMark_lawful h

theorem read_lawful (h : read c rest = .ok (l, tail)) : l.Lawful := by
  unfold read at h
  split at h
  · exact readString_lawful h
  · split at h
    · next hd =>
      have hn := readNumber_lawful hd rest
      rwa [Except.ok.inj h] at hn
    · split at h
      · next hw =>
        have hn := readWord_lawful hw rest
        rwa [Except.ok.inj h] at hn
      · exact readOperator_lawful h

theorem read_unterminated {flaw : Flaw} (h : read c rest = .error flaw) :
    flaw = .unterminated ↔ c = '"' := by
  have hmark : ∀ {more}, readMark c more = .error flaw → flaw ≠ .unterminated := by
    intro more hm
    unfold readMark at hm
    split at hm
    · cases hm
    · cases hm
      simp
  unfold read at h
  split at h
  · next hc =>
    unfold readString at h
    split at h
    · cases h
      simp [hc]
    · cases h
  · next hc =>
    refine iff_of_false ?_ hc
    split at h
    · cases h
    · split at h
      · cases h
      · unfold readOperator at h
        split at h
        · exact hmark h
        · split at h
          · cases h
          · exact hmark h

/-- A character is not recognized where it starts nothing that is read, alone or with the next. -/
theorem read_eq_unrecognized {d : Char} : read c rest = .error (.unrecognized d) ↔
    d = c ∧ c ≠ '"' ∧ Text.isDigit c = false ∧ isWordStart c = false ∧ Kind.ofChar? c = none ∧
      ∀ e ∈ rest.head?, Kind.ofPair? c e = none := by
  have hmark : ∀ more, readMark c more = .error (.unrecognized d) ↔
      d = c ∧ Kind.ofChar? c = none := by
    intro more
    unfold readMark
    cases Kind.ofChar? c <;> simp [eq_comm]
  have hoperator : readOperator c rest = .error (.unrecognized d) ↔
      (d = c ∧ Kind.ofChar? c = none) ∧ ∀ e ∈ rest.head?, Kind.ofPair? c e = none := by
    unfold readOperator
    cases rest with
    | nil => simp [hmark]
    | cons e more => cases hk : Kind.ofPair? c e <;> simp [hmark, hk]
  have hstring : readString rest ≠ .error (.unrecognized d) := by
    unfold readString
    split <;> simp
  unfold read
  split
  · next hc => simp [hstring, hc]
  · split
    · next hd => simp [hd]
    · split
      · next hw => simp [hw]
      · simp_all [and_assoc]

end Reading

section Longest

variable {c : Char} {rest tail : List Char} {l : Lexeme}

theorem heads_takeWhile {p : Char → Bool} {run cs : List Char} (hrun : ∀ c ∈ run, p c = true)
    (h : run <+: cs) : run <+: cs.takeWhile p := by
  obtain ⟨tail, rfl⟩ := h
  rw [List.takeWhile_append_of_pos hrun]
  exact List.prefix_append ..

theorem isDigit_of_isWordStart (h : isWordStart c = true) : Text.isDigit c = false := by
  rw [← Bool.not_eq_true, Text.isDigit_iff]
  simp only [isWordStart, Bool.or_eq_true, Bool.and_eq_true, decide_eq_true_eq, beq_iff_eq,
    Char.le_def, UInt32.le_iff_toNat_le] at h
  have hz : c.val.toNat = c.toNat := rfl
  obtain (h | h) | rfl := h
  · have h₁ : 97 ≤ c.val.toNat := h.1
    omega
  · have h₁ : 65 ≤ c.val.toNat := h.1
    omega
  · decide

/-- Reading finds the lexeme `l` at the head of a text or a longer one. -/
def Outreads (c : Char) (rest : List Char) (l : Lexeme) : Prop :=
  ∃ found tail, read c rest = .ok (found, tail) ∧
    (found = l ∨ l.spelling.length < found.spelling.length)

theorem eq_or_length_lt {s t : List Char} (h : s <+: t) : t = s ∨ s.length < t.length := by
  obtain heq | hlt := Nat.eq_or_lt_of_le h.length_le
  · exact .inl (h.eq_of_length heq).symm
  · exact .inr hlt

theorem readNumber_whole {digits : List Char} (hd : ∀ c ∈ digits, Text.isDigit c = true)
    (h : digits <+: c :: rest) : digits <+: (readNumber (c :: rest)).1.body :=
  (heads_takeWhile hd h).trans (List.prefix_append ..)

theorem readFraction_point {d : Char} (hd : Text.isDigit d = true) (rest : List Char) :
    readFraction ('.' :: d :: rest) =
      ('.' :: (d :: rest).takeWhile Text.isDigit, (d :: rest).dropWhile Text.isDigit) := by
  simp only [readFraction, hd, if_true]

theorem readNumber_fraction {digits places : List Char} (hd : ∀ c ∈ digits, Text.isDigit c = true)
    (hne : places ≠ []) (hp : ∀ c ∈ places, Text.isDigit c = true)
    (h : digits ++ '.' :: places <+: c :: rest) :
    digits ++ '.' :: places <+: (readNumber (c :: rest)).1.body := by
  obtain ⟨tail, ht⟩ := h
  obtain ⟨d, more, rfl⟩ := List.exists_cons_of_ne_nil hne
  rw [List.append_assoc] at ht
  obtain ⟨htake, hdrop⟩ := span_append ('.' :: d :: more ++ tail) hd (by simp [Text.isDigit])
  have hread := readFraction_point (hp d (List.mem_cons_self ..)) (more ++ tail)
  have hplaces : d :: more <+: (d :: (more ++ tail)).takeWhile Text.isDigit :=
    heads_takeWhile hp (List.prefix_append (d :: more) tail)
  simp only [readNumber, ← ht, htake, hdrop]
  rw [List.cons_append, List.cons_append, hread]
  exact (List.prefix_append_right_inj _).mpr ((List.prefix_cons_inj _).mpr hplaces)

theorem read_of_isDigit (hc : Text.isDigit c = true) :
    read c rest = .ok (readNumber (c :: rest)) := by
  have hq : ¬ c = '"' := by
    rintro rfl
    cases hc
  rw [read, if_neg hq, if_pos hc]

theorem read_of_isWordStart (hc : isWordStart c = true) :
    read c rest = .ok (readWord (c :: rest)) := by
  have hq : ¬ c = '"' := by
    rintro rfl
    cases hc
  rw [read, if_neg hq, if_neg (by simp [isDigit_of_isWordStart hc]), if_pos hc]

theorem outreads_number {body : List Char} (hc : Text.isDigit c = true)
    (h : body <+: (readNumber (c :: rest)).1.body) : Outreads c rest ⟨.number, body⟩ := by
  refine ⟨(readNumber (c :: rest)).1, (readNumber (c :: rest)).2, read_of_isDigit hc, ?_⟩
  exact (eq_or_length_lt h).imp (congrArg (Lexeme.mk .number)) id

theorem outreads_word {word : List Char} (hc : isWordStart c = true)
    (hw : ∀ d ∈ c :: word, isWordChar d = true) (h : c :: word <+: c :: rest) :
    Outreads c rest ⟨.ofWord (String.ofList (c :: word)), c :: word⟩ := by
  refine ⟨(readWord (c :: rest)).1, (readWord (c :: rest)).2, read_of_isWordStart hc, ?_⟩
  have hlong := eq_or_length_lt (heads_takeWhile hw h)
  rw [spelling_of_fixed (Kind.ofWord_fixed _), spelling_of_fixed (Kind.ofWord_fixed _)]
  exact hlong.imp (congrArg fun cs => Lexeme.mk (.ofWord (String.ofList cs)) cs) id

theorem read_operator (hq : c ≠ '"') (hd : Text.isDigit c = false) (hw : isWordStart c = false) :
    read c rest = readOperator c rest := by
  simp [read, hq, hd, hw]

theorem spelling_pair {a b : Char} {k : Kind} (h : ((a, b), k) ∈ Kind.pairs) :
    (Lexeme.mk k [a, b]).spelling = [a, b] :=
  spelling_of_fixed (Kind.ofPair?_fixed (Kind.ofPair?_eq_some.mpr h))

theorem spelling_mark {k : Kind} (h : (c, k) ∈ Kind.marks) :
    (Lexeme.mk k [c]).spelling = [c] :=
  spelling_of_fixed (Kind.ofChar?_fixed (Kind.ofChar?_eq_some.mpr h))

theorem read_pair {d : Char} {k : Kind} (h : ((c, d), k) ∈ Kind.pairs) (more : List Char) :
    read c (d :: more) = .ok (⟨k, [c, d]⟩, more) := by
  have hstart : ∀ x ∈ Kind.pairs,
      x.1.1 ≠ '"' ∧ Text.isDigit x.1.1 = false ∧ isWordStart x.1.1 = false := by decide
  obtain ⟨hq, hd, hw⟩ := hstart _ h
  rw [read_operator hq hd hw, readOperator, Kind.ofPair?_eq_some.mpr h]

theorem read_mark {k : Kind} (h : (c, k) ∈ Kind.marks)
    (hp : ∀ d ∈ rest.head?, Kind.ofPair? c d = none) : read c rest = .ok (⟨k, [c]⟩, rest) := by
  have hstart : ∀ x ∈ Kind.marks,
      x.1 ≠ '"' ∧ Text.isDigit x.1 = false ∧ isWordStart x.1 = false := by
    decide
  obtain ⟨hq, hd, hw⟩ := hstart _ h
  have hmark : readMark c rest = .ok (⟨k, [c]⟩, rest) := by
    rw [readMark, Kind.ofChar?_eq_some.mpr h]
  rw [read_operator hq hd hw]
  cases rest with
  | nil => exact hmark
  | cons d more => rw [readOperator, hp d rfl, hmark]

theorem outreads_pair {d : Char} {k : Kind} (h : ((c, d), k) ∈ Kind.pairs) (more : List Char) :
    Outreads c (d :: more) ⟨k, [c, d]⟩ :=
  ⟨_, more, read_pair h more, .inl rfl⟩

theorem outreads_mark {k : Kind} (h : (c, k) ∈ Kind.marks) (rest : List Char) :
    Outreads c rest ⟨k, [c]⟩ := by
  cases rest with
  | nil => exact ⟨_, _, read_mark h (by simp), .inl rfl⟩
  | cons d more =>
    cases hk : Kind.ofPair? c d with
    | none => exact ⟨_, _, read_mark h (by simp [hk]), .inl rfl⟩
    | some kind =>
      have hpair := Kind.ofPair?_eq_some.mp hk
      refine ⟨_, _, read_pair hpair more, .inr ?_⟩
      simp [spelling_mark h, spelling_pair hpair]

theorem read_string {body : List Char} (hb : '"' ∉ body) (tail : List Char) :
    read '"' (body ++ '"' :: tail) = .ok (⟨.string, body⟩, tail) := by
  rw [read, if_pos rfl]
  exact readString_eq_ok.mpr ⟨body, hb, rfl, rfl⟩

theorem outreads_string {body : List Char} (hb : '"' ∉ body)
    (h : (Lexeme.mk .string body).spelling <+: c :: rest) : Outreads c rest ⟨.string, body⟩ := by
  obtain ⟨tail, ht⟩ := h
  obtain ⟨rfl, rfl⟩ : '"' = c ∧ body ++ '"' :: tail = rest := by simpa [spelling] using ht
  exact ⟨⟨.string, body⟩, tail, read_string hb tail, .inl rfl⟩

theorem isWordChar_cons {word : List Char} (hc : isWordStart c = true)
    (hw : ∀ d ∈ word, isWordChar d = true) : ∀ d ∈ c :: word, isWordChar d = true := by
  intro d hd
  obtain rfl | hd := List.mem_cons.mp hd
  · simp [isWordChar, hc]
  · exact hw d hd

theorem keyword_word {word : List Char} {k : Kind} (h : (String.ofList word, k) ∈ Kind.keywords) :
    ∃ c more, word = c :: more ∧ isWordStart c = true ∧ ∀ d ∈ c :: more, isWordChar d = true := by
  have hall : ∀ x ∈ Kind.keywords,
      (x.1.toList.head?.any isWordStart && x.1.toList.all isWordChar) = true := by decide
  have hword := hall _ h
  rw [String.toList_ofList, Bool.and_eq_true, List.all_eq_true] at hword
  cases word with
  | nil => simp at hword
  | cons c more => exact ⟨c, more, rfl, by simpa using hword.1, hword.2⟩

theorem Lawful.outreads (hl : l.Lawful) (h : l.spelling <+: c :: rest) : Outreads c rest l := by
  cases hl with
  | @whole digits hne hd =>
    obtain ⟨d, more, rfl⟩ := List.exists_cons_of_ne_nil hne
    obtain ⟨rfl, -⟩ := List.cons_prefix_cons.mp h
    exact outreads_number (hd d (List.mem_cons_self ..)) (readNumber_whole hd h)
  | @fraction digits places hne hd hne' hp =>
    obtain ⟨d, more, rfl⟩ := List.exists_cons_of_ne_nil hne
    obtain ⟨rfl, -⟩ := List.cons_prefix_cons.mp h
    exact outreads_number (hd d (List.mem_cons_self ..)) (readNumber_fraction hd hne' hp h)
  | @keyword word k hw =>
    obtain ⟨d, more, rfl, hd, hmore⟩ := keyword_word hw
    obtain rfl := Kind.ofWord_keyword hw
    rw [spelling_of_fixed (Kind.ofWord_fixed _)] at h
    obtain ⟨rfl, -⟩ := List.cons_prefix_cons.mp h
    exact outreads_word hd hmore h
  | @ident d word hd hw hk =>
    obtain ⟨rfl, -⟩ := List.cons_prefix_cons.mp h
    rw [← Kind.ofWord_ident hk]
    exact outreads_word hd (isWordChar_cons hd hw) h
  | string hb => exact outreads_string hb h
  | @pair a b k hk =>
    rw [spelling_pair hk] at h
    obtain ⟨more, hm⟩ := h
    cases hm
    exact outreads_pair hk more
  | @mark a k hk =>
    rw [spelling_mark hk] at h
    obtain ⟨rfl, -⟩ := List.cons_prefix_cons.mp h
    exact outreads_mark hk rest

/-- What is read is the longest lexeme at the head of the text. -/
theorem read_eq_ok : read c rest = .ok (l, tail) ↔
    l.Longest (c :: rest) ∧ l.spelling ++ tail = c :: rest := by
  constructor
  · intro h
    have hw := (read_heads h).whole
    refine ⟨⟨read_lawful h, ⟨tail, hw⟩, ?_⟩, hw⟩
    intro other ho hp
    obtain ⟨found, left, hf, hout⟩ := ho.outreads hp
    obtain ⟨rfl, rfl⟩ : l = found ∧ tail = left := by simpa [h] using hf
    obtain rfl | hlt := hout
    · exact Nat.le_refl _
    · exact Nat.le_of_lt hlt
  · rintro ⟨hl, hw⟩
    obtain ⟨found, left, hf, rfl | hlt⟩ := hl.lawful.outreads hl.heads
    · have hleft := (read_heads hf).whole.trans hw.symm
      rw [hf, List.append_cancel_left hleft]
    · have hle := hl.longest found (read_lawful hf) ⟨left, (read_heads hf).whole⟩
      omega

theorem read_eq_error {flaw : Flaw} (h : read c rest = .error flaw) :
    ∀ l : Lexeme, l.Lawful → ¬ l.spelling <+: c :: rest := by
  intro l hl hp
  obtain ⟨found, left, hf, -⟩ := hl.outreads hp
  rw [h] at hf
  cases hf

end Longest

end Lexeme

end Bahasa
