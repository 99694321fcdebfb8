import Bahasa.Text.Digit
import Bahasa.Token.Kind

namespace Bahasa

structure Lexeme where
  kind : Kind
  body : List Char
  deriving DecidableEq, Repr

inductive Flaw
  | unterminated
  | unrecognized (c : Char)
  deriving DecidableEq, Repr

namespace Lexeme

def spelling (l : Lexeme) : List Char :=
  if l.kind = .string then '"' :: l.body ++ ['"'] else l.body

def isWordStart (c : Char) : Bool :=
  ('a' ≤ c && c ≤ 'z') || ('A' ≤ c && c ≤ 'Z') || c == '_'

def isWordChar (c : Char) : Bool :=
  isWordStart c || Text.isDigit c

def readString (cs : List Char) : Except Flaw (Lexeme × List Char) :=
  match cs.dropWhile (· ≠ '"') with
  | [] => .error .unterminated
  | _ :: rest => .ok (⟨.string, cs.takeWhile (· ≠ '"')⟩, rest)

/-- The fraction after the whole part of a number: a point counts only before a digit. -/
def readFraction (cs : List Char) : List Char × List Char :=
  match cs with
  | '.' :: d :: rest =>
    if Text.isDigit d then
      ('.' :: (d :: rest).takeWhile Text.isDigit, (d :: rest).dropWhile Text.isDigit)
    else ([], cs)
  | _ => ([], cs)

def readNumber (cs : List Char) : Lexeme × List Char :=
  let fraction := readFraction (cs.dropWhile Text.isDigit)
  (⟨.number, cs.takeWhile Text.isDigit ++ fraction.1⟩, fraction.2)

def readWord (cs : List Char) : Lexeme × List Char :=
  let word := cs.takeWhile isWordChar
  (⟨.ofWord (String.ofList word), word⟩, cs.dropWhile isWordChar)

def readMark (c : Char) (rest : List Char) : Except Flaw (Lexeme × List Char) :=
  match Kind.ofChar? c with
  | some kind => .ok (⟨kind, [c]⟩, rest)
  | none => .error (.unrecognized c)

def readOperator (c : Char) (rest : List Char) : Except Flaw (Lexeme × List Char) :=
  match rest with
  | [] => readMark c rest
  | d :: more =>
    match Kind.ofPair? c d with
    | some kind => .ok (⟨kind, [c, d]⟩, more)
    | none => readMark c rest

def read (c : Char) (rest : List Char) : Except Flaw (Lexeme × List Char) :=
  if c = '"' then readString rest
  else if Text.isDigit c then .ok (readNumber (c :: rest))
  else if isWordStart c then .ok (readWord (c :: rest))
  else readOperator c rest

theorem readString_length {cs rest : List Char} {l : Lexeme} (h : readString cs = .ok (l, rest)) :
    rest.length < cs.length := by
  unfold readString at h
  split at h
  · simp at h
  · next q tail hd =>
    simp only [Except.ok.injEq, Prod.mk.injEq] at h
    have hl := (List.dropWhile_suffix (l := cs) (· ≠ '"')).length_le
    rw [hd, List.length_cons, h.2] at hl
    exact hl

theorem readFraction_length (cs : List Char) : (readFraction cs).2.length ≤ cs.length := by
  unfold readFraction
  split
  · next d rest =>
    split
    · have hl := (List.dropWhile_suffix (l := d :: rest) Text.isDigit).length_le
      simp only [List.length_cons] at hl ⊢
      omega
    · simp
  · simp

theorem readNumber_length {c : Char} (rest : List Char) (h : Text.isDigit c = true) :
    (readNumber (c :: rest)).2.length < (c :: rest).length := by
  have hd : (c :: rest).dropWhile Text.isDigit = rest.dropWhile Text.isDigit := by simp [h]
  have hf := readFraction_length (rest.dropWhile Text.isDigit)
  have hl := (List.dropWhile_suffix (l := rest) Text.isDigit).length_le
  simp only [readNumber, hd, List.length_cons]
  omega

theorem readWord_length {c : Char} (rest : List Char) (h : isWordStart c = true) :
    (readWord (c :: rest)).2.length < (c :: rest).length := by
  have hw : isWordChar c = true := by simp [isWordChar, h]
  have hd : (c :: rest).dropWhile isWordChar = rest.dropWhile isWordChar := by simp [hw]
  have hl := (List.dropWhile_suffix (l := rest) isWordChar).length_le
  simp only [readWord, hd, List.length_cons]
  omega

theorem readMark_rest {c : Char} {rest tail : List Char} {l : Lexeme}
    (h : readMark c rest = .ok (l, tail)) : tail = rest := by
  unfold readMark at h
  split at h
  · simp only [Except.ok.injEq, Prod.mk.injEq] at h
    exact h.2.symm
  · simp at h

theorem readOperator_length {c : Char} {rest tail : List Char} {l : Lexeme}
    (h : readOperator c rest = .ok (l, tail)) : tail.length ≤ rest.length := by
  unfold readOperator at h
  split at h
  · exact Nat.le_of_eq (congrArg List.length (readMark_rest h))
  · split at h
    · simp only [Except.ok.injEq, Prod.mk.injEq] at h
      simp [← h.2]
    · exact Nat.le_of_eq (congrArg List.length (readMark_rest h))

theorem read_length {c : Char} {rest tail : List Char} {l : Lexeme}
    (h : read c rest = .ok (l, tail)) : tail.length ≤ rest.length := by
  unfold read at h
  split at h
  · exact Nat.le_of_lt (readString_length h)
  · split at h
    · next hd =>
      simp only [Except.ok.injEq] at h
      have hn := readNumber_length rest hd
      rw [h] at hn
      exact Nat.le_of_lt_succ hn
    · split at h
      · next hw =>
        simp only [Except.ok.injEq] at h
        have hn := readWord_length rest hw
        rw [h] at hn
        exact Nat.le_of_lt_succ hn
      · exact readOperator_length h

end Lexeme

end Bahasa
