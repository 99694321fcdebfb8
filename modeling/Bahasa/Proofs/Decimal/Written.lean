import Bahasa.Decimal.Writing
import Bahasa.Proofs.Token.Language

namespace Bahasa.Decimal

section Shortest

variable {m : Magnitude}

theorem pow_scale_le_units (hm : m.significand ≠ 0) : Nat.pow 2 m.scale ≤ m.units :=
  Nat.le_mul_of_pos_left _ (Nat.pos_of_ne_zero hm)

theorem units_pos (hm : m.significand ≠ 0) : 0 < m.units :=
  Nat.lt_of_lt_of_le (Nat.pow_pos (by decide)) (pow_scale_le_units hm)

theorem bounds_fst_pos (hm : m.significand ≠ 0) : 0 < m.bounds.1 := by
  have hle := pow_scale_le_units hm
  have hpos := units_pos hm
  simp only [Magnitude.bounds]
  split <;> omega

theorem ofExponent_up_pos (exponent : Int) : 0 < (Grid.ofExponent exponent).up := by
  cases exponent with
  | ofNat e => exact Nat.one_pos
  | negSucc e => exact Nat.pow_pos (by decide)

theorem roundsTo_zero {g : Grid} (hg : 0 < g.up) (hm : m.significand ≠ 0) :
    g.roundsTo m 0 = false := by
  have hlow : 0 < m.bounds.1 * g.up := Nat.mul_pos (bounds_fst_pos hm) hg
  simp only [Grid.roundsTo]
  split
  · simp only [Nat.mul_zero, Nat.zero_mul, Bool.and_eq_false_iff, decide_eq_false_iff_not]
    omega
  · simp only [Nat.mul_zero, Nat.zero_mul, Bool.and_eq_false_iff, decide_eq_false_iff_not]
    omega

theorem hit?_roundsTo {g : Grid} {c : Nat} (h : g.hit? m = some c) : g.roundsTo m c = true := by
  simp only [Grid.hit?] at h
  generalize roundQuotient (m.units * g.up) g.down = nearest at h
  generalize (if nearest = _ then _ else _) = other at h
  by_cases hn : g.roundsTo m nearest = true
  · rw [if_pos hn] at h
    exact Option.some.inj h ▸ hn
  · rw [if_neg hn] at h
    by_cases ho : g.roundsTo m other = true
    · rw [if_pos ho] at h
      exact Option.some.inj h ▸ ho
    · rw [if_neg ho] at h
      cases h

theorem hit?_ne_zero {g : Grid} {c : Nat} (hg : 0 < g.up) (hm : m.significand ≠ 0)
    (h : g.hit? m = some c) : c ≠ 0 := by
  rintro rfl
  have hround := hit?_roundsTo h
  rw [roundsTo_zero hg hm] at hround
  cases hround

theorem shortestFrom_digits (hm : m.significand ≠ 0) (top : Int) (fuel : Nat) :
    (shortestFrom m top fuel).digits ≠ 0 := by
  induction fuel with
  | zero => exact Nat.ne_of_gt (units_pos hm)
  | succ fuel ih =>
    rw [shortestFrom]
    split
    · next c hc => exact hit?_ne_zero (ofExponent_up_pos _) hm hc
    · exact ih

end Shortest

section Digits

theorem toDigits_isDigit (n : Nat) : ∀ c ∈ Nat.toDigits 10 n, Text.isDigit c = true := by
  intro c hc
  have h := Nat.isDigit_of_mem_toDigits (by decide) (by decide) hc
  simpa [Char.isDigit, Text.isDigit, Char.le_def] using h

theorem zeros_isDigit (n : Nat) : ∀ c ∈ zeros n, Text.isDigit c = true := by
  intro c hc
  rw [List.eq_of_mem_replicate hc]
  decide

theorem dropTrailingZeros_isDigit {cs : List Char} (h : ∀ c ∈ cs, Text.isDigit c = true) :
    ∀ c ∈ dropTrailingZeros cs, Text.isDigit c = true := by
  intro c hc
  have hsub := (List.dropWhile_suffix (l := cs.reverse) (· == '0')).subset
  exact h c (List.mem_reverse.mp (hsub (List.mem_reverse.mp hc)))

theorem toDigits_ne_zero {n : Nat} (hn : n ≠ 0) : ∃ c ∈ Nat.toDigits 10 n, c ≠ '0' := by
  induction n using Nat.strongRecOn with
  | ind n ih =>
    rw [Nat.toDigits_eq_if (by decide)]
    split
    · next hlt =>
      have hdigit : ∀ d < 10, d ≠ 0 → Nat.digitChar d ≠ '0' := by decide
      exact ⟨Nat.digitChar n, List.mem_singleton_self _, hdigit n hlt hn⟩
    · obtain ⟨c, hc, hne⟩ := ih (n / 10) (by omega) (by omega)
      exact ⟨c, List.mem_append_left _ hc, hne⟩

theorem dropTrailingZeros_toDigits {n : Nat} (hn : n ≠ 0) :
    dropTrailingZeros (Nat.toDigits 10 n) ≠ [] := by
  obtain ⟨c, hc, hne⟩ := toDigits_ne_zero hn
  intro hnil
  rw [dropTrailingZeros, List.reverse_eq_nil_iff] at hnil
  have hall := List.takeWhile_append_dropWhile (p := (· == '0')) (l := (Nat.toDigits 10 n).reverse)
  rw [hnil, List.append_nil] at hall
  have hc' := List.mem_reverse.mpr hc
  rw [← hall] at hc'
  exact hne (by simpa using List.all_eq_true.mp List.all_takeWhile c hc')

theorem positional_lawful {digits : List Char} (hd : ∀ c ∈ digits, Text.isDigit c = true)
    (hne : digits ≠ []) (before : Int) : Lexeme.Lawful ⟨.number, positional digits before⟩ := by
  have hzero : ∀ c ∈ ['0'], Text.isDigit c = true := zeros_isDigit 1
  match before with
  | .ofNat 0 => exact @Lexeme.Lawful.fraction ['0'] digits (by simp) hzero hne hd
  | .negSucc n =>
    have hplaces : ∀ c ∈ zeros (n + 1) ++ digits, Text.isDigit c = true :=
      fun c hc => (List.mem_append.mp hc).elim (zeros_isDigit _ c) (hd c)
    exact @Lexeme.Lawful.fraction ['0'] _ (by simp) hzero (by simp [hne]) hplaces
  | .ofNat (n + 1) =>
    -- the padding fills the whole part, and a lone zero the fraction
    simp only [positional]
    generalize hpad : digits ++ zeros (n + 1 - digits.length) = padded
    have hall : ∀ c ∈ padded, Text.isDigit c = true :=
      fun c hc => (List.mem_append.mp (hpad ▸ hc)).elim (hd c) (zeros_isDigit _ c)
    have hwhole : padded.take (n + 1) ≠ [] := by
      simp [← hpad, hne]
    have htake : ∀ c ∈ padded.take (n + 1), Text.isDigit c = true :=
      fun c hc => hall c (List.mem_of_mem_take hc)
    split
    · exact .fraction hwhole htake (by simp) hzero
    · next hf =>
      exact .fraction hwhole htake (by simpa using hf) fun c hc => hall c (List.mem_of_mem_drop hc)

end Digits

theorem writeMagnitude_lawful {m : Magnitude} (he : 'e' ∉ writeMagnitude plain m) :
    Lexeme.Lawful ⟨.number, writeMagnitude plain m⟩ := by
  unfold writeMagnitude at he ⊢
  split
  · exact .whole Nat.toDigits_ne_nil (toDigits_isDigit _)
  · next hw =>
    rw [if_neg hw] at he
    split
    · exact positional_lawful (zeros_isDigit 1) (List.cons_ne_nil _ _) 1
    · next hm =>
      rw [if_neg hm] at he
      have hdigits : (shortest m).digits ≠ 0 := shortestFrom_digits hm _ _
      unfold writeScientific at he ⊢
      dsimp only at he ⊢
      split
      · exact positional_lawful (dropTrailingZeros_isDigit (toDigits_isDigit _))
          (dropTrailingZeros_toDigits hdigits) _
      · next hlong =>
        rw [if_neg hlong] at he
        exact absurd (by simp [exponential]) he

/-- A finite number without a sign that is written without an exponent is written as a numeral. -/
theorem write_lawful {x : Float} (hn : x.isNaN = false) (hi : x.isInf = false)
    (hs : isNegative x = false) (he : 'e' ∉ (write x).toList) :
    Lexeme.Lawful ⟨.number, (write x).toList⟩ := by
  have hwrite : (write x).toList = writeMagnitude plain (magnitude x) := by
    simp only [write, writeWith, writeFinite, hn, hi, hs, Bool.false_eq_true, if_false,
      Bool.false_and, List.nil_append, String.toList_ofList]
  rw [hwrite] at he ⊢
  exact writeMagnitude_lawful he

end Bahasa.Decimal
