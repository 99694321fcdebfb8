import Bahasa.Proofs.Token.Lines
import Mathlib.Logic.Function.Basic

namespace Bahasa

namespace Position

def Before (p q : Position) : Prop :=
  p.line < q.line ∨ p.line = q.line ∧ p.column < q.column

variable {p q r : Position}

theorem Before.trans (h : p.Before q) (h' : q.Before r) : p.Before r := by
  unfold Before at *
  omega

theorem Before.ne (h : p.Before q) : p ≠ q := by
  rintro rfl
  unfold Before at h
  omega

theorem before_step (p : Position) (c : Char) : p.Before (p.step c) := by
  unfold step
  split
  · exact .inl (by dsimp only; omega)
  · exact .inr ⟨rfl, by dsimp only; omega⟩

theorem Before.past (h : p.Before q) (cs : List Char) : p.Before (q.past cs) := by
  induction cs generalizing q with
  | nil => exact h
  | cons c cs ih => exact ih (h.trans (before_step q c))

theorem before_past (p : Position) {cs : List Char} (h : cs ≠ []) : p.Before (p.past cs) := by
  cases cs with
  | nil => exact absurd rfl h
  | cons c cs => exact (before_step p c).past cs

end Position

def Increasing (ts : List Token) : Prop :=
  ts.Pairwise fun t u => t.position.Before u.position

theorem Increasing.snoc {ts : List Token} {u : Token} (h : Increasing ts)
    (hu : ∀ t ∈ ts, t.position.Before u.position) : Increasing (ts ++ [u]) :=
  List.pairwise_append.mpr ⟨h, List.pairwise_singleton .., by simpa using hu⟩

theorem Lexeme.spelling_ne_nil {c : Char} {rest tail : List Char} {l : Lexeme}
    (h : Lexeme.read c rest = .ok (l, tail)) : l.spelling ≠ [] := by
  intro hnil
  have hwhole := (read_heads h).whole
  have hlength := read_length h
  rw [hnil, List.nil_append] at hwhole
  rw [hwhole, List.length_cons] at hlength
  omega

theorem Scan.resume_increasing (done : List Token) (p : Position) (cs : List Char)
    (hd : Increasing done.reverse) (hp : ∀ t ∈ done.reverse, t.position.Before p) :
    Increasing (resume done p cs).tokens := by
  fun_induction resume done p cs with
  | case1 done p =>
    rw [List.reverse_cons]
    exact hd.snoc hp
  | case2 done p c rest hc ih =>
    exact ih hd fun t ht => (hp t ht).trans (Position.before_step p c)
  | case3 done p rest _ ih => exact ih hd fun t ht => (hp t ht).past _
  | case4 done p c rest hc hc' flaw hl => exact hd
  | case5 done p c rest hc hc' l tail hl ih =>
    refine ih ?_ fun t ht => ?_
    · rw [List.reverse_cons]
      exact hd.snoc hp
    · rw [List.reverse_cons, List.mem_append, List.mem_singleton] at ht
      obtain ht | rfl := ht
      · exact (hp t ht).past _
      · exact p.before_past (Lexeme.spelling_ne_nil hl)

theorem tokenize_increasing {s : String} {ts : List Token} (h : tokenize s = .ok ts) :
    Increasing ts := by
  obtain ⟨-, rfl⟩ := tokenize_eq_ok.mp h
  exact Scan.resume_increasing [] .start s.toList (by simp [Increasing]) (by simp)

theorem Increasing.getElem?_eq_some_iff {ts : List Token} (h : Increasing ts) {t : Token} {k : Nat}
    (hk : ts[k]? = some t) (j : Nat) : ts[j]? = some t ↔ j = k := by
  have hnodup : ts.Nodup := h.imp fun hb heq => hb.ne (congrArg Token.position heq)
  have hlt := (List.getElem?_eq_some_iff.mp hk).1
  rw [← hk, eq_comm, List.getElem?_inj hlt hnodup, eq_comm]

/-- The motion that takes positions where the function says. -/
def Motion.ofPositions (f : Position → Position) : Motion where
  position := f
  place
    | ⟨line, some column⟩ => (f ⟨line, column⟩).place
    | ⟨line, none⟩ => ⟨line + 1, none⟩
  agrees _ := rfl

def Token.shape (t : Token) : Kind × String :=
  (t.kind, t.text)

theorem Increasing.exists_motion {ts us : List Token} (h : Increasing ts)
    (hs : ts.map Token.shape = us.map Token.shape) :
    ∃ m : Motion, us = ts.map (Token.move m) := by
  suffices hf : ∃ f, us = ts.map (Token.move (.ofPositions f)) by
    obtain ⟨f, hf⟩ := hf
    exact ⟨_, hf⟩
  induction ts generalizing us with
  | nil =>
    obtain rfl : us = [] := by simpa using hs.symm
    exact ⟨id, rfl⟩
  | cons t ts ih =>
    cases us with
    | nil => cases hs
    | cons u us =>
      obtain ⟨ht, hts⟩ := List.pairwise_cons.mp h
      obtain ⟨hshape, hshapes⟩ := List.cons.inj hs
      obtain ⟨f, rfl⟩ := ih hts hshapes
      -- the first token goes where the other text has it, and stands in the way of no other one
      refine ⟨Function.update f t.position u.position, ?_⟩
      rw [List.map_cons]
      congr 1
      · obtain ⟨kind, text, position⟩ := u
        obtain ⟨rfl, rfl⟩ : t.kind = kind ∧ t.text = text := by simpa [Token.shape] using hshape
        simp [Token.move, Motion.ofPositions]
      · refine List.map_congr_left fun v hv => ?_
        have hne : v.position ≠ t.position := (ht v hv).ne.symm
        simp [Token.move, Motion.ofPositions, Function.update_of_ne hne]

end Bahasa
