import Bahasa.Proofs.Parser.Literal
import Bahasa.Proofs.Session.Joined

namespace Bahasa

theorem setSlot_of_not_mem {key : String} {slots : List (String × Value)} (v : Value)
    (h : key ∉ slots.map Prod.fst) : setSlot key v slots = slots ++ [(key, v)] := by
  induction slots with
  | nil => rfl
  | cons slot rest ih =>
    obtain ⟨k, old⟩ := slot
    rw [List.map_cons, List.mem_cons, not_or] at h
    rw [setSlot, if_neg (Ne.symm h.1), ih h.2, List.cons_append]

theorem Denotes.isAbsent_eq {n : Node} {v : Value} (h : Denotes n v) : n.isAbsent = false := by
  cases h <;> rfl

namespace Eval

theorem slots_entries {eval : Evaluator} {frame : FrameId} {w : World} {ns : List Node}
    {slots : List (String × Value)} (h : Entries Denotes ns slots)
    (he : ∀ slot ∈ slots, ∀ n, Denotes n slot.2 → eval n frame w = .ok slot.2 w)
    {done : List (String × Value)} (hd : ((done ++ slots).map Prod.fst).Nodup) :
    Eval.slots eval frame done ns w = .ok (done ++ slots) w := by
  -- a key that is not among those before is added behind them, so the slots keep their order
  induction h generalizing done with
  | nil =>
    rw [List.append_nil]
    rfl
  | @cons n v ns slots key p q hn _ ih =>
    have hsplit : done ++ (key, v) :: slots = done ++ [(key, v)] ++ slots := by simp
    have hkey : key ∉ done.map Prod.fst := by
      rw [List.map_append, List.map_cons] at hd
      exact fun hmem => (List.nodup_append.mp hd).2.2 key hmem key (List.mem_cons_self ..) rfl
    have hrest := ih (fun slot hs => he slot (List.mem_cons_of_mem _ hs)) (hsplit ▸ hd)
    have hname : identifier .key (.leaf .ident key q) w = .ok key w := rfl
    have hv : eval n frame w = .ok v w := he (key, v) (List.mem_cons_self ..) n hn
    rw [hsplit, ← hrest, ← setSlot_of_not_mem v hkey]
    refine (Run.bind_ok hname).trans ?_
    rw [if_neg (by simp [hn.isAbsent_eq])]
    exact Run.bind_ok hv

/-- A world in which no frame but the global one of a new session has been made. -/
def IsFresh (w : World) : Prop :=
  w.store = Session.new.store

theorem lookup_builtin {w : World} (hw : IsFresh w) {name : String} {v : Value}
    (h : Access.lookup Session.globalId name Session.new.store = .ok v Session.new.store) :
    Run.access (Access.lookup Session.globalId name) w = .ok v w := by
  obtain ⟨store, out, log, ticks⟩ := w
  obtain rfl : store = Session.new.store := hw
  rw [Run.access, h]

theorem node_literal (m : Machine) {w : World} (hw : IsFresh w) {v : Value} (h : v.Literal)
    {n : Node} (hn : Denotes n v) {depth : Nat} (hd : v.height ≤ depth) :
    node m depth n Session.globalId w = .ok v w := by
  induction h generalizing n depth with
  | null =>
    obtain ⟨depth, rfl⟩ := Value.exists_eq_succ hd
    cases hn
    exact Run.located_ok (lookup_builtin hw rfl)
  | bool b =>
    obtain ⟨depth, rfl⟩ := Value.exists_eq_succ hd
    cases hn
    refine Run.located_ok (lookup_builtin hw ?_)
    cases b <;> rfl
  | @number x hx =>
    obtain ⟨depth, rfl⟩ := Value.exists_eq_succ hd
    cases hn
    refine Run.located_ok ?_
    simp only [step, leaf, hx.readBack]
    rfl
  | string hs =>
    obtain ⟨depth, rfl⟩ := Value.exists_eq_succ hd
    cases hn
    rfl
  | @object slots hk hname hv ih =>
    obtain ⟨depth, rfl⟩ := Value.exists_eq_succ hd
    rw [Value.height] at hd
    cases hn with
    | @object ns _ p hentries =>
      have hvalue : ∀ slot ∈ slots, ∀ n, Denotes n slot.2 →
          node m depth n Session.globalId w = .ok slot.2 w := by
        intro slot hs n hn
        have hle := Value.height_le_slotsHeight hs
        exact ih slot hs hn (by omega)
      have hslots : Eval.slots (node m depth) Session.globalId [] ns w = .ok slots w :=
        slots_entries hentries hvalue hk
      exact Run.located_ok (Run.bind_ok hslots)

end Eval

namespace Session

theorem runTree_literal {i : Interpreter} {v : Value} (h : v.Literal) (hd : v.height < i.depth)
    {n : Node} (hn : Denotes n v) (place? : Option Place) :
    (new.runTree i (.tree .program [n] place?)).1.result = .ok v := by
  obtain ⟨depth, hdepth⟩ : ∃ depth, i.depth = depth + 1 := ⟨i.depth - 1, by omega⟩
  have heval : ∀ w, Eval.IsFresh w →
      i.eval (.tree .program [n] place?) globalId w = .ok v w := by
    intro w hw
    rw [Interpreter.eval, hdepth]
    exact Run.located_ok (Run.bind_ok (Eval.node_literal i.machine hw h hn (by omega)))
  rw [runTree, heval]
  exact rfl

theorem parse_render (i : Interpreter) {v : Value} (h : v.Literal) (hv : v.height < i.nesting) :
    ∃ n place?, Denotes n v ∧ i.parse v.render = .ok (.tree .program [n] place?) := by
  have hsegments : Segments v.lexemes v.render.toList [] := by
    simpa using h.cutsInto [] [] [] dividing_nil (.stop .none)
  obtain ⟨ts, p, htokens, hts⟩ := tokenize_of_segments hsegments
  obtain ⟨nesting, hnesting⟩ : ∃ nesting, i.nesting = nesting + 1 := ⟨i.nesting - 1, by omega⟩
  obtain ⟨n, hn, hd⟩ := Parser.takesValue h (by omega : v.height ≤ nesting) ts hts
  have htree : Parser.parseTokens i.nesting (ts ++ [.endMark p]) = _ :=
    hnesting ▸ hn.program rfl
  exact ⟨n, _, hd, Interpreter.parse_eq_ok.mpr ⟨_, htokens, htree⟩⟩

/-- The text of a value that source texts can spell is a program for it, to whatever depth programs
may be nested; evaluation may go as deep. -/
theorem run_render (i : Interpreter) (hi : i.nesting ≤ i.depth) {v : Value} (h : v.Literal)
    (hv : v.height < i.nesting) : (Session.new.run i v.render).1.result = .ok v := by
  obtain ⟨n, place?, hn, hparse⟩ := parse_render i h hv
  rw [run_of_parse hparse]
  exact runTree_literal h (by omega) hn place?

/-- An object as deep as four levels of nesting allow. Its string looks like a comment, a brace and
a keyword on two lines. -/
def nestedObject : Value :=
  .object [("harga", .number 1.5), ("catatan", .string "# \x7b jika\n\x7d"),
    ("isi", .object [("kosong", .object []), ("ada", .bool true), ("lain", .null)])]

theorem run_render_nestedObject :
    nestedObject.Literal ∧ nestedObject.height < 4 ∧
      (Session.new.run (.limited 1 4 4 fun _ => 0) nestedObject.render).1.result =
        .ok nestedObject := by
  have hnumber : Decimal.Plain 1.5 :=
    ⟨by decide +kernel, by decide +kernel, by decide +kernel, by decide +kernel, by decide +kernel⟩
  have hinner : Value.Literal (.object [("kosong", .object []), ("ada", .bool true),
      ("lain", .null)]) := by
    refine .object (by decide) (by decide) ?_
    simp only [List.forall_mem_cons]
    exact ⟨.object .nil (by simp) (by simp), .bool true, .null, by simp⟩
  have h : nestedObject.Literal := by
    refine .object (by decide) (by decide) ?_
    simp only [List.forall_mem_cons]
    exact ⟨.number hnumber, .string (by decide), hinner, by simp⟩
  exact ⟨h, by decide, run_render (.limited 1 4 4 fun _ => 0) (by decide) h (by decide)⟩

end Session

end Bahasa
