import Bahasa.Proofs.Eval.Routine
import Bahasa.Proofs.Parser.Earliest
import Bahasa.Proofs.Store.Growth
import Bahasa.Session

namespace Bahasa

def World.Begins (w w' : World) : Prop :=
  ∃ more, w'.out = w.out ++ more

theorem World.Begins.refl (w : World) : w.Begins w :=
  ⟨"", String.append_empty.symm⟩

theorem World.Begins.trans {w w' w'' : World} (h : w.Begins w') (h' : w'.Begins w'') :
    w.Begins w'' := by
  obtain ⟨more, hmore⟩ := h
  obtain ⟨rest, hrest⟩ := h'
  exact ⟨more ++ rest, by rw [hrest, hmore, String.append_assoc]⟩

/-- To give up at a limit: at the depth if `deep` says so, at the turns of a loop if `long` does. -/
def Failure.GivesUp (deep long : Prop) : Failure → Prop
  | tooDeep => deep
  | unfinished => long
  | _ => False

theorem Failure.GivesUp.locate {deep long : Prop} {f : Failure} (h : f.GivesUp deep long)
    (place? : Option Place) : (f.locate place?).GivesUp deep long := by
  cases f with
  | error cause place => cases h
  | _ => exact h

namespace Run

variable {α β : Type} {deep long : Prop} {r r' : Run α}

def Appends (r : Run α) : Prop :=
  ∀ w : World, w.Begins (stateAfter (r w))

namespace Appends

theorem pure (a : α) : Appends (Pure.pure a : Run α) :=
  fun w => .refl w

theorem throw (f : Failure) : Appends (MonadExcept.throw f : Run α) :=
  fun w => .refl w

theorem access (op : Access α) : Appends (Run.access op) := by
  intro w
  unfold Run.access
  cases op w.store with
  | ok a store' => exact .refl w
  | error cause store' => exact .refl w

theorem record (r : Record) : Appends (Run.record r) :=
  fun w => .refl w

theorem pushFrame (parent : FrameId) : Appends (Run.pushFrame parent) :=
  fun w => .refl w

theorem emit (text : String) : Appends (Run.emit text) :=
  fun _ => ⟨text, rfl⟩

theorem tick : Appends Run.tick :=
  fun w => .refl w

theorem bind {k : α → Run β} (hr : Appends r) (hk : ∀ a, Appends (k a)) : Appends (r >>= k) := by
  intro w
  have h := hr w
  change w.Begins (stateAfter (EStateM.bind r k w))
  unfold EStateM.bind
  cases hw : r w with
  | error f w' =>
    rw [hw] at h
    exact h
  | ok a w' =>
    rw [hw] at h
    exact h.trans (hk a w')

theorem located (hr : Appends r) (place? : Option Place) : Appends (Run.located place? r) := by
  intro w
  have h := hr w
  unfold Run.located
  cases hw : r w with
  | ok a w' | error f w' =>
    rw [hw] at h
    exact h

end Appends

/-- `r'` ends as `r` does, unless `r` gives up; then `r'` goes on from what `r` has printed. -/
structure Outlasts (deep long : Prop) (r r' : Run α) : Prop where
  appends : Appends r'
  ends : ∀ w, r' w = r w ∨
    ∃ f w', r w = .error f w' ∧ f.GivesUp deep long ∧ w'.Begins (stateAfter (r' w))

namespace Outlasts

theorem same (h : Appends r) : Outlasts deep long r r :=
  ⟨h, fun _ => .inl rfl⟩

theorem givesUp {f : Failure} (hf : f.GivesUp deep long) (h : Appends r') :
    Outlasts deep long (throw f) r' :=
  ⟨h, fun w => .inr ⟨f, w, rfl, hf, h w⟩⟩

theorem bind {k k' : α → Run β} (hr : Outlasts deep long r r')
    (hk : ∀ a, Outlasts deep long (k a) (k' a)) : Outlasts deep long (r >>= k) (r' >>= k') := by
  have happends : Appends (r' >>= k') := hr.appends.bind fun a => (hk a).appends
  refine ⟨happends, fun w => ?_⟩
  change EStateM.bind r' k' w = EStateM.bind r k w ∨ ∃ f w', EStateM.bind r k w = .error f w' ∧
    f.GivesUp deep long ∧ w'.Begins (stateAfter (EStateM.bind r' k' w))
  unfold EStateM.bind
  obtain h | ⟨f, w', h, hf, hbegins⟩ := hr.ends w
  · rw [h]
    cases r w with
    | ok a w' => exact (hk a).ends w'
    | error f w' => exact .inl rfl
  · rw [h]
    refine .inr ⟨f, w', rfl, hf, ?_⟩
    cases hw : r' w with
    | error f' w'' =>
      rw [hw] at hbegins
      exact hbegins
    | ok a w'' =>
      rw [hw] at hbegins
      exact hbegins.trans ((hk a).appends w'')

theorem ite {c : Prop} [Decidable c] {s s' : Run α} (hr : Outlasts deep long r r')
    (hs : Outlasts deep long s s') :
    Outlasts deep long (if c then r else s) (if c then r' else s') := by
  split
  · exact hr
  · exact hs

theorem located (hr : Outlasts deep long r r') (place? : Option Place) :
    Outlasts deep long (Run.located place? r) (Run.located place? r') := by
  refine ⟨hr.appends.located place?, fun w => ?_⟩
  unfold Run.located
  obtain h | ⟨f, w', h, hf, hbegins⟩ := hr.ends w
  · rw [h]
    exact .inl rfl
  · rw [h]
    refine .inr ⟨_, w', rfl, hf.locate place?, ?_⟩
    cases hw : r' w with
    | ok a w'' | error f' w'' =>
      rw [hw] at hbegins
      exact hbegins

end Outlasts

end Run

/-- Natives that only add to what was printed. -/
def Eval.AppendingHost (host : Host) : Prop :=
  ∀ name args frame, Run.Appends (host name args frame)

theorem Eval.standard_appends (clock : Nat → Int) : AppendingHost (Native.standard clock) := by
  intro name args frame
  unfold Native.standard
  split
  · exact (Run.Appends.emit _).bind fun _ => .pure _
  · exact Run.Appends.tick.bind fun _ => .pure _
  · exact .pure _
  · exact .pure _
  · exact .throw _

open Run (Outlasts Appends)

variable {host : Host} {deep long : Prop} {eval eval' : Evaluator} {frame : FrameId}

theorem Routine.outlasts {R : Rights} {α : Type} {r : Evaluator → Run α}
    (hh : Eval.AppendingHost host)
    (he : ∀ n frame, Outlasts deep long (eval n frame) (eval' n frame))
    (h : Routine host R frame r) : Outlasts deep long (r eval) (r eval') := by
  induction h with
  | pure a => exact .same (.pure a)
  | fail _ => exact .same (.throw _)
  | bind _ _ ihr ihk => exact ihr.bind ihk
  | ask _ => exact he _ _
  | lookup name => exact .same (.access _)
  | assign name v => exact .same (.access _)
  | declare name v constant _ => exact .same (.access _)
  | dropped name extra => exact .same (.record _)
  | native name args _ => exact .same (hh name args _)
  | call name args home _ _ ih =>
    refine (Outlasts.same (.record _)).bind fun _ => ?_
    exact (Outlasts.same (.pushFrame home)).bind ih

namespace Eval

theorem node_appends {m : Machine} (hh : AppendingHost m.host) (depth : Nat) (n : Node)
    (frame : FrameId) : Appends (node m depth n frame) := by
  induction depth generalizing n frame with
  | zero => exact .throw _
  | succ depth ih =>
    have hstep : Outlasts True True (step m (node m depth) n frame)
        (step m (node m depth) n frame) :=
      (step_routine_full m n frame).outlasts hh fun x frame => .same (ih x frame)
    exact hstep.appends.located n.place?

section Turns

variable {turns turns' : Nat} (hh : AppendingHost host)
  (he : ∀ n frame, Outlasts deep long (eval n frame) (eval' n frame)) (ht : turns ≤ turns')
  (hl : turns < turns' → long)

include hh he ht hl

theorem loop_outlasts (cond increment statements : Node) :
    Outlasts deep long (loop eval frame cond increment statements turns)
      (loop eval' frame cond increment statements turns') := by
  have hloop : ∀ turns, Routine host .full frame
      fun eval => loop eval frame cond increment statements turns :=
    loop_routine cond increment statements
  induction turns generalizing turns' with
  | zero =>
    cases turns' with
    | zero => exact .same (.throw _)
    | succ turns' =>
      exact .givesUp (hl (Nat.zero_lt_succ turns')) ((hloop (turns' + 1)).outlasts hh he).appends
  | succ turns ih =>
    cases turns' with
    | zero => exact absurd ht (Nat.not_succ_le_zero turns)
    | succ turns' =>
      have hbody : Routine host .full frame fun eval => body eval frame statements :=
        body_routine statements
      refine (he cond frame).bind fun v => .ite ?_ (.same (.pure _))
      refine (hbody.outlasts hh he).bind fun _ => (he increment frame).bind fun _ => ?_
      exact ih (Nat.le_of_succ_le_succ ht) fun hlt => hl (Nat.succ_lt_succ hlt)

theorem forLoop_outlasts (ns : List Node) :
    Outlasts deep long (forLoop eval frame turns ns) (forLoop eval' frame turns' ns) := by
  unfold forLoop
  split
  · next start cond increment statements =>
    exact (he start frame).bind fun _ => loop_outlasts hh he ht hl cond increment statements
  · exact .same (.throw _)

theorem step_outlasts (n : Node) :
    Outlasts deep long (step ⟨host, turns⟩ eval n frame) (step ⟨host, turns'⟩ eval' n frame) := by
  -- only loops are given a number of turns
  by_cases hn : n.label? = some .forLoop
  · cases n with
    | tree label children place =>
      cases hn
      exact forLoop_outlasts hh he ht hl children
    | _ => cases hn
  · have hsame : step ⟨host, turns'⟩ eval' n frame = step ⟨host, turns⟩ eval' n frame := by
      cases n with
      | tree label children place =>
        cases label with
        | forLoop => exact absurd rfl hn
        | _ => rfl
      | _ => rfl
    rw [hsame]
    exact (step_routine_full ⟨host, turns⟩ n frame).outlasts hh he

end Turns

theorem node_outlasts (hh : AppendingHost host) {d d' turns turns' : Nat} (hd : d ≤ d')
    (hdeep : d < d' → deep) (ht : turns ≤ turns') (hl : turns < turns' → long) (n : Node)
    (frame : FrameId) :
    Outlasts deep long (node ⟨host, turns⟩ d n frame) (node ⟨host, turns'⟩ d' n frame) := by
  induction d generalizing d' n frame with
  | zero =>
    cases d' with
    | zero => exact .same (.throw _)
    | succ d' => exact .givesUp (hdeep (Nat.zero_lt_succ d')) (node_appends hh (d' + 1) n frame)
  | succ d ih =>
    cases d' with
    | zero => exact absurd hd (Nat.not_succ_le_zero d)
    | succ d' =>
      have he := ih (Nat.le_of_succ_le_succ hd) fun hlt => hdeep (Nat.succ_lt_succ hlt)
      exact (step_outlasts hh he ht hl n).located n.place?

abbrev End := EStateM.Result Failure World Value

/-- The evaluation comes to this end, with as many turns as its loops need. -/
def ComesTo (host : Host) (depth : Nat) (n : Node) (frame : FrameId) (w : World) (r : End) : Prop :=
  (∀ w', r ≠ .error .unfinished w') ∧ ∃ turns, node ⟨host, turns⟩ depth n frame w = r

section Ends

variable {d d' turns turns' : Nat} {n : Node} {w : World} {r r' : End}

theorem node_longer (hh : AppendingHost host) (ht : turns ≤ turns')
    (h : node ⟨host, turns⟩ d n frame w = r) (hr : ∀ w', r ≠ .error .unfinished w') :
    node ⟨host, turns'⟩ d n frame w = r := by
  have hout : Outlasts False True (node ⟨host, turns⟩ d n frame) (node ⟨host, turns'⟩ d n frame) :=
    node_outlasts hh (Nat.le_refl d) (fun hlt => Nat.lt_irrefl d hlt) ht (fun _ => trivial) n frame
  obtain he | ⟨f, w', he, hf, -⟩ := hout.ends w
  · rw [he, h]
  · cases f with
    | unfinished => exact absurd (h.symm.trans he) (hr w')
    | _ => exact hf.elim

theorem node_deeper (hh : AppendingHost host) (hd : d ≤ d')
    (h : node ⟨host, turns⟩ d n frame w = r) :
    node ⟨host, turns⟩ d' n frame w = r ∨ ∃ w₁, r = .error .tooDeep w₁ ∧
      w₁.Begins (stateAfter (node ⟨host, turns⟩ d' n frame w)) := by
  have hout : Outlasts True False (node ⟨host, turns⟩ d n frame) (node ⟨host, turns⟩ d' n frame) :=
    node_outlasts hh hd (fun _ => trivial) (Nat.le_refl turns) (fun hlt => Nat.lt_irrefl turns hlt)
      n frame
  obtain he | ⟨f, w₁, he, hf, hbegins⟩ := hout.ends w
  · exact .inl (he.trans h)
  · cases f with
    | tooDeep => exact .inr ⟨w₁, h.symm.trans he, hbegins⟩
    | _ => exact hf.elim

theorem ComesTo.unique (hh : AppendingHost host) (h : ComesTo host d n frame w r)
    (h' : ComesTo host d n frame w r') : r' = r := by
  obtain ⟨hr, turns, h⟩ := h
  obtain ⟨hr', turns', h'⟩ := h'
  have hmax := node_longer hh (Nat.le_max_left turns turns') h hr
  exact (node_longer hh (Nat.le_max_right turns turns') h' hr').symm.trans hmax

theorem ComesTo.deeper (hh : AppendingHost host) (hd : d ≤ d') (h : ComesTo host d n frame w r)
    (hr : ∀ w', r ≠ .error .tooDeep w') : ComesTo host d' n frame w r := by
  obtain ⟨hfin, turns, h⟩ := h
  obtain h | ⟨w₁, he, -⟩ := node_deeper hh hd h
  · exact ⟨hfin, turns, h⟩
  · exact absurd he (hr w₁)

theorem ComesTo.begins (hh : AppendingHost host) (hd : d ≤ d') {w₁ : World}
    (h : ComesTo host d n frame w (.error .tooDeep w₁)) (h' : ComesTo host d' n frame w r') :
    w₁.Begins (stateAfter r') := by
  obtain ⟨hfin, turns, h⟩ := h
  obtain ⟨hfin', turns', h'⟩ := h'
  have hmax := node_longer hh (Nat.le_max_left turns turns') h hfin
  have hmax' := node_longer hh (Nat.le_max_right turns turns') h' hfin'
  obtain he | ⟨w₂, he, hbegins⟩ := node_deeper hh hd hmax
  · obtain rfl := hmax'.symm.trans he
    exact .refl w₁
  · cases he
    rwa [hmax'] at hbegins

end Ends

/-- Larger limits on the depth change no evaluation that did not come upon the smaller one, and one
that did goes on from what it had printed; nor do they change what is read from a stream of tokens,
unless reading it was given up. -/
theorem limits_only_cut (hh : AppendingHost host) {d d' : Nat} (hd : d ≤ d') :
    (∀ n frame w r, ComesTo host d n frame w r → (∀ w', r ≠ .error .tooDeep w') →
      ComesTo host d' n frame w r ∧ ∀ r', ComesTo host d' n frame w r' → r' = r) ∧
    (∀ n frame w w₁ r', ComesTo host d n frame w (.error .tooDeep w₁) →
      ComesTo host d' n frame w r' → ∃ more, (stateAfter r').out = w₁.out ++ more) ∧
    ∀ tokens, (∀ t, Parser.parseTokens d tokens ≠ .error (.tooDeep t)) →
      Parser.parseTokens d' tokens = Parser.parseTokens d tokens := by
  refine ⟨fun n frame w r h hr => ?_, fun n frame w w₁ r' h h' => h.begins hh hd h',
    fun tokens hne => Parser.parseTokens_deeper hd hne⟩
  have hdeeper := h.deeper hh hd hr
  exact ⟨hdeeper, fun r' h' => hdeeper.unique hh h'⟩

/-- A program that prints a letter, and then another one two levels deeper. -/
def twoLetters : Node :=
  let name s := Node.leaf .ident s none
  .tree .program
    [.tree .call [name "print", .tree .args [.leaf .string "a" none] none] none,
      .tree .call [name "print", .tree .args
        [.tree .call [name "str", .tree .args [.leaf .string "b" none] none] none] none] none] none

theorem limits_only_cut_letters :
    let host := Native.standard fun _ => 0
    let w : World := ⟨Session.new.store, "", [], 0⟩
    ∃ w₁ w₂, ComesTo host 3 twoLetters 0 w (.error .tooDeep w₁) ∧
      ComesTo host 4 twoLetters 0 w (.ok .null w₂) ∧
      ComesTo host 9 twoLetters 0 w (.ok .null w₂) ∧ (∃ more, w₂.out = w₁.out ++ more) ∧
      Parser.parseTokens 9 [.endMark .start] = Parser.parseTokens 2 [.endMark .start] := by
  -- three levels are enough for the first letter, four for both
  have hh := standard_appends fun _ => 0
  have h₁ : ComesTo (Native.standard fun _ => 0) 3 twoLetters 0 ⟨Session.new.store, "", [], 0⟩
      (.error .tooDeep _) := ⟨nofun, 0, rfl⟩
  have h₂ : ComesTo (Native.standard fun _ => 0) 4 twoLetters 0 ⟨Session.new.store, "", [], 0⟩
      (.ok .null _) := ⟨nofun, 0, rfl⟩
  obtain ⟨hsame, -, -⟩ := limits_only_cut hh (show 4 ≤ 9 by decide)
  obtain ⟨-, hbegins, -⟩ := limits_only_cut hh (show 3 ≤ 4 by decide)
  obtain ⟨-, -, hparse⟩ := limits_only_cut hh (show 2 ≤ 9 by decide)
  have hread : Parser.parseTokens 2 [.endMark .start] = .ok _ := rfl
  have hne : ∀ t, Parser.parseTokens 2 [.endMark .start] ≠ .error (.tooDeep t) :=
    fun t h => by cases hread.symm.trans h
  exact ⟨_, _, h₁, h₂, (hsame _ _ _ _ h₂ nofun).1, hbegins _ _ _ _ _ h₁ h₂, hparse _ hne⟩

end Eval

end Bahasa
