import Bahasa.Proofs.Eval.Grounding
import Bahasa.Proofs.Session.Joined
import Bahasa.Proofs.Session.Kept

namespace Bahasa

theorem Interpreter.eval_grounded (i : Interpreter) (hi : Eval.GroundedHost i.machine.host)
    (tree : Node) {n : Nat} {frame : FrameId} (hf : frame < n) :
    Run.Grounded n Value.Rooted (i.eval tree frame) :=
  Eval.node_grounded hi i.depth tree hf

namespace Store

variable {s : Store} {v : Value}

def Holds (s : Store) (v : Value) : Prop :=
  ∀ g, v.Captures g → ∃ f, s.frame? g = some f

/-- Each frame stands inside one that there is and that was made before it, bound functions remember
frames that there are, and the search for a name ends from each frame after no more frames than
there are. -/
structure Founded (s : Store) : Prop where
  parents : ∀ id f p, s.frame? id = some f → f.parent = some p →
    p < id ∧ ∃ g, s.frame? p = some g
  values : ∀ id f, s.frame? id = some f → ∀ b ∈ f.bindings, s.Holds b.value
  search : ∀ id f name, s.frame? id = some f →
    ∃ looked ≤ s.frames.size, s.Search name id looked (s.resolve? id name)

theorem holds_iff : s.Holds v ↔ v.Rooted s.frames.size := by
  refine ⟨fun h g hg => ?_, fun h g hg => frame?_of_lt (h g hg)⟩
  obtain ⟨f, hf⟩ := h g hg
  exact frame?_lt hf

theorem Grounded.founded (h : s.Grounded) : s.Founded where
  parents _ _ _ hf hp :=
    have hlt := h.parents hf hp
    ⟨hlt, frame?_of_lt (Nat.lt_trans hlt (frame?_lt hf))⟩
  values _ _ hf _ hb := holds_iff.mpr (h.values hf hb)
  search _ _ name hf := h.search name (frame?_lt hf)

theorem Grounded.pushGlobal (h : s.Grounded) : Grounded ⟨s.frames.push .global⟩ :=
  h.add nofun fun b hb => .plain (builtins_plain b hb)

theorem Grounded.global : Grounded ⟨#[.global]⟩ :=
  pushGlobal (s := .empty) ⟨nofun, nofun⟩

inductive Step
  | make (parent? : Option FrameId)
  | declare (id : FrameId) (name : String) (v : Value) (constant : Bool)
  | assign (id : FrameId) (name : String) (v : Value)
  | lookup (id : FrameId) (name : String)
  | evaluate (tree : Node) (id : FrameId)

namespace Step

def perform (i : Interpreter) : Step → Run (Option Value)
  | .make parent? => fun w => .ok none { w with store := (w.store.push parent?).2 }
  | .declare id name v constant => some <$> Run.access (Access.declare id name v constant)
  | .assign id name v => some <$> Run.access (Access.assign id name v)
  | .lookup id name => some <$> Run.access (Access.lookup id name)
  | .evaluate tree id => some <$> i.eval tree id

def outcome (i : Interpreter) (step : Step) (w : World) : Option Value × World :=
  match step.perform i w with
  | .ok v? w => (v?, w)
  | .error _ w => (none, w)

def Valid (s : Store) : Step → Prop
  | .make parent? => ∀ p, parent? = some p → ∃ f, s.frame? p = some f
  | .declare id _ v _ | .assign id _ v => (∃ f, s.frame? id = some f) ∧ s.Holds v
  | .lookup id _ | .evaluate _ id => ∃ f, s.frame? id = some f

variable {i : Interpreter} {step : Step}

theorem Valid.perform (hi : Eval.GroundedHost i.machine.host) (h : step.Valid s) :
    Run.Grounded s.frames.size (fun n v? => ∀ v, v? = some v → v.Rooted n) (step.perform i) := by
  have hsome : ∀ {r : Run Value}, Run.Grounded s.frames.size Value.Rooted r →
      Run.Grounded s.frames.size (fun n v? => ∀ v, v? = some v → v.Rooted n) (some <$> r) := by
    intro r hr
    rw [map_eq_pure_bind]
    refine hr.bind fun m v _ hv => .pure fun m' hm u hu => ?_
    cases hu
    exact hv.mono hm
  cases step with
  | make parent? =>
    refine ⟨fun w hn hw => ⟨hw.push fun p hp => ?_, ?_, nofun⟩⟩
    · obtain ⟨f, hf⟩ := h p hp
      exact Nat.lt_of_lt_of_le (frame?_lt hf) hn
    · exact Nat.le_trans hn (by simp [push])
  | declare id name v constant => exact hsome (.declare (holds_iff.mp h.2) constant)
  | assign id name v => exact hsome (.assign (holds_iff.mp h.2))
  | lookup id name => exact hsome .lookup
  | evaluate tree id =>
    obtain ⟨f, hf⟩ := h
    exact hsome (i.eval_grounded hi tree (frame?_lt hf))

theorem Valid.outcome (hi : Eval.GroundedHost i.machine.host) {w : World}
    (h : step.Valid w.store) (hs : w.store.Grounded) :
    (step.outcome i w).2.store.Grounded ∧
      w.store.frames.size ≤ (step.outcome i w).2.store.frames.size ∧
      ∀ v, (step.outcome i w).1 = some v → v.Rooted (step.outcome i w).2.store.frames.size := by
  have hends := (h.perform hi).ends w (Nat.le_refl _) hs
  unfold Step.outcome
  cases hw : step.perform i w with
  | ok v? w =>
    rw [hw] at hends
    exact hends
  | error f w =>
    rw [hw] at hends
    exact ⟨hends.1, hends.2, nofun⟩

end Step

end Store

namespace Session

/-- A step of a session, or one that is taken on its frames from outside. -/
inductive Move
  | inside (step : Step)
  | outside (step : Store.Step)

def Move.Valid (s : Store) : Move → Prop
  | .inside _ => True
  | .outside step => step.Valid s

def Answer.value? : Answer → Option Value
  | .ran report => report.result.toOption
  | _ => none

def take (i : Interpreter) (s : Session) : Move → Option Value × Session
  | .inside step =>
    let (answer, next) := s.perform i step
    (answer.value?, next)
  | .outside step =>
    let (v?, w) := step.outcome i ⟨s.store, "", [], s.ticks⟩
    (v?, { s with store := w.store, ticks := w.ticks })

def Kept.take (stops : Parser.Desk → ParseError → Nat) (i : Interpreter) (k : Kept) :
    Move → Option Value × Kept
  | .inside step =>
    let (answer, next) := k.perform stops i step
    (answer.value?, next)
  | .outside step =>
    let (v?, w) := step.outcome i ⟨k.store, "", [], k.ticks⟩
    (v?, { k with store := w.store, ticks := w.ticks })

/-- The states that are come to by moves in any order, whether they fail or not. -/
inductive Reached {σ : Type} (store : σ → Store) (move : σ → Move → Option Value × σ) (new : σ) :
    σ → Prop
  | new : Reached store move new new
  | move {s : σ} (h : Reached store move new s) {m : Move} (hm : m.Valid (store s)) :
    Reached store move new (move s m).2

namespace Kept

structure Standing (v? : Option Value) (k : Kept) : Prop where
  grounded : k.store.Grounded
  root : k.root < k.store.frames.size
  value : ∀ v, v? = some v → v.Rooted k.store.frames.size

namespace Standing

variable {i : Interpreter} {k : Kept} {v? : Option Value}

theorem plain (h : Standing v? k) : Standing none k :=
  ⟨h.grounded, h.root, nofun⟩

theorem runTree (hi : Eval.GroundedHost i.machine.host) (h : Standing v? k) (tree : Node) :
    Standing (k.runTree i tree).1.result.toOption (k.runTree i tree).2 := by
  have hends := (i.eval_grounded hi tree h.root).ends
    ⟨k.store, "", [.run (k.runs + 1) tree.children.length], k.ticks⟩ (Nat.le_refl _) h.grounded
  have hroot : ∀ {n}, k.store.frames.size ≤ n → k.root < n := Nat.lt_of_lt_of_le h.root
  unfold Kept.runTree
  dsimp only
  generalize i.eval tree k.root _ = ended at hends
  cases ended with
  | ok v w =>
    obtain ⟨hgrounded, hsize, hv⟩ := hends
    refine ⟨hgrounded, hroot hsize, fun u hu => ?_⟩
    cases hu
    exact hv
  | error f w => exact ⟨hends.1, hroot hends.2, nofun⟩

theorem perform (hi : Eval.GroundedHost i.machine.host) (h : Standing v? k)
    (stops : Parser.Desk → ParseError → Nat) (step : Step) :
    Standing (k.perform stops i step).1.value? (k.perform stops i step).2 := by
  cases step with
  | run source =>
    obtain ⟨desk, hrun⟩ := k.run_eq stops i source
    have hdesk : Standing v? { k with desk } := ⟨h.grounded, h.root, h.value⟩
    unfold Kept.perform
    dsimp only
    rw [hrun]
    cases i.parse source with
    | error e => exact hdesk.plain
    | ok tree => exact hdesk.runTree hi tree
  | parse source =>
    obtain ⟨desk, hdesk⟩ := k.parse_snd stops i source
    unfold Kept.perform
    dsimp only
    rw [hdesk]
    exact ⟨h.grounded, h.root, nofun⟩
  | reset =>
    refine ⟨h.grounded.pushGlobal, ?_, nofun⟩
    exact (Array.size_push .. : (k.store.frames.push _).size = _) ▸ Nat.lt_succ_self _

theorem take (hi : Eval.GroundedHost i.machine.host) (h : Standing v? k)
    (stops : Parser.Desk → ParseError → Nat) {m : Move} (hm : m.Valid k.store) :
    Standing (k.take stops i m).1 (k.take stops i m).2 := by
  cases m with
  | inside step => exact h.perform hi stops step
  | outside step =>
    obtain ⟨hgrounded, hsize, hv⟩ :=
      Store.Step.Valid.outcome (w := ⟨k.store, "", [], k.ticks⟩) hi hm h.grounded
    exact ⟨hgrounded, Nat.lt_of_lt_of_le h.root hsize, hv⟩

end Standing

end Kept

theorem take_standing {i : Interpreter} (hi : Eval.GroundedHost i.machine.host) {s : Session}
    {v? : Option Value} (h : Kept.Standing v? (s.keep "" .new)) {m : Move}
    (hm : m.Valid s.store) : Kept.Standing (s.take i m).1 ((s.take i m).2.keep "" .new) := by
  cases m with
  | outside step => exact h.take hi (fun _ _ => 0) hm
  | inside step =>
    cases step with
    | run source =>
      obtain ⟨out, desk, hrun⟩ := s.keep_run "" .new i (fun _ _ => 0) source
      have hkept := h.perform hi (fun _ _ => 0) (.run source)
      unfold Kept.perform at hkept
      dsimp only at hkept
      rw [hrun] at hkept
      exact ⟨hkept.grounded, hkept.root, hkept.value⟩
    | parse source => exact h.plain
    | reset => exact ⟨.global, Nat.zero_lt_one, nofun⟩

/-- Whatever is run in a session and done to its frames, they have no loose ends, and the values
that are given back remember frames that there are. It is the same whether the frames from before a
reset are kept or not. -/
theorem frames_founded (stops : Parser.Desk → ParseError → Nat) (turns nesting depth : Nat)
    (clock : Nat → Int) :
    let i := Interpreter.limited turns nesting depth clock
    let forgetting := fun (s : Session) m => s.take i m
    let keeping := fun (k : Kept) m => k.take stops i m
    (∀ s, Reached Session.store forgetting .new s → s.store.Founded ∧
      ∀ m, m.Valid s.store → ∀ v, (forgetting s m).1 = some v →
        (forgetting s m).2.store.Holds v) ∧
    ∀ k, Reached Kept.store keeping .new k → k.store.Founded ∧
      ∀ m, m.Valid k.store → ∀ v, (keeping k m).1 = some v → (keeping k m).2.store.Holds v := by
  intro i forgetting keeping
  have hi : Eval.GroundedHost i.machine.host := Eval.standard_grounded clock
  have hnew : Kept.Standing none .new := ⟨.global, Nat.zero_lt_one, nofun⟩
  refine ⟨fun s hs => ?_, fun k hk => ?_⟩
  · have h : Kept.Standing none (s.keep "" .new) := by
      induction hs with
      | new => exact hnew
      | move _ hm ih => exact (take_standing hi ih hm).plain
    refine ⟨h.grounded.founded, fun m hm v hv => ?_⟩
    exact Store.holds_iff.mpr ((take_standing hi h hm).value v hv)
  · have h : Kept.Standing none k := by
      induction hk with
      | new => exact hnew
      | move _ hm ih => exact (ih.take hi stops hm).plain
    refine ⟨h.grounded.founded, fun m hm v hv => ?_⟩
    exact Store.holds_iff.mpr ((h.take hi stops hm).value v hv)

theorem frames_founded_call :
    let i := Interpreter.limited 1 9 9 fun _ => 0
    let source := "fungsi f() \x7b f \x7d f() n"
    let s := (Session.take i .new (.inside (.run source))).2
    let held := Value.object [("k", .function "g" [] [] 1)]
    let s' := (s.take i (.outside (.declare 1 "o" held false))).2
    (∃ e, (Session.new.run i source).1.result = .error e) ∧ s.store.Holds held ∧
      s'.store.Founded ∧ ∃ v, (s'.take i (.outside (.lookup 1 "f"))).1 = some v ∧
        v.Captures 0 ∧ (s'.take i (.outside (.lookup 1 "f"))).2.store.Holds v := by
  -- a run fails after a call has made a frame; from outside, an object with a function of that
  -- frame is bound in it; the name of the function that was called is still found from there
  intro i source s held s'
  have ht : tokenize "fungsi f() \x7b f \x7d f() n" = .ok [⟨.fnWord, "fungsi", ⟨1, 1⟩⟩,
      ⟨.ident, "f", ⟨1, 8⟩⟩, ⟨.lparen, "(", ⟨1, 9⟩⟩, ⟨.rparen, ")", ⟨1, 10⟩⟩,
      ⟨.lbrace, "\x7b", ⟨1, 12⟩⟩, ⟨.ident, "f", ⟨1, 14⟩⟩, ⟨.rbrace, "\x7d", ⟨1, 16⟩⟩,
      ⟨.ident, "f", ⟨1, 18⟩⟩, ⟨.lparen, "(", ⟨1, 19⟩⟩, ⟨.rparen, ")", ⟨1, 20⟩⟩,
      ⟨.ident, "n", ⟨1, 22⟩⟩, .endMark ⟨1, 23⟩] := by cbv
  have hparse := Interpreter.parse_eq_ok (i := i).mpr ⟨_, ht, rfl⟩
  have hrun := run_of_parse hparse .new
  obtain ⟨body, hstore⟩ : ∃ body, s.store = ⟨#[⟨none, builtins ++
      [⟨"f", .function "f" [] body 0, true⟩]⟩, ⟨some 0, []⟩]⟩ := by
    change ∃ body, (Session.new.run i source).2.store = _
    rw [hrun]
    exact ⟨_, rfl⟩
  have hinner : ∃ f, s.store.frame? 1 = some f := by
    rw [hstore]
    exact ⟨_, rfl⟩
  have hheld : s.store.Holds held := by
    intro g hg
    change (Value.object _).Captures g at hg
    cases hg with
    | object hm hg =>
      obtain rfl := List.mem_singleton.mp hm
      cases hg
      exact hinner
  have hstore' : s'.store = ⟨#[⟨none, builtins ++ [⟨"f", .function "f" [] body 0, true⟩]⟩,
      ⟨some 0, [⟨"o", held, false⟩]⟩]⟩ := by
    change (Store.Step.outcome i _ ⟨s.store, "", [], s.ticks⟩).2.store = _
    rw [hstore]
    rfl
  have hvalid : ∃ f, s'.store.frame? 1 = some f := by
    rw [hstore']
    exact ⟨_, rfl⟩
  have hv : (s'.take i (.outside (.lookup 1 "f"))).1 = some (.function "f" [] body 0) := by
    change (Store.Step.outcome i _ ⟨s'.store, "", [], s'.ticks⟩).1 = _
    rw [hstore']
    rfl
  let stops : Parser.Desk → ParseError → Nat := fun _ _ => 0
  obtain ⟨hfounded, hgiven⟩ := (frames_founded stops 1 9 9 fun _ => 0).1 s'
    (.move (m := .outside _) (.move (m := .inside (.run source)) .new trivial) ⟨hinner, hheld⟩)
  have hfound := hgiven (.outside (.lookup 1 "f")) hvalid _ hv
  refine ⟨?_, hheld, hfounded, _, hv, .function .., hfound⟩
  rw [hrun]
  exact ⟨_, rfl⟩

end Session

end Bahasa
