import Bahasa.Proofs.Eval.Sequel
import Mathlib.Data.List.Induction
import Mathlib.Data.List.Nodup

namespace Bahasa

/-- The parameters in order, each bound to the argument in its place, or to null without one. -/
def parameterBindings (params : List String) (args : List Value) : List Binding :=
  params.mapIdx fun i name => ⟨name, args.getD i .null, false⟩

theorem parameterBindings_cons (p : String) (params : List String) (args : List Value) :
    parameterBindings (p :: params) args =
      ⟨p, args.headD .null, false⟩ :: parameterBindings params args.tail := by
  simp only [parameterBindings, List.mapIdx_cons]
  cases args <;> rfl

theorem names_parameterBindings (params : List String) (args : List Value) :
    (parameterBindings params args).map (·.name) = params := by
  induction params generalizing args with
  | nil => rfl
  | cons p params ih => rw [parameterBindings_cons, List.map_cons, ih]

theorem exists_first_repeated {α : Type} {l : List α} (h : ¬l.Nodup) :
    ∃ before x after, l = before ++ x :: after ∧ before.Nodup ∧ x ∈ before := by
  induction l using List.reverseRecOn with
  | nil => exact absurd List.nodup_nil h
  | append_singleton l x ih =>
    by_cases hl : l.Nodup
    · refine ⟨l, x, [], rfl, hl, ?_⟩
      by_contra hx
      exact h (List.nodup_append_comm.mp (List.nodup_cons.mpr ⟨hx, hl⟩))
    · obtain ⟨before, y, after, rfl, hb, hy⟩ := ih hl
      exact ⟨before, y, after ++ [x], by simp, hb, hy⟩

theorem Frame.has_iff_mem_names {f : Frame} {name : String} :
    f.has name = true ↔ name ∈ f.names := by
  simp only [Frame.has, Frame.names, List.any_eq_true, List.mem_map, beq_iff_eq]

def Store.extend (s : Store) (f : Frame) : Store :=
  ⟨s.frames.push f⟩

theorem Store.has_newest (s : Store) (f : Frame) (name : String) :
    (s.extend f).has s.frames.size name = f.has name := by
  simp [Store.has, Store.frame?, Store.extend]

theorem Store.modify_newest (s : Store) (f : Frame) (g : Frame → Frame) :
    (s.extend f).modify s.frames.size g = s.extend (g f) := by
  unfold Store.modify Store.extend
  congr 1
  apply Array.ext_getElem?
  intro i
  grind

def World.extend (w : World) (f : Frame) : World :=
  { w with store := w.store.extend f }

namespace Eval

theorem pushFrame_eq (w : World) (home : FrameId) :
    Run.pushFrame home w = .ok w.store.frames.size (w.extend (.empty (some home))) := rfl

section Binding

variable (w : World) {f : Frame} {name : String} (v : Value) (constant : Bool)

theorem declare_newest (h : name ∉ f.names) :
    Run.access (Access.declare w.store.frames.size name v constant) (w.extend f) =
      .ok v (w.extend (f.declare ⟨name, v, constant⟩)) := by
  rw [← Frame.has_iff_mem_names, ← Store.has_newest w.store, Bool.not_eq_true] at h
  rw [Run.access, World.extend, Access.declare, h, Store.modify_newest]
  rfl

theorem declare_newest_error (h : name ∈ f.names) :
    Run.access (Access.declare w.store.frames.size name v constant) (w.extend f) =
      .error (.error (.redeclared name) none) (w.extend f) := by
  rw [← Frame.has_iff_mem_names, ← Store.has_newest w.store] at h
  rw [Run.access, World.extend, Access.declare, h]
  rfl

end Binding

variable {w : World} {parent : Option FrameId} {bs : List Binding} {params : List String}
  {args : List Value}

theorem bindParams_append (scope : FrameId) (ps qs : List String) (args : List Value) :
    bindParams scope (ps ++ qs) args = (do
      bindParams scope ps args
      bindParams scope qs (args.drop ps.length)) := by
  induction ps generalizing args with
  | nil => rfl
  | cons p ps ih =>
    rw [List.cons_append, bindParams, bindParams, bind_assoc]
    refine bind_congr fun _ => ?_
    rw [ih, List.drop_tail, List.length_cons]

theorem bindParams_distinct (h : (bs.map (·.name) ++ params).Nodup) :
    bindParams w.store.frames.size params args (w.extend ⟨parent, bs⟩) =
      .ok () (w.extend ⟨parent, bs ++ parameterBindings params args⟩) := by
  induction params generalizing bs args with
  | nil =>
    rw [parameterBindings, List.mapIdx_nil, List.append_nil]
    rfl
  | cons p params ih =>
    have hp : p ∉ (Frame.mk parent bs).names := fun hm =>
      (List.nodup_append.mp h).2.2 p hm p (List.mem_cons_self ..) rfl
    have hrest :
        ((bs ++ [Binding.mk p (args.headD .null) false]).map (·.name) ++ params).Nodup := by
      simpa using h
    rw [bindParams, Run.bind_ok (declare_newest w _ _ hp), Frame.declare, ih hrest,
      parameterBindings_cons, List.append_assoc, List.singleton_append]

/-- The first parameter that repeats an earlier one is not bound, nor are those after it. -/
theorem bindParams_repeated {before after : List String} {x : String} (hb : before.Nodup)
    (hx : x ∈ before) :
    bindParams w.store.frames.size (before ++ x :: after) args (w.extend (.empty parent)) =
      .error (.error (.redeclared x) none)
        (w.extend ⟨parent, parameterBindings before args⟩) := by
  have hm : x ∈ (Frame.mk parent (parameterBindings before args)).names := by
    rwa [Frame.names, names_parameterBindings]
  have hbound : bindParams w.store.frames.size before args (w.extend (.empty parent)) =
      .ok () (w.extend ⟨parent, parameterBindings before args⟩) := bindParams_distinct hb
  rw [bindParams_append, Run.bind_ok hbound, bindParams,
    Run.bind_error (declare_newest_error w _ _ hm)]

theorem sequence_eq_all (eval : Evaluator) (frame : FrameId) (last : Value) (ns : List Node) :
    sequence eval frame last ns = do return (← all eval frame ns).getLast?.getD last := by
  induction ns generalizing last with
  | nil => rfl
  | cons n ns ih =>
    rw [sequence, all, bind_assoc]
    refine bind_congr fun v => ?_
    rw [ih, bind_assoc]
    refine bind_congr fun vs => ?_
    rw [pure_bind, List.getLast?_cons, Option.getD_some]

section Invocation

variable (eval : Evaluator) {name : String} {body : List Node} {home : FrameId}

theorem invoke_distinct (h : params.Nodup) :
    ∃ log, invoke eval name params body home args w =
      sequence eval w.store.frames.size .null body
        ⟨w.store.extend ⟨some home, parameterBindings params args⟩, w.out, log, w.ticks⟩ := by
  have hbound : bindParams w.store.frames.size params args (w.extend (.empty (some home))) =
      .ok () (w.extend ⟨some home, parameterBindings params args⟩) := bindParams_distinct h
  rw [invoke, Run.bind_ok (pushFrame_eq w home), Run.bind_ok hbound]
  split
  · exact ⟨_, rfl⟩
  · exact ⟨_, rfl⟩

theorem invoke_repeated {before after : List String} {x : String}
    (hp : params = before ++ x :: after) (hb : before.Nodup) (hx : x ∈ before) :
    invoke eval name params body home args w =
      .error (.error (.redeclared x) none)
        (w.extend ⟨some home, parameterBindings before args⟩) := by
  rw [invoke, Run.bind_ok (pushFrame_eq w home), hp, Run.bind_error (bindParams_repeated hb hx)]

end Invocation

/-- A call of a function starts its body in a new frame inside the one where the function was
declared, with the parameters bound and all other frames as they were. If a parameter repeats, then
the first one that does is the error of every call, and the new frame is all that it leaves. -/
theorem call_binds {m : Machine} {d : Nat} {frame home : FrameId} {calleeNode argsNode : Node}
    {name : String} {body : List Node} {w₁ w₂ : World} (p : Option Place)
    (hargs : all (node m d) frame argsNode.children w = .ok args w₁)
    (hcallee : node m d calleeNode frame w₁ = .ok (.function name params body home) w₂) :
    (params.Nodup → ∃ log,
      node m (d + 1) (.tree .call [calleeNode, argsNode] p) frame w =
        Run.located p
          (do return (← all (node m d) w₂.store.frames.size body).getLast?.getD .null)
          ⟨w₂.store.extend ⟨some home, parameterBindings params args⟩, w₂.out, log, w₂.ticks⟩) ∧
    (¬params.Nodup → ∃ before x after log,
      params = before ++ x :: after ∧ before.Nodup ∧ x ∈ before ∧
        node m (d + 1) (.tree .call [calleeNode, argsNode] p) frame w =
          .error (.error (.redeclared x) p)
            ⟨w₂.store.extend ⟨some home, parameterBindings before args⟩, w₂.out, log,
              w₂.ticks⟩) := by
  obtain ⟨w₃, hs, ho, ht, hcall⟩ : ∃ w₃ : World, w₃.store = w₂.store ∧ w₃.out = w₂.out ∧
      w₃.ticks = w₂.ticks ∧ call m.host (node m d) frame [calleeNode, argsNode] w =
        invoke (node m d) name params body home args w₃ := by
    rw [call, Run.bind_ok hargs, Run.bind_ok hcallee]
    exact ⟨{ w₂ with log := .call name args.length :: w₂.log }, rfl, rfl, rfl, rfl⟩
  rw [← hs, ← ho, ← ht]
  refine ⟨fun h => ?_, fun h => ?_⟩
  · obtain ⟨log, hrun⟩ := invoke_distinct (w := w₃) (node m d) h
    rw [← hcall, sequence_eq_all] at hrun
    refine ⟨log, ?_⟩
    rw [node, Run.located, Run.located, ← hrun]
    rfl
  · obtain ⟨before, x, after, hp, hb, hx⟩ := exists_first_repeated h
    refine ⟨before, x, after, w₃.log, hp, hb, hx, ?_⟩
    rw [invoke_repeated _ hp hb hx] at hcall
    exact Run.located_error hcall

theorem call_binds_two :
    let f : Value := .function "f" ["a", "b"] [.leaf .ident "b" none] 0
    let g : Value := .function "g" ["a", "b", "a", "b"] [.leaf .ident "b" none] 0
    let w : World := ⟨⟨#[⟨none, [⟨"f", f, true⟩, ⟨"g", g, true⟩]⟩]⟩, "", [], 0⟩
    let args : Node := .tree .args [.leaf .string "x" none] none
    let m : Machine := ⟨fun _ _ _ => throw .stuck, 0⟩
    (∃ log, node m 2 (.tree .call [.leaf .ident "f" none, args] none) 0 w =
      Run.located none
        (do return (← all (node m 1) 1 [.leaf .ident "b" none]).getLast?.getD .null)
        ⟨w.store.extend ⟨some 0, parameterBindings ["a", "b"] [.string "x"]⟩, "", log, 0⟩) ∧
    ∃ before x after log, ["a", "b", "a", "b"] = before ++ x :: after ∧ before.Nodup ∧ x ∈ before ∧
      node m 2 (.tree .call [.leaf .ident "g" none, args] (some ⟨4, some 2⟩)) 0 w =
        .error (.error (.redeclared x) (some ⟨4, some 2⟩))
          ⟨w.store.extend ⟨some 0, parameterBindings before [.string "x"]⟩, "", log, 0⟩ := by
  -- `f` leaves its second parameter without an argument, and `g` has a parameter twice
  intro f g w args m
  have hargs : all (node m 1) 0 args.children w = .ok [.string "x"] w := rfl
  have hf : node m 1 (.leaf .ident "f" none) 0 w = .ok f w := rfl
  have hg : node m 1 (.leaf .ident "g" none) 0 w = .ok g w := rfl
  exact ⟨(call_binds none hargs hf).1 (by decide), (call_binds _ hargs hg).2 (by decide)⟩

end Eval

end Bahasa
