import Bahasa.Proofs.Store.Growth
import Bahasa.Proofs.Store.Walk

namespace Bahasa

/-- The result or the error that an operation ends with, whatever it leaves behind. -/
def answer {ε σ α : Type} : EStateM.Result ε σ α → Except ε α
  | .ok a _ => .ok a
  | .error e _ => .error e

namespace Store

def parent? (s : Store) (id : FrameId) : Option FrameId :=
  (s.frame? id).bind (·.parent)

/-- The way outwards from one frame to another, with the frames that are passed before its end. -/
inductive Path (s : Store) : FrameId → List FrameId → FrameId → Prop
  | here (id : FrameId) : Path s id [] id
  | outwards {id p last : FrameId} {passed : List FrameId} (hp : s.parent? id = some p)
      (h : Path s p passed last) : Path s id (id :: passed) last

/-- The frame is on the way outwards from `id`, and no frame that is nearer has the name. -/
def Sees (s : Store) (id : FrameId) (name : String) (f : FrameId) : Prop :=
  ∃ passed, s.Path id passed f ∧ ∀ j ∈ passed, s.has j name = false

variable {s t : Store} {id f owner : FrameId} {name : String} {passed : List FrameId}

theorem Path.upTo (h : s.Path id passed owner) (hf : f ∈ passed ∨ f = owner) :
    ∃ before, s.Path id before f ∧ ∀ j ∈ before, j ∈ passed ∧ j ≠ f := by
  induction h with
  | here id =>
    obtain hf | rfl := hf
    · cases hf
    · exact ⟨[], .here f, nofun⟩
  | @outwards id p last passed hp _ ih =>
    by_cases hid : id = f
    · exact ⟨[], hid ▸ .here id, nofun⟩
    · have hrest : f ∈ passed ∨ f = last :=
        hf.imp_left fun hm => (List.mem_cons.mp hm).resolve_left (Ne.symm hid)
      obtain ⟨before, hpath, hb⟩ := ih hrest
      refine ⟨id :: before, .outwards hp hpath, fun j hj => ?_⟩
      obtain rfl | hj := List.mem_cons.mp hj
      · exact ⟨List.mem_cons_self .., hid⟩
      · exact ⟨List.mem_cons_of_mem _ (hb j hj).1, (hb j hj).2⟩

theorem Path.of_parents (hp : t.parent? = s.parent?) (h : s.Path id passed f) :
    t.Path id passed f := by
  induction h with
  | here id => exact .here id
  | outwards hpar _ ih => exact .outwards (hp ▸ hpar) ih

theorem walk_iff_path {ids : List FrameId} : s.Walk name id ids owner ↔
    ∃ passed, ids = passed ++ [owner] ∧ s.Path id passed owner ∧
      (∀ j ∈ passed, s.has j name = false) ∧ s.has owner name = true := by
  constructor
  · intro h
    induction h with
    | here hf hn => exact ⟨[], rfl, .here _, nofun, by simp [has, hf, hn]⟩
    | outwards hf hn hp _ ih =>
      obtain ⟨passed, rfl, hpath, hnone, howner⟩ := ih
      refine ⟨_ :: passed, rfl, .outwards (by simp [parent?, hf, hp]) hpath, ?_, howner⟩
      exact List.forall_mem_cons.mpr ⟨by simp [has, hf, hn], hnone⟩
  · rintro ⟨passed, rfl, hpath, hnone, howner⟩
    induction hpath with
    | here id =>
      obtain ⟨frame, hf, hn⟩ := (Option.any_eq_true ..).mp howner
      exact .here hf hn
    | @outwards id p last passed hp _ ih =>
      obtain ⟨frame, hf, hp⟩ := Option.bind_eq_some_iff.mp hp
      obtain ⟨hid, hnone⟩ := List.forall_mem_cons.mp hnone
      have hn : frame.has name = false := by simpa [has, hf] using hid
      exact .outwards hf hn hp (ih hnone howner)

theorem Sees.outwards {p : FrameId} (hp : s.parent? id = some p) (hid : s.has id name = false)
    (h : s.Sees p name f) : s.Sees id name f := by
  obtain ⟨passed, hpath, hnone⟩ := h
  exact ⟨id :: passed, .outwards hp hpath, List.forall_mem_cons.mpr ⟨hid, hnone⟩⟩

theorem Path.nearest (h : s.Path id passed f) (hf : s.has f name = true) :
    ∃ owner, s.Sees id name owner ∧ s.has owner name = true := by
  induction h with
  | here id => exact ⟨id, ⟨[], .here id, nofun⟩, hf⟩
  | @outwards id p last passed hp _ ih =>
    cases hid : s.has id name with
    | true => exact ⟨id, ⟨[], .here id, nofun⟩, hid⟩
    | false =>
      obtain ⟨owner, hsees, howner⟩ := ih hf
      exact ⟨owner, hsees.outwards hp hid, howner⟩

theorem resolve?_eq_some : s.resolve? id name = some owner ↔
    s.Sees id name owner ∧ s.has owner name = true := by
  constructor
  · intro h
    obtain ⟨ids, hw⟩ := walk_of_resolveWithin h
    obtain ⟨passed, -, hpath, hnone, howner⟩ := walk_iff_path.mp hw
    exact ⟨⟨passed, hpath, hnone⟩, howner⟩
  · rintro ⟨⟨passed, hpath, hnone⟩, howner⟩
    obtain ⟨path, hle, hw⟩ := (walk_iff_path.mpr ⟨passed, rfl, hpath, hnone, howner⟩).short
    exact hw.resolveWithin_eq hle

theorem resolve?_eq_none : s.resolve? id name = none ↔
    ∀ passed f, s.Path id passed f → s.has f name = false := by
  constructor
  · intro h passed f hpath
    rw [← Bool.not_eq_true]
    intro hf
    obtain ⟨owner, ho⟩ := hpath.nearest hf
    rw [resolve?_eq_some.mpr ho] at h
    cases h
  · intro h
    rw [Option.eq_none_iff_forall_ne_some]
    intro owner ho
    obtain ⟨⟨passed, hpath, -⟩, howner⟩ := resolve?_eq_some.mp ho
    rw [h passed owner hpath] at howner
    cases howner

theorem sees_congr (hp : t.parent? = s.parent?) (hn : ∀ j, t.has j name = s.has j name) :
    t.Sees id name f ↔ s.Sees id name f := by
  unfold Sees
  simp only [hn]
  exact exists_congr fun passed => and_congr_left' ⟨.of_parents hp.symm, .of_parents hp⟩

def own? (s : Store) (id : FrameId) (name : String) : Option Binding :=
  (s.frame? id).bind (·.find? name)

end Store

namespace Binding

theorem find?_set_self (name : String) (v : Value) (bs : List Binding) :
    (set name v bs).find? (·.name == name) =
      (bs.find? (·.name == name)).map (fun b => { b with value := v }) := by
  induction bs with
  | nil => rfl
  | cons b bs ih =>
    unfold set
    by_cases hb : b.name = name
    · simp [hb]
    · simp [hb, ih]

theorem find?_set_ne {name m : String} (hm : m ≠ name) (v : Value) (bs : List Binding) :
    (set name v bs).find? (·.name == m) = bs.find? (·.name == m) := by
  induction bs with
  | nil => rfl
  | cons b bs ih =>
    unfold set
    by_cases hb : b.name = name
    · simp [hb, Ne.symm hm]
    · rw [if_neg hb, List.find?_cons, List.find?_cons, ih]

end Binding

namespace Frame

variable (f : Frame) (name m : String) (v : Value)

theorem has_eq_isSome : f.has m = (f.find? m).isSome := by
  unfold has find?
  rw [Bool.eq_iff_iff, List.find?_isSome, List.any_eq_true]

theorem find?_update : (f.update name v).find? m =
    if m = name then (f.find? m).map (fun b => { b with value := v }) else f.find? m := by
  split
  · next hm =>
    subst hm
    exact Binding.find?_set_self ..
  · next hm => exact Binding.find?_set_ne hm ..

theorem find?_declare (b : Binding) :
    (f.declare b).find? m = (f.find? m).or (if m = b.name then some b else none) := by
  unfold find? declare
  dsimp only
  rw [List.find?_append]
  by_cases hm : m = b.name
  · simp [hm]
  · simp [hm, Ne.symm hm]

end Frame

namespace Store

variable {s : Store} {id f owner g : FrameId} {name m : String} {v : Value} {b : Binding}

theorem has_eq_isSome (s : Store) (id : FrameId) (m : String) :
    s.has id m = (s.own? id m).isSome := by
  unfold has own?
  cases s.frame? id with
  | none => rfl
  | some frame => exact frame.has_eq_isSome m

theorem parent?_modify {k : Frame → Frame} (hk : ∀ frame, (k frame).parent = frame.parent) :
    (s.modify f k).parent? = s.parent? := by
  funext id
  unfold parent?
  rw [frame?_modify]
  split
  · cases s.frame? id with
    | none => rfl
    | some frame => exact hk frame
  · rfl

section Update

theorem own?_update : (s.modify owner (·.update name v)).own? id m =
    if owner = id ∧ m = name then (s.own? id m).map (fun b => { b with value := v })
    else s.own? id m := by
  unfold own?
  rw [frame?_modify]
  by_cases hid : owner = id
  · cases hf : s.frame? id with
    | none => simp [hid]
    | some frame => simp [hid, frame.find?_update]
  · simp [hid]

theorem has_update : (s.modify owner (·.update name v)).has id m = s.has id m := by
  rw [has_eq_isSome, has_eq_isSome, own?_update]
  split
  · exact Option.isSome_map
  · rfl

theorem resolve?_update : (s.modify owner (·.update name v)).resolve? id m = s.resolve? id m := by
  apply Option.ext
  intro found
  rw [resolve?_eq_some, resolve?_eq_some, has_update]
  exact and_congr_left' (sees_congr (parent?_modify fun _ => rfl) fun _ => has_update)

end Update

section Declare

theorem own?_declare (hf : f < s.frames.size) : (s.modify f (·.declare b)).own? id m =
    (s.own? id m).or (if f = id ∧ m = b.name then some b else none) := by
  unfold own?
  rw [frame?_modify]
  by_cases hid : f = id
  · subst hid
    obtain ⟨frame, hframe⟩ : ∃ frame, s.frame? f = some frame := ⟨_, Array.getElem?_eq_getElem hf⟩
    simp [hframe, frame.find?_declare]
  · simp [hid]

theorem has_declare (hf : f < s.frames.size) : (s.modify f (·.declare b)).has id m =
    (s.has id m || (f = id ∧ m = b.name)) := by
  rw [has_eq_isSome, has_eq_isSome, own?_declare hf, Option.isSome_or]
  by_cases h : f = id ∧ m = b.name
  · simp [h]
  · simp [h]

theorem resolve?_declare_seen (hf : f < s.frames.size) (h : s.Sees g b.name f) :
    (s.modify f (·.declare b)).resolve? g b.name = some f := by
  obtain ⟨passed, hpath, hnone⟩ := h
  obtain ⟨before, hpath, hbefore⟩ := hpath.upTo (.inr rfl)
  refine resolve?_eq_some.mpr ⟨⟨before, .of_parents (parent?_modify fun _ => rfl) hpath, ?_⟩, ?_⟩
  · intro j hj
    obtain ⟨hj, hne⟩ := hbefore j hj
    rw [has_declare hf, hnone j hj]
    simp [Ne.symm hne]
  · rw [has_declare hf]
    simp

theorem resolve?_declare_unseen (hf : f < s.frames.size) (h : ¬ (m = b.name ∧ s.Sees g b.name f)) :
    (s.modify f (·.declare b)).resolve? g m = s.resolve? g m := by
  have hp : (s.modify f (·.declare b)).parent? = s.parent? := parent?_modify fun _ => rfl
  apply Option.ext
  intro found
  rw [resolve?_eq_some, resolve?_eq_some]
  by_cases hm : m = b.name
  · subst hm
    have hunseen : ¬ s.Sees g b.name f := fun hsees => h ⟨rfl, hsees⟩
    constructor
    · rintro ⟨⟨passed, hpath, hnone⟩, hfound⟩
      have hsees : s.Sees g b.name found := by
        refine ⟨passed, .of_parents hp.symm hpath, fun j hj => ?_⟩
        have hold := hnone j hj
        rw [has_declare hf, Bool.or_eq_false_iff] at hold
        exact hold.1
      have hne : f ≠ found := fun heq => hunseen (heq ▸ hsees)
      rw [has_declare hf] at hfound
      exact ⟨hsees, by simpa [hne] using hfound⟩
    · rintro ⟨⟨passed, hpath, hnone⟩, hfound⟩
      refine ⟨⟨passed, .of_parents hp hpath, fun j hj => ?_⟩, by simp [has_declare hf, hfound]⟩
      have hne : f ≠ j := by
        rintro rfl
        obtain ⟨before, hbefore, hin⟩ := hpath.upTo (.inl hj)
        exact hunseen ⟨before, hbefore, fun i hi => hnone i (hin i hi).1⟩
      simp [has_declare hf, hnone j hj, hne]
  · have hhas : ∀ j, (s.modify f (·.declare b)).has j m = s.has j m := fun j => by
      simp [has_declare hf, hm]
    rw [hhas]
    exact and_congr_left' (sees_congr hp hhas)

end Declare

end Store

namespace Access

open Store

variable {s : Store} {f owner g : FrameId} {name m : String} {v : Value}

def found (m : String) : Option Binding → Except Cause Value
  | some b => .ok b.value
  | none => .error (.undeclared m)

theorem answer_lookup (s : Store) (g : FrameId) (m : String) :
    answer (lookup g m s) = found m ((s.resolve? g m).bind (s.own? · m)) := by
  have hb : s.binding? g m = (s.resolve? g m).bind (s.own? · m) := rfl
  unfold lookup
  rw [← hb]
  cases s.binding? g m with
  | none => rfl
  | some b => rfl

theorem assign_eq (s : Store) (f : FrameId) (name : String) (v : Value) : assign f name v s =
    match s.resolve? f name with
    | none => .error (.undeclared name) s
    | some owner =>
      if (s.own? owner name).any (·.constant) then .error (.constant name) s
      else .ok v (s.modify owner (·.update name v)) := rfl

theorem lookup_update_owner (ho : s.has owner name = true) (hg : s.resolve? g name = some owner) :
    answer (lookup g name (s.modify owner (·.update name v))) = .ok v := by
  rw [has_eq_isSome] at ho
  obtain ⟨b, hb⟩ := Option.isSome_iff_exists.mp ho
  rw [answer_lookup, resolve?_update, hg, Option.bind_some, own?_update, if_pos ⟨rfl, rfl⟩, hb]
  rfl

theorem lookup_update_other (h : ¬ (m = name ∧ s.resolve? g name = some owner)) :
    answer (lookup g m (s.modify owner (·.update name v))) = answer (lookup g m s) := by
  rw [answer_lookup, answer_lookup, resolve?_update]
  cases hg : s.resolve? g m with
  | none => rfl
  | some o =>
    have hne : ¬ (owner = o ∧ m = name) := by
      rintro ⟨rfl, rfl⟩
      exact h ⟨rfl, hg⟩
    rw [Option.bind_some, Option.bind_some, own?_update, if_neg hne]

theorem lookup_declare_seen {constant : Bool} (hf : f < s.frames.size) (hn : s.has f name = false)
    (h : s.Sees g name f) :
    answer (lookup g name (s.modify f (·.declare ⟨name, v, constant⟩))) = .ok v := by
  have hnone : s.own? f name = none := by
    rwa [has_eq_isSome, Option.isSome_eq_false_iff, Option.isNone_iff_eq_none] at hn
  have hr := resolve?_declare_seen (b := ⟨name, v, constant⟩) hf h
  rw [answer_lookup, hr, Option.bind_some, own?_declare hf, hnone]
  simp [found]

theorem lookup_declare_unseen {constant : Bool} (hf : f < s.frames.size)
    (hn : s.has f name = false) (h : ¬ (m = name ∧ s.Sees g name f)) :
    answer (lookup g m (s.modify f (·.declare ⟨name, v, constant⟩))) = answer (lookup g m s) := by
  rw [answer_lookup, answer_lookup, resolve?_declare_unseen hf h]
  cases hg : s.resolve? g m with
  | none => rfl
  | some o =>
    have hne : ¬ (f = o ∧ m = name) := by
      rintro ⟨rfl, rfl⟩
      have hhas := (resolve?_eq_some.mp hg).2
      rw [hn] at hhas
      cases hhas
    rw [Option.bind_some, Option.bind_some, own?_declare hf, if_neg hne, Option.or_none]

section Outcomes

variable (s : Store) (f : FrameId) (name : String) (v : Value) (constant : Bool)

theorem declare_cases :
    (s.has f name = true ∧ declare f name v constant s = .error (.redeclared name) s) ∨
      s.has f name = false ∧
        declare f name v constant s = .ok v (s.modify f (·.declare ⟨name, v, constant⟩)) := by
  unfold declare
  cases s.has f name with
  | true => exact .inl ⟨rfl, rfl⟩
  | false => exact .inr ⟨rfl, rfl⟩

theorem assign_cases :
    (s.resolve? f name = none ∧ assign f name v s = .error (.undeclared name) s) ∨
      ∃ owner b, s.resolve? f name = some owner ∧ s.own? owner name = some b ∧
        (b.constant = true ∧ assign f name v s = .error (.constant name) s ∨
          b.constant = false ∧ assign f name v s = .ok v (s.modify owner (·.update name v))) := by
  rw [assign_eq]
  cases ho : s.resolve? f name with
  | none => exact .inl ⟨rfl, rfl⟩
  | some owner =>
    have hhas := (resolve?_eq_some.mp ho).2
    rw [has_eq_isSome] at hhas
    obtain ⟨b, hb⟩ := Option.isSome_iff_exists.mp hhas
    refine .inr ⟨owner, b, rfl, hb, ?_⟩
    dsimp only
    rw [hb, Option.any_some]
    cases hc : b.constant with
    | true => exact .inl ⟨rfl, rfl⟩
    | false => exact .inr ⟨rfl, rfl⟩

theorem declare_fails_iff :
    answer (declare f name v constant s) = .error (.redeclared name) ↔ s.has f name = true := by
  obtain ⟨hn, h⟩ | ⟨hn, h⟩ := declare_cases s f name v constant
  · simp [h, hn, answer]
  · simp [h, hn, answer]

theorem assign_undeclared_iff : answer (assign f name v s) = .error (.undeclared name) ↔
    ∀ passed g, s.Path f passed g → s.has g name = false := by
  rw [← resolve?_eq_none]
  obtain ⟨hr, h⟩ | ⟨owner, b, hr, -, ⟨-, h⟩ | ⟨-, h⟩⟩ := assign_cases s f name v
  all_goals simp [h, hr, answer]

theorem assign_constant_iff : answer (assign f name v s) = .error (.constant name) ↔
    ∃ owner b, s.Sees f name owner ∧ s.own? owner name = some b ∧ b.constant = true := by
  have hfound : ∀ owner b, s.Sees f name owner → s.own? owner name = some b →
      s.resolve? f name = some owner := fun owner b hsees hb =>
    resolve?_eq_some.mpr ⟨hsees, by rw [has_eq_isSome, hb, Option.isSome_some]⟩
  obtain ⟨hr, h⟩ | ⟨owner, b, hr, hb, ⟨hc, h⟩ | ⟨hc, h⟩⟩ := assign_cases s f name v
  · rw [h]
    refine ⟨nofun, ?_⟩
    rintro ⟨owner, b, hsees, hb, -⟩
    rw [hfound owner b hsees hb] at hr
    cases hr
  · rw [h]
    exact ⟨fun _ => ⟨owner, b, (resolve?_eq_some.mp hr).1, hb, hc⟩, fun _ => rfl⟩
  · rw [h]
    refine ⟨nofun, ?_⟩
    rintro ⟨o, c, hsees, hown, hconst⟩
    obtain rfl := Option.some.inj (hr.symm.trans (hfound o c hsees hown))
    obtain rfl := Option.some.inj (hb.symm.trans hown)
    rw [hc] at hconst
    cases hconst

variable {s f name v constant} {w : Value} {t : Store} {cause : Cause}

theorem declare_error (h : declare f name v constant s = .error cause t) :
    cause = .redeclared name ∧ t = s := by
  obtain ⟨-, hd⟩ | ⟨-, hd⟩ := declare_cases s f name v constant
  · cases hd.symm.trans h
    exact ⟨rfl, rfl⟩
  · cases hd.symm.trans h

theorem assign_error (h : assign f name v s = .error cause t) :
    (cause = .undeclared name ∨ cause = .constant name) ∧ t = s := by
  obtain ⟨-, ha⟩ | ⟨owner, b, -, -, ⟨-, ha⟩ | ⟨-, ha⟩⟩ := assign_cases s f name v
  · cases ha.symm.trans h
    exact ⟨.inl rfl, rfl⟩
  · cases ha.symm.trans h
    exact ⟨.inr rfl, rfl⟩
  · cases ha.symm.trans h

theorem declare_ok (h : declare f name v constant s = .ok w t) :
    s.has f name = false ∧ w = v ∧ t = s.modify f (·.declare ⟨name, v, constant⟩) := by
  obtain ⟨-, hd⟩ | ⟨hn, hd⟩ := declare_cases s f name v constant
  · cases hd.symm.trans h
  · cases hd.symm.trans h
    exact ⟨hn, rfl, rfl⟩

theorem assign_ok (h : assign f name v s = .ok w t) :
    ∃ owner, s.resolve? f name = some owner ∧ w = v ∧ t = s.modify owner (·.update name v) := by
  obtain ⟨-, ha⟩ | ⟨owner, b, hr, -, ⟨-, ha⟩ | ⟨-, ha⟩⟩ := assign_cases s f name v
  · cases ha.symm.trans h
  · cases ha.symm.trans h
  · cases ha.symm.trans h
    exact ⟨owner, hr, rfl, rfl⟩

end Outcomes

/-- What declarations and assignments do to a forest of frames, however it came about. A declaration
fails only where the frame itself has the name, an assignment only if no frame on the way outwards
has it or the nearest one holds it constant, and then nothing changes. An assignment is seen from
the frames that find the name in the same frame, a declaration from those that meet no nearer frame
with the name; for all others, and for other names, look-ups give what they gave before. -/
theorem frames_law (s : Store) (f : FrameId) (name : String) (v : Value) (constant : Bool) :
    (answer (declare f name v constant s) = .error (.redeclared name) ↔ s.has f name = true) ∧
    (answer (assign f name v s) = .error (.undeclared name) ↔
      ∀ passed g, s.Path f passed g → s.has g name = false) ∧
    (answer (assign f name v s) = .error (.constant name) ↔
      ∃ owner b, s.Sees f name owner ∧ s.own? owner name = some b ∧ b.constant = true) ∧
    (∀ cause t, declare f name v constant s = .error cause t →
      cause = .redeclared name ∧ t = s) ∧
    (∀ cause t, assign f name v s = .error cause t →
      (cause = .undeclared name ∨ cause = .constant name) ∧ t = s) ∧
    (∀ w t, assign f name v s = .ok w t → w = v ∧ ∀ g m,
      (m = name ∧ s.resolve? g name = s.resolve? f name → answer (lookup g m t) = .ok v) ∧
      (¬ (m = name ∧ s.resolve? g name = s.resolve? f name) →
        answer (lookup g m t) = answer (lookup g m s))) ∧
    (f < s.frames.size → ∀ w t, declare f name v constant s = .ok w t → w = v ∧ ∀ g m,
      (m = name ∧ s.Sees g name f → answer (lookup g m t) = .ok v) ∧
      (¬ (m = name ∧ s.Sees g name f) → answer (lookup g m t) = answer (lookup g m s))) := by
  refine ⟨declare_fails_iff .., assign_undeclared_iff .., assign_constant_iff ..,
    fun cause t h => declare_error h, fun cause t h => assign_error h, fun w t h => ?_,
    fun hf w t h => ?_⟩
  · obtain ⟨owner, ho, hw, rfl⟩ := assign_ok h
    refine ⟨hw, fun g m => ⟨?_, fun hother => ?_⟩⟩
    · rintro ⟨rfl, hg⟩
      exact lookup_update_owner (resolve?_eq_some.mp ho).2 (hg.trans ho)
    · exact lookup_update_other fun hm => hother ⟨hm.1, hm.2.trans ho.symm⟩
  · obtain ⟨hn, hw, rfl⟩ := declare_ok h
    refine ⟨hw, fun g m => ⟨?_, lookup_declare_unseen hf hn⟩⟩
    rintro ⟨rfl, hsees⟩
    exact lookup_declare_seen hf hn hsees

/-- A frame with `n` and a constant, two frames inside it, of which one has an `n` of its own, and a
frame inside the other. -/
def nested : Store :=
  ⟨#[⟨none, [⟨"n", .number 1, false⟩, ⟨"k", .null, true⟩]⟩, ⟨some 0, []⟩,
    ⟨some 0, [⟨"n", .number 7, false⟩]⟩, ⟨some 1, []⟩]⟩

theorem frames_law_nested :
    (∃ t, assign 3 "n" (.bool true) nested = .ok (.bool true) t ∧
      answer (lookup 1 "n" t) = .ok (.bool true) ∧
      answer (lookup 2 "n" t) = answer (lookup 2 "n" nested)) ∧
    (∃ t, 1 < nested.frames.size ∧ declare 1 "n" (.bool true) false nested = .ok (.bool true) t ∧
      answer (lookup 3 "n" t) = .ok (.bool true) ∧
      answer (lookup 0 "n" t) = answer (lookup 0 "n" nested)) ∧
    answer (assign 3 "k" .null nested) = .error (.constant "k") := by
  -- from the innermost frame the outermost `n` is given a new value, until the frame between them
  -- has an `n` too; the frame beside them sees neither
  obtain ⟨-, -, -, -, -, hassign, -⟩ := frames_law nested 3 "n" (.bool true) false
  obtain ⟨-, -, -, -, -, -, hdeclare⟩ := frames_law nested 1 "n" (.bool true) false
  obtain ⟨-, -, hconstant, -⟩ := frames_law nested 3 "k" .null false
  have hsees : nested.Sees 3 "n" 1 := ⟨[3], .outwards rfl (.here 1), by decide⟩
  refine ⟨⟨_, rfl, ?_, ?_⟩, ⟨_, by decide, rfl, ?_, ?_⟩, ?_⟩
  · exact ((hassign _ _ rfl).2 1 "n").1 ⟨rfl, rfl⟩
  · exact ((hassign _ _ rfl).2 2 "n").2 (by decide)
  · exact ((hdeclare (by decide) _ _ rfl).2 3 "n").1 ⟨rfl, hsees⟩
  · refine ((hdeclare (by decide) _ _ rfl).2 0 "n").2 fun h => ?_
    obtain ⟨-, passed, hpath, -⟩ := h
    cases hpath with
    | outwards hp _ => cases hp
  · have houter : nested.Sees 3 "k" 0 :=
      ⟨[3, 1], .outwards rfl (.outwards rfl (.here 0)), by decide⟩
    exact hconstant.mpr ⟨0, _, houter, rfl, rfl⟩

end Access

end Bahasa
