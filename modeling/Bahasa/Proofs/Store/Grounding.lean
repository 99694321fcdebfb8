import Bahasa.Proofs.Store.Growth
import Bahasa.Proofs.Store.Walk
import Bahasa.Proofs.Value.Like

namespace Bahasa

/-- The functions in the value, at whatever depth of its objects, remember some of the first `n`
frames. -/
def Value.Rooted (n : Nat) (v : Value) : Prop :=
  ∀ g, v.Captures g → g < n

namespace Value

variable {n m : Nat} {v key : Value} {slots : List (String × Value)}

theorem Rooted.mono (h : v.Rooted n) (hm : n ≤ m) : v.Rooted m :=
  fun g hg => Nat.lt_of_lt_of_le (h g hg) hm

def Among (n : Nat) (g g' : FrameId) : Prop :=
  g' = g ∧ g < n

mutual

theorem Like.captured {v v' : Value} (h : v.Like (Among n) v') : v.Rooted n := by
  intro g hg
  cases h with
  | object hs =>
    cases hg with
    | object hm hg => exact hs.captured _ hm g hg
  | function name params body hf =>
    cases hg
    exact hf.2
  | _ => cases hg

theorem SlotsLike.captured {slots slots' : List (String × Value)}
    (h : SlotsLike (Among n) slots slots') : ∀ slot ∈ slots, slot.2.Rooted n := by
  intro slot hm
  cases h with
  | nil => cases hm
  | cons key hv hs =>
    obtain rfl | hm := List.mem_cons.mp hm
    · exact hv.captured
    · exact hs.captured slot hm

end

theorem rooted_iff : v.Rooted n ↔ v.Like (Among n) v :=
  ⟨fun h => v.like_self fun g hg => ⟨rfl, h g hg⟩, Like.captured⟩

theorem Rooted.plain (h : ∀ g, ¬ v.Captures g) : v.Rooted n :=
  fun g hg => absurd hg (h g)

theorem Rooted.null : Rooted n .null :=
  .plain nofun

end Value

namespace Store

variable {s : Store}

/-- Each frame stands inside one that was made before it, and all functions are rooted. -/
structure Grounded (s : Store) : Prop where
  parents : ∀ {id f p}, s.frame? id = some f → f.parent = some p → p < id
  values : ∀ {id f b}, s.frame? id = some f → b ∈ f.bindings → b.value.Rooted s.frames.size

theorem frame?_lt {id : FrameId} {f : Frame} (h : s.frame? id = some f) : id < s.frames.size :=
  (Array.getElem?_eq_some_iff.mp h).1

theorem frame?_of_lt {id : FrameId} (h : id < s.frames.size) : ∃ f, s.frame? id = some f :=
  ⟨_, Array.getElem?_eq_getElem h⟩

namespace Grounded

theorem add (h : s.Grounded) {f : Frame} (hp : ∀ p, f.parent = some p → p < s.frames.size)
    (hv : ∀ b ∈ f.bindings, b.value.Rooted s.frames.size) : Grounded ⟨s.frames.push f⟩ := by
  have hframe : ∀ {id g}, Store.frame? ⟨s.frames.push f⟩ id = some g →
      id = s.frames.size ∧ g = f ∨ s.frame? id = some g := by
    intro id g hg
    simp only [Store.frame?, Array.getElem?_push] at hg
    split at hg
    · next hid =>
      cases hg
      exact .inl ⟨hid, rfl⟩
    · exact .inr hg
  have hsize : s.frames.size ≤ (s.frames.push f).size := by simp
  refine ⟨fun hg hpar => ?_, fun hg hb => ?_⟩
  · obtain ⟨rfl, rfl⟩ | hold := hframe hg
    · exact hp _ hpar
    · exact h.parents hold hpar
  · obtain ⟨-, rfl⟩ | hold := hframe hg
    · exact (hv _ hb).mono hsize
    · exact (h.values hold hb).mono hsize

theorem push (h : s.Grounded) {parent : Option FrameId}
    (hp : ∀ p, parent = some p → p < s.frames.size) : (s.push parent).2.Grounded :=
  h.add (f := .empty parent) hp nofun

theorem modify (h : s.Grounded) (id : FrameId) {k : Frame → Frame}
    (hp : ∀ f, (k f).parent = f.parent)
    (hk : ∀ f, ∀ b ∈ (k f).bindings, b ∈ f.bindings ∨ b.value.Rooted s.frames.size) :
    (s.modify id k).Grounded := by
  have hframe : ∀ {j g}, (s.modify id k).frame? j = some g →
      ∃ f, s.frame? j = some f ∧ (g = f ∨ g = k f) := by
    intro j g hg
    rw [frame?_modify] at hg
    split at hg
    · obtain ⟨f, hf, rfl⟩ := Option.map_eq_some_iff.mp hg
      exact ⟨f, hf, .inr rfl⟩
    · exact ⟨g, hg, .inl rfl⟩
  have hsize : (s.modify id k).frames.size = s.frames.size := Array.size_modify
  refine ⟨fun hg hpar => ?_, fun hg hb => ?_⟩
  · obtain ⟨f, hf, rfl | rfl⟩ := hframe hg
    · exact h.parents hf hpar
    · exact h.parents hf ((hp f).symm.trans hpar)
  · rw [hsize]
    obtain ⟨f, hf, rfl | rfl⟩ := hframe hg
    · exact h.values hf hb
    · obtain hold | hnew := hk f _ hb
      · exact h.values hf hold
      · exact hnew

theorem declare (h : s.Grounded) (id : FrameId) (name : String) {v : Value}
    (hv : v.Rooted s.frames.size) (constant : Bool) :
    (s.modify id (·.declare ⟨name, v, constant⟩)).Grounded := by
  refine h.modify id (fun _ => rfl) fun f b hb => ?_
  obtain hb | hb := List.mem_append.mp hb
  · exact .inl hb
  · obtain rfl := List.mem_singleton.mp hb
    exact .inr hv

theorem update (h : s.Grounded) (id : FrameId) (name : String) {v : Value}
    (hv : v.Rooted s.frames.size) : (s.modify id (·.update name v)).Grounded := by
  refine h.modify id (fun _ => rfl) fun f b hb => ?_
  obtain hb | hb := Binding.mem_set hb
  · exact .inl hb
  · exact .inr (hb ▸ hv)

theorem binding? (h : s.Grounded) {id : FrameId} {name : String} {b : Binding}
    (hb : s.binding? id name = some b) : b.value.Rooted s.frames.size := by
  obtain ⟨owner, -, hb⟩ := Option.bind_eq_some_iff.mp hb
  obtain ⟨f, hf, hb⟩ := Option.bind_eq_some_iff.mp hb
  exact h.values hf (List.mem_of_find?_eq_some hb)

end Grounded

/-- The search for a name from a frame outwards, with how many frames are looked at and where the
name is found, if it is. Nothing bounds the search but the frames themselves. -/
inductive Search (s : Store) (name : String) : FrameId → Nat → Option FrameId → Prop
  | found {id : FrameId} {f : Frame} (hf : s.frame? id = some f) (hn : f.has name = true) :
      Search s name id 1 (some id)
  | outermost {id : FrameId} {f : Frame} (hf : s.frame? id = some f) (hn : f.has name = false)
      (hp : f.parent = none) : Search s name id 1 none
  | outwards {id p : FrameId} {f : Frame} {looked : Nat} {owner? : Option FrameId}
      (hf : s.frame? id = some f) (hn : f.has name = false) (hp : f.parent = some p)
      (h : Search s name p looked owner?) : Search s name id (looked + 1) owner?

theorem Search.resolveWithin_eq {name : String} {id : FrameId} {looked : Nat}
    {owner? : Option FrameId} (h : s.Search name id looked owner?) {steps : Nat}
    (hs : looked ≤ steps) : s.resolveWithin name steps id = owner? := by
  induction h generalizing steps with
  | found hf hn =>
    cases steps with
    | zero => exact absurd hs (by simp)
    | succ steps => simp only [resolveWithin, hf, hn, if_true]
  | outermost hf hn hp =>
    cases steps with
    | zero => exact absurd hs (by simp)
    | succ steps => simp only [resolveWithin, hf, hn, hp, Bool.false_eq_true, if_false]
  | outwards hf hn hp _ ih =>
    cases steps with
    | zero => exact absurd hs (by simp)
    | succ steps =>
      have htail := ih (Nat.le_of_succ_le_succ hs)
      simp only [resolveWithin, hf, hn, hp, Bool.false_eq_true, if_false, htail]

theorem Grounded.exists_search (h : s.Grounded) (name : String) {id : FrameId}
    (hid : id < s.frames.size) :
    ∃ looked owner?, looked ≤ id + 1 ∧ s.Search name id looked owner? := by
  induction id using Nat.strongRecOn with
  | ind id ih =>
    obtain ⟨f, hf⟩ := frame?_of_lt hid
    cases hn : f.has name with
    | true => exact ⟨1, some id, Nat.le_add_left 1 id, .found hf hn⟩
    | false =>
      cases hp : f.parent with
      | none => exact ⟨1, none, Nat.le_add_left 1 id, .outermost hf hn hp⟩
      | some p =>
        have hlt := h.parents hf hp
        obtain ⟨looked, owner?, hle, hsearch⟩ := ih p hlt (Nat.lt_trans hlt hid)
        have hnext : looked + 1 ≤ id + 1 := Nat.succ_le_succ (Nat.le_trans hle hlt)
        exact ⟨looked + 1, owner?, hnext, .outwards hf hn hp hsearch⟩

theorem Grounded.search (h : s.Grounded) (name : String) {id : FrameId}
    (hid : id < s.frames.size) :
    ∃ looked ≤ s.frames.size, s.Search name id looked (s.resolve? id name) := by
  obtain ⟨looked, owner?, hle, hsearch⟩ := h.exists_search name hid
  have hsize : looked ≤ s.frames.size := Nat.le_trans hle hid
  have heq : s.resolve? id name = owner? := hsearch.resolveWithin_eq hsize
  exact ⟨looked, hsize, heq ▸ hsearch⟩

end Store

end Bahasa
