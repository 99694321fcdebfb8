import Bahasa.Node.Basic

namespace Bahasa

namespace Node

mutual

def mapPlaces (g : Option Place → Option Place) : Node → Node
  | .tree label children p => .tree label (mapPlacesAll g children) (g p)
  | .leaf kind text p => .leaf kind text (g p)
  | .absent => .absent
  | .datum d => .datum d

def mapPlacesAll (g : Option Place → Option Place) : List Node → List Node
  | [] => []
  | n :: ns => mapPlaces g n :: mapPlacesAll g ns

end

variable {g h : Option Place → Option Place}

@[simp] theorem mapPlacesAll_eq (ns : List Node) : mapPlacesAll g ns = ns.map (mapPlaces g) := by
  induction ns with
  | nil => rfl
  | cons n ns ih => rw [mapPlacesAll, ih, List.map_cons]

@[simp] theorem mapPlaces_tree (label : Label) (children : List Node) (p : Option Place) :
    mapPlaces g (.tree label children p) = .tree label (children.map (mapPlaces g)) (g p) := by
  rw [mapPlaces, mapPlacesAll_eq]

@[simp] theorem mapPlaces_leaf (kind : LeafKind) (text : String) (p : Option Place) :
    mapPlaces g (.leaf kind text p) = .leaf kind text (g p) := rfl

@[simp] theorem mapPlaces_absent : mapPlaces g .absent = .absent := rfl

@[simp] theorem mapPlaces_datum (d : Datum) : mapPlaces g (.datum d) = .datum d := rfl

mutual

theorem mapPlaces_mapPlaces (n : Node) : mapPlaces g (mapPlaces h n) = mapPlaces (g ∘ h) n := by
  cases n with
  | tree label children p =>
    simp only [mapPlaces_tree, List.map_map, Function.comp_apply, tree.injEq, true_and, and_true]
    exact map_mapPlaces_mapPlaces children
  | leaf kind text p => simp
  | absent => simp
  | datum d => simp

theorem map_mapPlaces_mapPlaces (ns : List Node) :
    ns.map (mapPlaces g ∘ mapPlaces h) = ns.map (mapPlaces (g ∘ h)) := by
  cases ns with
  | nil => rfl
  | cons n ns =>
    rw [List.map_cons, List.map_cons, Function.comp_apply, mapPlaces_mapPlaces n,
      map_mapPlaces_mapPlaces ns]

end

mutual

theorem mapPlaces_id (n : Node) : mapPlaces id n = n := by
  cases n with
  | tree label children p => rw [mapPlaces_tree, map_mapPlaces_id children, id_eq]
  | leaf kind text p => rw [mapPlaces_leaf, id_eq]
  | absent => rw [mapPlaces_absent]
  | datum d => rw [mapPlaces_datum]

theorem map_mapPlaces_id (ns : List Node) : ns.map (mapPlaces id) = ns := by
  cases ns with
  | nil => rfl
  | cons n ns => rw [List.map_cons, mapPlaces_id n, map_mapPlaces_id ns]

end

def bare (n : Node) : Node :=
  mapPlaces (fun _ => none) n

@[simp] theorem bare_tree (label : Label) (children : List Node) (p : Option Place) :
    bare (.tree label children p) = .tree label (children.map bare) none :=
  mapPlaces_tree label children p

@[simp] theorem bare_leaf (kind : LeafKind) (text : String) (p : Option Place) :
    bare (.leaf kind text p) = .leaf kind text none :=
  mapPlaces_leaf kind text p

@[simp] theorem bare_build (label : Label) (children : List Node) (t : Token) :
    bare (build label children t) = .tree label (children.map bare) none :=
  bare_tree ..

@[simp] theorem bare_ofToken (kind : LeafKind) (t : Token) :
    bare (ofToken kind t) = .leaf kind t.text none :=
  bare_leaf ..

theorem bare_mapPlaces (n : Node) : (mapPlaces g n).bare = n.bare :=
  mapPlaces_mapPlaces n

def relocate (f : Place → Place) : Node → Node :=
  mapPlaces (Option.map f)

variable {f : Place → Place}

@[simp] theorem relocate_tree (label : Label) (children : List Node) (p : Option Place) :
    relocate f (.tree label children p) = .tree label (children.map (relocate f)) (p.map f) :=
  mapPlaces_tree label children p

@[simp] theorem relocate_leaf (kind : LeafKind) (text : String) (p : Option Place) :
    relocate f (.leaf kind text p) = .leaf kind text (p.map f) :=
  mapPlaces_leaf kind text p

@[simp] theorem relocate_absent : relocate f .absent = .absent :=
  mapPlaces_absent

@[simp] theorem relocate_datum (d : Datum) : relocate f (.datum d) = .datum d :=
  mapPlaces_datum d

theorem relocate_relocate (g : Place → Place) (n : Node) :
    relocate g (relocate f n) = relocate (g ∘ f) n := by
  unfold relocate
  rw [mapPlaces_mapPlaces, Option.map_comp_map]

theorem relocate_id (n : Node) : relocate id n = n := by
  rw [relocate, Option.map_id, mapPlaces_id]

theorem relocate_all_id (ns : List Node) : ns.map (relocate id) = ns :=
  (List.map_congr_left fun n _ => n.relocate_id).trans (List.map_id ns)

@[simp] theorem bare_relocate (n : Node) : (relocate f n).bare = n.bare :=
  bare_mapPlaces n

end Node

/-- A way to move the positions of tokens, and with them the places of nodes. -/
structure Motion where
  position : Position → Position
  place : Place → Place
  agrees : ∀ p, (position p).place = place p.place

namespace Motion

def gather : Motion where
  position _ := ⟨0, 0⟩
  place _ := ⟨0, some 0⟩
  agrees _ := rfl

def down (lines : Int) : Motion where
  position p := ⟨p.line + lines, p.column⟩
  place p := ⟨p.line + lines, p.column⟩
  agrees _ := rfl

end Motion

def Token.move (m : Motion) (t : Token) : Token :=
  { t with position := m.position t.position }

@[simp] theorem Token.move_kind (m : Motion) (t : Token) : (t.move m).kind = t.kind := rfl

namespace Node

def move (m : Motion) : Node → Node :=
  relocate m.place

variable {m : Motion}

@[simp] theorem move_absent : move m .absent = .absent :=
  relocate_absent

@[simp] theorem move_build (label : Label) (children : List Node) (t : Token) :
    move m (.build label children t) = .build label (children.map (move m)) (t.move m) := by
  simp [move, build, Token.move, m.agrees]

@[simp] theorem move_ofToken (kind : LeafKind) (t : Token) :
    move m (.ofToken kind t) = .ofToken kind (t.move m) := by
  simp [move, ofToken, Token.move, m.agrees]

@[simp] theorem bare_move (n : Node) : (move m n).bare = n.bare :=
  bare_relocate n

end Node

end Bahasa
