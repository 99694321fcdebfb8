import Bahasa.Proofs.Eval.Pairing

namespace Bahasa

/-- What a rule can rely on: its node and those inside it suit their rules, and it may ask for
those that have one. -/
structure Given (K : Pairing) (R : Rights) (n : Node) : Prop where
  regular : K.strays ∨ n.regular
  inside : ∀ x : Node, x.Within n → K.strays ∨ x.regular
  asks : ∀ x : Node, x.Within n → K.strays ∨ x.evaluable → R.asks x

namespace Given

variable {K : Pairing} {R : Rights} {n c : Node}

theorem child (h : Given K R n) (hc : c ∈ n.children) : Given K R c :=
  ⟨h.inside c (.child hc), fun x hx => h.inside x (.deeper hx hc),
    fun x hx => h.asks x (.deeper hx hc)⟩

theorem ask (h : Given K R n) (hc : c ∈ n.children) (he : K.strays ∨ c.evaluable) : R.asks c :=
  h.asks c (.child hc) he

theorem irregular (h : Given K R n) (hn : n.regular = false) : K.strays :=
  h.regular.resolve_right (by simp [hn])

theorem suits {label : Label} (h : Given K R n) (hs : K.strays ∨ n.has label) :
    K.strays ∨ Node.suits label n.children :=
  hs.elim .inl fun hl => Node.regular_of_has hl ▸ h.regular

theorem each {label : Label} (h : Given K R n) (hs : K.strays ∨ n.has label)
    (hl : ∀ ns, Node.suits label ns = ns.all (·.evaluable)) : ∀ c ∈ n.children, R.asks c := by
  refine fun c hc => h.ask hc ((h.suits hs).imp_right fun hall => ?_)
  rw [hl, List.all_eq_true] at hall
  exact hall c hc

section Flanks

variable {label : Label} {children : List Node} {p : Option Place}
  (h : Given K R (.tree label children p)) (hs : K.strays ∨ Node.flanked children)

include hs

theorem nonempty : K.strays ∨ children ≠ [] := by
  refine hs.imp_right ?_
  rintro hf rfl
  cases hf

include h

theorem first {c : Node} (hc : children.head? = some c) : R.asks c :=
  h.ask (List.mem_of_head? hc) (hs.imp_right fun hf => by simp_all [Node.flanked])

theorem last {c : Node} (hc : children.getLast? = some c) : R.asks c :=
  h.ask (List.mem_of_getLast? hc) (hs.imp_right fun hf => by simp_all [Node.flanked])

end Flanks

theorem of_strays (hs : K.strays) (h : ∀ x : Node, x.Within n → R.asks x) : Given K R n :=
  ⟨.inl hs, fun _ _ => .inl hs, fun x hx _ => h x hx⟩

end Given

namespace Eval

variable {host : Host} {K : Pairing} {R : Rights} {size : Nat} {frame frame' : FrameId} {α : Type}

theorem stuck_paired {Q : K.Yield α} (h : K.strays) :
    Paired host K R size frame frame' Q (fun _ => throw .stuck) fun _ => throw .stuck :=
  .fail (.stuck h)

theorem raise_paired {Q : K.Yield α} (h : K.strays) {cause cause' : Cause}
    (hc : ∀ v, cause ≠ .notCallable v) (heq : cause.relocate K.place = cause') :
    Paired host K R size frame frame' Q (fun _ => Run.raise cause) fun _ => Run.raise cause' := by
  subst heq
  exact .fail (.malformed h hc)

section Expressions

theorem identifier_paired (role : NameRole) {n : Node} (h : K.strays ∨ n.ident?.isSome) :
    Paired host K R size frame frame' K.same (fun _ => identifier role n)
      fun _ => identifier role (n.relocate K.place) := by
  unfold identifier
  rw [Node.ident?_relocate]
  cases hn : n.ident? with
  | none =>
    have hs : K.strays := h.resolve_right (by simp [hn])
    exact raise_paired hs (by simp) rfl
  | some name => exact .pure rfl

theorem target_paired (operator : String) (n : Node) :
    Paired host K R size frame frame' K.same (fun _ => target operator n)
      fun _ => target operator (n.relocate K.place) := by
  unfold target
  rw [Node.ident?_relocate]
  cases n.ident? with
  | none => exact .fail (.target operator n)
  | some name => exact .pure rfl

theorem leaf_paired {kind : LeafKind} {text : String} {p : Option Place}
    (h : K.strays ∨ (Node.leaf kind text p).regular)
    (he : K.strays ∨ (Node.leaf kind text p).evaluable) :
    Paired host K R size frame frame' K.value (fun _ => leaf kind text (.leaf kind text p) frame)
      fun _ => leaf kind text ((Node.leaf kind text p).relocate K.place) frame' := by
  unfold leaf
  cases kind with
  | number =>
    cases ht : Decimal.read? text with
    | none => exact stuck_paired (h.resolve_right (by simp [Node.regular, ht]))
    | some x => exact .pure (.number x)
  | string => exact .pure (.string text)
  | ident => exact .lookup text
  | _ => exact raise_paired (he.resolve_right (by simp [Node.evaluable])) (by simp) rfl

theorem all_paired {ns : List Node} (h : ∀ n ∈ ns, R.asks n) :
    Paired host K R size frame frame' K.values (fun eval => all eval frame ns)
      fun eval => all eval frame' (ns.map (Node.relocate K.place)) := by
  induction ns generalizing size with
  | nil => exact .pure .nil
  | cons n ns ih =>
    obtain ⟨hn, hns⟩ := List.forall_mem_cons.mp h
    refine .bind (.ask hn) fun _ v v' _ hv => ?_
    exact .bind (ih hns) fun _ vs vs' hs hvs => .pure (.cons (hv.grow hs) hvs)

theorem sequence_paired {ns : List Node} (h : ∀ n ∈ ns, R.asks n) {last last' : Value}
    (hl : K.Values size last last') :
    Paired host K R size frame frame' K.value (fun eval => sequence eval frame last ns)
      fun eval => sequence eval frame' last' (ns.map (Node.relocate K.place)) := by
  induction ns generalizing size last last' with
  | nil => exact .pure hl
  | cons n ns ih =>
    obtain ⟨hn, hns⟩ := List.forall_mem_cons.mp h
    exact .bind (.ask hn) fun _ v v' _ hv => ih hns hv

def Link.relocate (f : Place → Place) (link : Link) : Link :=
  ⟨link.label, link.children.map (Node.relocate f)⟩

theorem spine_relocate (f : Place → Place) (family : Label → Bool) (links : List Link) :
    (n : Node) → spine family (links.map (Link.relocate f)) (n.relocate f) =
      (spine family links n).map fun x => (x.1.relocate f, x.2.map (Link.relocate f))
  | .tree label [] p => by
    rw [Node.relocate_tree, List.map_nil, spine, spine]
    by_cases h : family label = true
    · rw [if_pos h, if_pos h]
      rfl
    · rw [if_neg h, if_neg h, Option.map_some, Node.relocate_tree]
      rfl
  | .tree label (first :: rest) p => by
    have ih := spine_relocate f family (⟨label, first :: rest⟩ :: links) first
    rw [Node.relocate_tree, List.map_cons, spine, spine]
    by_cases h : family label = true
    · rw [if_pos h, if_pos h, ← ih]
      rfl
    · rw [if_neg h, if_neg h, Option.map_some, Node.relocate_tree, List.map_cons]
  | .leaf .. => rfl
  | .absent => rfl
  | .datum _ => rfl

/-- A link of a chain that can be joined to what stands on its left. -/
structure Joins (host : Host) (K : Pairing) (R : Rights) (join : Link → Value → Value → Run Value)
    (link : Link) : Prop where
  operand : K.strays ∨ link.children ≠ []
  asks : ∀ n, link.children.getLast? = some n → R.asks n
  paired : ∀ {size frame frame' a a' b b'}, K.Values size a a' → K.Values size b b' →
    Paired host K R size frame frame' K.value (fun _ => join link a b)
      fun _ => join (link.relocate K.place) a' b'

structure Chained (host : Host) (K : Pairing) (R : Rights) (family : Label → Bool)
    (join : Link → Value → Value → Run Value) : Prop where
  flanked : ∀ {label children p}, family label = true → Given K R (.tree label children p) →
    K.strays ∨ Node.flanked children
  paired : ∀ {label children p size frame frame' a a' b b'}, family label = true →
    Given K R (.tree label children p) → K.Values size a a' → K.Values size b b' →
    Paired host K R size frame frame' K.value (fun _ => join ⟨label, children⟩ a b)
      fun _ => join (Link.relocate K.place ⟨label, children⟩) a' b'

section Chains

variable {family : Label → Bool} {join : Link → Value → Value → Run Value}

theorem spine_given (hf : Chained host K R family join) {n : Node} (links : List Link)
    (hn : Given K R n) (ha : (∃ label, n.label? = some label ∧ family label = true) ∨ R.asks n)
    (hl : ∀ link ∈ links, Joins host K R join link) :
    K.strays ∧ spine family links n = none ∨
      ∃ operand more, spine family links n = some (operand, more) ∧ R.asks operand ∧
        ∀ link ∈ more, Joins host K R join link := by
  fun_induction spine family links n with
  | case1 links label p h =>
    exact .inl ⟨(Given.nonempty (hf.flanked h hn)).resolve_right (absurd rfl), rfl⟩
  | case2 links label p h =>
    refine .inr ⟨_, _, rfl, ha.resolve_left ?_, hl⟩
    rintro ⟨_, ⟨⟩, hlabel⟩
    exact h hlabel
  | case3 links label first rest p h ih =>
    have hflanked := hf.flanked h hn
    refine ih (hn.child (List.mem_cons_self ..)) (.inr (hn.first hflanked rfl)) ?_
    refine List.forall_mem_cons.mpr ⟨?_, hl⟩
    exact ⟨Given.nonempty hflanked, fun _ => hn.last hflanked, hf.paired h hn⟩
  | case4 links label first rest p h =>
    refine .inr ⟨_, _, rfl, ha.resolve_left ?_, hl⟩
    rintro ⟨_, ⟨⟩, hlabel⟩
    exact h hlabel
  | case5 links n hnil hcons =>
    refine .inr ⟨_, _, rfl, ha.resolve_left ?_, hl⟩
    rintro ⟨label, hlabel, -⟩
    cases n with
    | tree label' children p =>
      cases children with
      | nil => exact hnil _ _ rfl
      | cons first rest => exact hcons _ _ _ _ rfl
    | _ => cases hlabel

theorem fold_paired {links : List Link} (hl : ∀ link ∈ links, Joins host K R join link)
    {left left' : Value} (hv : K.Values size left left') :
    Paired host K R size frame frame' K.value (fun eval => fold eval frame join left links)
      fun eval => fold eval frame' join left' (links.map (Link.relocate K.place)) := by
  induction links generalizing size left left' with
  | nil => exact .pure hv
  | cons link links ih =>
    obtain ⟨hlink, hlinks⟩ := List.forall_mem_cons.mp hl
    have hlast : (link.relocate K.place).children.getLast? =
        link.children.getLast?.map (Node.relocate K.place) := List.getLast?_map
    simp only [List.map_cons, fold, hlast]
    cases ho : link.children.getLast? with
    | none =>
      exact stuck_paired (hlink.operand.resolve_right fun h => h (List.getLast?_eq_none_iff.mp ho))
    | some operand =>
      refine .bind (.ask (hlink.asks operand ho)) fun _ right right' hs hr => ?_
      exact .bind (hlink.paired (hv.grow hs) hr) fun _ v v' _ hv => ih hlinks hv

theorem chain_paired (hf : Chained host K R family join) {label : Label} {children : List Node}
    {p : Option Place} (hlabel : family label = true) (h : Given K R (.tree label children p)) :
    Paired host K R size frame frame' K.value
      (fun eval => chain eval frame family join (.tree label children p))
      fun eval => chain eval frame' family join
        ((Node.tree label children p).relocate K.place) := by
  have hright := spine_relocate K.place family [] (.tree label children p)
  rw [List.map_nil] at hright
  unfold chain
  rw [hright]
  obtain ⟨hs, hnone⟩ | ⟨operand, links, hsome, hoperand, hlinks⟩ :=
    spine_given hf [] h (.inl ⟨label, rfl, hlabel⟩) (by simp)
  · rw [hnone]
    exact stuck_paired hs
  · rw [hsome]
    exact .bind (.ask hoperand) fun _ left left' _ hv => fold_paired hlinks hv

end Chains

theorem arithmetic_chained : Chained host K R (· = .binop) joinArith where
  flanked {label children p} hlabel h := by
    obtain rfl : label = .binop := by simpa using hlabel
    exact h.regular.imp_right fun hr => by simp_all [Node.regular, Node.suits]
  paired {label children p size frame frame' a a' b b'} hlabel h ha hb := by
    obtain rfl : label = .binop := by simpa using hlabel
    have hs : K.strays ∨ (Node.sign? children).isSome :=
      h.regular.imp_right fun hr => by simp_all [Node.regular, Node.suits]
    match children with
    | _ :: .leaf _ sign _ :: _ =>
      simp only [Link.relocate, List.map_cons, Node.relocate_leaf, joinArith, arithmetic]
      cases hop : Arith.ofSign? sign with
      | none => exact raise_paired (hs.resolve_right (by simp [Node.sign?, hop])) (by simp) rfl
      | some op => exact .pure (ha.apply op hb)
    | [] | [_] | _ :: .tree .. :: _ | _ :: .absent :: _ | _ :: .datum _ :: _ =>
      exact stuck_paired (hs.resolve_right (by simp [Node.sign?]))

theorem comparison_chained : Chained host K R (·.comparison?.isSome) joinComparison where
  flanked {label children p} hlabel h := by
    refine h.regular.imp_right fun hr => ?_
    cases label <;> first | exact hr | cases hlabel
  paired {label children p size frame frame' a a' b b'} hlabel _ ha hb := by
    obtain ⟨test, htest⟩ := Option.isSome_iff_exists.mp hlabel
    simp only [joinComparison, Link.relocate, htest]
    exact .pure (ha.compareValues test hb)

theorem connective_chained : Chained host K R (·.connective?.isSome) joinLogical where
  flanked {label children p} hlabel h := by
    refine h.regular.imp_right fun hr => ?_
    cases label <;> first | exact hr | cases hlabel
  paired {label children p size frame frame' a a' b b'} hlabel _ ha hb := by
    obtain ⟨op, hop⟩ := Option.isSome_iff_exists.mp hlabel
    simp only [joinLogical, Link.relocate, hop]
    exact .pure (ha.joinValues op hb)

theorem property_paired {ps entries : List Node} {p : Option Place}
    (h : Given K R (.tree .property ps p)) {done done' : List (String × Value)}
    (hd : K.Slots size done done')
    (hrest : ∀ size' done done', size ≤ size' → K.Slots size' done done' →
      Paired host K R size' frame frame' K.slots (fun eval => slots eval frame done entries)
        fun eval => slots eval frame' done' (entries.map (Node.relocate K.place))) :
    Paired host K R size frame frame' K.slots
      (fun eval => slots eval frame done (.tree .property ps p :: entries)) fun eval =>
        slots eval frame' done'
          ((.tree .property ps p :: entries).map (Node.relocate K.place)) := by
  rw [List.map_cons, Node.relocate_tree]
  match ps, h with
  | [key, value], h =>
    have hparts : K.strays ∨ key.ident?.isSome ∧ (value.isAbsent ∨ value.evaluable) := by
      simpa [Node.regular, Node.suits] using h.regular
    refine .bind (identifier_paired .key (hparts.imp_right And.left)) ?_
    rintro _ name _ hle rfl
    have hnext : ∀ size' v v', _ ≤ size' → K.Values size' v v' →
        Paired host K R size' frame frame' K.slots
          (fun eval => slots eval frame (setSlot name v done) entries)
          fun eval => slots eval frame' (setSlot name v' done')
            (entries.map (Node.relocate K.place)) := fun _ _ _ hle' hv =>
      have hall := Nat.le_trans hle hle'
      hrest _ _ _ hall ((hd.grow hall).set name hv)
    rw [Node.isAbsent_relocate]
    cases hvalue : value.isAbsent with
    | true => exact .bind (.lookup name) hnext
    | false =>
      have hevaluable := hparts.imp_right fun hparts => hparts.2.resolve_left (by simp [hvalue])
      exact .bind (.ask (h.ask (by simp [Node.children]) hevaluable)) hnext
  | [], h | [_], h | _ :: _ :: _ :: _, h => exact stuck_paired (h.irregular rfl)

theorem slots_paired {entries : List Node} (h : ∀ e ∈ entries, Given K R e)
    (hs : K.strays ∨ ∀ e ∈ entries, e.has .property) {done done' : List (String × Value)}
    (hd : K.Slots size done done') :
    Paired host K R size frame frame' K.slots (fun eval => slots eval frame done entries)
      fun eval => slots eval frame' done' (entries.map (Node.relocate K.place)) := by
  induction entries generalizing size done done' with
  | nil => exact .pure hd
  | cons entry entries ih =>
    obtain ⟨hentry, hentries⟩ := List.forall_mem_cons.mp h
    have hrest := hs.imp_right fun hs => (List.forall_mem_cons.mp hs).2
    have hproperty := hs.imp_right fun hs => hs entry (List.mem_cons_self ..)
    have hother (hne : ¬ entry.has .property) : K.strays := hproperty.resolve_right hne
    cases entry with
    | tree label children p =>
      cases label with
      | property => exact property_paired hentry hd fun _ _ _ _ hd => ih hentries hrest hd
      | _ =>
        rw [List.map_cons, Node.relocate_tree]
        exact raise_paired (hother (by simp [Node.has, Node.label?])) (by simp)
          (congrArg Cause.malformedEntry (Node.relocate_tree ..))
    | _ => exact raise_paired (hother (by simp [Node.has, Node.label?])) (by simp) rfl

theorem object_paired {entries : List Node} {p : Option Place}
    (h : Given K R (.tree .object entries p)) :
    Paired host K R size frame frame' K.value (fun eval => object eval frame entries)
      fun eval => object eval frame' (entries.map (Node.relocate K.place)) := by
  have hs : K.strays ∨ ∀ e ∈ entries, e.has .property := by
    simpa [Node.regular, Node.suits] using h.regular
  exact .bind (slots_paired (fun e he => h.child he) hs .nil) fun _ _ _ _ hslots =>
    .pure (.object hslots)

theorem member_paired {ns : List Node} {p : Option Place} (h : Given K R (.tree .member ns p)) :
    Paired host K R size frame frame' K.value (fun eval => member eval frame ns)
      fun eval => member eval frame' (ns.map (Node.relocate K.place)) := by
  match ns, h with
  | [receiver, name], h =>
    have hs : K.strays ∨ receiver.evaluable ∧ name.ident?.isSome := by
      simpa [Node.regular, Node.suits] using h.regular
    refine .bind (.ask (h.ask (by simp [Node.children]) (hs.imp_right And.left))) ?_
    intro _ v v' _ hv
    refine .bind (identifier_paired .property (hs.imp_right And.right)) ?_
    rintro _ key _ hsize rfl
    exact .pure ((hv.grow hsize).slot (.string key))
  | [], h | [_], h | _ :: _ :: _ :: _, h => exact stuck_paired (h.irregular rfl)

theorem index_paired {ns : List Node} {p : Option Place} (h : Given K R (.tree .index ns p)) :
    Paired host K R size frame frame' K.value (fun eval => index eval frame ns)
      fun eval => index eval frame' (ns.map (Node.relocate K.place)) := by
  match ns, h with
  | [receiver, key], h =>
    have hs : K.strays ∨ receiver.evaluable ∧ key.evaluable := by
      simpa [Node.regular, Node.suits] using h.regular
    refine .bind (.ask (h.ask (by simp [Node.children]) (hs.imp_right And.left))) ?_
    intro _ v v' _ hv
    refine .bind (.ask (h.ask (by simp [Node.children]) (hs.imp_right And.right))) ?_
    exact fun _ k k' hsize hk => .pure ((hv.grow hsize).slot hk)
  | [], h | [_], h | _ :: _ :: _ :: _, h => exact stuck_paired (h.irregular rfl)

theorem assign_paired {ns : List Node} {p : Option Place} (h : Given K R (.tree .assign ns p)) :
    Paired host K R size frame frame' K.value (fun eval => assign eval frame ns)
      fun eval => assign eval frame' (ns.map (Node.relocate K.place)) := by
  match ns, h with
  | [left, right], h =>
    have hs : K.strays ∨ left.evaluable ∧ right.evaluable := by
      simpa [Node.regular, Node.suits] using h.regular
    refine .bind (target_paired "=" left) ?_
    rintro _ name _ - rfl
    refine .bind (.ask (h.ask (by simp [Node.children]) (hs.imp_right And.right))) ?_
    exact fun _ v v' _ hv => .assign name hv
  | [], h | [_], h | _ :: _ :: _ :: _, h => exact stuck_paired (h.irregular rfl)

theorem compound_paired (op : Arith) (operator : String) {label : Label} {ns : List Node}
    {p : Option Place} (hl : label = .plusAssign ∨ label = .minusAssign)
    (h : Given K R (.tree label ns p)) :
    Paired host K R size frame frame' K.value (fun eval => compound eval frame op operator ns)
      fun eval => compound eval frame' op operator (ns.map (Node.relocate K.place)) := by
  match ns, h with
  | [left, right], h =>
    have hs : K.strays ∨ left.evaluable ∧ right.evaluable := by
      obtain rfl | rfl := hl <;> simpa [Node.regular, Node.suits] using h.regular
    refine .bind (target_paired operator left) ?_
    rintro _ name _ - rfl
    refine .bind (.ask (h.ask (by simp [Node.children]) (hs.imp_right And.left))) ?_
    intro _ current current' _ hc
    refine .bind (.ask (h.ask (by simp [Node.children]) (hs.imp_right And.right))) ?_
    intro _ delta delta' hsize hd
    have hv := (hc.grow hsize).apply op hd
    obtain hnull | ⟨x, hnumber⟩ := op.apply_cases current delta
    · rw [hnull] at hv ⊢
      rw [hv.eq_null]
      exact .pure .null
    · rw [hnumber] at hv ⊢
      rw [hv.eq_number]
      exact .assign name (.number x)
  | [], h | [_], h | _ :: _ :: _ :: _, h =>
    exact stuck_paired (h.irregular (by obtain rfl | rfl := hl <;> rfl))

end Expressions

section Calls

variable {args args' : List Value}

theorem bindParams_paired (hd : R.declares) (params : List String)
    (ha : List.Forall₂ (K.Values size) args args') :
    Paired host K R size frame frame' K.same (fun _ => bindParams frame params args)
      fun _ => bindParams frame' params args' := by
  induction params generalizing size args args' with
  | nil => exact .pure rfl
  | cons p params ih =>
    have hhead : K.Values size (args.headD .null) (args'.headD .null) := by
      cases ha with
      | nil => exact .null
      | cons ha _ => exact ha
    have htail : List.Forall₂ (K.Values size) args.tail args'.tail := by
      cases ha with
      | nil => exact .nil
      | cons _ has => exact has
    refine .bind (.declare p false hhead hd) fun _ _ _ hs _ => ih ?_
    exact htail.imp fun _ _ hv => hv.grow hs

theorem entered_paired {scope scope' : FrameId} (name : String) (params : List String)
    {body : List Node} (hb : ∀ n ∈ body, K.parts n)
    (ha : List.Forall₂ (K.Values size) args args') :
    Paired host K K.full size scope scope' K.value
      (fun eval => do
        bindParams scope params args
        if params.length < args.length then
          Run.record (.dropped name (args.length - params.length))
        sequence eval scope .null body)
      (fun eval => do
        bindParams scope' params args'
        if params.length < args'.length then
          Run.record (.dropped name (args'.length - params.length))
        sequence eval scope' .null (body.map (Node.relocate K.place))) := by
  rw [← ha.length_eq]
  refine .bind (bindParams_paired trivial params ha) fun _ _ _ _ _ => ?_
  have hbody : ∀ size', Paired host K K.full size' scope scope' K.value
      (fun eval => sequence eval scope .null body)
      fun eval => sequence eval scope' .null (body.map (Node.relocate K.place)) :=
    fun _ => sequence_paired hb .null
  split
  · exact .bind (.dropped name _) fun _ _ _ _ _ => hbody _
  · exact hbody _

theorem apply_paired (hc : R.calls) {callee callee' : Value} (hv : K.Values size callee callee')
    (ha : List.Forall₂ (K.Values size) args args') :
    Paired host K R size frame frame' K.value (fun eval => apply host eval frame callee args)
      fun eval => apply host eval frame' callee' args' := by
  have hfit := hv.fit
  have hlike := hv.like
  cases callee with
  | native name =>
    rw [Value.relocate_native] at hlike
    cases hlike
    exact .native hfit ha hc
  | function name params body home =>
    rw [Value.relocate_function] at hlike
    cases hlike with
    | function _ _ _ hhome =>
      refine .call name ha.length_eq hhome hc fun size' scope scope' hs _ => ?_
      exact entered_paired name params (K.inherits.function.mp hfit)
        (ha.imp fun _ _ hv => hv.grow hs)
  | null =>
    cases hv.eq_null
    exact .fail (.notCallable hv)
  | number x =>
    cases hv.eq_number
    exact .fail (.notCallable hv)
  | string s =>
    rw [Value.relocate_string] at hlike
    cases hlike
    exact .fail (.notCallable hv)
  | bool b =>
    rw [Value.relocate_bool] at hlike
    cases hlike
    exact .fail (.notCallable hv)
  | object slots =>
    rw [Value.relocate_object] at hlike
    cases hlike
    exact .fail (.notCallable hv)

theorem call_paired (hc : R.calls) {ns : List Node} {p : Option Place}
    (h : Given K R (.tree .call ns p)) :
    Paired host K R size frame frame' K.value (fun eval => call host eval frame ns)
      fun eval => call host eval frame' (ns.map (Node.relocate K.place)) := by
  match ns, h with
  | [callee, argsNode], h =>
    have hs : K.strays ∨ callee.evaluable ∧ argsNode.has .args := by
      simpa [Node.regular, Node.suits] using h.regular
    have hargs : ∀ a ∈ argsNode.children, R.asks a :=
      (h.child (by simp [Node.children])).each (hs.imp_right And.right) fun _ => rfl
    simp only [call, List.map_cons, List.map_nil, Node.children_relocate]
    refine .bind (all_paired hargs) fun _ vs vs' _ hvs => ?_
    refine .bind (.ask (h.ask (by simp [Node.children]) (hs.imp_right And.left))) ?_
    exact fun _ v v' hsize hv => apply_paired hc hv (hvs.imp fun _ _ hv => hv.grow hsize)
  | [], h | [_], h | _ :: _ :: _ :: _, h => exact stuck_paired (h.irregular rfl)

end Calls

section Statements

theorem declaration_paired (hd : R.declares) {ns : List Node} {p : Option Place}
    (h : Given K R (.tree .declaration ns p)) :
    Paired host K R size frame frame' K.value (fun eval => declaration eval frame ns)
      fun eval => declaration eval frame' (ns.map (Node.relocate K.place)) := by
  match ns, h with
  | [nameNode, keyword, value], h =>
    have hs : K.strays ∨ nameNode.ident?.isSome ∧ (value.isAbsent ∨ value.evaluable) := by
      simpa [Node.regular, Node.suits] using h.regular
    refine .bind (identifier_paired .declared (hs.imp_right And.left)) ?_
    rintro size₁ name _ - rfl
    have hdeclare : ∀ constant size' v v', size₁ ≤ size' → K.Values size' v v' →
        Paired host K R size' frame frame' K.value
          (fun _ => Run.access (Access.declare frame name v constant))
          fun _ => Run.access (Access.declare frame' name v' constant) :=
      fun constant _ _ _ _ hv => .declare name constant hv hd
    have hnull : Paired host K R size₁ frame frame' K.value (fun _ => pure .null)
        fun _ => pure .null := .pure .null
    rw [Node.isAbsent_relocate]
    cases hvalue : value.isAbsent with
    | true =>
      cases keyword with
      | leaf kind text q => cases kind <;> exact .bind hnull (hdeclare _)
      | _ => exact .bind hnull (hdeclare false)
    | false =>
      have hask : R.asks value := h.ask (by simp [Node.children])
        (hs.imp_right fun hs => hs.2.resolve_left (by simp [hvalue]))
      cases keyword with
      | leaf kind text q => cases kind <;> exact .bind (.ask hask) (hdeclare _)
      | _ => exact .bind (.ask hask) (hdeclare false)
  | [], h | [_], h | [_, _], h | _ :: _ :: _ :: _ :: _, h => exact stuck_paired (h.irregular rfl)

theorem paramNames_paired {ns : List Node} (h : K.strays ∨ ∀ n ∈ ns, n.ident?.isSome) :
    Paired host K R size frame frame' K.same (fun _ => paramNames ns)
      fun _ => paramNames (ns.map (Node.relocate K.place)) := by
  induction ns generalizing size with
  | nil => exact .pure rfl
  | cons n ns ih =>
    rw [List.map_cons]
    unfold paramNames
    rw [Node.ident?_relocate]
    cases hn : n.ident? with
    | none =>
      have hs : K.strays := h.resolve_right fun h => by simpa [hn] using h n (List.mem_cons_self ..)
      exact raise_paired hs (by simp) rfl
    | some name =>
      refine .bind (ih (h.imp_right fun h => (List.forall_mem_cons.mp h).2)) ?_
      rintro _ names _ - rfl
      exact .pure rfl

theorem function_paired (hd : R.declares) (hp : ∀ x, R.asks x → K.parts x)
    (hf : K.homes size frame frame') {ns : List Node} {p : Option Place}
    (h : Given K R (.tree .function ns p)) :
    Paired host K R size frame frame' K.value (fun _ => function frame ns)
      fun _ => function frame' (ns.map (Node.relocate K.place)) := by
  match ns, h with
  | [nameNode, params, .tree label body q], h =>
    have hs : K.strays ∨ nameNode.ident?.isSome ∧ params.has .params ∧ label = .body := by
      simpa [Node.regular, Node.suits, Node.has, Node.label?, and_assoc] using h.regular
    cases label with
    | body =>
      have hgiven : ∀ c ∈ [nameNode, params, .tree .body body q], Given K R c := fun c => h.child
      have hparams : K.strays ∨ ∀ n ∈ params.children, n.ident?.isSome := by
        simpa [Node.suits] using
          (hgiven params (by simp)).suits (hs.imp_right fun hs => hs.2.1)
      have hlabel : K.strays ∨ (Node.tree .body body q).has .body := .inr rfl
      have hbody : ∀ x ∈ body, R.asks x :=
        (hgiven (.tree .body body q) (by simp)).each hlabel fun _ => rfl
      simp only [List.map_cons, List.map_nil, Node.relocate_tree, function, Node.children_relocate]
      refine .bind (identifier_paired .function (hs.imp_right And.left)) ?_
      rintro _ name _ hsize rfl
      refine .bind (paramNames_paired hparams) ?_
      rintro _ names _ hsize' rfl
      refine .declare name true (.function name names (fun x hx => hp x (hbody x hx)) ?_) hd
      exact K.grow (Nat.le_trans hsize hsize') hf
    | _ => exact raise_paired (hs.resolve_right (by simp)) (by simp) rfl
  | [_, _, .leaf ..], h | [_, _, .absent], h | [_, _, .datum _], h | [], h | [_], h | [_, _], h =>
    exact raise_paired (h.irregular (by simp [Node.regular, Node.suits, Node.has, Node.label?]))
      (by simp) rfl
  | _ :: _ :: third :: _ :: _, h =>
    have hs : K.strays := h.irregular rfl
    cases third with
    | tree label children q => cases label <;> exact raise_paired hs (by simp) rfl
    | _ => exact raise_paired hs (by simp) rfl

theorem body_paired {n : Node} (h : Given K R n) (hs : K.strays ∨ n.has .body) :
    Paired host K R size frame frame' K.same (fun eval => body eval frame n)
      fun eval => body eval frame' (n.relocate K.place) := by
  cases n with
  | tree label statements p =>
    rw [Node.relocate_tree]
    refine .bind (sequence_paired (h.each hs fun _ => rfl) .null) fun _ _ _ _ _ => .pure rfl
  | absent => exact .pure rfl
  | _ => exact stuck_paired (hs.resolve_right (by simp [Node.has, Node.label?]))

theorem otherwise_paired {n : Node} (h : Given K R n)
    (hs : K.strays ∨ n.isAbsent ∨ n.has .elseClause) :
    Paired host K R size frame frame' K.same (fun eval => otherwise eval frame n)
      fun eval => otherwise eval frame' (n.relocate K.place) := by
  cases n with
  | tree label children p =>
    have hlabel : K.strays ∨ label = .elseClause := by
      simpa [Node.has, Node.label?, Node.isAbsent] using hs
    rw [Node.relocate_tree]
    cases label with
    | elseClause =>
      cases children with
      | nil => exact stuck_paired (h.irregular rfl)
      | cons statements rest =>
        refine body_paired (h.child (List.mem_cons_self ..)) (h.regular.imp_right fun hr => ?_)
        cases rest with
        | nil => exact hr
        | cons => cases hr
    | _ => exact raise_paired (hlabel.resolve_right (by simp)) (by simp) rfl
  | absent => exact .pure rfl
  | _ =>
    have hstrays := hs.resolve_right (by simp [Node.has, Node.label?, Node.isAbsent])
    exact raise_paired hstrays (by simp) rfl

theorem clauses_paired {ns : List Node} (h : ∀ n ∈ ns, Given K R n)
    (hs : K.strays ∨ ∀ n ∈ ns, n.has .elifClause) :
    Paired host K R size frame frame' K.same (fun eval => clauses eval frame ns)
      fun eval => clauses eval frame' (ns.map (Node.relocate K.place)) := by
  induction ns generalizing size with
  | nil => exact .pure rfl
  | cons n ns ih =>
    obtain ⟨hn, hns⟩ := List.forall_mem_cons.mp h
    have hrest := hs.imp_right fun hs => (List.forall_mem_cons.mp hs).2
    have hsuits := hn.suits (hs.imp_right fun hs => hs n (List.mem_cons_self ..))
    rw [List.map_cons]
    match n with
    | .tree label [cond, statements, final] p =>
      have hparts : K.strays ∨ cond.evaluable ∧ statements.has .body ∧
          (final.isAbsent ∨ final.has .elseClause) := by
        simpa [Node.suits, Node.children, and_assoc] using hsuits
      rw [Node.relocate_tree]
      refine .bind (.ask (hn.ask (by simp [Node.children]) (hparts.imp_right And.left))) ?_
      intro _ v v' _ hv
      rw [hv.isTruthy_eq, Node.isAbsent_relocate]
      cases v.isTruthy with
      | true =>
        exact body_paired (hn.child (by simp [Node.children])) (hparts.imp_right fun h => h.2.1)
      | false =>
        cases final.isAbsent with
        | true => exact ih hns hrest
        | false =>
          exact otherwise_paired (hn.child (by simp [Node.children]))
            (hparts.imp_right fun h => h.2.2)
    | .tree _ [] _ | .tree _ [_] _ | .tree _ [_, _] _ | .tree _ (_ :: _ :: _ :: _ :: _) _
    | .leaf .. | .absent | .datum _ =>
      exact stuck_paired (hsuits.resolve_right (by simp [Node.suits, Node.children]))

theorem ifElse_paired {ns : List Node} {p : Option Place} (h : Given K R (.tree .ifElse ns p)) :
    Paired host K R size frame frame' K.value (fun eval => ifElse eval frame ns)
      fun eval => ifElse eval frame' (ns.map (Node.relocate K.place)) := by
  match ns, h with
  | [cond, statements, elifs, final], h =>
    have hs : K.strays ∨ cond.evaluable ∧ statements.has .body ∧
        (elifs.isAbsent ∨ elifs.has .elifs) ∧ (final.isAbsent ∨ final.has .elseClause) := by
      simpa [Node.regular, Node.suits, and_assoc] using h.regular
    have hgiven : ∀ c ∈ [cond, statements, elifs, final], Given K R c := fun c => h.child
    refine .bind (.ask (h.ask (by simp [Node.children]) (hs.imp_right And.left))) ?_
    intro _ v v' _ hv
    have hnull : ∀ size', Paired host K R size' frame frame' K.value (fun _ => pure .null)
        fun _ => pure .null := fun _ => .pure .null
    rw [hv.isTruthy_eq, Node.isAbsent_relocate]
    cases v.isTruthy with
    | true =>
      have hbody := hs.imp_right fun hs => hs.2.1
      exact .bind (body_paired (hgiven statements (by simp)) hbody) fun _ _ _ _ _ => hnull _
    | false =>
      cases helifs : elifs.isAbsent with
      | true =>
        have hfinal := hs.imp_right fun hs => hs.2.2.2
        exact .bind (otherwise_paired (hgiven final (by simp)) hfinal) fun _ _ _ _ _ => hnull _
      | false =>
        have helifs' := hgiven elifs (by simp)
        have hclauses : K.strays ∨ ∀ n ∈ elifs.children, n.has .elifClause := by
          simpa [Node.suits] using helifs'.suits
            (hs.imp_right fun hs => hs.2.2.1.resolve_left (by simp [helifs]))
        rw [Node.children_relocate]
        exact .bind (clauses_paired (fun n hn => helifs'.child hn) hclauses)
          fun _ _ _ _ _ => hnull _
  | [], h | [_], h | [_, _], h | [_, _, _], h | _ :: _ :: _ :: _ :: _ :: _, h =>
    exact stuck_paired (h.irregular rfl)

theorem loop_paired {cond increment statements : Node} (hc : R.asks cond) (hi : R.asks increment)
    (hb : Given K R statements) (hs : K.strays ∨ statements.has .body) (turns : Nat) :
    Paired host K R size frame frame' K.value
      (fun eval => loop eval frame cond increment statements turns)
      fun eval => loop eval frame' (cond.relocate K.place) (increment.relocate K.place)
        (statements.relocate K.place) turns := by
  induction turns generalizing size with
  | zero => exact .fail .unfinished
  | succ turns ih =>
    refine .bind (.ask hc) fun _ v v' _ hv => ?_
    rw [hv.isTruthy_eq]
    cases v.isTruthy with
    | true =>
      refine .bind (body_paired hb hs) fun _ _ _ _ _ => ?_
      exact .bind (.ask hi) fun _ _ _ _ _ => ih
    | false => exact .pure .null

theorem forLoop_paired (turns : Nat) {ns : List Node} {p : Option Place}
    (h : Given K R (.tree .forLoop ns p)) :
    Paired host K R size frame frame' K.value (fun eval => forLoop eval frame turns ns)
      fun eval => forLoop eval frame' turns (ns.map (Node.relocate K.place)) := by
  match ns, h with
  | [start, cond, increment, statements], h =>
    have hs : K.strays ∨ start.evaluable ∧ cond.evaluable ∧ increment.evaluable ∧
        statements.has .body := by
      simpa [Node.regular, Node.suits, and_assoc] using h.regular
    refine .bind (.ask (h.ask (by simp [Node.children]) (hs.imp_right And.left))) ?_
    intro _ _ _ _ _
    exact loop_paired (h.ask (by simp [Node.children]) (hs.imp_right fun hs => hs.2.1))
      (h.ask (by simp [Node.children]) (hs.imp_right fun hs => hs.2.2.1))
      (h.child (by simp [Node.children])) (hs.imp_right fun hs => hs.2.2.2) turns
  | [], h | [_], h | [_, _], h | [_, _, _], h | _ :: _ :: _ :: _ :: _ :: _, h =>
    exact stuck_paired (h.irregular rfl)

end Statements

/-- The rule of a node does what corresponds in corresponding frames. Only the two declarations
declare, and only a call calls. -/
theorem step_paired (m : Machine) {n : Node} (h : Given K R n) (he : K.strays ∨ n.evaluable)
    (hp : ∀ x, R.asks x → K.parts x)
    (hd : n.label? = some .declaration ∨ n.label? = some .function → R.declares)
    (hc : n.label? = some .call → R.calls) (hf : K.homes size frame frame') :
    Paired m.host K R size frame frame' K.value (fun eval => step m eval n frame)
      fun eval => step m eval (n.relocate K.place) frame' := by
  cases n with
  | leaf kind text p =>
    have hleaf : Paired m.host K R size frame frame' K.value
        (fun _ => leaf kind text (.leaf kind text p) frame)
        fun _ => leaf kind text ((Node.leaf kind text p).relocate K.place) frame' :=
      leaf_paired h.regular he
    rw [Node.relocate_leaf] at hleaf ⊢
    exact hleaf
  | absent => exact raise_paired (he.resolve_right (by simp [Node.evaluable])) (by simp) rfl
  | datum d => exact raise_paired (he.resolve_right (by simp [Node.evaluable])) (by simp) rfl
  | tree label children p =>
    have hno : (Cause.noMeaning (.tree label children p)).relocate K.place =
        .noMeaning (.tree label (children.map (Node.relocate K.place)) (p.map K.place)) :=
      congrArg Cause.noMeaning (Node.relocate_tree ..)
    have hchain : ∀ {family join}, Chained m.host K R family join → family label = true →
        Paired m.host K R size frame frame' K.value
          (fun eval => chain eval frame family join (.tree label children p))
          fun eval => chain eval frame' family join
            (.tree label (children.map (Node.relocate K.place)) (p.map K.place)) := by
      intro family join hj hl
      rw [← Node.relocate_tree]
      exact chain_paired hj hl h
    rw [Node.relocate_tree]
    cases label with
    | program =>
      have hlabel : K.strays ∨ (Node.tree .program children p).has .program := .inr rfl
      exact sequence_paired (h.each hlabel fun _ => rfl) .null
    | declaration => exact declaration_paired (hd (.inl rfl)) h
    | function => exact function_paired (hd (.inr rfl)) hp hf h
    | ifElse => exact ifElse_paired h
    | forLoop => exact forLoop_paired m.turns h
    | assign => exact assign_paired h
    | plusAssign => exact compound_paired .add "+=" (.inl rfl) h
    | minusAssign => exact compound_paired .sub "-=" (.inr rfl) h
    | binop => exact hchain arithmetic_chained rfl
    | gt | gte | lt | lte | eq | neq => exact hchain comparison_chained rfl
    | and | or => exact hchain connective_chained rfl
    | call => exact call_paired (hc rfl) h
    | object => exact object_paired h
    | member => exact member_paired h
    | index => exact index_paired h
    | _ => exact raise_paired (he.resolve_right (by simp [Node.evaluable])) (by simp) hno

end Eval

end Bahasa
