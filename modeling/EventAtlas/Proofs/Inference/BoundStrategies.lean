import EventAtlas.Proofs.Index.DeclaredTypes
import EventAtlas.Proofs.Inference.Course

/-!
# Strategies that hand on bound types

A strategy sees the types of other nodes only as answers. One lemma for each strategy says that bound answers give
bound types (`Strategy.Gives`), up to the strategies of all nodes (`Strategy.dispatch_gives`).
-/

namespace EventAtlas

open Index

variable {x : Index}

/-! ## Documentation -/

namespace DocBlock

variable {b : DocBlock} {t : DocType}

theorem exists_tag_of_returnType? (h : b.returnType? = some t) : ∃ tag ∈ b.tags, tag.type = t := by
  obtain ⟨tag, htag, rfl⟩ := Option.map_eq_some_iff.mp h
  exact ⟨tag, List.mem_of_find?_eq_some htag, rfl⟩

theorem exists_tag_of_paramType? {name : String} (h : b.paramType? name = some t) : ∃ tag ∈ b.tags, tag.type = t := by
  obtain ⟨tag, htag, rfl⟩ := Option.map_eq_some_iff.mp h
  exact ⟨tag, List.mem_of_find?_eq_some htag, rfl⟩

theorem exists_tag_of_varType? {name : String} (h : b.varType? (some name) = some t) :
    ∃ tag ∈ b.tags, tag.type = t := by
  obtain ⟨tag, htag, rfl⟩ := Option.map_eq_some_iff.mp h
  obtain htag | ⟨-, htag⟩ := Option.or_eq_some_iff.mp htag
  · exact ⟨tag, (List.mem_filter.mp (List.mem_of_find?_eq_some htag)).1, rfl⟩
  · exact ⟨tag, (List.mem_filter.mp (List.mem_of_find?_eq_some htag)).1, rfl⟩

end DocBlock

/-- What a part of the documentation of a node says is bound. -/
theorem Index.BindsGiven.documented (hx : x.BindsGiven) {part : DocBlock → Option DocType}
    (hpart : ∀ b t, part b = some t → ∃ tag ∈ b.tags, tag.type = t) (node : NodeId) :
    x.BindsAll (x.documented node part) := by
  unfold Index.documented
  cases hdoc : (x.docBlock? node).bind part with
  | none => exact bindsAll_empty x
  | some doc =>
    obtain ⟨block, hblock, hdoc⟩ := Option.bind_eq_some_iff.mp hdoc
    obtain ⟨text, -, rfl⟩ := Option.map_eq_some_iff.mp hblock
    obtain ⟨tag, htag, rfl⟩ := hpart _ _ hdoc
    exact hx.doc node tag.type (DocBlock.allNames_of_mem_tags htag)

/-! ## Strategies -/

/-- The answer to a question of a strategy is bound, if it consists of types. -/
def NodeQuestion.Bound (x : Index) : (q : NodeQuestion) → q.Answer → Prop
  | .types _, s | .read .., s => x.BindsAll s
  | .isResolving _, _ | .collect _, _ | .writesTo _, _ | .looseWrites .., _ => True

namespace Strategy

variable {α : Type} {node : NodeId} {known : TypeSet}

/-- If the answers are bound, the strategy ends with a result as `post` says. -/
abbrev Gives (x : Index) (post : α → Prop) (d : Strategy α) : Prop :=
  Dialogue.Gives (fun _ => True) (NodeQuestion.Bound x) post d

theorem types_gives (node : NodeId) : (types node).Gives x x.BindsAll :=
  ⟨trivial, fun _ hs => hs⟩

theorem maybe_gives (node : Option NodeId) : (maybe node).Gives x x.BindsAll := by
  cases node with
  | none => exact bindsAll_empty x
  | some node => exact types_gives node

theorem unlessResolving_gives (node : NodeId) : (unlessResolving node : Strategy TypeSet).Gives x x.BindsAll := by
  refine ⟨trivial, fun busy _ => ?_⟩
  cases busy with
  | true => exact bindsAll_empty x
  | false => exact types_gives node

theorem maybeUnlessResolving_gives (node : Option NodeId) : (maybeUnlessResolving node).Gives x x.BindsAll := by
  cases node with
  | none => exact bindsAll_empty x
  | some node => exact unlessResolving_gives node

theorem gather_gives {find : NodeId → Strategy TypeSet} (hfind : ∀ n, (find n).Gives x x.BindsAll) (nodes : List NodeId)
    (hknown : x.BindsAll known) : (gather find known nodes).Gives x x.BindsAll := by
  induction nodes generalizing known with
  | nil => exact hknown
  | cons n rest ih => exact (hfind n).bind fun found hfound => ih (hknown.union hfound)

theorem all_gives (nodes : List NodeId) : (all nodes).Gives x x.BindsAll :=
  gather_gives types_gives nodes (bindsAll_empty x)

theorem collectMaybe_gives (c : Option NodeId) : (collectMaybe c).Gives x fun _ => True := by
  cases c with
  | none => trivial
  | some c => exact ⟨trivial, fun _ _ => trivial⟩

/-! ### Properties -/

theorem writeTypes_gives (w : PropertyWrite) : (writeTypes w).Gives x x.BindsAll := by
  cases w with
  | assigned value => exact unlessResolving_gives value
  | compound value => exact unlessResolving_gives value
  | appended value =>
    refine (unlessResolving_gives value).bind fun found hfound => ?_
    dsimp only
    split
    · exact bindsAll_ofName x _
    · exact bindsAll_arraysOf fun _ ht => hfound.known.binds ht

theorem writesTypes_gives (writes : List PropertyWrite) (hknown : x.BindsAll known) :
    (writesTypes known writes).Gives x x.BindsAll := by
  induction writes generalizing known with
  | nil => exact hknown
  | cons w rest ih => exact (writeTypes_gives w).bind fun found hfound => ih (hknown.union hfound.known)

theorem injectedTypes_gives (decl : NodeId) : (injectedTypes decl).Gives x x.BindsAll :=
  ⟨trivial, fun writes _ => writesTypes_gives writes (bindsAll_empty x)⟩

theorem property_gives (hx : x.BindsGiven) (decl : NodeId) (name : String) :
    (property x decl name).Gives x x.BindsAll := by
  have hdocumented : x.BindsAll (x.documented decl (·.varType? (some name))) :=
    hx.documented (fun _ _ => DocBlock.exists_tag_of_varType?) decl
  refine (collectMaybe_gives _).bind fun _ _ => (maybe_gives _).bind fun hinted hhinted => ?_
  refine (maybe_gives _).bind fun default hdefault => (injectedTypes_gives decl).bind fun injected hinjected => ?_
  exact ((hhinted.union hdocumented).union hdefault).union hinjected

theorem declarationsTypes_gives (decls : List NodeId) (hknown : x.BindsAll known) :
    (declarationsTypes known decls).Gives x x.BindsAll := by
  induction decls generalizing known with
  | nil => exact hknown
  | cons decl rest ih =>
    refine ⟨trivial, fun busy _ => ?_⟩
    cases busy with
    | true => exact ih hknown
    | false => exact ⟨trivial, fun found hfound => ih (hknown.union (BindsAll.known hfound))⟩

theorem ownersTypes_gives (name : String) (owners : List NodeId) (hknown : x.BindsAll known) :
    (ownersTypes x name known owners).Gives x x.BindsAll := by
  induction owners generalizing known with
  | nil => exact hknown
  | cons owner rest ih =>
    refine ⟨trivial, fun _ _ => (declarationsTypes_gives _ hknown).bind fun declared hdeclared => ?_⟩
    exact ⟨trivial, fun writes _ => (writesTypes_gives writes hdeclared).bind fun written hwritten => ih hwritten⟩

theorem propertyFetch_gives (fetch : NodeId) (name : String) : (propertyFetch x fetch name).Gives x x.BindsAll := by
  unfold propertyFetch
  dsimp only
  split
  · exact maybeUnlessResolving_gives _
  split
  · exact bindsAll_empty x
  · refine (types_gives _).bind fun receivers _ => gather_gives (fun c => ?_) _ (bindsAll_empty x)
    exact ownersTypes_gives name _ (bindsAll_empty x)

/-! ### Variables -/

theorem destructured?_gives (f : Forest) (n : Nat) (target : NodeId) :
    (destructured? f n target).Gives x fun found => ∀ s, found = some s → x.BindsAll s := by
  have hsome {s : TypeSet} (hs : x.BindsAll s) : ∀ s', some s = some s' → x.BindsAll s' :=
    fun _ heq => Option.some.inj heq ▸ hs
  induction n generalizing target with
  | zero => exact nofun
  | succ n ih =>
    have hlist (p : NodeId) : Gives x (fun found => ∀ s, found = some s → x.BindsAll s)
        (do return (← destructured? f n p).map TypeSet.elements) := by
      refine (ih p).bind fun found hfound s hs => ?_
      obtain ⟨s', hs', rfl⟩ := Option.map_eq_some_iff.mp hs
      exact (hfound s' hs').elements
    unfold destructured?
    cases f.parent target with
    | none => exact nofun
    | some p =>
      dsimp only
      split
      · split
        · exact (maybeUnlessResolving_gives _).bind fun found hfound => hsome hfound.elements
        · exact nofun
      · split
        · exact (unlessResolving_gives _).bind fun found hfound => hsome hfound.elements.elements
        · exact nofun
      · exact hlist p
      · exact hlist p
      · exact nofun

theorem readVariable_gives (f : Forest) (node : NodeId) (name : String) :
    (readVariable f node name).Gives x x.BindsAll := by
  unfold readVariable
  split
  · exact bindsAll_empty x
  · exact ⟨trivial, fun _ hs => hs⟩

theorem bindsAll_loopKeys {source : TypeSet} (h : x.BindsAll source) : x.BindsAll (loopKeys source) := by
  unfold loopKeys
  split
  · exact bindsAll_named x ["int", "string"]
  · exact h.keys

theorem variableTypes_gives (hx : x.BindsGiven) (node : NodeId) (name : String) :
    (variableTypes x node name).Gives x x.BindsAll := by
  have hread := readVariable_gives (x := x) x.forest node name
  unfold variableTypes
  dsimp only
  split
  · exact bindsAll_ofList fun t ht => hx.this node t (Option.mem_toList.mp ht)
  cases x.forest.parent node with
  | none => exact bindsAll_empty x
  | some p =>
    dsimp only
    split
    case h_1 =>
      split
      · exact maybeUnlessResolving_gives _
      · exact hread
    case h_2 =>
      split
      · refine (unlessResolving_gives _).bind fun source hsource => ?_
        split
        · exact bindsAll_loopKeys hsource
        · exact hsource.elements
      · exact bindsAll_empty x
      · exact hread
    case h_3 => exact all_gives _
    case h_4 | h_5 =>
      refine (destructured?_gives _ _ p).bind fun found hfound => ?_
      cases found with
      | some types => exact hfound types rfl
      | none => exact hread
    case h_6 => exact hread

/-! ### Declarations and calls -/

theorem returned_gives (f : Forest) (rets : List NodeId) (hknown : x.BindsAll known) :
    (returned f known rets).Gives x x.BindsAll := by
  induction rets generalizing known with
  | nil => exact hknown
  | cons ret rest ih =>
    unfold returned
    split
    · exact (unlessResolving_gives _).bind fun found hfound => ih (hknown.union hfound)
    · exact ih (hknown.add (binds_named x _))

theorem bindsAll_preferKnown {s : TypeSet} (h : x.BindsAll s) : x.BindsAll (preferKnown s) := by
  unfold preferKnown
  split
  · exact h
  · exact h.known

theorem functionResult_gives (hx : x.BindsGiven) (fn : NodeId) : (functionResult x fn).Gives x x.BindsAll := by
  have hdocumented := hx.documented (fun _ _ => DocBlock.exists_tag_of_returnType?) fn
  refine (maybe_gives _).bind fun hinted hhinted => ?_
  have hdeclared := hhinted.union hdocumented
  dsimp only
  split
  · exact hdeclared
  split
  · exact hdeclared
  split
  · exact bindsAll_ofName x _
  · exact (returned_gives _ _ hdeclared).bind fun found hfound => bindsAll_preferKnown hfound

/-- A parameter has the declared types, or arrays of them. -/
theorem bindsAll_variadicTypes {s : TypeSet} (h : x.BindsAll s) (variadic : Bool) :
    x.BindsAll (if variadic then variadicTypes s else s) := by
  split
  · unfold variadicTypes
    split
    · exact bindsAll_ofName x _
    · exact bindsAll_arraysOf fun _ ht => h.known.binds ht
  · exact h

theorem parameter_gives (hx : x.BindsGiven) (param : NodeId) (name : String) (variadic promoted : Bool) :
    (parameter x param name variadic promoted).Gives x x.BindsAll := by
  have hdocumented : x.BindsAll
      (((x.forest.parent param).map fun fn => x.documented fn (·.paramType? name)).getD {}) := by
    cases x.forest.parent param with
    | none => exact bindsAll_empty x
    | some fn => exact hx.documented (fun _ _ => DocBlock.exists_tag_of_paramType?) fn
  refine (maybe_gives _).bind fun hinted hhinted => (maybe_gives _).bind fun default hdefault => ?_
  have htypes := (bindsAll_variadicTypes (hhinted.union hdocumented) variadic).union hdefault
  dsimp only
  split
  · refine (collectMaybe_gives _).bind fun _ _ => (injectedTypes_gives param).bind fun injected hinjected => ?_
    exact htypes.union hinjected
  · exact htypes

theorem callOn_gives (name : String) {receivers : List Ty} (hreceivers : ∀ t ∈ receivers, x.Binds t)
    (hknown : x.BindsAll known) : (callOn x name known receivers).Gives x x.BindsAll := by
  induction receivers generalizing known with
  | nil => exact hknown
  | cons receiver rest ih =>
    obtain ⟨hreceiver, hrest⟩ := List.forall_mem_cons.mp hreceivers
    unfold callOn
    split
    · exact ih hrest hknown
    · next method _ =>
      refine ⟨trivial, fun busy _ => ?_⟩
      cases busy with
      | true => exact ih hrest hknown
      | false =>
        refine ⟨trivial, fun result hresult => ih hrest (hknown.union ?_)⟩
        exact BindsAll.lateBound hresult hreceiver method

theorem call_gives (name : String) (receiver : Option NodeId) : (call x name receiver).Gives x x.BindsAll := by
  cases receiver with
  | none => exact bindsAll_empty x
  | some receiver =>
    refine (types_gives receiver).bind fun receivers hreceivers => ?_
    exact callOn_gives name (fun _ ht => hreceivers.binds ht) (bindsAll_empty x)

theorem constant_gives (name : String) (scope : Option NodeId) : (constant x name scope).Gives x x.BindsAll := by
  unfold constant
  split
  · exact bindsAll_ofName x _
  split
  · exact bindsAll_empty x
  · exact (types_gives _).bind fun _ _ => all_gives _

/-! ### Operations -/

theorem compoundAssign_gives (op : String) (children : List NodeId) :
    (compoundAssign op children).Gives x x.BindsAll := by
  unfold compoundAssign
  split
  · split
    · refine (unlessResolving_gives _).bind fun kept hkept => (types_gives _).bind fun value hvalue => ?_
      exact hkept.withoutNull.union hvalue
    split
    · next hop => exact bindsAll_of_compound hop
    · refine (unlessResolving_gives _).bind fun _ _ => (types_gives _).bind fun _ _ => ?_
      exact bindsAll_arithmetic x _ _ _
    · exact types_gives _
  · exact bindsAll_empty x

theorem binary_gives (op : String) (children : List NodeId) : (binary op children).Gives x x.BindsAll := by
  unfold binary
  split
  · next hop => exact bindsAll_of_binary hop
  · exact bindsAll_empty x
  · split
    · exact (types_gives _).bind fun _ _ => (types_gives _).bind fun _ _ => bindsAll_arithmetic x _ _ _
    · exact bindsAll_number x

theorem unary_gives (op : String) (operand : Option NodeId) : (unary op operand).Gives x x.BindsAll := by
  unfold unary
  split
  · exact bindsAll_ofName x _
  split
  · exact bindsAll_ofName x _
  split
  · exact bindsAll_empty x
  · refine (types_gives _).bind fun types htypes => ?_
    split
    · exact bindsAll_arithmetic x _ _ _
    · exact htypes

theorem elements_gives (f : Forest) (nodes : List NodeId) (hknown : x.BindsAll known) :
    (elements f known nodes).Gives x x.BindsAll := by
  induction nodes generalizing known with
  | nil => exact hknown
  | cons n rest ih =>
    unfold elements
    split
    · exact ih hknown
    · refine (unlessResolving_gives _).bind fun found hfound => ih (hknown.foldl_add fun t ht => ?_)
      obtain ⟨element, helement, rfl⟩ := List.mem_map.mp ht
      exact (hfound.known.filter _ element helement).arrayOf

theorem subscript_gives (base : Option NodeId) : (subscript base).Gives x x.BindsAll := by
  cases base with
  | none => exact bindsAll_empty x
  | some base =>
    refine (types_gives base).bind fun types htypes => ?_
    split
    · exact htypes.elements.add (binds_named x _)
    · exact htypes.elements

theorem coalesce_gives (children : List NodeId) : (coalesce children).Gives x x.BindsAll :=
  (maybe_gives _).bind fun _ hleft => (maybe_gives _).bind fun _ hright => hleft.withoutNull.union hright

/-! ### All nodes -/

theorem bindsAll_functionTypes (x : Index) (callee : Option NodeId) : x.BindsAll (functionTypes x.forest callee) := by
  unfold functionTypes
  split
  · exact bindsAll_empty x
  split
  · dsimp only
    split
    · exact bindsAll_ofName x _
    · exact bindsAll_empty x
  · exact bindsAll_empty x

/-- If the answers are bound, so are the types of a node. -/
theorem dispatch_gives (hx : x.BindsGiven) (node : NodeId) : (dispatch x node).Gives x x.BindsAll := by
  have hclass : x.BindsAll (.ofList (x.enclosingType? node).toList) :=
    bindsAll_ofList fun t ht => hx.enclosing node t (Option.mem_toList.mp ht)
  unfold dispatch
  dsimp only
  cases hk : x.forest.kind node with
  | classDecl | interfaceDecl | traitDecl => exact hclass
  | method | function => exact functionResult_gives hx node
  | closure | arrowFunction => exact bindsAll_ofName x _
  | property name m => exact property_gives hx node name
  | parameter name variadic byRef m => exact parameter_gives hx node name variadic m.isSome
  | classConstant name => exact maybe_gives _
  | nullableType => exact (all_gives _).bind fun _ hs => hs.add (binds_named x _)
  | unionType | intersectionType => exact all_gives _
  | name text role => exact hx.name node text role hk
  | var name => exact variableTypes_gives hx node name
  | assign byRef => exact maybe_gives _
  | compoundAssign op => exact compoundAssign_gives op _
  | staticVariable name =>
    dsimp only
    split
    · exact types_gives _
    · exact bindsAll_ofName x _
  | new =>
    dsimp only
    split
    · split
      · exact types_gives _
      · exact bindsAll_empty x
    · exact bindsAll_empty x
  | methodCall name nullsafe => exact call_gives name _
  | staticCall name => exact call_gives name _
  | functionCall => exact bindsAll_functionTypes x _
  | argument | clone => exact maybe_gives _
  | propertyFetch name nullsafe => exact propertyFetch_gives node name
  | staticPropertyFetch name => exact propertyFetch_gives node name
  | classConstantFetch name => exact constant_gives name _
  | ternary short => exact all_gives _
  | coalesce => exact coalesce_gives _
  | binary op => exact binary_gives _ _
  | unary op => exact unary_gives op _
  | cast target => exact bindsAll_cast x target
  | instanceof | literal | listDestructure => exact bindsAll_ofName x _
  | arrayLiteral => exact elements_gives _ _ (bindsAll_ofName x _)
  | arrayAccess => exact subscript_gives _
  | matchExpr => exact all_gives _
  | matchArm isDefault => exact maybe_gives _
  | _ => exact bindsAll_empty x

end Strategy

end EventAtlas
