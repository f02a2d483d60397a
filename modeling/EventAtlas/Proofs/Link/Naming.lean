import EventAtlas.Link.Naming
import EventAtlas.Proofs.Link.Lineage

/-!
# What the naming walk writes

The walk keeps a stack of scopes and a stack of classes and changes them as it goes. Here is what they are, without the
walk: the scope in effect at a node has the namespace of the nearest file or namespace around it and the imports that
stand before the node and have the same file or namespace around them (`Forest.scopeAt`); the class is the nearest one
around (`Forest.classAt`). The walk from one node to the next keeps the stacks in this form (`Walked`), so every name
below a file is written as `Forest.nameAt` says, and the scope recorded for a file or namespace has all of its imports
(`Forest.resolveNames_named`).
-/

namespace EventAtlas

open List

/-- A file or a namespace: what opens a scope of names. -/
def NodeKind.opensScope : NodeKind → Bool
  | file | namespaceDecl _ => true
  | _ => false

/-- The node is an import. -/
def NodeKind.isImport : NodeKind → Bool
  | importDecl .. => true
  | _ => false

namespace Forest

variable {f g : Forest} {id x s : NodeId} {seen : List NodeId}

/-! ## Recorded scopes -/

theorem find?_replaceScope (scope : NameScope) (l : List NameScope) (id : NodeId) :
    (replaceScope scope l).find? (fun s => s.node == id) =
      if id = scope.node ∧ (l.find? fun s => s.node == id).isSome then some scope
      else l.find? fun s => s.node == id := by
  induction l with
  | nil => simp [replaceScope]
  | cons s rest ih =>
    unfold replaceScope
    by_cases hs : s.node = scope.node
    · by_cases hid : id = scope.node
      · simp [hs, hid]
      · simp [hs, hid, Ne.symm hid]
    · by_cases hid : id = s.node
      · subst hid
        simp [hs]
      · have hne : (s.node == id) = false := beq_false_of_ne (Ne.symm hid)
        rw [if_neg (by simpa using hs), find?_cons, hne, ih, find?_cons, hne]

/-- A recorded scope takes the place of the one that its node had. -/
theorem nameScope?_setNameScope (f : Forest) (scope : NameScope) (id : NodeId) :
    (f.setNameScope scope).nameScope? id = if id = scope.node then some scope else f.nameScope? id := by
  unfold setNameScope
  split
  · next hsome =>
    simp only [nameScope?, reverse_reverse, find?_replaceScope] at hsome ⊢
    by_cases hid : id = scope.node
    · rw [if_pos ⟨hid, hid ▸ hsome⟩, if_pos hid]
    · rw [if_neg fun h => hid h.1, if_neg hid]
  · simp only [nameScope?, reverse_append, reverse_cons, reverse_nil, nil_append,
      singleton_append, find?_cons]
    by_cases hid : id = scope.node
    · simp [hid]
    · rw [if_neg hid, beq_false_of_ne (Ne.symm hid)]

theorem mem_replaceScope {scope t : NameScope} {l : List NameScope} (h : t ∈ replaceScope scope l) :
    t = scope ∨ t ∈ l := by
  induction l with
  | nil => cases h
  | cons s rest ih =>
    unfold replaceScope at h
    split at h
    · exact (mem_cons.mp h).imp id (mem_cons_of_mem s)
    · obtain rfl | h := mem_cons.mp h
      · exact .inr mem_cons_self
      · exact (ih h).imp id (mem_cons_of_mem s)

theorem mem_nameScopes_setNameScope {scope t : NameScope} (h : t ∈ (f.setNameScope scope).nameScopes) :
    t = scope ∨ t ∈ f.nameScopes := by
  unfold setNameScope at h
  split at h
  · obtain rfl | h := mem_replaceScope (mem_reverse.mp h)
    · exact .inl rfl
    · exact .inr (mem_reverse.mp h)
  · obtain h | h := mem_append.mp h
    · exact .inr h
    · exact .inl (mem_singleton.mp h)

/-! ## Names by their places -/

/-- The nearest file or namespace around a node. -/
def opener? (f : Forest) (id : NodeId) : Option NodeId :=
  f.enclosing? id NodeKind.opensScope

/-- The scope that a file or namespace opens, without imports. -/
def scopeOpened (f : Forest) (id : NodeId) : NameScope :=
  match f.kind id with
  | .namespaceDecl name => .opened id name
  | _ => .opened id ""

/-- The scope with what a node imports. -/
def addUse (f : Forest) (s : NameScope) (id : NodeId) : NameScope :=
  match f.kind id with
  | .importDecl kind name short => s.addImport kind name short
  | _ => s

/-- The scope of a file or namespace with those imports among `seen` of which it is the nearest around. -/
def scopeWith (f : Forest) (seen : List NodeId) (s : NodeId) : NameScope :=
  (seen.filter fun u => f.opener? u == some s).foldl f.addUse (f.scopeOpened s)

/-- Everything that stands before a node. -/
def before (f : Forest) (id : NodeId) : List NodeId :=
  f.reached.takeWhile (· != id)

/-- The scope in effect at a node. -/
def scopeAt (f : Forest) (id : NodeId) : NameScope :=
  ((f.opener? id).map (f.scopeWith (f.before id))).getD {}

/-- A class as it is known inside. -/
def classAt (f : Forest) (id : NodeId) : Naming.ClassAround :=
  ⟨(f.scopeAt id).qualify ((f.kind id).name?.getD ""), Naming.parentName? f (f.scopeAt id) id⟩

/-- The class around a node as it is known inside. -/
def classAround? (f : Forest) (id : NodeId) : Option Naming.ClassAround :=
  (f.enclosingClass? id).map f.classAt

/-- The qualified name that a node gets, or keeps if naming does not concern it. -/
def nameAt (f : Forest) (id : NodeId) : Option String :=
  match f.kind id with
  | .classDecl name _ | .interfaceDecl name | .traitDecl name => some ((f.scopeAt id).qualify name)
  | .function name =>
    if (f.enclosingClass? id).isSome then f.resolvedName id else some ((f.scopeAt id).qualify name)
  | .name text role => some (Naming.qualified (f.scopeAt id) (f.classAround? id) text role)
  | _ => f.resolvedName id

/-! ### Forests with the same places -/

theorem parentName?_congr (h : SameTree f g) (s : NameScope) (id : NodeId) :
    Naming.parentName? g s id = Naming.parentName? f s id := by
  unfold Naming.parentName?
  simp only [namesWithRole, childrenWhere, h.kind, h.children]

theorem SameTree.scopeOpened (h : SameTree f g) : g.scopeOpened = f.scopeOpened := by
  funext id
  rw [Forest.scopeOpened, h.kind, Forest.scopeOpened]

theorem SameTree.addUse (h : SameTree f g) : g.addUse = f.addUse := by
  funext s id
  rw [Forest.addUse, h.kind, Forest.addUse]

namespace SamePlaces

variable (a : SamePlaces f g)
include a

theorem opener? : g.opener? = f.opener? := by
  funext id
  rw [Forest.opener?, a.enclosing?, Forest.opener?]

theorem scopeWith : g.scopeWith = f.scopeWith := by
  funext seen s
  rw [Forest.scopeWith, Forest.scopeWith, a.opener?, a.toSameTree.scopeOpened, a.toSameTree.addUse]

theorem scopeAt : g.scopeAt = f.scopeAt := by
  funext id
  rw [Forest.scopeAt, Forest.scopeAt, a.opener?, a.scopeWith, before, before, a.reached]

theorem classAround? : g.classAround? = f.classAround? := by
  have hclass : g.classAt = f.classAt := by
    funext id
    rw [classAt, classAt, a.scopeAt, a.kind, parentName?_congr a.toSameTree]
  funext id
  rw [Forest.classAround?, Forest.classAround?, a.enclosingClass?, hclass]

end SamePlaces

/-! ### Scopes -/

theorem node_addImport (s : NameScope) (kind : ImportKind) (name short : String) :
    (s.addImport kind name short).node = s.node := by
  cases kind <;> rfl

theorem node_addUse (f : Forest) (s : NameScope) (id : NodeId) : (f.addUse s id).node = s.node := by
  unfold addUse
  split
  · exact node_addImport ..
  · rfl

theorem node_scopeWith (f : Forest) (seen : List NodeId) (s : NodeId) : (f.scopeWith seen s).node = s := by
  refine List.foldlRecOn (motive := fun t : NameScope => t.node = s) _ _ ?_ fun t ht u _ => ?_
  · unfold scopeOpened
    split <;> rfl
  · rw [node_addUse, ht]

/-- One more node counts for the file or namespace nearest around it. -/
theorem scopeWith_concat (f : Forest) (seen : List NodeId) (id s : NodeId) :
    f.scopeWith (seen ++ [id]) s =
      if f.opener? id = some s then f.addUse (f.scopeWith seen s) id else f.scopeWith seen s := by
  simp only [scopeWith, filter_append, foldl_append, filter_cons, filter_nil, beq_iff_eq]
  split <;> rfl

/-- A scope without imports for it. -/
theorem scopeWith_of_forall_ne (h : ∀ u ∈ seen, f.opener? u ≠ some s) : f.scopeWith seen s = f.scopeOpened s := by
  rw [scopeWith, filter_eq_nil_iff.mpr]
  · rfl
  · intro u hu
    simpa using h u hu

/-- What imports nothing may be left out of a scope. -/
theorem scopeWith_append_of_not_isImport {rest : List NodeId}
    (h : ∀ u ∈ rest, f.opener? u = some s → (f.kind u).isImport = false) :
    f.scopeWith (seen ++ rest) s = f.scopeWith seen s := by
  rw [scopeWith, filter_append, foldl_append]
  refine List.foldlRecOn (motive := fun t => t = f.scopeWith seen s) _ f.addUse rfl fun t ht u hu => ?_
  obtain ⟨hmem, hopener⟩ := mem_filter.mp hu
  rw [ht, addUse]
  split
  · next kind name short hk =>
    have himport := h u hmem (by simpa using hopener)
    rw [hk] at himport
    cases himport
  · rfl

theorem opener?_eq_head? (f : Forest) (id : NodeId) :
    f.opener? id = ((f.ancestors id).filter fun a => (f.kind a).opensScope).head? :=
  (head?_filter ..).symm

theorem enclosingClass?_eq_head? (f : Forest) (id : NodeId) :
    f.enclosingClass? id = ((f.ancestors id).filter fun a => (f.kind a).isClassLike).head? :=
  (head?_filter ..).symm

theorem opener?_ne_self (h : f.Linked) (hid : id ∈ f.reached) : f.opener? id ≠ some id := by
  intro hself
  have hmem := mem_of_find?_eq_some hself
  have hnodup := h.lineage_nodup hid
  rw [Linked.lineage_eq_cons] at hnodup
  exact (nodup_cons.mp hnodup).1 hmem

/-- What has `s` around it is below `s`. -/
theorem mem_descendants_of_opener? (h : f.Linked) (hx : x ∈ f.reached) (hs : f.opener? x = some s) :
    x ∈ f.descendants s := by
  refine h.mem_descendants_of_mem_lineage hx ?_
  rw [Linked.lineage_eq_cons]
  exact mem_cons_of_mem _ (mem_of_find?_eq_some hs)

theorem before_eq {rest : List NodeId} (h : f.reached = seen ++ id :: rest) (hid : id ∉ seen) : f.before id = seen := by
  rw [before, h, takeWhile_append_of_pos]
  · simp
  · intro x hx
    simp only [bne_iff_ne]
    rintro rfl
    exact hid hx

end Forest

namespace Naming

open Forest

variable {f : Forest} {n : Nat} {id : NodeId} {seen around : List NodeId} {p : Progress}

/-- Where the walk stands: it has met the nodes in `seen`, and those in `around` are above it, nearest first. -/
structure Walked (f : Forest) (seen around : List NodeId) (p : Progress) : Prop where
  tree : SameTree f p.forest
  parent : p.forest.parent = f.parent
  declaration : p.forest.declaration = f.declaration
  scopes : p.scopes = (around.filter fun a => (f.kind a).opensScope).map (f.scopeWith seen)
  classes : p.classes = (around.filter fun a => (f.kind a).isClassLike).map f.classAt
  name : ∀ x, p.forest.resolvedName x = if x ∈ seen then f.nameAt x else f.resolvedName x
  nameScope : ∀ x, p.forest.nameScope? x =
    if x ∈ seen ∧ x ∉ around ∧ (f.kind x).opensScope = true then some (f.scopeWith f.reached x) else f.nameScope? x
  recorded : ∀ s ∈ p.forest.nameScopes, s ∈ f.nameScopes ∨ ∃ x ∈ f.reached, s = f.scopeWith f.reached x

namespace Walked

/-- Between files both stacks are empty. -/
theorem outside (h : Walked f seen [] p) : Walked f seen [] { forest := p.forest } :=
  ⟨h.tree, h.parent, h.declaration, rfl, rfl, h.name, h.nameScope, h.recorded⟩

variable (h : Walked f seen (f.ancestors id) p)
include h

/-- The scope on top of the stack is the one at the next node. -/
theorem scope_eq (hseen : f.before id = seen) : p.scope = f.scopeAt id := by
  rw [Progress.scope, h.scopes, scopeAt, hseen, opener?_eq_head?]
  cases (f.ancestors id).filter fun a => (f.kind a).opensScope <;> rfl

/-- The class on top of the stack is the one around the next node. -/
theorem head?_classes : p.classes.head? = f.classAround? id := by
  rw [h.classes, classAround?, enclosingClass?_eq_head?, head?_map]

theorem isEmpty_classes : p.classes.isEmpty = !(f.enclosingClass? id).isSome := by
  rw [h.classes, enclosingClass?_eq_head?]
  cases (f.ancestors id).filter fun a => (f.kind a).isClassLike <;> rfl

end Walked

/-! ## Entering a node -/

/-- What is written when a node is entered. -/
def written (p : Progress) (id : NodeId) : Option String :=
  match p.forest.kind id with
  | .classDecl name _ | .interfaceDecl name | .traitDecl name => some (p.scope.qualify name)
  | .function name => if p.classes.isEmpty then some (p.scope.qualify name) else none
  | .name text role => some (qualified p.scope p.classes.head? text role)
  | _ => none

theorem forest_enter (p : Progress) (id : NodeId) :
    (enter p id).forest = match written p id with
      | some name => (p.write id name).forest
      | none => p.forest := by
  unfold enter written
  cases p.forest.kind id with
  | importDecl kind name short => cases p.scopes <;> rfl
  | function name =>
    dsimp only
    cases p.classes.isEmpty <;> rfl
  | _ => rfl

theorem scopes_enter (p : Progress) (id : NodeId) :
    (enter p id).scopes =
      if (p.forest.kind id).opensScope then p.forest.scopeOpened id :: p.scopes
      else p.scopes.modifyHead (p.forest.addUse · id) := by
  have hsame : p.scopes = p.scopes.modifyHead fun s => s := (congrFun modifyHead_id p.scopes).symm
  unfold enter scopeOpened addUse
  cases p.forest.kind id with
  | importDecl kind name short =>
    cases hs : p.scopes with
    | nil => exact hs
    | cons top others => rfl
  | file => rfl
  | namespaceDecl name => rfl
  | function name =>
    dsimp only
    cases p.classes.isEmpty <;> exact hsame
  | _ => exact hsame

theorem classes_enter (p : Progress) (id : NodeId) :
    (enter p id).classes =
      if (p.forest.kind id).isClassLike then
        ⟨p.scope.qualify ((p.forest.kind id).name?.getD ""), parentName? p.forest p.scope id⟩ :: p.classes
      else p.classes := by
  unfold enter
  cases p.forest.kind id with
  | importDecl kind name short => cases p.scopes <;> rfl
  | function name =>
    dsimp only
    cases p.classes.isEmpty <;> rfl
  | _ => rfl

/-- Entering a node changes its qualified name only. -/
theorem enter_keeps (p : Progress) (id : NodeId) :
    SameTree p.forest (enter p id).forest ∧ (enter p id).forest.parent = p.forest.parent ∧
      (enter p id).forest.declaration = p.forest.declaration ∧
      (enter p id).forest.nameScopes = p.forest.nameScopes := by
  rw [forest_enter]
  cases written p id with
  | none => exact ⟨.refl _, rfl, rfl, rfl⟩
  | some name =>
    refine ⟨.modify _ id (fun _ => rfl) (fun _ => rfl) (fun _ => rfl), ?_, ?_, rfl⟩
    · funext x
      exact field_modify Node.parent (fun n => { n with resolvedName := some name }) (fun _ => rfl) _ id x
    · funext x
      exact field_modify Node.declaration (fun n => { n with resolvedName := some name }) (fun _ => rfl) _ id x

theorem resolvedName_enter (p : Progress) (hid : id < p.forest.size) (x : NodeId) :
    (enter p id).forest.resolvedName x =
      if x = id then (written p id).or (p.forest.resolvedName id) else p.forest.resolvedName x := by
  rw [forest_enter]
  cases written p id with
  | none =>
    by_cases hx : x = id
    · rw [if_pos hx, hx]
      rfl
    · rw [if_neg hx]
  | some name =>
    simp only [Progress.write, Forest.resolvedName, node_modify, hid, and_true]
    split <;> rfl

theorem addUse_of_opensScope (h : (f.kind id).opensScope = true) (s : NameScope) : f.addUse s id = s := by
  unfold addUse
  split
  · next hk => simp [hk, NodeKind.opensScope] at h
  · rfl

/-- What is written is the name by place. -/
theorem Walked.written_or (h : Walked f seen (f.ancestors id) p) (hseen : f.before id = seen) :
    (written p id).or (f.resolvedName id) = f.nameAt id := by
  unfold written nameAt
  rw [h.tree.kind, h.scope_eq hseen, h.head?_classes, h.isEmpty_classes]
  cases f.kind id with
  | function name =>
    dsimp only
    cases (f.enclosingClass? id).isSome <;> rfl
  | _ => rfl

/-- One more node counts for the first of the scopes on the way, which is that of the nearest file or namespace. -/
theorem map_scopeWith_concat (seen : List NodeId) (hnodup : around.Nodup) (hopener : f.opener? id = around.head?) :
    around.map (f.scopeWith (seen ++ [id])) = (around.map (f.scopeWith seen)).modifyHead (f.addUse · id) := by
  cases around with
  | nil => rfl
  | cons top others =>
    rw [head?_cons] at hopener
    rw [map_cons, map_cons, modifyHead_cons, scopeWith_concat, if_pos hopener]
    congr 1
    refine map_congr_left fun s hs => ?_
    rw [scopeWith_concat, if_neg]
    rw [hopener]
    intro htop
    cases htop
    exact (nodup_cons.mp hnodup).1 hs

/-- A file or namespace has no imports yet when it is entered: nothing that was met has it around. -/
theorem scopeWith_self (hlink : f.Linked) (hid : id ∈ f.reached) (hseen : seen ⊆ f.reached)
    (hapart : ∀ u ∈ seen, u ∉ f.descendants id) : f.scopeWith (seen ++ [id]) id = f.scopeOpened id := by
  refine scopeWith_of_forall_ne fun u hu hopener => ?_
  obtain hu | hu := mem_append.mp hu
  · exact hapart u hu (mem_descendants_of_opener? hlink (hseen hu) hopener)
  · rw [mem_singleton.mp hu] at hopener
    exact opener?_ne_self hlink hid hopener

variable {rest : List NodeId}

/-- Entering a node of the next subtree puts the node on the way and among the nodes met. -/
theorem Walked.enter (hlink : f.Linked) (hsplit : f.reached = seen ++ f.descendants id ++ rest)
    (h : Walked f seen (f.ancestors id) p) : Walked f (seen ++ [id]) (f.lineage id) (Naming.enter p id) := by
  have hself : id ∈ f.descendants id := self_mem_descend ..
  have hid : id ∈ f.reached := by simp [hsplit, hself]
  have hmet : seen ⊆ f.reached := fun u hu => by simp [hsplit, hu]
  have hapart : ∀ u ∈ seen, u ∉ f.descendants id := fun u hu hmem =>
    (nodup_append.mp (nodup_append.mp (hsplit ▸ hlink.nodup)).1).2.2 u hu u hmem rfl
  have hnew : id ∉ seen := fun hmem => hapart id hmem hself
  have hbefore : f.before id = seen := before_eq (by rw [hsplit, append_assoc]; rfl) hnew
  have hlineage : f.lineage id = id :: f.ancestors id := Linked.lineage_eq_cons f id
  have hnodup : (id :: f.ancestors id).Nodup := hlineage ▸ hlink.lineage_nodup hid
  obtain ⟨htree, hparent, hdecl, hscopes⟩ := enter_keeps p id
  refine ⟨h.tree.trans htree, hparent.trans h.parent, hdecl.trans h.declaration, ?_, ?_, ?_, ?_, ?_⟩
  · have hstack := map_scopeWith_concat seen ((nodup_cons.mp hnodup).2.filter _) (opener?_eq_head? f id)
    rw [scopes_enter, h.tree.kind, h.scopes, h.tree.addUse, h.tree.scopeOpened, hlineage, filter_cons]
    split
    · next hopens =>
      have hkept : (f.addUse · id) = fun s => s := funext fun s => addUse_of_opensScope hopens s
      rw [map_cons, scopeWith_self hlink hid hmet hapart, hstack, hkept]
      exact congrArg _ (congrFun modifyHead_id _).symm
    · rw [hstack]
  · rw [classes_enter, h.tree.kind, h.classes, hlineage, filter_cons]
    split
    · rw [map_cons, h.scope_eq hbefore, parentName?_congr h.tree]
      rfl
    · rfl
  · intro x
    rw [resolvedName_enter p (h.tree.size ▸ hlink.lt_size id hid)]
    by_cases hx : x = id
    · subst hx
      rw [if_pos rfl, if_pos (by simp), h.name, if_neg hnew, h.written_or hbefore]
    · rw [if_neg hx, h.name]
      simp [hx]
  · intro x
    have hscope : (Naming.enter p id).forest.nameScope? x = p.forest.nameScope? x := by
      rw [nameScope?, hscopes, nameScope?]
    rw [hscope, h.nameScope, hlineage]
    by_cases hx : x = id
    · subst hx
      simp [hnew]
    · simp [hx]
  · rw [hscopes]
    exact h.recorded

/-! ## Leaving a node -/

theorem leave_of_opensScope {top : NameScope} {others : List NameScope} (hopens : (p.forest.kind id).opensScope = true)
    (hscopes : p.scopes = top :: others) :
    Naming.leave p id = { p with forest := p.forest.setNameScope top, scopes := others } := by
  unfold Naming.leave
  rw [hscopes]
  cases hk : p.forest.kind id <;> simp [hk, NodeKind.opensScope] at hopens <;> rfl

theorem leave_of_not_opensScope (hopens : (p.forest.kind id).opensScope = false) :
    Naming.leave p id = if (p.forest.kind id).isClassLike then { p with classes := p.classes.drop 1 } else p := by
  unfold Naming.leave
  cases hk : p.forest.kind id <;> simp [hk, NodeKind.opensScope] at hopens <;> rfl

theorem forest_leave (p : Progress) (id : NodeId) :
    (leave p id).forest = p.forest ∨ ∃ s, (leave p id).forest = p.forest.setNameScope s := by
  by_cases hopens : (p.forest.kind id).opensScope = true
  · cases hscopes : p.scopes with
    | nil =>
      refine .inl ?_
      unfold leave
      cases hk : p.forest.kind id <;> simp [hk, NodeKind.opensScope] at hopens <;> simp only [hscopes]
    | cons s rest =>
      rw [leave_of_opensScope hopens hscopes]
      exact .inr ⟨s, rfl⟩
  · rw [leave_of_not_opensScope (by simpa using hopens)]
    refine .inl ?_
    split <;> rfl

/-- What writing a name and recording a scope keep is kept by the walk. -/
theorem walk_keeps {P : Forest → Prop}
    (hwrite : ∀ f id name, P f → P (f.modify id fun n => { n with resolvedName := some name }))
    (hscope : ∀ f s, P f → P (setNameScope f s)) (n : Nat) (p : Progress) (id : NodeId) (h : P p.forest) :
    P (walk n p id).forest := by
  induction n generalizing p id with
  | zero => exact h
  | succ n ih =>
    have henter : P (enter p id).forest := by
      rw [forest_enter]
      split
      · exact hwrite _ _ _ h
      · exact h
    have hbelow : P ((p.forest.children id).foldl (walk n) (enter p id)).forest :=
      List.foldlRecOn (motive := fun q : Progress => P q.forest) _ _ henter fun q hq c _ => ih q c hq
    unfold walk
    obtain hleave | ⟨s, hleave⟩ := forest_leave ((p.forest.children id).foldl (walk n) (enter p id)) id
    · rwa [hleave]
    · rw [hleave]
      exact hscope _ s hbelow

/-- A file or namespace whose subtree was met has its complete scope recorded. -/
theorem Walked.leave_opener (hlink : f.Linked) (hid : id ∈ f.reached) (hseen : id ∈ seen)
    (hopens : (f.kind id).opensScope = true) (hall : f.scopeWith seen id = f.scopeWith f.reached id)
    (h : Walked f seen (f.lineage id) p) : Walked f seen (f.ancestors id) (Naming.leave p id) := by
  have hlineage : f.lineage id = id :: f.ancestors id := Linked.lineage_eq_cons f id
  have hnodup : (id :: f.ancestors id).Nodup := hlineage ▸ hlink.lineage_nodup hid
  have hclass : (f.kind id).isClassLike = false := by
    cases hk : f.kind id <;> simp [hk, NodeKind.opensScope] at hopens <;> rfl
  obtain ⟨tree, parent, declaration, scopes, classes, name, nameScope, recorded⟩ := h
  rw [hlineage, filter_cons, if_pos hopens, map_cons, hall] at scopes
  rw [hlineage, filter_cons, hclass, if_neg (by simp)] at classes
  rw [leave_of_opensScope (by rw [tree.kind, hopens]) scopes]
  refine ⟨tree.trans (.setNameScope ..), ?_, ?_, rfl, classes, ?_, ?_, ?_⟩
  · rw [← parent]
    funext x
    simp [Forest.parent, Forest.node]
  · rw [← declaration]
    funext x
    simp [Forest.declaration, Forest.node]
  · intro x
    rw [← name]
    simp [Forest.resolvedName, Forest.node]
  · intro x
    rw [nameScope?_setNameScope, node_scopeWith, nameScope, hlineage]
    by_cases hx : x = id
    · subst hx
      simp [hseen, hopens, (nodup_cons.mp hnodup).1]
    · simp [hx]
  · intro s hs
    obtain rfl | hs := mem_nameScopes_setNameScope hs
    · exact .inr ⟨id, hid, rfl⟩
    · exact recorded s hs

/-- Any other node is taken off the way, and off the classes around if it is one. -/
theorem Walked.leave_other (hopens : (f.kind id).opensScope = false) (h : Walked f seen (f.lineage id) p) :
    Walked f seen (f.ancestors id) (Naming.leave p id) := by
  have hlineage : f.lineage id = id :: f.ancestors id := Linked.lineage_eq_cons f id
  obtain ⟨tree, parent, declaration, scopes, classes, name, nameScope, recorded⟩ := h
  rw [hlineage, filter_cons, hopens, if_neg (by simp)] at scopes
  rw [hlineage, filter_cons] at classes
  have hscope : ∀ x, p.forest.nameScope? x = if x ∈ seen ∧ x ∉ f.ancestors id ∧ (f.kind x).opensScope = true
      then some (f.scopeWith f.reached x) else f.nameScope? x := by
    intro x
    rw [nameScope, hlineage]
    by_cases hx : x = id
    · subst hx
      simp [hopens]
    · simp [hx]
  rw [leave_of_not_opensScope (by rw [tree.kind, hopens]), tree.kind]
  split at classes
  · next hclass =>
    rw [if_pos hclass]
    exact ⟨tree, parent, declaration, scopes, by rw [classes]; rfl, name, hscope, recorded⟩
  · next hclass =>
    rw [if_neg hclass]
    exact ⟨tree, parent, declaration, scopes, classes, name, hscope, recorded⟩

/-- Leaving a node whose subtree was met takes it off the way, and records the scope that it has opened. -/
theorem Walked.leave (hlink : f.Linked) (hid : id ∈ f.reached) (hsplit : f.reached = seen ++ rest)
    (hseen : id ∈ seen) (hrest : ∀ u ∈ rest, u ∉ f.descendants id) (h : Walked f seen (f.lineage id) p) :
    Walked f seen (f.ancestors id) (Naming.leave p id) := by
  by_cases hopens : (f.kind id).opensScope = true
  · -- Nothing that comes later has this node around it, so the scope is complete.
    have hall : f.scopeWith seen id = f.scopeWith f.reached id := by
      rw [hsplit]
      refine (scopeWith_append_of_not_isImport fun u hu hopener => absurd ?_ (hrest u hu)).symm
      exact mem_descendants_of_opener? hlink (by simp [hsplit, hu]) hopener
    exact h.leave_opener hlink hid hseen hopens hall
  · exact h.leave_other (by simpa using hopens)

/-! ## Walking a subtree -/

/-- Walking subtrees of one node, if walking each of them does what it should. -/
theorem Walked.foldl (hone : ∀ {seen rest : List NodeId} {c p}, c ∈ f.reached → f.Fits n c →
      f.reached = seen ++ f.descend n c ++ rest → Walked f seen (f.ancestors c) p →
      Walked f (seen ++ f.descend n c) (f.ancestors c) (walk n p c))
    {l : List NodeId} (hl : ∀ c ∈ l, c ∈ f.reached ∧ f.Fits n c ∧ f.ancestors c = around)
    (hsplit : f.reached = seen ++ l.flatMap (f.descend n) ++ rest) (h : Walked f seen around p) :
    Walked f (seen ++ l.flatMap (f.descend n)) around (l.foldl (walk n) p) := by
  induction l generalizing seen p with
  | nil => simpa using h
  | cons c more ih =>
    obtain ⟨hc, hfits, haround⟩ := hl c mem_cons_self
    rw [flatMap_cons] at hsplit ⊢
    rw [← append_assoc] at hsplit ⊢
    have hfirst : Walked f (seen ++ f.descend n c) around (walk n p c) := by
      rw [← haround] at h ⊢
      exact hone hc hfits (hsplit.trans (append_assoc ..)) h
    exact ih (fun d hd => hl d (mem_cons_of_mem _ hd)) hsplit hfirst

/-- Walking a subtree meets it and comes back to where the walk stood. -/
theorem Walked.walk (hlink : f.Linked) (hid : id ∈ f.reached) (hfits : f.Fits n id)
    (hsplit : f.reached = seen ++ f.descend n id ++ rest) (h : Walked f seen (f.ancestors id) p) :
    Walked f (seen ++ f.descend n id) (f.ancestors id) (Naming.walk n p id) := by
  induction n generalizing seen id p rest with
  | zero => exact hfits.elim
  | succ n ih =>
    have hall : f.descend (n + 1) id = f.descendants id := hlink.descend_eq hid hfits
    have hentered := h.enter hlink (hall ▸ hsplit)
    have hsplit' : f.reached = seen ++ [id] ++ (f.children id).flatMap (f.descend n) ++ rest := by
      rw [hsplit, descend, append_assoc seen [id]]
      rfl
    have hchildren := hentered.foldl (fun hc hf hs hw => ih hc hf hs hw)
      (fun c hc => ⟨hlink.children_reached hid hc, hfits c hc, hlink.ancestors_child hid hc⟩) hsplit'
    have hbelow : [id] ++ (f.children id).flatMap (f.descend n) = f.descend (n + 1) id := rfl
    rw [append_assoc, hbelow] at hchildren
    have hself : id ∈ seen ++ f.descend (n + 1) id := mem_append_right _ (self_mem_descend ..)
    unfold Naming.walk
    rw [h.tree.children]
    refine hchildren.leave hlink hid hsplit hself fun u hu hmem => ?_
    refine (nodup_append.mp (hsplit ▸ hlink.nodup)).2.2 u (mem_append_right _ ?_) u hu rfl
    rwa [hall]

end Naming

namespace Forest

open Naming

variable {f g : Forest}

/-- `g` is `f` with the qualified names and scopes that places give. -/
structure Named (f g : Forest) : Prop where
  tree : SameTree f g
  parent : g.parent = f.parent
  declaration : g.declaration = f.declaration
  name : ∀ id, g.resolvedName id = if id ∈ f.reached then f.nameAt id else f.resolvedName id
  nameScope : ∀ id, g.nameScope? id =
    if id ∈ f.reached ∧ (f.kind id).opensScope = true then some (f.scopeWith f.reached id) else f.nameScope? id
  recorded : ∀ s ∈ g.nameScopes, s ∈ f.nameScopes ∨ ∃ id ∈ f.reached, s = f.scopeWith f.reached id

theorem Named.places (h : Named f g) : SamePlaces f g := ⟨h.tree, h.parent⟩

/-- The naming pass writes the names that places give. -/
theorem resolveNames_named (h : f.Linked) : Named f f.resolveNames := by
  -- After some files the walk stands outside of everything and has met the nodes below them.
  have hfiles : ∀ (done todo : List SourceFile) (g : Forest), f.files = done ++ todo →
      Walked f ((done.map SourceFile.root).flatMap f.descendants) [] { forest := g } →
      Walked f f.reached [] { forest := todo.foldl (fun f file => nameFile f file.root) g } := by
    intro done todo
    induction todo generalizing done with
    | nil =>
      intro g hsplit hw
      rw [append_nil] at hsplit
      rwa [reached, roots, hsplit]
    | cons file rest ih =>
      intro g hsplit hw
      have hroot : file.root ∈ f.roots := by simp [roots, hsplit]
      have hreached : f.reached = (done.map SourceFile.root).flatMap f.descendants ++ f.descendants file.root ++
          (rest.map SourceFile.root).flatMap f.descendants := by
        rw [reached, roots, hsplit, map_append, flatMap_append, map_cons, flatMap_cons,
          append_assoc]
      rw [← h.ancestors_root hroot] at hw
      have hnext := hw.walk h (root_mem_reached hroot) (h.fits_root hroot) hreached
      rw [h.ancestors_root hroot] at hnext
      refine ih (done ++ [file]) (nameFile g file.root) (by simp [hsplit]) ?_
      rw [map_append, flatMap_append, map_singleton, flatMap_singleton, nameFile, hw.tree.size]
      exact hnext.outside
  have hstart : Walked f [] [] { forest := f } :=
    ⟨.refl f, rfl, rfl, rfl, rfl, by simp, by simp, fun s hs => .inl hs⟩
  have hw := hfiles [] f.files f rfl hstart
  refine ⟨hw.tree, hw.parent, hw.declaration, hw.name, fun id => ?_, hw.recorded⟩
  rw [resolveNames, hw.nameScope]
  simp

end Forest

end EventAtlas
