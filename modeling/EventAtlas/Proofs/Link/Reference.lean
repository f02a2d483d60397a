import EventAtlas.Link.Reference
import EventAtlas.Proofs.Forest.Arena

/-!
# What the reference pass writes

The pass goes over the arena four times and writes declarations only. A name is written by the declaration of its
qualified name, however often it is met, and what means the class around is written last. What a round writes can be
told without declarations (`Reference.IsRound`), so the rounds together write one list of links, and the last link of a
node counts. So the declaration of a name after the pass can be told from the forest before it
(`Forest.declaration_linkReferences`).
-/

namespace EventAtlas

open List

namespace Forest

/-- Nothing but declarations differs. -/
structure SameButDeclarations (f g : Forest) : Prop where
  tree : SameTree f g
  parent : g.parent = f.parent
  resolvedName : g.resolvedName = f.resolvedName
  nameScopes : g.nameScopes = f.nameScopes

namespace SameButDeclarations

variable {f g h : Forest}

theorem refl (f : Forest) : SameButDeclarations f f := ⟨.refl f, rfl, rfl, rfl⟩

variable (a : SameButDeclarations f g)
include a

theorem trans (b : SameButDeclarations g h) : SameButDeclarations f h :=
  ⟨a.tree.trans b.tree, b.parent.trans a.parent, b.resolvedName.trans a.resolvedName,
    b.nameScopes.trans a.nameScopes⟩

omit a in
theorem write (f : Forest) (id target : NodeId) : SameButDeclarations f (Reference.write f id target) := by
  refine ⟨.modify f id (fun _ => rfl) (fun _ => rfl) (fun _ => rfl), ?_, ?_, rfl⟩
  · funext x
    exact field_modify Node.parent (fun n => { n with declaration := some target }) (fun _ => rfl) f id x
  · funext x
    exact field_modify Node.resolvedName (fun n => { n with declaration := some target }) (fun _ => rfl) f id x

theorem nameOf? : g.nameOf? = f.nameOf? := by
  funext id
  have hname : (g.node id).resolvedName = (f.node id).resolvedName := congrFun a.resolvedName id
  unfold Forest.nameOf?
  rw [a.tree.kind, hname]

theorem places : SamePlaces f g := ⟨a.tree, a.parent⟩

theorem enclosingClass? : g.enclosingClass? = f.enclosingClass? :=
  a.places.enclosingClass?

end SameButDeclarations

end Forest

namespace Reference

open Forest

variable {f g : Forest} {lookup : String → Option NodeId} {x : NodeId}

/-- The declaration that a name stands for. -/
def target? (f : Forest) (lookup : String → Option NodeId) (id : NodeId) : Option NodeId :=
  (f.nameOf? id).bind lookup

theorem declaration_write (f : Forest) (id target x : NodeId) :
    (write f id target).declaration x = if x = id ∧ id < f.size then some target else f.declaration x := by
  simp only [write, Forest.declaration, node_modify]
  split <;> rfl

/-! ## Links -/

/-- Write declarations one after the other. -/
def writeAll (f : Forest) (links : List (NodeId × NodeId)) : Forest :=
  links.foldl (fun f l => write f l.1 l.2) f

theorem writeAll_same (f : Forest) (links : List (NodeId × NodeId)) : SameButDeclarations f (writeAll f links) :=
  List.foldlRecOn (motive := SameButDeclarations f) _ _ (.refl f) fun _ h _ _ => h.trans (.write ..)

theorem writeAll_append (f : Forest) (l m : List (NodeId × NodeId)) : writeAll f (l ++ m) = writeAll (writeAll f l) m :=
  foldl_append

/-- The last of the declarations that are written to a node counts. -/
theorem declaration_writeAll (f : Forest) (links : List (NodeId × NodeId)) {x : NodeId} (hx : x < f.size) :
    (writeAll f links).declaration x =
      ((links.reverse.find? fun l => l.1 == x).map Prod.snd).or (f.declaration x) := by
  induction links generalizing f with
  | nil => rfl
  | cons l rest ih =>
    have hsize : (write f l.1 l.2).size = f.size := (SameButDeclarations.write f l.1 l.2).tree.size
    rw [writeAll, foldl_cons, ← writeAll, ih _ (hsize ▸ hx), declaration_write, reverse_cons,
      find?_append]
    by_cases hl : x = l.1
    · rw [if_pos ⟨hl, hl ▸ hx⟩]
      cases rest.reverse.find? fun e => e.1 == x <;> simp [hl]
    · rw [if_neg fun h => hl h.1]
      cases rest.reverse.find? fun e => e.1 == x <;> simp [Ne.symm hl]

/-- The last link of a node is the only one that it has. -/
theorem lastLink_eq {links : List (NodeId × NodeId)} {t : Option NodeId} (h : ∀ c, (x, c) ∈ links ↔ t = some c) :
    (links.reverse.find? fun l => l.1 == x).map Prod.snd = t := by
  cases hfind : links.reverse.find? fun l => l.1 == x with
  | none =>
    cases t with
    | none => rfl
    | some c => simpa using find?_eq_none.mp hfind _ (mem_reverse.mpr ((h c).mpr rfl))
  | some l =>
    obtain rfl : l.1 = x := by simpa using find?_some hfind
    exact ((h l.2).mp (mem_reverse.mp (mem_of_find?_eq_some hfind))).symm

/-- What linking a name writes: its declaration into the name and into the site around it. -/
def linksOf (f : Forest) (lookup : String → Option NodeId) (site : Option NodeId) (name : NodeId) :
    List (NodeId × NodeId) :=
  match target? f lookup name with
  | none => []
  | some t => (name, t) :: site.toList.map fun s => (s, t)

/-- How linking a name counts. -/
def countOf (f : Forest) (lookup : String → Option NodeId) (count : LinkCounts → LinkCounts) (c : LinkCounts)
    (name : NodeId) : LinkCounts :=
  match target? f lookup name with
  | none => { c with unresolved := c.unresolved + 1 }
  | some _ => count c

theorem link_eq (lookup : String → Option NodeId) (count : LinkCounts → LinkCounts) (p : Progress)
    (site : Option NodeId) (name : NodeId) :
    link lookup count p site name =
      ⟨writeAll p.forest (linksOf p.forest lookup site name), countOf p.forest lookup count p.counts name⟩ := by
  unfold link linksOf countOf target?
  cases (p.forest.nameOf? name).bind lookup with
  | none => rfl
  | some t => cases site <;> rfl

theorem linksOf_congr (h : SameButDeclarations f g) (lookup : String → Option NodeId) :
    linksOf g lookup = linksOf f lookup := by
  funext site name
  rw [linksOf, target?, h.nameOf?, ← target?, linksOf]

theorem countOf_congr (h : SameButDeclarations f g) (lookup : String → Option NodeId)
    (count : LinkCounts → LinkCounts) : countOf g lookup count = countOf f lookup count := by
  funext c name
  rw [countOf, target?, h.nameOf?, ← target?, countOf]

theorem mem_linksOf {site : Option NodeId} {name : NodeId} {l : NodeId × NodeId} :
    l ∈ linksOf f lookup site name ↔ (l.1 = name ∨ site = some l.1) ∧ target? f lookup name = some l.2 := by
  unfold linksOf
  cases target? f lookup name <;> cases site <;> grind

/-- Linking names one after the other writes what each of them would write alone. -/
theorem foldl_link_eq {α : Type} (site : α → Option NodeId) (name : α → NodeId) (lookup : String → Option NodeId)
    (count : LinkCounts → LinkCounts) (l : List α) (p : Progress) :
    l.foldl (fun p a => link lookup count p (site a) (name a)) p =
      ⟨writeAll p.forest (l.flatMap fun a => linksOf p.forest lookup (site a) (name a)),
        l.foldl (fun c a => countOf p.forest lookup count c (name a)) p.counts⟩ := by
  induction l generalizing p with
  | nil => rfl
  | cons a rest ih =>
    have hsame := writeAll_same p.forest (linksOf p.forest lookup (site a) (name a))
    rw [foldl_cons, ih, link_eq, flatMap_cons, writeAll_append, foldl_cons]
    simp only [linksOf_congr hsame, countOf_congr hsame]

/-! ## Rounds -/

/-- A round over the arena writes these links; what it writes and counts can be told without declarations. -/
def IsRound (links : Forest → List (NodeId × NodeId)) (r : Progress → Progress) : Prop :=
  ∃ counts : Forest → LinkCounts → LinkCounts,
    (∀ f g, SameButDeclarations f g → links g = links f ∧ counts g = counts f) ∧
    ∀ p, r p = ⟨writeAll p.forest (links p.forest), counts p.forest p.counts⟩

/-- One round after another is a round. -/
theorem IsRound.comp {links links' : Forest → List (NodeId × NodeId)} {r q : Progress → Progress}
    (hq : IsRound links' q) (hr : IsRound links r) : IsRound (fun f => links f ++ links' f) fun p => q (r p) := by
  obtain ⟨counts, hcongr, heq⟩ := hr
  obtain ⟨counts', hcongr', heq'⟩ := hq
  refine ⟨fun f c => counts' f (counts f c), fun f g hsame => ?_, fun p => ?_⟩
  · obtain ⟨hl, hc⟩ := hcongr f g hsame
    obtain ⟨hl', hc'⟩ := hcongr' f g hsame
    simp only [hl, hl', hc, hc', and_self]
  · obtain ⟨hl', hc'⟩ := hcongr' p.forest _ (writeAll_same p.forest (links p.forest))
    simp only [heq, heq', hl', hc', writeAll_append]

/-- What is written at the sites of a kind. -/
def siteLinks (lookup : String → Option NodeId) (kind : NodeKind → Bool) (f : Forest) : List (NodeId × NodeId) :=
  (sites f kind).flatMap fun s => linksOf f lookup (some s.1) s.2

theorem isRound_linkSites (lookup : String → Option NodeId) (kind : NodeKind → Bool)
    (count : LinkCounts → LinkCounts) : IsRound (siteLinks lookup kind) (linkSites lookup kind count) := by
  refine ⟨fun f c => (sites f kind).foldl (fun c s => countOf f lookup count c s.2) c, fun f g hsame => ?_, fun p => ?_⟩
  · have hsites : sites g kind = sites f kind := by
      unfold sites className? firstChild?
      rw [hsame.tree.ids, hsame.tree.kind, hsame.tree.children]
    simp only [siteLinks, hsites, linksOf_congr hsame, countOf_congr hsame, and_self]
  · exact foldl_link_eq (fun s => some s.1) Prod.snd lookup count _ p

/-- The names that declare types or supertypes, but not native types. -/
def typeNames (f : Forest) : List NodeId :=
  f.ids.filter fun id => isTypeName f id && (f.nameOf? id).any fun n => !Typing.isNative n

theorem isRound_linkTypes (lookup : String → Option NodeId) :
    IsRound (fun f => (typeNames f).flatMap (linksOf f lookup none)) (linkTypes lookup) := by
  refine ⟨fun f c => (typeNames f).foldl (countOf f lookup fun c => { c with typeHints := c.typeHints + 1 }) c,
    fun f g hsame => ?_, fun p => foldl_link_eq (fun _ => none) (fun n => n) lookup _ _ p⟩
  have hnames : typeNames g = typeNames f := by
    unfold typeNames isTypeName
    rw [hsame.tree.ids, hsame.tree.kind, hsame.parent, hsame.nameOf?]
  simp only [hnames, linksOf_congr hsame, countOf_congr hsame, and_self]

/-- Everything that means the class around, with that class. -/
def selfLinks (f : Forest) : List (NodeId × NodeId) :=
  f.ids.filterMap fun id => if meansSelf (f.kind id) then (f.enclosingClass? id).map fun c => (id, c) else none

theorem isRound_linkSelf : IsRound selfLinks linkSelf := by
  refine ⟨fun f c => { c with selfTargets := c.selfTargets + (selfLinks f).length }, fun f g hsame => ?_, fun p => ?_⟩
  · have hself : selfLinks g = selfLinks f := by
      unfold selfLinks
      rw [hsame.tree.ids, hsame.tree.kind, hsame.enclosingClass?]
    simp only [hself, and_self]
  · change (selfLinks p.forest).foldl _ p = ⟨_, { p.counts with selfTargets := p.counts.selfTargets + _ }⟩
    generalize selfLinks p.forest = links
    induction links generalizing p with
    | nil => rfl
    | cons s rest ih =>
      rw [foldl_cons, ih, length_cons, Nat.add_comm rest.length, ← Nat.add_assoc]
      rfl

/-- What the pass writes before the classes around. -/
def nameLinks (lookup : String → Option NodeId) (f : Forest) : List (NodeId × NodeId) :=
  siteLinks lookup isStaticAccess f ++ siteLinks lookup (· == .new) f ++ (typeNames f).flatMap (linksOf f lookup none)

/-- The four rounds of the pass are one. -/
theorem linkReferences_isRound (lookup : String → Option NodeId) : ∃ r : Progress → Progress,
    IsRound (fun f => nameLinks lookup f ++ selfLinks f) r ∧
      ∀ f, f.linkReferences lookup = ((r ⟨f, {}⟩).counts, (r ⟨f, {}⟩).forest) := by
  have hstatics := isRound_linkSites lookup isStaticAccess fun c => { c with staticTargets := c.staticTargets + 1 }
  have hnews := isRound_linkSites lookup (· == .new) fun c => { c with instantiations := c.instantiations + 1 }
  exact ⟨_, isRound_linkSelf.comp ((isRound_linkTypes lookup).comp (hnews.comp hstatics)), fun _ => rfl⟩

theorem linkReferences_eq (f : Forest) (lookup : String → Option NodeId) :
    (f.linkReferences lookup).2 = writeAll f (nameLinks lookup f ++ selfLinks f) := by
  obtain ⟨r, ⟨counts, -, heq⟩, hr⟩ := linkReferences_isRound lookup
  rw [hr, heq]

/-! ## Which names are linked -/

/-- A class is named at a site of a kind. -/
def IsNamedAt (f : Forest) (kind : NodeKind → Bool) (x : NodeId) : Prop :=
  ∃ site, kind (f.kind site) = true ∧ className? f site = some x

theorem lt_size_of_kind_ne {id : NodeId} (h : f.kind id ≠ .other "") : id < f.size := by
  by_contra hle
  exact h (by rw [Forest.kind, node_of_size_le (Nat.le_of_not_lt hle)])

theorem mem_sites {kind : NodeKind → Bool} {e : NodeId × NodeId} :
    e ∈ sites f kind ↔ kind (f.kind e.1) = true ∧ className? f e.1 = some e.2 := by
  unfold sites
  rw [mem_filterMap]
  constructor
  · rintro ⟨id, -, he⟩
    split at he
    · next hkind =>
      obtain ⟨n, hn, rfl⟩ := Option.map_eq_some_iff.mp he
      exact ⟨hkind, hn⟩
    · cases he
  · rintro ⟨hkind, hname⟩
    have hchild : e.2 ∈ f.children e.1 := mem_of_mem_head? (Option.filter_eq_some_iff.mp hname).1
    refine ⟨e.1, mem_range.mpr (lt_size_of_mem_children hchild), ?_⟩
    rw [if_pos hkind, hname]
    rfl

/-- A name is linked if it declares a type or a supertype that is not native. -/
def IsForeignType (f : Forest) (x : NodeId) : Prop :=
  isTypeName f x = true ∧ ∃ name, f.nameOf? x = some name ∧ Typing.isNative name = false

theorem mem_selfLinks {e : NodeId × NodeId} :
    e ∈ selfLinks f ↔ e.1 < f.size ∧ meansSelf (f.kind e.1) = true ∧ f.enclosingClass? e.1 = some e.2 := by
  rw [selfLinks, mem_filterMap]
  constructor
  · rintro ⟨id, hid, he⟩
    split at he
    · next hself =>
      obtain ⟨c, hc, rfl⟩ := Option.map_eq_some_iff.mp he
      exact ⟨mem_range.mp hid, hself, hc⟩
    · cases he
  · rintro ⟨hlt, hself, hc⟩
    refine ⟨e.1, mem_range.mpr hlt, ?_⟩
    rw [if_pos hself, hc]
    rfl

end Reference

namespace Forest

open Reference

variable {f : Forest} {lookup : String → Option NodeId} {x : NodeId}

theorem linkReferences_same (f : Forest) (lookup : String → Option NodeId) :
    SameButDeclarations f (f.linkReferences lookup).2 := by
  rw [linkReferences_eq]
  exact writeAll_same ..

/-- The name stands where the pass looks it up: at a static access or a new object, or as a type that is not native. -/
def IsLookedUp (f : Forest) (x : NodeId) : Prop :=
  IsNamedAt f isStaticAccess x ∨ IsNamedAt f (· == .new) x ∨ IsForeignType f x

/-- A name is linked where it is looked up, to what it stands for. -/
theorem mem_nameLinks {text : String} {role : NameRole} (hx : f.kind x = .name text role) {c : NodeId} :
    (x, c) ∈ nameLinks lookup f ↔ f.IsLookedUp x ∧ target? f lookup x = some c := by
  -- A name is not itself a site.
  have hsites (kind : NodeKind → Bool) (hkind : kind (f.kind x) = false) :
      (x, c) ∈ siteLinks lookup kind f ↔ IsNamedAt f kind x ∧ target? f lookup x = some c := by
    simp only [siteLinks, mem_flatMap, mem_sites, mem_linksOf, IsNamedAt, Prod.exists]
    grind
  have hlt : x < f.size := lt_size_of_kind_ne (by simp [hx])
  have htypes : (x, c) ∈ (typeNames f).flatMap (linksOf f lookup none) ↔
      IsForeignType f x ∧ target? f lookup x = some c := by
    simp only [mem_flatMap, mem_linksOf, typeNames, mem_filter, Bool.and_eq_true, Option.any_eq_true,
      Bool.not_eq_true', IsForeignType, ids, mem_range]
    grind
  rw [nameLinks, mem_append, mem_append, hsites isStaticAccess (by rw [hx]; rfl), hsites (· == .new) (by rw [hx]; rfl),
    htypes, IsLookedUp, or_and_right, or_and_right, or_assoc]

open Classical in
/-- The declaration of a name after the pass: the class around if that is meant, else what the name stands for where it
is looked up, else what it was. -/
theorem declaration_linkReferences {text : String} {role : NameRole} (hx : f.kind x = .name text role) :
    (f.linkReferences lookup).2.declaration x =
      (if meansSelf (f.kind x) then f.enclosingClass? x else none).or
        ((if f.IsLookedUp x then target? f lookup x else none).or (f.declaration x)) := by
  have hlt : x < f.size := lt_size_of_kind_ne (by simp [hx])
  have hlt' : x < (writeAll f (nameLinks lookup f)).size := by
    rwa [(writeAll_same ..).tree.size]
  rw [linkReferences_eq, writeAll_append, declaration_writeAll _ _ hlt', declaration_writeAll f _ hlt]
  congr 2
  · exact lastLink_eq fun c => by simp [mem_selfLinks, hlt]
  · exact lastLink_eq fun c => by simp [mem_nameLinks hx]

/-! ## Where declarations lead -/

/-- Every declaration that a node refers to has a property. -/
def Declares (P : NodeId → Prop) (f : Forest) : Prop :=
  ∀ x t, f.declaration x = some t → P t

theorem Declares.write {P : NodeId → Prop} (h : Declares P f) {id target : NodeId} (ht : P target) :
    Declares P (write f id target) := by
  intro x t hx
  rw [declaration_write] at hx
  split at hx
  · exact Option.some.inj hx ▸ ht
  · exact h x t hx

/-- References lead to what is looked up and to classes around. -/
theorem Declares.linkReferences {P : NodeId → Prop} (hlookup : ∀ fqn t, lookup fqn = some t → P t)
    (hclass : ∀ x c, f.enclosingClass? x = some c → P c) (h : Declares P f) :
    Declares P (f.linkReferences lookup).2 := by
  have hof {site : Option NodeId} {name : NodeId} {l : NodeId × NodeId} (hl : l ∈ linksOf f lookup site name) :
      P l.2 := by
    obtain ⟨fqn, -, hfqn⟩ := Option.bind_eq_some_iff.mp (mem_linksOf.mp hl).2
    exact hlookup fqn l.2 hfqn
  rw [linkReferences_eq]
  refine List.foldlRecOn (motive := Declares P) _ _ h fun g hg l hl => hg.write ?_
  simp only [nameLinks, siteLinks, mem_append, mem_flatMap] at hl
  obtain ((⟨s, -, hs⟩ | ⟨s, -, hs⟩) | ⟨n, -, hn⟩) | hself := hl
  · exact hof hs
  · exact hof hs
  · exact hof hn
  · exact hclass l.1 l.2 (mem_selfLinks.mp hself).2.2

end Forest

end EventAtlas
