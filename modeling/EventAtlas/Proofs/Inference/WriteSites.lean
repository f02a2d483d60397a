import EventAtlas.Proofs.Inference.Writes
import EventAtlas.Proofs.Link.Lineage
import Mathlib.Data.List.Flatten
import Mathlib.Data.List.Forall2

/-!
# Where properties are written

A class-like writes to a property of its own where an assignment in one of its methods has that property, or an element
of it, for its target; what stands in a nested class-like belongs to that one (`Forest.IsWriteSite`). The search for
writes walks through the methods and comes to every such place once (`Forest.scanned_nodup`, `Forest.mem_scanned_iff`).
What it has found for a name goes to the first declaration of that name, or stays with the class-like if there is none
(`Forest.writesTo_handOut`, `Forest.looseWrites_eq`).
-/

namespace EventAtlas

open List PropertyWrites Session

namespace Forest

variable {f : Forest} {name : String} {n : Nat} {node target : NodeId}

/-! ## Targets -/

/-- A property of `$this`, or a static property of the class around. -/
inductive IsOwnProperty (f : Forest) (name : String) (target : NodeId) : Prop
  | ofObject {nullsafe : Bool} {receiver : NodeId} : f.kind target = .propertyFetch name nullsafe →
    f.firstChild? target = some receiver → f.kind receiver = .var "this" → IsOwnProperty f name target
  | ofClass {scope : NodeId} {text : String} {role : NameRole} : f.kind target = .staticPropertyFetch name →
    f.firstChild? target = some scope → f.kind scope = .name text role →
    Text.lower text = "self" ∨ Text.lower text = "static" → IsOwnProperty f name target

/-- An element of a property of `$this` or of a static property of the class around. -/
def IsOwnElement (f : Forest) (name : String) (target : NodeId) : Prop :=
  f.kind target = .arrayAccess ∧ ∃ base, f.firstChild? target = some base ∧ f.IsOwnProperty name base

/-- An assignment, and what it writes to the property of this name. -/
inductive MakesWrite (f : Forest) (node : NodeId) (name : String) : PropertyWrite → Prop
  | assigned {byRef : Bool} {target value : NodeId} {rest : List NodeId} : f.kind node = .assign byRef →
    f.children node = target :: value :: rest → f.IsOwnProperty name target → MakesWrite f node name (.assigned value)
  | appended {byRef : Bool} {target value : NodeId} {rest : List NodeId} : f.kind node = .assign byRef →
    f.children node = target :: value :: rest → f.IsOwnElement name target → MakesWrite f node name (.appended value)
  | compound {op : String} {target : NodeId} {rest : List NodeId} : f.kind node = .compoundAssign op →
    f.children node = target :: rest → f.IsOwnProperty name target ∨ f.IsOwnElement name target →
    MakesWrite f node name (.compound node)

theorem meansClassAround_iff {text : String} : (Text.sameLetters text "self" || Text.sameLetters text "static") = true ↔
    Text.lower text = "self" ∨ Text.lower text = "static" := by
  rw [Bool.or_eq_true, Text.sameLetters, Text.sameLetters, beq_iff_eq, beq_iff_eq,
    show Text.lower "self" = "self" by decide, show Text.lower "static" = "static" by decide]

theorem written?_eq_property_iff : written? f (n + 1) target = some (name, false) ↔ f.IsOwnProperty name target := by
  constructor
  · intro h
    unfold written? at h
    split at h
    · next hk hc =>
      split at h
      · next hthis =>
        obtain ⟨rfl, -⟩ := Prod.mk.inj (Option.some.inj h)
        exact .ofObject hk hc hthis
      · cases h
    · next hk hc =>
      split at h
      · next hscope =>
        split at h
        · next hself =>
          obtain ⟨rfl, -⟩ := Prod.mk.inj (Option.some.inj h)
          exact .ofClass hk hc hscope (meansClassAround_iff.mp hself)
        · cases h
      · cases h
    · split at h <;> cases h
    · cases h
  · rintro (⟨hk, hc, hthis⟩ | ⟨hk, hc, hscope, hself⟩)
    · simp only [written?, hk, hc, hthis, if_true]
    · simp only [written?, hk, hc, hscope, meansClassAround_iff.mpr hself, if_true]

theorem written?_eq_element_iff : written? f (n + 2) target = some (name, true) ↔ f.IsOwnElement name target := by
  constructor
  · intro h
    unfold written? at h
    split at h
    · split at h <;> cases h
    · split at h
      · split at h <;> cases h
      · cases h
    · next base hk hc =>
      split at h
      · next hbase =>
        obtain ⟨rfl, -⟩ := Prod.mk.inj (Option.some.inj h)
        exact ⟨hk, base, hc, written?_eq_property_iff.mp hbase⟩
      · cases h
    · cases h
  · rintro ⟨hk, base, hc, hbase⟩
    rw [written?]
    simp only [hk, hc, written?_eq_property_iff.mpr hbase]

/-- The bound on subscripts is large enough for the target of an assignment. -/
theorem exists_size_eq {c : NodeId} (h : c ∈ f.children node) : ∃ n, f.size + 1 = n + 2 := by
  obtain ⟨n, hn⟩ := Nat.exists_eq_add_of_lt (Nat.zero_lt_of_lt (lt_size_of_mem_children h))
  exact ⟨n, by rw [hn, Nat.zero_add]⟩

theorem written?_target_iff {b : Bool} (h : target ∈ f.children node) :
    written? f (f.size + 1) target = some (name, b) ↔
      if b then f.IsOwnElement name target else f.IsOwnProperty name target := by
  obtain ⟨n, hn⟩ := exists_size_eq h
  rw [hn]
  cases b with
  | false => exact written?_eq_property_iff
  | true => exact written?_eq_element_iff

/-- A node makes the writes that the search takes from it, and no others. -/
theorem writeOf?_eq_some_iff {w : PropertyWrite} : writeOf? f node = some (name, w) ↔ f.MakesWrite node name w := by
  constructor
  · intro h
    unfold writeOf? at h
    split at h
    · next target value rest hk hc =>
      obtain ⟨⟨name', element⟩, hw, he⟩ := Option.map_eq_some_iff.mp h
      have hown := (written?_target_iff (hc ▸ mem_cons_self)).mp hw
      cases element <;> cases he
      · exact .assigned hk hc hown
      · exact .appended hk hc hown
    · next target rest hk hc =>
      obtain ⟨⟨name', element⟩, hw, he⟩ := Option.map_eq_some_iff.mp h
      have hown := (written?_target_iff (hc ▸ mem_cons_self)).mp hw
      cases element <;> cases he
      · exact .compound hk hc (.inl hown)
      · exact .compound hk hc (.inr hown)
    · cases h
  · intro h
    cases h with
    | @assigned _ target _ _ hk hc hw =>
      simp [writeOf?, hk, hc, written?_eq_property_iff.mpr hw]
    | @appended _ target _ _ hk hc hw =>
      simp [writeOf?, hk, hc, (written?_target_iff (b := true) (hc ▸ mem_cons_self)).mpr hw]
    | @compound _ target _ hk hc hw =>
      obtain hw | hw := hw
      · simp [writeOf?, hk, hc, written?_eq_property_iff.mpr hw]
      · simp [writeOf?, hk, hc, (written?_target_iff (b := true) (hc ▸ mem_cons_self)).mpr hw]

/-! ## The search -/

/-- What is below a node. -/
def inside (f : Forest) (id : NodeId) : List NodeId :=
  (f.children id).flatMap f.descendants

/-- A place in a method of a class-like, in no class-like within the method, that writes to the property of this
name. -/
structure IsWriteSite (f : Forest) (c : NodeId) (name : String) (node : NodeId) : Prop where
  inMethod : ∃ m ∈ f.children c, (f.kind m).isMethod = true ∧ node ∈ f.inside m ∧
    ∀ k ∈ f.inside m, (f.kind k).isClassLike = true → node ∉ f.descendants k
  writes : ∃ w, f.MakesWrite node name w

/-- The nodes that the search for writes comes to from a node on, at most `n` levels deep. -/
def visited (f : Forest) : Nat → NodeId → List NodeId
  | 0, _ => []
  | n + 1, node =>
    if (f.kind node).isClassLike then [] else node :: (f.children node).reverse.flatMap (f.visited n)

/-- The nodes that the search for the writes of a class-like comes to. -/
def scanned (f : Forest) (c : NodeId) : List NodeId :=
  ((f.members c).filter fun m => (f.kind m).isMethod).flatMap fun m =>
    (f.children m).reverse.flatMap (f.visited (f.size + 1))

theorem below_eq_filterMap (n : Nat) (node : NodeId) : below f n node = (f.visited n node).filterMap (writeOf? f) := by
  induction n generalizing node with
  | zero => rfl
  | succ n ih =>
    rw [below, visited]
    split
    · rfl
    · rw [filterMap_cons, filterMap_flatMap, funext ih]
      cases writeOf? f node <;> rfl

theorem of_add (writes : PropertyWrites) (n name : String) (w : PropertyWrite) :
    (writes.add n w).of name = writes.of name ++ if n = name then [w] else [] := by
  unfold PropertyWrites.add
  split
  · next heq =>
    subst heq
    rw [PropertyWrites.of, Sorted.find?_insert_self, Option.getD_some]
  · next hne => rw [PropertyWrites.of, Sorted.find?_insert_of_ne _ _ (Ne.symm hne), append_nil, PropertyWrites.of]

theorem of_foldl_add (found : List (String × PropertyWrite)) (writes : PropertyWrites) (name : String) :
    (found.foldl (fun w s => add w s.1 s.2) writes).of name =
      writes.of name ++ found.filterMap fun e => if e.1 = name then some e.2 else none := by
  induction found generalizing writes with
  | nil => simp
  | cons e rest ih =>
    rw [foldl_cons, ih, of_add, append_assoc, filterMap_cons]
    split <;> rfl

/-- The write that a node makes to the property of this name. -/
def writeTo? (f : Forest) (name : String) (node : NodeId) : Option PropertyWrite :=
  (writeOf? f node).bind fun e => if e.1 = name then some e.2 else none

theorem writeTo?_eq_some_iff {w : PropertyWrite} : f.writeTo? name node = some w ↔ f.MakesWrite node name w := by
  rw [← writeOf?_eq_some_iff, writeTo?, Option.bind_eq_some_iff]
  constructor
  · rintro ⟨⟨n, v⟩, hw, he⟩
    split at he
    · next heq =>
      obtain rfl := Option.some.inj he
      obtain rfl : n = name := heq
      exact hw
    · cases he
  · intro hw
    exact ⟨(name, w), hw, if_pos rfl⟩

/-- The writes that are found for a name, by the places where they are made. -/
theorem of_inClass (c : NodeId) (name : String) :
    (inClass f c).of name = (f.scanned c).filterMap (f.writeTo? name) := by
  have hfound : ((f.members c).filter fun m => (f.kind m).isMethod).flatMap (inMethod f) =
      (f.scanned c).filterMap (writeOf? f) := by
    rw [scanned, filterMap_flatMap]
    refine flatMap_congr fun m _ => ?_
    rw [inMethod, filterMap_flatMap, funext (below_eq_filterMap _)]
  rw [inClass, hfound, of_foldl_add, filterMap_filterMap]
  rfl

/-! ### Every place once -/

theorem count_flatMap_le {α : Type} [DecidableEq α] {l : List NodeId} {g h : NodeId → List α} {a : α}
    (hle : ∀ c ∈ l, (g c).count a ≤ (h c).count a) : (l.flatMap g).count a ≤ (l.flatMap h).count a := by
  induction l with
  | nil => exact Nat.le_refl _
  | cons c rest ih =>
    obtain ⟨hc, hrest⟩ := forall_mem_cons.mp hle
    rw [flatMap_cons, flatMap_cons, count_append, count_append]
    exact Nat.add_le_add hc (ih hrest)

theorem count_flatMap_reverse {l : List NodeId} {g : NodeId → List NodeId} {a : NodeId} :
    (l.reverse.flatMap g).count a = (l.flatMap g).count a :=
  ((reverse_perm l).flatMap_right g).count_eq a

theorem count_visited_le (n : Nat) (node a : NodeId) : (f.visited n node).count a ≤ (f.descend n node).count a := by
  induction n generalizing node with
  | zero => exact Nat.le_refl _
  | succ n ih =>
    rw [visited, descend]
    split
    · exact Nat.zero_le _
    · rw [count_cons, count_cons, count_flatMap_reverse]
      exact Nat.add_le_add_right (count_flatMap_le fun c _ => ih c) _

theorem members_filter_isMethod (f : Forest) (c : NodeId) :
    (f.members c).filter (fun m => (f.kind m).isMethod) = (f.children c).filter fun m => (f.kind m).isMethod := by
  rw [members, childrenWhere, filter_filter]
  refine filter_congr fun m _ => ?_
  cases f.kind m <;> rfl

variable {c : NodeId}

theorem scanned_nodup (h : f.Linked) (hc : c ∈ f.reached) : (f.scanned c).Nodup := by
  have hnodup := h.descendants_nodup hc
  rw [h.descendants_eq hc] at hnodup
  refine nodup_iff_count_le_one.mpr fun a => ?_
  have hmethods : ∀ m ∈ f.children c,
      ((f.children m).reverse.flatMap (f.visited (f.size + 1))).count a ≤ (f.descendants m).count a := by
    intro m hm
    have hmr := h.children_reached hc hm
    have hle := count_flatMap_le (l := f.children m) (a := a) fun d _ => f.count_visited_le (f.size + 1) d a
    rw [count_flatMap_reverse, h.descendants_eq hmr]
    exact Nat.le_trans hle (count_le_count_cons ..)
  calc (f.scanned c).count a
      ≤ ((f.children c).flatMap fun m => (f.children m).reverse.flatMap (f.visited (f.size + 1))).count a := by
        rw [scanned, members_filter_isMethod]
        exact (filter_sublist.flatMap _).count_le a
    _ ≤ ((f.children c).flatMap f.descendants).count a := count_flatMap_le hmethods
    _ ≤ 1 := nodup_iff_count_le_one.mp (nodup_cons.mp hnodup).2 a

theorem visited_subset_descend (n : Nat) (a : NodeId) : f.visited n a ⊆ f.descend n a := by
  intro x hx
  have hcount := f.count_visited_le n a x
  exact count_pos_iff.mp (Nat.lt_of_lt_of_le (count_pos_iff.mpr hx) hcount)

/-- On the way from a node to one that the search comes to there is no class-like. -/
theorem mem_ancestors_of_mem_visited (h : f.Linked) {a k : NodeId} (ha : a ∈ f.reached)
    (hx : node ∈ f.visited n a) (hk : k ∈ f.lineage node) (hclass : (f.kind k).isClassLike = true) :
    k ∈ f.ancestors a := by
  induction n generalizing a with
  | zero => cases hx
  | succ n ih =>
    rw [visited] at hx
    split at hx
    · cases hx
    · next hplain =>
      have hup : k ∈ f.lineage a → k ∈ f.ancestors a := by
        intro hmem
        rw [Linked.lineage_eq_cons] at hmem
        refine (mem_cons.mp hmem).resolve_left fun heq => hplain (heq ▸ hclass)
      obtain rfl | hx := mem_cons.mp hx
      · exact hup hk
      · obtain ⟨b, hb, hx⟩ := mem_flatMap.mp hx
        have hb := mem_reverse.mp hb
        have hmem := ih (h.children_reached ha hb) hx
        rw [h.ancestors_child ha hb] at hmem
        exact hup hmem

theorem mem_visited (h : f.Linked) {a : NodeId} (ha : a ∈ f.reached) (hn : f.Fits n a) (hx : node ∈ f.descendants a)
    (hplain : ∀ k ∈ f.descendants a, (f.kind k).isClassLike = true → node ∉ f.descendants k) :
    node ∈ f.visited n a := by
  induction n generalizing a with
  | zero => cases hn
  | succ n ih =>
    rw [visited, if_neg fun hclass => hplain a (self_mem_descend ..) hclass hx]
    rw [h.descendants_eq ha] at hx hplain
    obtain rfl | hx := mem_cons.mp hx
    · exact mem_cons_self
    · obtain ⟨b, hb, hx⟩ := mem_flatMap.mp hx
      refine mem_cons_of_mem a (mem_flatMap.mpr ⟨b, mem_reverse.mpr hb, ?_⟩)
      refine ih (h.children_reached ha hb) (hn b hb) hx fun k hk => ?_
      exact hplain k (mem_cons_of_mem a (mem_flatMap.mpr ⟨b, hb, hk⟩))

theorem not_mem_inside_of_mem_lineage (h : f.Linked) {m k : NodeId} (hm : m ∈ f.reached) (hk : k ∈ f.lineage m) :
    k ∉ f.inside m := by
  intro hbelow
  obtain ⟨d, hd, hk'⟩ := mem_flatMap.mp hbelow
  exact h.not_mem_descendants_child (h.lineage_subset hm hk) (h.mem_descendants_of_mem_lineage hm hk) hd hk'

/-- The search comes to what is in a method, but not in a class-like within it. -/
theorem mem_scanned_iff (h : f.Linked) (hc : c ∈ f.reached) :
    node ∈ f.scanned c ↔ ∃ m ∈ f.children c, (f.kind m).isMethod = true ∧ node ∈ f.inside m ∧
      ∀ k ∈ f.inside m, (f.kind k).isClassLike = true → node ∉ f.descendants k := by
  rw [scanned, members_filter_isMethod, mem_flatMap]
  constructor
  · rintro ⟨m, hm, hnode⟩
    obtain ⟨hm, hmethod⟩ := mem_filter.mp hm
    obtain ⟨a, ha, hnode⟩ := mem_flatMap.mp hnode
    have ha := mem_reverse.mp ha
    have hmr := h.children_reached hc hm
    have har := h.children_reached hmr ha
    refine ⟨m, hm, hmethod, mem_flatMap.mpr ⟨a, ha, visited_subset_descend _ a hnode⟩,
      fun k hk hclass hbelow => ?_⟩
    have hkr : k ∈ f.reached := by
      obtain ⟨d, hd, hk⟩ := mem_flatMap.mp hk
      exact h.descendants_reached (h.children_reached hmr hd) hk
    have hup := mem_ancestors_of_mem_visited h har hnode (h.mem_lineage_of_mem_descend hkr hbelow) hclass
    rw [h.ancestors_child hmr ha] at hup
    exact not_mem_inside_of_mem_lineage h hmr hup hk
  · rintro ⟨m, hm, hmethod, hnode, hplain⟩
    obtain ⟨a, ha, hnode⟩ := mem_flatMap.mp hnode
    have har := h.children_reached (h.children_reached hc hm) ha
    refine ⟨m, mem_filter.mpr ⟨hm, hmethod⟩, mem_flatMap.mpr ⟨a, mem_reverse.mpr ha, ?_⟩⟩
    exact mem_visited h har (h.fits har) hnode fun k hk => hplain k (mem_flatMap.mpr ⟨a, ha, hk⟩)

theorem forall₂_filterMap {α β : Type} (g : α → Option β) (l : List α) :
    List.Forall₂ (fun a b => g a = some b) (l.filter fun a => (g a).isSome) (l.filterMap g) := by
  induction l with
  | nil => exact .nil
  | cons a rest ih =>
    cases ha : g a with
    | none => simpa [ha] using ih
    | some b => simpa [ha] using ih

/-- The writes that are found for a name are those of the places that make them, each place once. -/
theorem exists_sites (h : f.Linked) (hc : c ∈ f.reached) (name : String) :
    ∃ sites : List NodeId, sites.Nodup ∧ (∀ node, node ∈ sites ↔ f.IsWriteSite c name node) ∧
      List.Forall₂ (fun node w => f.MakesWrite node name w) sites ((inClass f c).of name) := by
  refine ⟨(f.scanned c).filter fun node => (f.writeTo? name node).isSome, (scanned_nodup h hc).filter _,
    fun node => ?_, ?_⟩
  · rw [mem_filter, Option.isSome_iff_exists, mem_scanned_iff h hc]
    simp only [writeTo?_eq_some_iff]
    exact ⟨fun ⟨hin, hw⟩ => ⟨hin, hw⟩, fun hsite => ⟨hsite.inMethod, hsite.writes⟩⟩
  · rw [of_inClass]
    exact (forall₂_filterMap (f.writeTo? name) _).imp fun _ _ hw => writeTo?_eq_some_iff.mp hw

/-! ## Handing out -/

variable {r : Session × PropertyWrites} {decl d : NodeId}

theorem writesTo_inject (hname : (f.kind decl).name? = some name) (r : Session × PropertyWrites) (d : NodeId) :
    (inject f r decl).1.writesTo d = r.1.writesTo d ++ if d = decl then r.2.of name else [] := by
  rw [inject, hname]
  dsimp only
  split
  · next hnone => rw [hnone, ite_self, append_nil]
  · split
    · next heq =>
      subst heq
      rw [Session.writesTo, Sorted.find?_insert_self, Option.getD_some, Session.writesTo]
    · next hne =>
      rw [Session.writesTo, Sorted.find?_insert_of_ne _ _ hne, append_nil, Session.writesTo]

theorem of_inject (hname : (f.kind decl).name? = some name) (r : Session × PropertyWrites) (n : String) :
    (inject f r decl).2.of n = if n = name then [] else r.2.of n := by
  rw [inject, hname]
  dsimp only
  split
  · next hnone =>
    split
    · next heq => rw [heq, hnone]
    · rfl
  · split
    · next heq => rw [PropertyWrites.of, heq, Sorted.find?_erase_self, Option.getD_none]
    · next hne => rw [PropertyWrites.of, Sorted.find?_erase_of_ne _ hne, PropertyWrites.of]

theorem inject_of_name?_eq_none (hname : (f.kind decl).name? = none) (r : Session × PropertyWrites) :
    inject f r decl = r := by
  rw [inject, hname]

/-- The declarations of this name among those of a list. -/
def named (f : Forest) (name : String) (decls : List NodeId) : List NodeId :=
  decls.filter fun d => (f.kind d).name? == some name

theorem named_cons (name : String) (e : NodeId) (rest : List NodeId) :
    f.named name (e :: rest) = if (f.kind e).name? = some name then e :: f.named name rest else f.named name rest := by
  rw [named, filter_cons, named]
  simp only [beq_iff_eq]

/-- The writes to a name are left if no declaration has it. -/
theorem of_foldl_inject (decls : List NodeId) (r : Session × PropertyWrites) (name : String) :
    (decls.foldl (inject f) r).2.of name = if f.named name decls = [] then r.2.of name else [] := by
  induction decls generalizing r with
  | nil => rfl
  | cons e rest ih =>
    rw [foldl_cons, ih, named_cons]
    cases hname : (f.kind e).name? with
    | none => simp only [inject_of_name?_eq_none hname, reduceCtorEq, if_false]
    | some n =>
      rw [of_inject hname]
      by_cases heq : n = name
      · simp [heq]
      · rw [if_neg (Ne.symm heq), if_neg fun h => heq (Option.some.inj h)]

/-- The first declaration of a name gets the writes to it, and later ones get nothing. -/
theorem writesTo_foldl_inject {decls : List NodeId} (hnodup : decls.Nodup) (r : Session × PropertyWrites)
    (hname : (f.kind d).name? = some name) :
    (decls.foldl (inject f) r).1.writesTo d =
      r.1.writesTo d ++ if (f.named name decls).head? = some d then r.2.of name else [] := by
  induction decls generalizing r with
  | nil => simp [named]
  | cons e rest ih =>
    obtain ⟨hout, hnodup⟩ := nodup_cons.mp hnodup
    rw [foldl_cons, ih hnodup, named_cons]
    cases hn : (f.kind e).name? with
    | none => simp only [inject_of_name?_eq_none hn, reduceCtorEq, if_false]
    | some n =>
      rw [writesTo_inject hn, of_inject hn]
      by_cases hd : d = e
      · subst hd
        obtain rfl : n = name := Option.some.inj (hn.symm.trans hname)
        simp
      · by_cases heq : n = name
        · simp [heq, hd, Ne.symm hd]
        · rw [if_neg hd, if_neg (Ne.symm heq), if_neg fun h => heq (Option.some.inj h), append_nil]

/-- What a class-like hands to one of its declarations. -/
theorem writesTo_handOut (hnodup : (f.ownProperties c).Nodup) (hname : (f.kind d).name? = some name) :
    (f.handOut c).1.writesTo d =
      if (f.ownPropertiesNamed c name).head? = some d then (inClass f c).of name else [] := by
  rw [handOut, writesTo_foldl_inject hnodup _ hname]
  exact nil_append _

/-- What a class-like keeps of the writes to a name. -/
theorem looseWrites_eq (c : NodeId) (name : String) :
    f.looseWrites c name = if f.ownPropertiesNamed c name = [] then (inClass f c).of name else [] := by
  have hleft : f.looseWrites c name = (f.handOut c).2.of name := by
    rw [looseWrites, leftOver?]
    split
    · next hempty =>
      have hentries : (f.handOut c).2.entries = [] := isEmpty_iff.mp hempty
      rw [PropertyWrites.of, Sorted.find?, hentries]
      rfl
    · rfl
  rw [hleft, handOut, of_foldl_inject]
  rfl

end Forest

end EventAtlas
