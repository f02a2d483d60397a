import EventAtlas.Proofs.Inference.Bracketing
import EventAtlas.Proofs.Inference.Questions

/-!
# Writes that a session has collected

Whatever a session has collected, the nodes of its writes are guarded: a write takes the value of an assignment, or is
a compound assignment itself.

Which writes a declaration gets is settled by the forest. `Forest.writesTo` and `Forest.looseWrites` say it without a
session, and `CollectsExactly` says that a session which collected the writes of a class-like agrees with them. One
case is left out. A declaration that two class-likes have for their own gets the writes of both, in the order in which
they were collected; such a declaration is misplaced.
-/

namespace EventAtlas

open List Sorted

namespace PropertyWrites

variable {f : Forest}

/-- The nodes of all writes are guarded. -/
def Guarded (f : Forest) (writes : PropertyWrites) : Prop :=
  All (fun ws => ∀ w ∈ ws, f.Guarded w.node) writes

theorem guarded_writeOf? {node : NodeId} {name : String} {w : PropertyWrite} (h : writeOf? f node = some (name, w)) :
    f.Guarded w.node := by
  unfold writeOf? at h
  split at h
  · next target value rest hk hc =>
    obtain ⟨⟨n, element⟩, -, he⟩ := Option.map_eq_some_iff.mp h
    have hvalue : f.Guarded value := Strategy.guarded_assigned hk (by rw [hc]; rfl)
    cases element <;> cases he <;> exact hvalue
  · next hk _ =>
    obtain ⟨_, -, he⟩ := Option.map_eq_some_iff.mp h
    cases he
    exact .inl (by rw [PropertyWrite.node, hk]; rfl)
  · cases h

theorem guarded_below {n : Nat} {node : NodeId} : ∀ e ∈ below f n node, f.Guarded e.2.node := by
  induction n generalizing node with
  | zero => exact nofun
  | succ n ih =>
    unfold below
    split
    · exact nofun
    · refine forall_mem_append.mpr ⟨?_, ?_⟩
      · intro e he
        exact guarded_writeOf? (Option.mem_toList.mp he)
      · intro e he
        obtain ⟨c, -, hc⟩ := mem_flatMap.mp he
        exact ih e hc

theorem Guarded.of {writes : PropertyWrites} (h : writes.Guarded f) (name : String) :
    ∀ w ∈ writes.of name, f.Guarded w.node := by
  unfold PropertyWrites.of
  cases hf : find? writes name with
  | none => exact nofun
  | some ws => exact All.find? h hf

theorem Guarded.add {writes : PropertyWrites} (h : writes.Guarded f) (name : String) {w : PropertyWrite}
    (hw : f.Guarded w.node) : (writes.add name w).Guarded f :=
  All.insert h name (forall_mem_append.mpr ⟨h.of name, forall_mem_singleton.mpr hw⟩)

theorem guarded_inClass (c : NodeId) : (inClass f c).Guarded f := by
  refine foldlRecOn (motive := Guarded f) _ _ nofun fun _ h e he => h.add e.1 ?_
  obtain ⟨method, -, hmethod⟩ := mem_flatMap.mp he
  obtain ⟨c, -, hc⟩ := mem_flatMap.mp hmethod
  exact guarded_below e hc

end PropertyWrites

namespace Session

variable {f : Forest} {s : Session}

/-- The nodes of all writes that were collected are guarded. -/
structure WritesGuarded (f : Forest) (s : Session) : Prop where
  injected : s.injected.All fun ws => ∀ w ∈ ws, f.Guarded w.node
  dynamic : s.dynamic.All (PropertyWrites.Guarded f)

theorem WritesGuarded.writesTo (h : s.WritesGuarded f) (decl : NodeId) : ∀ w ∈ s.writesTo decl, f.Guarded w.node := by
  unfold Session.writesTo
  cases hf : s.injected.find? decl with
  | none => exact nofun
  | some ws => exact h.injected.find? hf

theorem WritesGuarded.looseWrites (h : s.WritesGuarded f) (owner : NodeId) (name : String) :
    ∀ w ∈ s.looseWrites owner name, f.Guarded w.node := by
  unfold Session.looseWrites
  cases hf : s.dynamic.find? owner with
  | none => exact nofun
  | some writes => exact (h.dynamic.find? hf).of name

theorem WritesGuarded.inject {r : Session × PropertyWrites} (h : r.1.WritesGuarded f) (hr : r.2.Guarded f)
    (decl : NodeId) : (inject f r decl).1.WritesGuarded f ∧ (inject f r decl).2.Guarded f := by
  unfold Session.inject
  split
  · exact ⟨h, hr⟩
  · next name _ =>
    split
    · exact ⟨h, hr⟩
    · refine ⟨⟨h.injected.insert decl ?_, h.dynamic⟩, All.erase hr name⟩
      exact forall_mem_append.mpr ⟨h.writesTo decl, hr.of name⟩

theorem WritesGuarded.collect (h : s.WritesGuarded f) (c : NodeId) : (s.collect f c).WritesGuarded f := by
  unfold Session.collect
  split
  · exact h
  · obtain ⟨hs, hrest⟩ := foldlRecOn (motive := fun r : Session × PropertyWrites => r.1.WritesGuarded f ∧ r.2.Guarded f)
      (f.ownProperties c) (Session.inject f) (b := ({ s with collected := c :: s.collected }, .inClass f c))
      ⟨⟨h.injected, h.dynamic⟩, PropertyWrites.guarded_inClass c⟩ fun _ hr decl _ => hr.1.inject hr.2 decl
    dsimp only
    split
    · exact hs
    · exact ⟨hs.injected, hs.dynamic.insert c hrest⟩

end Session

/-! ## What the forest says about writes -/

namespace Forest

/-- The writes in a class-like handed to its declarations, and those that are left. -/
def handOut (f : Forest) (c : NodeId) : Session × PropertyWrites :=
  (f.ownProperties c).foldl (Session.inject f) ({}, PropertyWrites.inClass f c)

/-- The writes that a class-like hands to its declarations. -/
def handed (f : Forest) (c : NodeId) : Sorted NodeId (List PropertyWrite) :=
  (f.handOut c).1.injected

/-- The writes that a class-like has no declaration for, if there are any. -/
def leftOver? (f : Forest) (c : NodeId) : Option PropertyWrites :=
  if isEmpty (f.handOut c).2 then none else some (f.handOut c).2

/-- The writes to a declaration. -/
def writesTo (f : Forest) (decl : NodeId) : List PropertyWrite :=
  ((f.collector? decl).bind fun c => (f.handed c).find? decl).getD []

/-- The writes to a property that a class-like does not declare. -/
def looseWrites (f : Forest) (owner : NodeId) (name : String) : List PropertyWrite :=
  ((f.leftOver? owner).map fun w => PropertyWrites.of w name).getD []

/-- A class-like has a declaration for its own whose writes are collected from another one. -/
def isMisplaced (f : Forest) (decl : NodeId) : Bool :=
  f.ids.any fun c => (f.ownProperties c).contains decl && f.collector? decl != some c

theorem children_of_size_le {f : Forest} {c : NodeId} (h : f.size ≤ c) : f.children c = [] := by
  have hnode : f.node c = {} := by
    unfold node
    rw [Array.getD_eq_getD_getElem?, Array.getElem?_eq_none h]
    rfl
  rw [children, hnode]

theorem collector?_of_mem_ownProperties {f : Forest} {c decl : NodeId} (hplace : f.isMisplaced decl = false)
    (h : decl ∈ f.ownProperties c) : f.collector? decl = some c := by
  have hc : c ∈ f.ids := by
    rw [ids, mem_range]
    refine Nat.lt_of_not_le fun hsize => ?_
    have hchildren := children_of_size_le hsize
    simp [ownProperties, members, childrenWhere, hchildren] at h
  have hnot := any_eq_false.mp hplace c hc
  simpa [h] using hnot

end Forest

namespace Session

variable {f : Forest} {s : Session} {r r' : Session × PropertyWrites} {d : NodeId}

/-- What a session has collected is what the forest says. -/
structure CollectsExactly (f : Forest) (s : Session) : Prop where
  injected : ∀ decl, f.isMisplaced decl = false →
    s.injected.find? decl =
      ((f.collector? decl).filter s.collected.contains).bind fun c => (f.handed c).find? decl
  dynamic : ∀ c, s.dynamic.find? c = if s.collected.contains c then f.leftOver? c else none

theorem CollectsExactly.writesTo (h : s.CollectsExactly f) {decl : NodeId} (hplace : f.isMisplaced decl = false)
    (hc : ∀ c, f.collector? decl = some c → c ∈ s.collected) : s.writesTo decl = f.writesTo decl := by
  have hfilter : (f.collector? decl).filter s.collected.contains = f.collector? decl := by
    cases hd : f.collector? decl with
    | none => rfl
    | some c => simp [hc c hd]
  rw [Session.writesTo, h.injected decl hplace, hfilter, Forest.writesTo]

theorem CollectsExactly.looseWrites (h : s.CollectsExactly f) {owner : NodeId} (hc : owner ∈ s.collected)
    (name : String) : s.looseWrites owner name = f.looseWrites owner name := by
  rw [Session.looseWrites, h.dynamic owner, if_pos (contains_iff_mem.mpr hc), Forest.looseWrites]

/-- Which writes are left depends on the writes that are handed out, not on the session. -/
theorem inject_snd (h : r.2 = r'.2) (decl : NodeId) : (inject f r decl).2 = (inject f r' decl).2 := by
  unfold inject
  rw [h]
  split
  · exact h
  · split
    · exact h
    · rfl

/-- What a declaration has got depends on what it got before and on the writes that are handed out. -/
theorem find?_inject_congr (hwrites : r.2 = r'.2) (h : r.1.injected.find? d = r'.1.injected.find? d) (decl : NodeId) :
    (inject f r decl).1.injected.find? d = (inject f r' decl).1.injected.find? d := by
  unfold inject
  rw [hwrites]
  split
  · exact h
  · split
    · exact h
    · by_cases heq : d = decl
      · subst heq
        rw [find?_insert_self, find?_insert_self, h]
      · rw [find?_insert_of_ne _ _ heq, find?_insert_of_ne _ _ heq, h]

theorem find?_inject_of_ne {decl : NodeId} (hne : d ≠ decl) :
    (inject f r decl).1.injected.find? d = r.1.injected.find? d := by
  unfold inject
  split
  · rfl
  · split
    · rfl
    · exact find?_insert_of_ne _ _ hne

theorem foldl_inject_snd (decls : List NodeId) (h : r.2 = r'.2) :
    (decls.foldl (inject f) r).2 = (decls.foldl (inject f) r').2 := by
  induction decls generalizing r r' with
  | nil => exact h
  | cons decl rest ih => exact ih (inject_snd h decl)

theorem find?_foldl_inject_congr (decls : List NodeId)
    (hwrites : r.2 = r'.2) (h : r.1.injected.find? d = r'.1.injected.find? d) :
    (decls.foldl (inject f) r).1.injected.find? d = (decls.foldl (inject f) r').1.injected.find? d := by
  induction decls generalizing r r' with
  | nil => exact h
  | cons decl rest ih => exact ih (inject_snd hwrites decl) (find?_inject_congr hwrites h decl)

theorem find?_foldl_inject_of_not_mem {decls : List NodeId}
    (h : d ∉ decls) : (decls.foldl (inject f) r).1.injected.find? d = r.1.injected.find? d := by
  induction decls generalizing r with
  | nil => rfl
  | cons decl rest ih =>
    rw [mem_cons, not_or] at h
    rw [foldl_cons, ih h.2, find?_inject_of_ne h.1]

theorem collect_of_mem {c : NodeId} (h : c ∈ s.collected) : s.collect f c = s := by
  rw [collect, if_pos (contains_iff_mem.mpr h)]

/-- What collecting the writes of a class-like does, if that was not done before. -/
theorem collect_of_not_mem {c : NodeId} (h : c ∉ s.collected) :
    let r := (f.ownProperties c).foldl (inject f)
      ({ s with collected := c :: s.collected }, PropertyWrites.inClass f c)
    s.collect f c = { s with
      collected := c :: s.collected
      injected := r.1.injected
      dynamic := if isEmpty r.2 then s.dynamic else s.dynamic.insert c r.2 } := by
  obtain ⟨injected, hr⟩ := foldl_inject_eq f (f.ownProperties c)
    ({ s with collected := c :: s.collected }, PropertyWrites.inClass f c)
  unfold collect
  rw [if_neg (by simpa using h)]
  dsimp only
  split <;> simp only [hr]

theorem CollectsExactly.collect (h : s.CollectsExactly f) (c : NodeId) : (s.collect f c).CollectsExactly f := by
  by_cases hc : c ∈ s.collected
  · rwa [Session.collect, if_pos (contains_iff_mem.mpr hc)]
  have hmem : (c :: s.collected).contains c = true := contains_iff_mem.mpr mem_cons_self
  rw [collect_of_not_mem hc]
  constructor
  · intro decl hplace
    dsimp only
    by_cases hd : f.collector? decl = some c
    -- Nothing of this class-like was handed out before, so its writes are handed out as in an empty session.
    · have hnone : s.injected.find? decl = none := by
        rw [h.injected decl hplace, hd]
        simp [hc]
      have hfold : ((f.ownProperties c).foldl (inject f)
          ({ s with collected := c :: s.collected }, PropertyWrites.inClass f c)).1.injected.find? decl =
            (f.handed c).find? decl :=
        find?_foldl_inject_congr (f.ownProperties c) rfl hnone
      rw [hfold, hd, Option.filter_some_pos hmem, Option.bind_some]
    · have hown : decl ∉ f.ownProperties c := fun hmem => hd (Forest.collector?_of_mem_ownProperties hplace hmem)
      rw [find?_foldl_inject_of_not_mem hown, h.injected decl hplace]
      cases howner : f.collector? decl with
      | none => rfl
      | some owner =>
        have hne : owner ≠ c := fun heq => hd (heq ▸ howner)
        simp [Option.filter_some, hne]
  · intro owner
    have hleft : ((f.ownProperties c).foldl (inject f)
        ({ s with collected := c :: s.collected }, PropertyWrites.inClass f c)).2 = (f.handOut c).2 :=
      foldl_inject_snd (f.ownProperties c) rfl
    dsimp only
    rw [hleft]
    by_cases heq : owner = c
    · subst heq
      have hnone : s.dynamic.find? owner = none := by
        rw [h.dynamic owner, if_neg (by simpa using hc)]
      rw [if_pos hmem, Forest.leftOver?]
      split
      · exact hnone
      · exact find?_insert_self _ _ _
    · have hsame : (c :: s.collected).contains owner = s.collected.contains owner := by simp [heq]
      rw [hsame, ← h.dynamic owner]
      split
      · rfl
      · exact find?_insert_of_ne _ _ heq

end Session

end EventAtlas
