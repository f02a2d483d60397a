import EventAtlas.Proofs.Inference.Finality
import EventAtlas.Proofs.Inference.Inferred

/-!
# Doubts about answers

Two kinds of answers are cut short. A node that is asked for while it is on the stack gives nothing, or is passed over.
A variable that is read while its scope is being swept has what the sweep knows so far. What comes of such an answer
may differ from one resolution to the next.

`Doubts` keeps account of that along a course. A cut casts doubt on the innermost frame, which is that of a node or of
a sweep. A node that is left in doubt hands the doubt to the frame around and is remembered as doubtful; a sweep that
ends in doubt leaves its scope doubtful; a variable that is read in a doubtful sweep is doubtful. Whoever recalls
something doubtful is in doubt. In a forest where parents and children disagree, declarations may be misplaced and
sweeps may come to variables that they do not read; these are doubtful as well.

What is not in doubt is sound: it is what `Yields` says.
-/

namespace EventAtlas

open List

/-- What is in doubt. -/
structure Doubts where
  /-- The nodes on the stack and the sweeps under way, innermost first: whether there is doubt about them. -/
  frames : List Bool := []
  /-- The nodes whose answer is doubtful. -/
  nodes : List NodeId := []
  /-- The scopes whose sweep is doubtful. -/
  scopes : List NodeId := []

namespace Doubts

/-- There is doubt about the innermost frame. -/
def raised (d : Doubts) : Bool :=
  d.frames.headD false

/-- Cast doubt on the innermost frame under a condition. -/
def raiseIf (d : Doubts) (p : Bool) : Doubts :=
  { d with frames := d.frames.modifyHead (· || p) }

/-- What an act adds to the doubts, in the session that it finds. -/
def note (x : Index) : Act → Session → Doubts → Doubts
  | .lookUp node, s, d => d.raiseIf ((s.memo.find? node).isSome && d.nodes.contains node)
  | .isResolving node, s, d => d.raiseIf (s.resolving.contains node)
  | .enter node, _, d => { d with frames := false :: d.frames, nodes := d.nodes.filter (· != node) }
  | .leave node _, _, d =>
    { d with
      frames := d.frames.tail.modifyHead (· || d.raised)
      nodes := if d.raised then node :: d.nodes else d.nodes }
  | .readAhead scope _, s, d => d.raiseIf (Sweeps.contains s.sweeps scope)
  | .readBehind node scope, s, d =>
    d.raiseIf (if (s.memo.find? node).isSome then d.nodes.contains node else d.scopes.contains scope)
  | .beginSweep scope, s, d => if (s.beginSweep scope).1 then { d with frames := false :: d.frames } else d
  | .endSweep scope _, _, d =>
    { d with
      frames := d.frames.tail
      scopes := if d.raised then scope :: d.scopes else d.scopes }
  | .rememberRead node name, s, d =>
    if s.memo.contains node then d
    else if d.raised || !(s.frame?.any fun v => Strategy.readsIn x node v.scope name) then
      { d with nodes := node :: d.nodes }
    else d
  | .writesTo decl, _, d => d.raiseIf (x.forest.isMisplaced decl)
  | .cycle _, _, d | .current, _, d | .changeVariables _, _, d | .collect .., _, d | .looseWrites .., _, d => d

@[simp] theorem raiseIf_false (d : Doubts) : d.raiseIf false = d := by
  obtain ⟨frames, nodes, scopes⟩ := d
  cases frames with
  | nil => rfl
  | cons b rest => simp [raiseIf]

theorem note_rememberRead_frames (d : Doubts) (x : Index) (node : NodeId) (name : String) (s : Session) :
    (d.note x (.rememberRead node name) s).frames = d.frames := by
  simp only [note]
  split
  · rfl
  · split <;> rfl

end Doubts

/-! ## Sessions that grow -/

namespace Session

/-- What was remembered and collected stays. -/
structure Grows (s s' : Session) : Prop where
  memo : ∀ node, s'.memo.find? node = none → s.memo.find? node = none
  collected : s.collected ⊆ s'.collected

theorem Grows.refl (s : Session) : s.Grows s :=
  ⟨fun _ h => h, fun _ h => h⟩

theorem Grows.trans {s s' s'' : Session} (h : s.Grows s') (h' : s'.Grows s'') : s.Grows s'' :=
  ⟨fun node hn => h.memo node (h'.memo node hn), fun _ hc => h'.collected (h.collected hc)⟩

theorem collected_subset_collect (f : Forest) (s : Session) (c : NodeId) :
    s.collected ⊆ (s.collect f c).collected ∧ c ∈ (s.collect f c).collected := by
  by_cases hc : c ∈ s.collected
  · rw [collect, if_pos (contains_iff_mem.mpr hc)]
    exact ⟨fun _ h => h, hc⟩
  · rw [collect_of_not_mem hc]
    exact ⟨fun _ h => mem_cons_of_mem c h, mem_cons_self⟩

theorem find?_rememberRead_ne_none (s : Session) (node : NodeId) (name : String) :
    (s.rememberRead node name).memo.find? node ≠ none := by
  unfold rememberRead rememberFirst
  split
  · next hcontains =>
    rw [Sorted.contains_eq_isSome_find?] at hcontains
    exact Option.isSome_iff_ne_none.mp hcontains
  · rw [remember, Sorted.find?_insert_self]
    exact nofun

end Session

theorem Act.collected_perform (a : Act) (s : Session) : s.collected ⊆ (a.perform s).2.collected := by
  have h := a.perform_makes s
  generalize (a.perform s).2 = t at h ⊢
  cases h with
  | collect f c _ _ _ heq => exact heq ▸ (s.collected_subset_collect f c).1
  | _ => exact fun _ h => h

theorem Act.perform_grows (a : Act) (s : Session) : s.Grows (a.perform s).2 := by
  refine ⟨fun node hnone => ?_, a.collected_perform s⟩
  have hinsert : ∀ n t, (a.perform s).2.memo = s.memo.insert n t → s.memo.find? node = none := by
    intro n t hmemo
    rw [hmemo] at hnone
    by_cases heq : node = n
    · subst heq
      rw [Sorted.find?_insert_self] at hnone
      cases hnone
    · rwa [Sorted.find?_insert_of_ne _ _ heq] at hnone
  obtain hmemo | ⟨n, t, -, hmemo⟩ | ⟨n, -, t, -, -, -, hmemo⟩ := a.memo_perform s
  · rwa [hmemo] at hnone
  · exact hinsert n t hmemo
  · exact hinsert n t hmemo

/-- Sessions grow along every dialogue. -/
theorem Dialogue.Watched.grows {α ρ : Type} {note : Act → Session → ρ → ρ} {pre : Act → Session → ρ → Prop}
    {post : α → Session → ρ → Prop} {d : Dialogue Act α} {s : Session} {notes : ρ}
    (h : d.Watched note pre post s notes) :
    d.Watched note pre (fun a s' notes => s.Grows s' ∧ post a s' notes) s notes := by
  have hgen : ∀ s₀ : Session, s₀.Grows s →
      d.Watched note pre (fun a s' notes => s₀.Grows s' ∧ post a s' notes) s notes := by
    intro s₀ hs
    induction d generalizing s notes with
    | done a => exact ⟨hs, h⟩
    | ask act next ih => exact ⟨h.1, ih _ h.2 (hs.trans (act.perform_grows s))⟩
  exact hgen s (.refl s)

/-! ## What is sound -/

/-- What is not in doubt is what can be inferred. -/
structure Sound (x : Index) (s : Session) (d : Doubts) : Prop where
  remembered : ∀ node types, s.memo.find? node = some types → node ∉ d.nodes → Yields x (.node node) types
  /-- While a node is on the stack, only the sweep of the scope in which it reads can have it remembered. -/
  read : ∀ node types, s.memo.find? node = some types → node ∉ d.nodes → node ∈ s.stack →
    ∃ scope name, Strategy.dispatch x node = Strategy.read node scope name ∧ Yields x (.read x node scope) types
  /-- The sweep of a scope did not come to a reader for which nothing is remembered. -/
  swept : ∀ scope ∈ s.swept, scope ∉ d.scopes → ∀ reader, s.memo.find? reader = none →
    Yields x (.read x reader scope) {}
  collects : s.CollectsExactly x.forest
  guarded : s.WritesGuarded x.forest

theorem Sound.new (x : Index) : Sound x {} {} :=
  ⟨nofun, nofun, nofun, ⟨fun decl _ => by cases x.forest.collector? decl <;> rfl, fun _ => rfl⟩, ⟨nofun, nofun⟩⟩

/-- The parts of a session that soundness is about. -/
def Session.lore (s : Session) : Sorted NodeId TypeSet × List NodeId × List NodeId × List NodeId ×
    Sorted NodeId (List PropertyWrite) × Sorted NodeId PropertyWrites :=
  (s.memo, s.stack, s.swept, s.collected, s.injected, s.dynamic)

theorem Session.lore_readAhead (s : Session) (scope : NodeId) (name : String) :
    (s.readAhead scope name).2.lore = s.lore := by
  unfold readAhead
  split <;> rfl

theorem Session.readAhead_isSome (s : Session) (scope : NodeId) (name : String) :
    (s.readAhead scope name).1.isSome = Sweeps.contains s.sweeps scope := by
  unfold readAhead Sweeps.contains
  split
  · next h => rw [h]; rfl
  · next h => rw [h]; rfl

theorem Session.readAhead_of_none {s : Session} {scope : NodeId} {name : String}
    (h : (s.readAhead scope name).1 = none) : (s.readAhead scope name).2 = s := by
  cases hw : Sweeps.find? s.sweeps scope with
  | some w => simp [readAhead, hw] at h
  | none => simp [readAhead, hw]

namespace Sound

variable {x : Index} {s s' : Session} {d d' : Doubts}

variable (h : Sound x s d)
include h

/-- More doubts, and changes to nothing that was learned, leave a session sound. -/
theorem of_lore (hs : s'.lore = s.lore) (hnodes : d.nodes ⊆ d'.nodes)
    (hscopes : d.scopes ⊆ d'.scopes) : Sound x s' d' := by
  simp only [Session.lore, Prod.mk.injEq] at hs
  obtain ⟨hmemo, hstack, hswept, hcollected, hinjected, hdynamic⟩ := hs
  constructor
  · intro node types hn hd
    rw [hmemo] at hn
    exact h.remembered node types hn fun hmem => hd (hnodes hmem)
  · intro node types hn hd hmem
    rw [hmemo] at hn
    rw [hstack] at hmem
    exact h.read node types hn (fun hmem => hd (hnodes hmem)) hmem
  · intro scope hs hd reader hn
    rw [hswept] at hs
    rw [hmemo] at hn
    exact h.swept scope hs (fun hmem => hd (hscopes hmem)) reader hn
  · constructor
    · rw [hinjected, hcollected]
      exact h.collects.injected
    · rw [hdynamic, hcollected]
      exact h.collects.dynamic
  · constructor
    · rw [hinjected]
      exact h.guarded.injected
    · rw [hdynamic]
      exact h.guarded.dynamic

theorem raiseIf (p : Bool) : Sound x s (d.raiseIf p) :=
  h.of_lore rfl (fun _ h => h) fun _ h => h

theorem collect (c : NodeId) : Sound x (s.collect x.forest c) d := by
  obtain ⟨collected, injected, dynamic, hs⟩ := s.collect_eq x.forest c
  have hcollects := h.collects.collect c
  have hguarded := h.guarded.collect c
  rw [hs] at hcollects hguarded ⊢
  exact ⟨h.remembered, h.read, h.swept, hcollects, hguarded⟩

theorem enter {node : NodeId} (hnone : s.memo.find? node = none) :
    Sound x (s.push node) (d.note x (.enter node) s) := by
  have hnodes : ∀ n types, s.memo.find? n = some types → n ∉ d.nodes.filter (· != node) → n ≠ node ∧ n ∉ d.nodes := by
    intro n types hn hd
    have hne : n ≠ node := by
      rintro rfl
      rw [hnone] at hn
      cases hn
    exact ⟨hne, fun hmem => hd (mem_filter.mpr ⟨hmem, bne_iff_ne.mpr hne⟩)⟩
  constructor
  · intro n types hn hd
    exact h.remembered n types hn (hnodes n types hn hd).2
  · intro n types hn hd hmem
    obtain ⟨hne, hd⟩ := hnodes n types hn hd
    exact h.read n types hn hd ((mem_cons.mp hmem).resolve_left hne)
  · exact h.swept
  · exact ⟨h.collects.injected, h.collects.dynamic⟩
  · exact ⟨h.guarded.injected, h.guarded.dynamic⟩

/-- A node is left with types that are in doubt, or with those that it yields. -/
theorem leave {node : NodeId} {rest : List NodeId} {types : Option TypeSet}
    (hstack : s.stack = node :: rest) (hnode : node ∉ rest)
    (htypes : d.raised = false → ∀ t, types = some t → Yields x (.node node) t) :
    Sound x (s.leave node types) (d.note x (.leave node types) s) := by
  have hsub : d.nodes ⊆ (d.note x (.leave node types) s).nodes := by
    intro n hn
    simp only [Doubts.note]
    split
    · exact mem_cons_of_mem node hn
    · exact hn
  have hrest : (s.leave node types).stack = rest := by
    rw [Session.leave_eq]
    change s.stack.drop 1 = rest
    rw [hstack]
    rfl
  -- What is remembered was remembered before, or it is about the node that is left.
  have hmemo : ∀ n t, (s.leave node types).memo.find? n = some t →
      s.memo.find? n = some t ∨ (n = node ∧ types = some t) := by
    intro n t hn
    obtain hsame | ⟨u, hu, hinsert⟩ := s.memo_leave node types
    · exact .inl (hsame ▸ hn)
    · rw [hinsert] at hn
      by_cases heq : n = node
      · subst heq
        rw [Sorted.find?_insert_self] at hn
        exact .inr ⟨rfl, hu.trans hn⟩
      · rw [Sorted.find?_insert_of_ne _ _ heq] at hn
        exact .inl hn
  constructor
  · intro n t hn hd
    obtain hn | ⟨rfl, rfl⟩ := hmemo n t hn
    · exact h.remembered n t hn fun hmem => hd (hsub hmem)
    · refine htypes (Bool.eq_false_iff.mpr fun hraised => hd ?_) t rfl
      simp [Doubts.note, hraised]
  · intro n t hn hd hmem
    rw [hrest] at hmem
    have hne : n ≠ node := fun heq => hnode (heq ▸ hmem)
    obtain hn | ⟨heq, -⟩ := hmemo n t hn
    · refine h.read n t hn (fun hmem => hd (hsub hmem)) ?_
      rw [hstack]
      exact mem_cons_of_mem node hmem
    · exact absurd heq hne
  · intro scope hs hd reader hn
    have hswept : (s.leave node types).swept = s.swept := by
      rw [Session.leave_eq]
      rfl
    rw [hswept] at hs
    exact h.swept scope hs hd reader (((Act.leave node types).perform_grows s).memo reader hn)
  · rw [Session.leave_eq]
    exact ⟨h.collects.injected, h.collects.dynamic⟩
  · rw [Session.leave_eq]
    exact ⟨h.guarded.injected, h.guarded.dynamic⟩

/-- A sweep ends in doubt, or there is nothing to find for readers to which it did not come. -/
theorem endSweep {scope : NodeId} {finished : Bool}
    (hswept : d.raised = false → finished = true → ∀ reader, s.memo.find? reader = none →
      Yields x (.read x reader scope) {}) :
    Sound x (s.endSweep scope finished) (d.note x (.endSweep scope finished) s) := by
  have hsub : d.scopes ⊆ (d.note x (.endSweep scope finished) s).scopes := by
    intro n hn
    simp only [Doubts.note]
    split
    · exact mem_cons_of_mem scope hn
    · exact hn
  refine ⟨h.remembered, h.read, ?_, ⟨h.collects.injected, h.collects.dynamic⟩,
    ⟨h.guarded.injected, h.guarded.dynamic⟩⟩
  intro other hs hd reader hn
  have hcases : (other = scope ∧ finished = true) ∨ other ∈ s.swept := by
    simp only [Session.endSweep] at hs
    split at hs
    · next hfinished =>
      obtain rfl | hmem := mem_cons.mp hs
      · exact .inl ⟨rfl, hfinished⟩
      · exact .inr hmem
    · exact .inr hs
  obtain ⟨rfl, hfinished⟩ | hmem := hcases
  · refine hswept (Bool.eq_false_iff.mpr fun hraised => hd ?_) hfinished reader hn
    simp [Doubts.note, hraised]
  · exact h.swept other hmem (fun hmem => hd (hsub hmem)) reader hn

/-- A sweep comes to a variable in doubt, or with what there is to find for it. -/
theorem rememberRead {node : NodeId} {name : String} {v : Variables} (hframe : s.frame? = some v)
    (hread : d.raised = false → s.memo.find? node = none → Yields x (.read x node v.scope) (v.known name)) :
    Sound x (s.rememberRead node name) (d.note x (.rememberRead node name) s) := by
  cases hmemo : s.memo.find? node with
  | some types =>
    have hcontains : s.memo.contains node = true := by rw [Sorted.contains_eq_isSome_find?, hmemo]; rfl
    simpa [Session.rememberRead, Session.rememberFirst, Doubts.note, hcontains] using h
  | none =>
    have hcontains : s.memo.contains node = false := by rw [Sorted.contains_eq_isSome_find?, hmemo]; rfl
    have hsession : s.rememberRead node name = { s with memo := s.memo.insert node (v.known name) } := by
      simp [Session.rememberRead, Session.rememberFirst, hcontains, hframe, Session.remember]
    have hnote : d.note x (.rememberRead node name) s =
        if d.raised || !Strategy.readsIn x node v.scope name then { d with nodes := node :: d.nodes } else d := by
      simp [Doubts.note, hcontains, hframe]
    have hnodes : ∀ n, n ∉ (d.note x (.rememberRead node name) s).nodes →
        n ∉ d.nodes ∧ (n = node → d.raised = false ∧ Strategy.readsIn x node v.scope name = true) := by
      intro n hn
      rw [hnote] at hn
      split at hn
      · rw [mem_cons, not_or] at hn
        exact ⟨hn.2, fun heq => absurd heq hn.1⟩
      · next hclear => exact ⟨hn, fun _ => by simpa using hclear⟩
    have hscopes : (d.note x (.rememberRead node name) s).scopes = d.scopes := by
      rw [hnote]
      split <;> rfl
    have hfind : ∀ n, (s.memo.insert node (v.known name)).find? n =
        if n = node then some (v.known name) else s.memo.find? n := by
      intro n
      split
      · next heq => rw [heq, Sorted.find?_insert_self]
      · next hne => rw [Sorted.find?_insert_of_ne _ _ hne]
    rw [hsession]
    constructor
    · intro n types hn hd
      obtain ⟨hd, hclear⟩ := hnodes n hd
      rw [hfind] at hn
      split at hn
      · next heq =>
        cases hn
        obtain ⟨hraised, hreads⟩ := hclear heq
        rw [heq]
        exact (hread hraised hmemo).node_of_readsIn hreads (v.known_nonempty name)
      · exact h.remembered n types hn hd
    · intro n types hn hd hmem
      obtain ⟨hd, hclear⟩ := hnodes n hd
      rw [hfind] at hn
      split at hn
      · next heq =>
        cases hn
        obtain ⟨hraised, hreads⟩ := hclear heq
        rw [heq]
        exact ⟨v.scope, name, Strategy.dispatch_of_readsIn hreads, hread hraised hmemo⟩
      · exact h.read n types hn hd hmem
    · intro scope hs hd reader hn
      rw [hscopes] at hd
      rw [hfind] at hn
      split at hn
      · cases hn
      · exact h.swept scope hs hd reader hn
    · exact ⟨h.collects.injected, h.collects.dynamic⟩
    · exact ⟨h.guarded.injected, h.guarded.dynamic⟩

end Sound

end EventAtlas
