import EventAtlas.Proofs.Inference.Doubts

/-!
# Answers do not depend on what was resolved before

The answer for a node may depend on what was resolved before, because what was cut short then is remembered
(`Index.answer_depends_on_order`). An answer that is not in doubt does not depend on it: it is the answer that `Yields`
gives, and that is one answer.

The proof follows an inquiry with the doubts about it. `Stands` says that a session is bracketed and sound while
certain frames are open. A strategy in its frame ends with what it yields, or with doubt about the frame
(`strategy_finds`); a sweep remembers for its readers what there is to find for them (`sweeping_ends`); and so does a
whole resolution (`resolveWithin_answers`).
-/

namespace EventAtlas

open List Session

/-- The session is bracketed, with this stack and these sweeps, and sound, with these doubts about the open frames. -/
structure Stands (x : Index) (limit : Nat) (stack : List NodeId) (sweeps : Sweeps) (frames : List Bool) (s : Session)
    (d : Doubts) : Prop where
  rests : Rests limit stack sweeps s
  sound : Sound x s d
  frames_eq : d.frames = frames

theorem Stands.raiseIf {x : Index} {limit : Nat} {stack : List NodeId} {sweeps : Sweeps} {frames : List Bool}
    {s : Session} {d : Doubts} (h : Stands x limit stack sweeps frames s d) (p : Bool) :
    Stands x limit stack sweeps (frames.modifyHead (· || p)) s (d.raiseIf p) :=
  ⟨h.rests, h.sound.raiseIf p, by rw [Doubts.raiseIf, h.frames_eq]⟩

namespace Inquiry

variable {α β : Type} {x : Index} {limit : Nat} {stack : List NodeId} {sweeps : Sweeps} {outer : List Bool}
  {holds : α → Prop} {r : Except ResolveError α} {node : NodeId}
  {s : Session} {d : Doubts} {b : Bool}

/-- The inquiry ends as `post` says, with the doubts that arise on its course. -/
abbrev Leads (x : Index) (post : Except ResolveError α → Session → Doubts → Prop) (i : Inquiry α) (s : Session)
    (d : Doubts) : Prop :=
  i.run.Watched (Doubts.note x) (fun _ _ _ => True) post s d

/-- At the end the same frames are open. There is doubt about the innermost one, or the result is as `holds` says. -/
def Finds (x : Index) (limit : Nat) (stack : List NodeId) (sweeps : Sweeps) (outer : List Bool) (b : Bool)
    (holds : α → Prop) (r : Except ResolveError α) (s : Session) (d : Doubts) : Prop :=
  ∃ b', Stands x limit stack sweeps (b' :: outer) s d ∧ (b = true → b' = true) ∧
    (b' = false → ∀ a, r = .ok a → holds a)

/-- In doubt about the frame nothing is said about the result. -/
theorem finds_raised
    (hs : Stands x limit stack sweeps (true :: outer) s d) : Finds x limit stack sweeps outer b holds r s d :=
  ⟨true, hs, fun _ => rfl, fun h => absurd h (by decide)⟩

theorem finds_error {b' : Bool} {e : ResolveError}
    (hs : Stands x limit stack sweeps (b' :: outer) s d) (hraised : b = true → b' = true) :
    Finds x limit stack sweeps outer b holds (.error e) s d := by
  refine ⟨b', hs, hraised, fun _ a ha => ?_⟩
  cases ha

theorem Finds.of_raised {holds' : α → Prop}
    (h : Finds x limit stack sweeps outer true holds r s d) : Finds x limit stack sweeps outer b holds' r s d := by
  obtain ⟨b', hstands, hraised, -⟩ := h
  have hb' : b' = true := hraised rfl
  subst hb'
  exact finds_raised hstands

theorem Finds.imp {holds' : α → Prop}
    (h : Finds x limit stack sweeps outer b holds r s d) (himp : ∀ a, holds a → holds' a) :
    Finds x limit stack sweeps outer b holds' r s d := by
  obtain ⟨b', hstands, hraised, hholds⟩ := h
  exact ⟨b', hstands, hraised, fun hclear a ha => himp a (hholds hclear a ha)⟩

/-- One inquiry after the other: the second goes on in the frame of the first, with the doubt about it. -/
theorem Leads.bind {i : Inquiry α} {g : α → Inquiry β} {holds' : α → β → Prop} {result : β → Prop}
    (hi : i.Leads x (Finds x limit stack sweeps outer b holds) s d)
    (hg : ∀ a b' s' d', s.Grows s' → Stands x limit stack sweeps (b' :: outer) s' d' →
      (g a).Leads x (Finds x limit stack sweeps outer b' (holds' a)) s' d')
    (hresult : ∀ a, holds a → ∀ c, holds' a c → result c) :
    (i >>= g).Leads x (Finds x limit stack sweeps outer b result) s d := by
  rw [Leads, watched_bind]
  refine hi.grows.mono ?_
  rintro r s' d' ⟨hgrows, b', hstands, hraised, hholds⟩
  cases r with
  | error e => exact finds_error hstands hraised
  | ok a =>
    refine (hg a b' s' d' hgrows hstands).mono ?_
    rintro r s'' d'' ⟨b'', hstands', hraised', hholds'⟩
    refine ⟨b'', hstands', fun h => hraised' (hraised h), fun hclear c hc => ?_⟩
    have hb' : b' = false := by
      cases b' with
      | false => rfl
      | true => rw [hraised' rfl] at hclear; cases hclear
    exact hresult a (hholds hb' a rfl) c (hholds' hclear c hc)

section Answers

/-! In the frame of a node, what the node asks for is answered with what it yields, or the frame is in doubt. -/

variable {types : NodeId → Inquiry TypeSet} {scope : NodeId}
  (htypes : ∀ (sweeps : Sweeps) (outer : List Bool) (b : Bool) (node : NodeId) (s : Session) (d : Doubts),
    Stands x limit stack sweeps (b :: outer) s d →
      (types node).Leads x (Finds x limit stack sweeps outer b (Yields x (.node node))) s d)

include htypes

/-- A sweep that goes on with some variables ends in doubt, or it came to all readers for whom there is something to
find. What is found from the place where the sweep is must be what is found from the beginning. -/
theorem sweeping_ends {depth : Nat} {w : Sweeping PUnit} {v : Variables} (hscope : v.scope = scope)
    (hs : Stands x limit stack (⟨v, depth⟩ :: sweeps) (b :: outer) s d)
    (hplace : b = false → ∀ reader t, s.memo.find? reader = none → Yields x (.sweep reader w v) t →
      Yields x (.read x reader scope) t) :
    (w.interpret (answerSweep types)).Leads x (fun r s d => ∃ v' : Variables, ∃ b',
      Stands x limit stack (⟨v', depth⟩ :: sweeps) (b' :: outer) s d ∧
        (b' = false → r = .ok () → ∀ reader, s.memo.find? reader = none → Yields x (.read x reader scope) {})) s d := by
  induction w generalizing v b s d with
  | done _ => exact ⟨v, b, hs, fun hclear _ reader hnone => hplace hclear reader {} hnone .swept⟩
  | ask q next ih =>
    cases q with
    | types n =>
      rw [Leads, Dialogue.interpret, watched_bind]
      refine (htypes _ _ b n s d hs).grows.mono ?_
      rintro r s' d' ⟨hgrows, b', hs', hraised, hholds⟩
      cases r with
      | error e => exact ⟨v, b', hs', nofun⟩
      | ok u =>
        refine ih u hscope hs' fun hclear reader t hnone ht => ?_
        have hb : b = false := by
          cases b with
          | false => rfl
          | true => rw [hraised rfl] at hclear; cases hclear
        exact hplace hb reader t (hgrows.memo reader hnone) (.sweepTypes (hholds hclear u rfl) ht)
    | isResolving n =>
      refine ⟨trivial, ?_⟩
      change Leads x _ ((next (s.resolving.contains n)).interpret (answerSweep types)) s
        (d.raiseIf (s.resolving.contains n))
      cases s.resolving.contains n with
      | true => exact ih true hscope (hs.raiseIf true) (by simp)
      | false =>
        rw [Doubts.raiseIf_false]
        exact ih false hscope hs fun hclear reader t hnone ht => hplace hclear reader t hnone (.sweepIsResolving ht)
    | current =>
      have hframe : s.frame? = some v := by rw [frame?, hs.rests.sweeps_eq]; rfl
      refine ⟨trivial, ?_⟩
      change Leads x _ ((next s.frame?).interpret (answerSweep types)) s d
      rw [hframe]
      exact ih (some v) hscope hs fun hclear reader t hnone ht => hplace hclear reader t hnone (.current ht)
    | change g =>
      have hs' : Stands x limit stack (⟨v.change g, depth⟩ :: sweeps) (b :: outer)
          (s.modifyVariables g) d :=
        ⟨hs.rests.modifyVariables g, hs.sound.of_lore rfl (fun _ h => h) fun _ h => h, hs.frames_eq⟩
      have hscope' : (v.change g).scope = scope := hscope
      exact ⟨trivial, ih () hscope' hs' fun hclear reader t hnone ht => hplace hclear reader t hnone (.change ht)⟩
    | read n name =>
      have hframe : s.frame? = some v := by rw [frame?, hs.rests.sweeps_eq]; rfl
      have hraised : d.raised = b := by rw [Doubts.raised, hs.frames_eq]; rfl
      have hsound : Sound x (s.rememberRead n name) (d.note x (.rememberRead n name) s) := by
        refine hs.sound.rememberRead hframe fun hclear hnone => ?_
        rw [hscope]
        exact hplace (hraised ▸ hclear) n _ hnone .found
      have hs' : Stands x limit stack (⟨v, depth⟩ :: sweeps) (b :: outer) (s.rememberRead n name)
          (d.note x (.rememberRead n name) s) :=
        ⟨hs.rests.of_underway (underway_rememberRead s n name), hsound, (d.note_rememberRead_frames x n name s).trans hs.frames_eq⟩
      refine ⟨trivial, ih () hscope hs' fun hclear reader t hnone ht => ?_⟩
      have hne : n ≠ reader := by
        rintro rfl
        exact find?_rememberRead_ne_none s n name hnone
      exact hplace hclear reader t (((Act.rememberRead n name).perform_grows s).memo reader hnone) (.passed hne ht)

variable (hdepths : ∀ w ∈ sweeps, w.depth < stack.length) (hpos : 1 ≤ stack.length)

include hdepths hpos

/-- A sweep leaves the frame around as it was, and the scope is swept. -/
theorem sweep_ends (hs : Stands x limit stack sweeps (b :: outer) s d) (hnot : Sweeps.contains s.sweeps scope = false) :
    (sweep x types scope).Leads x (fun r s d => Stands x limit stack sweeps (b :: outer) s d ∧
      (r = .ok () → scope ∈ s.swept)) s d := by
  refine sweep_watched trivial (fun hskip => ?_) fun hbegun => ?_
  · have hswept : scope ∈ s.swept := by
      simp only [beginSweep, hnot, Bool.or_false] at hskip
      split at hskip
      · next hmem => exact contains_iff_mem.mp hmem
      · cases hskip
    simp only [Doubts.note, hskip, beginSweep_of_not hskip]
    exact ⟨hs, fun _ => hswept⟩
  · have hnote : d.note x (.beginSweep scope) s = { d with frames := false :: d.frames } := by
      simp [Doubts.note, hbegun]
    have hlore : (s.beginSweep scope).2.lore = s.lore := by
      unfold beginSweep
      split <;> rfl
    have hs' : Stands x limit stack (⟨{ scope }, stack.length⟩ :: sweeps) (false :: b :: outer)
        (s.beginSweep scope).2 (d.note x (.beginSweep scope) s) := by
      rw [hnote]
      exact ⟨hs.rests.beginSweep hdepths hpos hbegun, hs.sound.of_lore hlore (fun _ h => h) fun _ h => h,
        congrArg _ hs.frames_eq⟩
    refine (sweeping_ends htypes rfl hs' fun _ _ _ _ ht => ht).mono ?_
    rintro r s' d' ⟨v, b', hs', hends⟩
    have hraised : d'.raised = b' := by rw [Doubts.raised, hs'.frames_eq]; rfl
    refine ⟨trivial, ⟨hs'.rests.endSweep scope r.isOk, hs'.sound.endSweep fun hclear hok => ?_, ?_⟩, fun hok => ?_⟩
    · refine hends (hraised ▸ hclear) ?_
      cases r with
      | ok _ => rfl
      | error e => cases hok
    · simp [Doubts.note, hs'.frames_eq]
    · rw [hok]
      exact mem_cons_self

/-- A variable has what there is to find for it where it is read, or the frame is in doubt. -/
theorem readVariable_finds {node : NodeId} {name : String} (hnode : node ∈ stack)
    (hscope : Strategy.readingScope? x.forest node = some scope) (hs : Stands x limit stack sweeps (b :: outer) s d) :
    (readVariable x types node scope name).Leads x
      (Finds x limit stack sweeps outer b (Yields x (.read x node scope))) s d := by
  refine readVariable_watched trivial (fun found hfound => ?_) fun hafter => ?_
  · have hcontains : Sweeps.contains s.sweeps scope = true := by rw [← readAhead_isSome, hfound]; rfl
    have hraise : Stands x limit stack sweeps (true :: outer) s (d.raiseIf true) := by
      simpa using hs.raiseIf true
    refine finds_raised ⟨hs.rests.readAhead hdepths, ?_, ?_⟩
    · exact hs.sound.of_lore (lore_readAhead s scope name) (fun _ h => h) fun _ h => h
    · rw [Doubts.note, hcontains]
      exact hraise.frames_eq
  · have hcontains : Sweeps.contains s.sweeps scope = false := by rw [← readAhead_isSome, hafter]; rfl
    rw [Doubts.note, hcontains, Doubts.raiseIf_false, readAhead_of_none hafter]
    refine (sweep_ends htypes hdepths hpos hs hcontains).mono ?_
    rintro r s d ⟨hs, hswept⟩
    cases r with
    | error e => exact finds_error hs fun h => h
    | ok _ =>
      refine ⟨trivial, ?_⟩
      rw [Doubts.note]
      cases hmemo : s.memo.find? node with
      | some found =>
        have hstands := hs.raiseIf (d.nodes.contains node)
        refine ⟨b || d.nodes.contains node, hstands, by simp +contextual, fun hclear t ht => ?_⟩
        have hclean : node ∉ d.nodes := by simpa using (Bool.or_eq_false_iff.mp hclear).2
        obtain ⟨scope', name', hdispatch, hyields⟩ :=
          hs.sound.read node found hmemo hclean (hs.rests.stack_eq ▸ hnode)
        have hasks := Strategy.dispatch_asks x node
        rw [hdispatch] at hasks
        have hsame : scope' = scope := Option.some.inj (hasks.1.2.symm.trans hscope)
        subst hsame
        cases ht
        rwa [readBehind, hmemo]
      | none =>
        have hstands := hs.raiseIf (d.scopes.contains scope)
        refine ⟨b || d.scopes.contains scope, hstands, by simp +contextual, fun hclear t ht => ?_⟩
        have hclean : scope ∉ d.scopes := by simpa using (Bool.or_eq_false_iff.mp hclear).2
        cases ht
        rw [readBehind, hmemo]
        exact hs.sound.swept scope (hswept rfl) hclean node hmemo

/-- A strategy finds what it yields, or the frame of its node is in doubt. -/
theorem strategy_finds {node : NodeId} {absent collected : List NodeId} {w : Strategy TypeSet} (hnode : node ∈ stack)
    (hw : w.Asks x.forest node absent collected) (hcollected : collected ⊆ s.collected)
    (hs : Stands x limit stack sweeps (b :: outer) s d) :
    (w.interpret (answer x types)).Leads x (Finds x limit stack sweeps outer b (Yields x (.strategy w))) s d := by
  induction w generalizing absent collected b s d with
  | done t =>
    refine ⟨b, hs, fun h => h, fun _ a ha => ?_⟩
    cases ha
    exact .done
  | ask q next ih =>
    cases q with
    | types n =>
      refine (htypes sweeps outer b n s d hs).bind (fun u b' s' d' hgrows hs' => ?_) fun u hu t ht => .types hu ht
      exact ih u (hw.2 u) (fun c hc => hgrows.collected (hcollected hc)) hs'
    | isResolving n =>
      refine ⟨trivial, ?_⟩
      change Leads x _ ((next (s.resolving.contains n)).interpret (answer x types)) s
        (d.raiseIf (s.resolving.contains n))
      cases s.resolving.contains n with
      | true =>
        have hs' : Stands x limit stack sweeps (true :: outer) s (d.raiseIf true) := by simpa using hs.raiseIf true
        exact (ih true hw.1 hcollected hs').mono fun _ _ _ h => h.of_raised
      | false =>
        rw [Doubts.raiseIf_false]
        exact (ih false hw.2 hcollected hs).mono fun _ _ _ h => h.imp fun _ ht => .isResolving ht
    | read n scope name =>
      obtain ⟨⟨rfl, hscope⟩, hnext⟩ := hw
      refine (readVariable_finds htypes hdepths hpos hnode hscope hs).bind (fun u b' s' d' hgrows hs' => ?_)
        fun u hu t ht => .read hu ht
      exact ih u (hnext u) (fun c hc => hgrows.collected (hcollected hc)) hs'
    | collect c =>
      have hs' : Stands x limit stack sweeps (b :: outer) (s.collect x.forest c) d :=
        ⟨hs.rests.of_underway (underway_collect x.forest s c), hs.sound.collect c, hs.frames_eq⟩
      obtain ⟨hsub, hmem⟩ := collected_subset_collect x.forest s c
      have hcollected' : c :: collected ⊆ (s.collect x.forest c).collected :=
        cons_subset.mpr ⟨hmem, fun c hc => hsub (hcollected hc)⟩
      exact ⟨trivial, (ih () hw hcollected' hs').mono fun _ _ _ h => h.imp fun _ ht => .collect ht⟩
    | writesTo decl =>
      obtain ⟨⟨rfl, hcollector⟩, hnext⟩ := hw
      have hnext' := hnext _ (hs.sound.guarded.writesTo decl)
      refine ⟨trivial, ?_⟩
      change Leads x _ ((next (s.writesTo decl)).interpret (answer x types)) s
        (d.raiseIf (x.forest.isMisplaced decl))
      cases hplace : x.forest.isMisplaced decl with
      | true =>
        have hs' : Stands x limit stack sweeps (true :: outer) s (d.raiseIf true) := by simpa using hs.raiseIf true
        exact (ih _ hnext' hcollected hs').mono fun _ _ _ h => h.of_raised
      | false =>
        have hwrites : s.writesTo decl = x.forest.writesTo decl :=
          hs.sound.collects.writesTo hplace fun c hc => hcollected (hcollector c hc)
        rw [Doubts.raiseIf_false]
        refine (ih _ hnext' hcollected hs).mono fun _ _ _ h => h.imp fun _ ht => ?_
        rw [hwrites] at ht
        exact .writesTo ht
    | looseWrites owner name =>
      have hwrites : s.looseWrites owner name = x.forest.looseWrites owner name :=
        hs.sound.collects.looseWrites (hcollected hw.1) name
      have hnext := hw.2 _ (hs.sound.guarded.looseWrites owner name)
      refine ⟨trivial, (ih _ hnext hcollected hs).mono fun _ _ _ h => h.imp fun _ ht => ?_⟩
      rw [hwrites] at ht
      exact .looseWrites ht

end Answers

/-- At the end the same frames are open. There is doubt about the answer, which goes to the innermost frame, or the
answer is what the node yields. Without a frame around it the node itself is doubtful. -/
def Answers (x : Index) (limit : Nat) (stack : List NodeId) (sweeps : Sweeps) (frames : List Bool) (node : NodeId)
    (r : Except ResolveError TypeSet) (s : Session) (d : Doubts) : Prop :=
  ∃ b, Stands x limit stack sweeps (frames.modifyHead (· || b)) s d ∧
    (∀ t, r = .ok t → b = false → Yields x (.node node) t) ∧ (∀ t, r = .ok t → b = true → stack = [] → node ∈ d.nodes)

variable {frames : List Bool}

theorem Answers.finds {r : Except ResolveError TypeSet} (h : Answers x limit stack sweeps (b :: outer) node r s d) :
    Finds x limit stack sweeps outer b (Yields x (.node node)) r s d := by
  obtain ⟨b', hs, hyields, -⟩ := h
  refine ⟨b || b', hs, by simp +contextual, fun hclear t ht => ?_⟩
  exact hyields t ht (Bool.or_eq_false_iff.mp hclear).2

theorem answers_error {e : ResolveError} (hs : Stands x limit stack sweeps (frames.modifyHead (· || b)) s d) :
    Answers x limit stack sweeps frames node (.error e) s d := by
  refine ⟨b, hs, fun t ht => ?_, fun t ht => ?_⟩ <;> cases ht

/-- A node that is remembered or on the stack is answered at once, anything else is resolved. -/
theorem remembered_answers {resolve : Inquiry TypeSet} (hs : Stands x limit stack sweeps frames s d)
    (hresolve : s.memo.find? node = none → node ∉ stack →
      resolve.Leads x (Answers x limit stack sweeps frames node) s d) :
    (remembered x.forest node resolve).Leads x (Answers x limit stack sweeps frames node) s d := by
  have hstack : s.resolving = stack := hs.rests.bracketed.resolving_eq.trans hs.rests.stack_eq
  have hlookUp : s.memo.find? node = none → d.note x (.lookUp node) s = d := by
    intro hmemo
    simp [Doubts.note, hmemo]
  have hcut : s.memo.find? node = none → node ∈ s.resolving →
      (d.note x (.lookUp node) s).note x (.isResolving node) s = d.raiseIf true := by
    intro hmemo hmem
    rw [hlookUp hmemo]
    simp [Doubts.note, hmem]
  refine remembered_watched trivial trivial trivial (fun types hmemo => ?_) (fun hmemo hmem _ => ?_)
    (fun hmemo hmem _ => ?_) fun hmemo hmem => ?_
  · have hnote : d.note x (.lookUp node) s = d.raiseIf (d.nodes.contains node) := by simp [Doubts.note, hmemo]
    rw [hnote]
    refine ⟨d.nodes.contains node, hs.raiseIf _, fun t ht hclean => ?_, fun t ht hdoubt _ => ?_⟩
    · cases ht
      exact hs.sound.remembered node types hmemo (by simpa using hclean)
    · exact contains_iff_mem.mp hdoubt
  · rw [hcut hmemo hmem]
    refine ⟨true, hs.raiseIf true, fun _ _ hclear => absurd hclear (by decide), fun _ _ _ hnil => ?_⟩
    rw [hstack, hnil] at hmem
    cases hmem
  · have hcycle : (d.raiseIf true).note x (.cycle node) s = d.raiseIf true := rfl
    rw [hcut hmemo hmem, hcycle]
    exact answers_error (hs.raiseIf true)
  · have hopen : (d.note x (.lookUp node) s).note x (.isResolving node) s = d := by
      rw [hlookUp hmemo]
      simp [Doubts.note, hmem]
    rw [hopen]
    exact hresolve hmemo (hstack ▸ hmem)

/-- A resolution answers with what the node yields, unless there is doubt. -/
theorem resolveWithin_answers (room : Nat) (node : NodeId) (hs : Stands x limit stack sweeps frames s d)
    (hroom : stack.length + room = limit) :
    (resolveWithin x limit room node).Leads x (Answers x limit stack sweeps frames node) s d := by
  induction room generalizing node stack sweeps frames s d with
  | zero =>
    refine remembered_answers hs fun _ _ => ?_
    have hsame := hs.raiseIf false
    rw [Doubts.raiseIf_false] at hsame
    exact answers_error hsame
  | succ room ih =>
    refine remembered_answers hs fun hmemo hnode => ?_
    have hdepths : ∀ w ∈ sweeps, w.depth ≤ stack.length := by
      intro w hw
      rw [← hs.rests.sweeps_eq] at hw
      rw [← hs.rests.stack_eq]
      exact (hs.rests.bracketed.sweeps_nested.depth_bounds w hw).2
    have hs' : Stands x limit (node :: stack) sweeps (false :: frames) (s.push node) (d.note x (.enter node) s) :=
      ⟨hs.rests.push hnode (by omega), hs.sound.enter hmemo, congrArg _ hs.frames_eq⟩
    have htypes : ∀ (sweeps : Sweeps) (outer : List Bool) (b : Bool) (n : NodeId) (s : Session) (d : Doubts),
        Stands x limit (node :: stack) sweeps (b :: outer) s d →
          (resolveWithin x limit room n).Leads x
            (Finds x limit (node :: stack) sweeps outer b (Yields x (.node n))) s d := by
      intro sweeps outer b n s d hs
      exact (ih n hs (by rw [length_cons]; omega)).mono fun _ _ _ h => h.finds
    have hstrategy := strategy_finds htypes (fun w hw => Nat.lt_succ_of_le (hdepths w hw))
      (Nat.succ_le_succ (Nat.zero_le _)) mem_cons_self (Strategy.dispatch_asks x node) (nil_subset _) hs'
    rw [Leads, framed_watched]
    refine ⟨trivial, hstrategy.mono ?_⟩
    rintro r s' d' ⟨b, hs', -, hholds⟩
    have hraised : d'.raised = b := by rw [Doubts.raised, hs'.frames_eq]; rfl
    have hyields : b = false → ∀ t, r.map (orUnknown (x.forest.kind node)) = .ok t → Yields x (.node node) t := by
      intro hclear t ht
      cases r with
      | error e => cases ht
      | ok found =>
        cases ht
        exact .node (hholds hclear found rfl)
    refine ⟨trivial, b, ⟨hs'.rests.leave _ hdepths, ?_, ?_⟩, fun t ht hclear => hyields hclear t ht, ?_⟩
    · refine hs'.sound.leave hs'.rests.stack_eq hnode fun hclear t ht => hyields (hraised ▸ hclear) t ?_
      cases r with
      | error e => cases ht
      | ok found =>
        cases ht
        rfl
    · simp [Doubts.note, hs'.frames_eq, hraised]
    · intro t _ hdoubt _
      simp [Doubts.note, hraised, hdoubt]

end Inquiry

/-! ## Resolutions one after the other -/

namespace Index

/-- The course of resolutions one after the other. -/
def courseAll (x : Index) (limit : Nat) : List NodeId → Session → List (Act × Session)
  | [], _ => []
  | node :: rest, s =>
    (Inquiry.resolveWithin x limit limit node).run.course s ++
      x.courseAll limit rest ((x.resolve limit node).run.run s).2

/-- What is in doubt after resolutions one after the other. -/
def doubts (x : Index) (limit : Nat) (nodes : List NodeId) : Doubts :=
  (x.courseAll limit nodes {}).foldl (fun d e => d.note x e.1 e.2) {}

/-- The answer for a node, after other nodes were resolved, is not in doubt. -/
def Undoubted (x : Index) (limit : Nat) (before : List NodeId) (node : NodeId) : Prop :=
  node ∉ (x.doubts limit (before ++ [node])).nodes

instance (x : Index) (limit : Nat) (before : List NodeId) (node : NodeId) :
    Decidable (x.Undoubted limit before node) :=
  inferInstanceAs (Decidable (¬ _ ∈ _))

variable {x : Index} {limit : Nat}

theorem courseAll_append (before after : List NodeId) (s : Session) :
    x.courseAll limit (before ++ after) s =
      x.courseAll limit before s ++ x.courseAll limit after (x.resolveAll limit before s) := by
  induction before generalizing s with
  | nil => rfl
  | cons node rest ih =>
    rw [cons_append, courseAll, courseAll, ih, append_assoc]
    rfl

/-- Sessions are sound between resolutions. -/
theorem resolveAll_stands (nodes : List NodeId) {s : Session} {d : Doubts} (hs : Stands x limit [] [] [] s d) :
    Stands x limit [] [] [] (x.resolveAll limit nodes s)
      ((x.courseAll limit nodes s).foldl (fun d e => d.note x e.1 e.2) d) := by
  induction nodes generalizing s d with
  | nil => exact hs
  | cons node rest ih =>
    obtain ⟨b, hstands, -, -⟩ :=
      (Inquiry.resolveWithin_answers limit node hs (Nat.zero_add limit)).atEnd
    rw [courseAll, foldl_append]
    exact ih hstands

/-- An answer that is not in doubt is what the node yields. -/
theorem yields_of_undoubted {before : List NodeId} {node : NodeId} {types : TypeSet}
    (h : x.answerAfter limit before node = .ok types) (hd : x.Undoubted limit before node) :
    Yields x (.node node) types := by
  have hnew : Stands x limit [] [] [] {} {} :=
    ⟨Session.rests_nil_iff_idle.mpr Session.new_idle, Sound.new x, rfl⟩
  obtain ⟨b, -, hyields, hnode⟩ :=
    (Inquiry.resolveWithin_answers limit node (resolveAll_stands before hnew) (Nat.zero_add limit)).atEnd
  refine hyields types h (Bool.eq_false_iff.mpr fun hdoubt => hd ?_)
  rw [doubts, courseAll_append, foldl_append, courseAll, courseAll, append_nil]
  exact hnode types h hdoubt rfl

/-- Two answers for a node that are not in doubt are the same, whatever was resolved before each of them. -/
theorem answerAfter_eq_of_undoubted (x : Index) (limit : Nat) (before before' : List NodeId) (node : NodeId)
    (types types' : TypeSet) (h : x.answerAfter limit before node = .ok types)
    (h' : x.answerAfter limit before' node = .ok types') (hd : x.Undoubted limit before node)
    (hd' : x.Undoubted limit before' node) : types = types' :=
  (yields_of_undoubted h hd).unique (yields_of_undoubted h' hd')

/-- The variable that is copied is read before the sweep passes over the copy. So its answer is not in doubt, and it is
the same one after a resolution that had the scope swept. -/
theorem answerAfter_eq_copiedVariable : ∃ types types',
    copiedVariable.answerAfter 512 [8] 5 = .ok types ∧ copiedVariable.answerAfter 512 [] 5 = .ok types' ∧
      copiedVariable.Undoubted 512 [8] 5 ∧ copiedVariable.Undoubted 512 [] 5 ∧ types = types' := by
  have hfacts : copiedVariable.namesAfter? 512 [8] 5 = some ["int"] ∧
      copiedVariable.namesAfter? 512 [] 5 = some ["int"] ∧ copiedVariable.Undoubted 512 [8] 5 ∧
      copiedVariable.Undoubted 512 [] 5 := by decide +kernel
  obtain ⟨hnames, hnames', hd, hd'⟩ := hfacts
  obtain ⟨types, h, -⟩ := answerAfter_of_namesAfter? hnames
  obtain ⟨types', h', -⟩ := answerAfter_of_namesAfter? hnames'
  exact ⟨types, types', h, h', hd, hd', answerAfter_eq_of_undoubted copiedVariable 512 [8] [] 5 types types' h h' hd hd'⟩

/-- Two properties, each with a value of its own and written with the other one. -/
def swappedProperties : Index :=
  .ofProgram ("<?php\nclass A \x7b public $p = 1; public $q = 'a'; " ++
    "function f() \x7b $this->p = $this->q; $this->q = $this->p; \x7d \x7d\n")

/-- Each property is cut where the other one asks for it, and the answer is remembered without it: the second property
has the types of both if it is resolved first, and only its own ones after the first property. -/
theorem answer_depends_on_order :
    swappedProperties.namesAfter? 512 [] 3 = some ["int", "string"] ∧
      swappedProperties.namesAfter? 512 [1] 3 = some ["string"] := by
  decide +kernel

end Index

end EventAtlas
