import EventAtlas.Proofs.Inference.Collection
import EventAtlas.Proofs.Inference.Confinement

/-!
# Sessions that come later

A session only gains: what is remembered for a node stays, unless the node is on the stack, scopes that are swept stay
swept, and what a class-like has collected stays. `Session.Precedes` says this of an earlier and a later session, and
`Session.Precedes.of_meets` proves it for everything that is in order.

One thing may change. A declaration may be handed further writes by another class-like; they come after those that it
has. A strategy asks about writes last and in their order, so it asks the same as before and then about the further ones
(`Strategy.Covers`, `Strategy.dispatch_covers`).
-/

namespace EventAtlas

open List

/-! ## Earlier and later sessions -/

namespace Session

variable {f : Forest} {s t z : Session}

/-- What is there of a session when nothing is under way any more. -/
def lasting (s : Session) : Sorted NodeId TypeSet × List NodeId × List NodeId × Sorted NodeId (List PropertyWrite) ×
    Sorted NodeId PropertyWrites :=
  (s.memo, s.swept, s.stores)

/-- The session `z`, with what is under way in `s`. -/
def amidst (z s : Session) : Session :=
  { z with stack := s.stack, resolving := s.resolving, sweeps := s.sweeps }

/-- What the session holds is there later. Only the nodes on its stack may come to be remembered otherwise, and the
writes to a declaration may become more. -/
structure Precedes (s z : Session) : Prop where
  remembers : ∀ node types, s.Remembers node types → z.memo.find? node = some types
  grows : s.Grows z
  swept : s.swept ⊆ z.swept
  writesTo : ∀ decl, s.writesTo decl <+: z.writesTo decl
  looseWrites : ∀ owner ∈ s.collected, ∀ name, s.looseWrites owner name = z.looseWrites owner name

theorem writesTo_of_stores (h : t.stores = s.stores) (decl : NodeId) : t.writesTo decl = s.writesTo decl := by
  have hinjected : t.injected = s.injected := congrArg (fun l => l.2.1) h
  rw [Session.writesTo, Session.writesTo, hinjected]

theorem looseWrites_of_stores (h : t.stores = s.stores) (owner : NodeId) (name : String) :
    t.looseWrites owner name = s.looseWrites owner name := by
  have hdynamic : t.dynamic = s.dynamic := congrArg (fun l => l.2.2) h
  rw [Session.looseWrites, Session.looseWrites, hdynamic]

theorem writesTo_prefix_inject (r : Session × PropertyWrites) (decl d : NodeId) :
    r.1.writesTo d <+: (inject f r decl).1.writesTo d := by
  by_cases heq : d = decl
  · subst heq
    unfold inject
    split
    · exact prefix_rfl
    · split
      · exact prefix_rfl
      · rw [Session.writesTo, Session.writesTo, Sorted.find?_insert_self]
        exact prefix_append _ _
  · have hsame : (inject f r decl).1.writesTo d = r.1.writesTo d := by
      rw [Session.writesTo, find?_inject_of_ne heq, Session.writesTo]
    exact hsame ▸ prefix_rfl

theorem writesTo_prefix_collect (f : Forest) (s : Session) (c d : NodeId) :
    s.writesTo d <+: (s.collect f c).writesTo d := by
  have hfold (decls : List NodeId) (r : Session × PropertyWrites) :
      r.1.writesTo d <+: (decls.foldl (inject f) r).1.writesTo d := by
    induction decls generalizing r with
    | nil => exact prefix_rfl
    | cons decl rest ih => exact (writesTo_prefix_inject r decl d).trans (ih _)
  by_cases hc : c ∈ s.collected
  · exact (collect_of_mem hc : s.collect f c = s).symm ▸ prefix_rfl
  · rw [collect_of_not_mem hc]
    exact hfold (f.ownProperties c) ({ s with collected := c :: s.collected }, PropertyWrites.inClass f c)

/-- What a class-like has collected does not change. -/
theorem looseWrites_collect {owner : NodeId} (f : Forest) (c : NodeId) (h : owner ∈ s.collected) (name : String) :
    (s.collect f c).looseWrites owner name = s.looseWrites owner name := by
  by_cases hc : c ∈ s.collected
  · rw [collect_of_mem hc]
  · exact (s.collect_others f c).2 owner (fun heq => hc (heq ▸ h)) name

/-- What comes before an act comes before all that follows it. -/
theorem Precedes.of_perform {limit : Nat} {a : Act} (horder : a.InOrder limit s) (h : (a.perform s).2.Precedes z) :
    s.Precedes z := by
  have hwrites : (∀ d, s.writesTo d <+: (a.perform s).2.writesTo d) ∧
      ∀ owner ∈ s.collected, ∀ name, s.looseWrites owner name = (a.perform s).2.looseWrites owner name := by
    by_cases hcollect : ∃ f c, a = .collect f c
    · obtain ⟨f, c, rfl⟩ := hcollect
      exact ⟨s.writesTo_prefix_collect f c, fun owner hc name => (looseWrites_collect f c hc name).symm⟩
    · have hstores := Act.stores_perform (fun f c heq => hcollect ⟨f, c, heq⟩) s
      exact ⟨fun d => writesTo_of_stores hstores d ▸ prefix_rfl,
        fun owner _ name => (looseWrites_of_stores hstores owner name).symm⟩
  refine ⟨fun node types hs => h.remembers node types (hs.perform horder), (a.perform_grows s).trans h.grows, ?_, ?_,
    ?_⟩
  · obtain hswept | ⟨scope, -, hswept⟩ := a.swept_perform s
    · exact hswept ▸ h.swept
    · exact fun other hmem => h.swept (hswept ▸ mem_cons_of_mem scope hmem)
  · exact fun d => (hwrites.1 d).trans (h.writesTo d)
  · intro owner hc name
    rw [hwrites.2 owner hc name]
    exact h.looseWrites owner (a.collected_perform s hc) name

/-- What comes before a dialogue comes before all that follows it. -/
theorem Precedes.of_meets {limit : Nat} {α : Type} {post : α → Session → Prop} {d : Dialogue Act α}
    (horder : d.Meets (Act.InOrder limit) post s) (h : (d.perform s).2.Precedes z) : s.Precedes z := by
  induction d generalizing s with
  | done a => exact h
  | ask act next ih => exact (ih _ horder.2 h).of_perform horder.1

theorem precedes_of_lasting (h : t.lasting = z.lasting) : t.Precedes z := by
  simp only [lasting, Prod.mk.injEq] at h
  obtain ⟨hmemo, hswept, hstores⟩ := h
  have hcollected : t.collected = z.collected := congrArg Prod.fst hstores
  exact ⟨fun node types ht => hmemo ▸ ht.1, ⟨fun node hnone => hmemo ▸ hnone, hcollected ▸ fun _ h => h⟩,
    hswept ▸ fun _ h => h, fun d => writesTo_of_stores hstores d ▸ prefix_rfl,
    fun owner _ name => looseWrites_of_stores hstores owner name⟩

theorem amidst_eq_of_rests {limit : Nat} {stack : List NodeId} {sweeps : Sweeps} (hs : Rests limit stack sweeps s)
    (ht : Rests limit stack sweeps t) : z.amidst s = z.amidst t := by
  rw [amidst, amidst, hs.bracketed.resolving_eq, ht.bracketed.resolving_eq, hs.stack_eq, ht.stack_eq, hs.sweeps_eq,
    ht.sweeps_eq]

/-- Leaving a node whose resolution failed changes only what is under way. -/
theorem lasting_leave_none (s : Session) (node : NodeId) : (s.leave node none).lasting = s.lasting := by
  rw [leave_eq]
  rfl

theorem amidst_leave_none (hz : z.unsettledFrom = none) (s : Session) (node : NodeId) :
    (z.amidst s).leave node none = z.amidst (s.leave node none) := by
  obtain ⟨memo, stack, resolving, sweeps, unsettledFrom, swept, collected, injected, dynamic⟩ := z
  obtain rfl : unsettledFrom = none := hz
  rw [leave_eq, leave_eq]
  rfl

theorem Idle.amidst_eq (hz : z.Idle) (hs : s.Idle) : z.amidst s = z := by
  obtain ⟨memo, stack, resolving, sweeps, unsettledFrom, swept, collected, injected, dynamic⟩ := z
  obtain ⟨rfl, rfl, rfl, rfl⟩ := hz
  rw [amidst, hs.stack_eq, hs.resolving_eq, hs.sweeps_eq]

end Session

/-! ## Strategies that find more writes -/

/-- The second answer to a question is the first one, but for the writes to a declaration: there the second answer is
`written`, and the first one has the first of these. -/
def NodeQuestion.Continued (written : List PropertyWrite) : (q : NodeQuestion) → q.Answer → q.Answer → Prop
  | .writesTo _, writes, writes' => writes <+: written ∧ writes' = written
  | .types _, a, a' | .isResolving _, a, a' | .read .., a, a' | .collect _, a, a' | .looseWrites .., a, a' => a = a'

namespace Strategy

variable {α β : Type} {written : List PropertyWrite}

/-- As long as the first strategy asks, the second one asks the same, whatever further writes it is told. -/
def Covers (written : List PropertyWrite) : Strategy α → Strategy α → Prop
  | .done _, _ => True
  | .ask q next, d => ∃ next', d = .ask q next' ∧ ∀ a a', q.Continued written a a' → Covers written (next a) (next' a')

/-- The strategy does not ask for the writes to a declaration. -/
abbrev AsksNoWrites (d : Strategy α) : Prop :=
  d.Gives (fun q => ∀ decl, q ≠ .writesTo decl) (fun _ _ => True) (fun _ => True)

/-- Without writes, there are no further ones. -/
theorem covers_of_nil (d : Strategy α) : d.Covers [] d := by
  induction d with
  | done a => trivial
  | ask q next ih =>
    refine ⟨next, rfl, fun a a' ha => ?_⟩
    have heq : a = a' := by
      cases q with
      | writesTo decl => exact (prefix_nil.mp ha.1).trans ha.2.symm
      | _ => exact ha
    exact heq ▸ ih a

theorem covers_bind {d : Strategy β} (hd : d.AsksNoWrites) {g g' : β → Strategy α}
    (hg : ∀ b, (g b).Covers written (g' b)) : (d >>= g).Covers written (d >>= g') := by
  induction d with
  | done b => exact hg b
  | ask q next ih =>
    refine ⟨fun a => next a >>= g', rfl, fun a a' ha => ?_⟩
    have heq : a = a' := by
      cases q with
      | writesTo decl => exact absurd rfl (hd.1 decl)
      | _ => exact ha
    exact heq ▸ ih a (hd.2 a trivial)

theorem asksNoWrites_types (n : NodeId) : (types n).AsksNoWrites :=
  ⟨nofun, fun _ _ => trivial⟩

theorem asksNoWrites_maybe (n : Option NodeId) : (maybe n).AsksNoWrites := by
  cases n with
  | none => trivial
  | some n => exact asksNoWrites_types n

theorem asksNoWrites_collectMaybe (c : Option NodeId) : (collectMaybe c).AsksNoWrites := by
  cases c with
  | none => trivial
  | some c => exact ⟨nofun, fun _ _ => trivial⟩

theorem asksNoWrites_unlessResolving (n : NodeId) : (unlessResolving n : Strategy TypeSet).AsksNoWrites := by
  refine ⟨nofun, fun resolving _ => ?_⟩
  cases resolving with
  | true => trivial
  | false => exact asksNoWrites_types n

theorem asksNoWrites_writeTypes (w : PropertyWrite) : (writeTypes w).AsksNoWrites := by
  cases w with
  | assigned value => exact asksNoWrites_unlessResolving value
  | compound value => exact asksNoWrites_unlessResolving value
  | appended value =>
    refine (asksNoWrites_unlessResolving value).bind fun found _ => ?_
    dsimp only
    split <;> trivial

/-- The types of the first writes are asked for first. -/
theorem covers_writesTypes {writes writes' : List PropertyWrite} (h : writes <+: writes') (known : TypeSet)
    (g : TypeSet → α) :
    (writesTypes known writes >>= fun found => pure (g found)).Covers written
      (writesTypes known writes' >>= fun found => pure (g found)) := by
  induction writes generalizing known writes' with
  | nil => trivial
  | cons w rest ih =>
    obtain ⟨rest', rfl, hrest⟩ := cons_prefix_iff.mp h
    rw [writesTypes, writesTypes, bind_assoc, bind_assoc]
    exact covers_bind (asksNoWrites_writeTypes w) fun found => ih hrest _

theorem covers_injectedTypes (decl : NodeId) (g : TypeSet → α) :
    (injectedTypes decl >>= fun found => pure (g found)).Covers written
      (injectedTypes decl >>= fun found => pure (g found)) := by
  refine ⟨_, rfl, ?_⟩
  rintro writes _ ⟨hfirst, rfl⟩
  exact covers_writesTypes hfirst {} g

theorem covers_property (x : Index) (decl : NodeId) (name : String) :
    (property x decl name).Covers written (property x decl name) :=
  covers_bind (asksNoWrites_collectMaybe _) fun _ => covers_bind (asksNoWrites_maybe _) fun _ =>
    covers_bind (asksNoWrites_maybe _) fun _ => covers_injectedTypes decl _

theorem covers_parameter (x : Index) (param : NodeId) (name : String) (variadic promoted : Bool) :
    (parameter x param name variadic promoted).Covers written (parameter x param name variadic promoted) := by
  refine covers_bind (asksNoWrites_maybe _) fun hinted => covers_bind (asksNoWrites_maybe _) fun default => ?_
  cases promoted with
  | true => exact covers_bind (asksNoWrites_collectMaybe _) fun _ => covers_injectedTypes param _
  | false => trivial

/-- Only properties have writes handed to them, and they ask for the types of these last. -/
theorem dispatch_covers (x : Index) (node : NodeId)
    (h : written ≠ [] → Forest.isProperty (x.forest.kind node) = true ∨ Forest.isPromoted (x.forest.kind node) = true) :
    (dispatch x node).Covers written (dispatch x node) := by
  by_cases hnil : written = []
  · rw [hnil]
    exact covers_of_nil _
  · rw [dispatch]
    obtain hk | hk := h hnil
    · cases hkind : x.forest.kind node <;> simp [hkind, Forest.isProperty] at hk
      exact covers_property x node _
    · cases hkind : x.forest.kind node <;> simp [hkind, Forest.isPromoted] at hk
      exact covers_parameter x node _ _ _

end Strategy

/-- Writes are handed to properties only. -/
theorem Session.Gathered.isProperty_or_isPromoted {f : Forest} {s : Session} (h : s.Gathered f) (decl : NodeId)
    (hwrites : s.writesTo decl ≠ []) :
    Forest.isProperty (f.kind decl) = true ∨ Forest.isPromoted (f.kind decl) = true := by
  have hown : ∃ c, decl ∈ f.ownProperties c := by
    cases hplace : f.isMisplaced decl with
    | true =>
      obtain ⟨c, -, hc⟩ := any_eq_true.mp hplace
      exact ⟨c, contains_iff_mem.mp (Bool.and_eq_true_iff.mp hc).1⟩
    | false =>
      rw [Session.writesTo, h.exactly.injected decl hplace] at hwrites
      by_contra hnone
      refine hwrites ?_
      cases (f.collector? decl).filter s.collected.contains with
      | none => rfl
      | some c =>
        have hc : decl ∉ f.ownProperties c := fun hmem => hnone ⟨c, hmem⟩
        rw [Option.bind_some, Forest.handed, Forest.handOut, find?_foldl_inject_of_not_mem hc]
        rfl
  obtain ⟨c, hc⟩ := hown
  cases Forest.declaresProperty_of_mem_ownProperties hc with
  | member _ hk => exact .inl hk
  | promoted _ _ _ hk => exact .inr hk

end EventAtlas
