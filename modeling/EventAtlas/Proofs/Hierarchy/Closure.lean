import EventAtlas.Hierarchy
import EventAtlas.Proofs.Forest.Arena
import Mathlib.Data.Finset.Card
import Mathlib.Data.Finset.Range
import Mathlib.Data.List.Chain
import Mathlib.Logic.Relation

/-!
# Walks through class hierarchies

A hierarchy may have cycles, so the walks through it pass over what they have met, and they carry a bound. The bound is
never what ends a walk: it is larger than the number of nodes of the arena that are left to meet (`unmet`), and a node
outside of the arena is linked to nothing. So each walk is exact, whatever the links are: the parents of a class are the
longest ascent that repeats nothing (`prefix_parentChain_iff`), and a closure is what can be reached by links
(`mem_closureFrom_iff`).
-/

namespace EventAtlas.Forest

open List

variable {f : Forest} {c d p q : NodeId}

/-! ## Links -/

theorem children_eq_nil_of_size_le (h : f.size ≤ q) : f.children q = [] := by
  rw [children, node_of_size_le h]

theorem parentClass?_eq_none_of_size_le (h : f.size ≤ q) : f.parentClass? q = none := by
  unfold parentClass? parentNameNode? namesWithRole childrenWhere
  split <;> simp [children_eq_nil_of_size_le h]

theorem traits_eq_nil_of_size_le (h : f.size ≤ q) : f.traits q = [] := by
  simp [traits, traitNameNodes, childrenWhere, children_eq_nil_of_size_le h, declarationsOf]

theorem interfaces_eq_nil_of_size_le (h : f.size ≤ q) : f.interfaces q = [] := by
  unfold interfaces interfaceNameNodes namesWithRole childrenWhere
  split <;> simp [children_eq_nil_of_size_le h, declarationsOf]

/-! ## What is left to meet -/

/-- The number of nodes of the arena that a walk has not met. -/
def unmet (f : Forest) (met : List NodeId) : Nat :=
  (Finset.range f.size \ met.toFinset).card

theorem unmet_lt_succ_size (f : Forest) (met : List NodeId) : f.unmet met < f.size + 1 := by
  have hle := Finset.card_le_card (Finset.sdiff_subset (s := Finset.range f.size) (t := met.toFinset))
  rw [Finset.card_range] at hle
  exact Nat.lt_succ_of_le hle

theorem unmet_le_of_subset {met out : List NodeId} (h : met ⊆ out) : f.unmet out ≤ f.unmet met := by
  apply Finset.card_le_card
  intro y hy
  simp only [Finset.mem_sdiff, mem_toFinset] at hy ⊢
  exact ⟨hy.1, fun hmem => hy.2 (h hmem)⟩

/-- To meet a node of the arena leaves fewer to meet. -/
theorem unmet_lt_of_mem {met out : List NodeId} (h : met ⊆ out) (hd : d < f.size) (hnew : d ∉ met) (hmem : d ∈ out) :
    f.unmet out < f.unmet met := by
  apply Finset.card_lt_card
  refine ⟨?_, fun hsub => ?_⟩
  · intro y hy
    simp only [Finset.mem_sdiff, mem_toFinset] at hy ⊢
    exact ⟨hy.1, fun hmem => hy.2 (h hmem)⟩
  · have hin : d ∈ Finset.range f.size \ met.toFinset := by simp [hd, hnew]
    have hout := hsub hin
    simp [hmem] at hout

/-! ## Parents -/

/-- Each class of the list is followed by the one that it extends. -/
def Ascends (f : Forest) (l : List NodeId) : Prop :=
  l.IsChain fun a b => f.parentClass? a = some b

theorem Ascends.exists_parent {l : List NodeId} (h : f.Ascends (c :: l)) (hd : d ∈ l) :
    ∃ p ∈ c :: l, f.parentClass? p = some d := by
  induction l generalizing c with
  | nil => cases hd
  | cons b rest ih =>
    obtain ⟨hb, hrest⟩ := isChain_cons_cons.mp h
    rcases mem_cons.mp hd with rfl | hd
    · exact ⟨c, mem_cons_self, hb⟩
    · obtain ⟨p, hp, hparent⟩ := ih hrest hd
      exact ⟨p, mem_cons_of_mem c hp, hparent⟩

/-- The parent of a class of an ascent is in it, or it goes on the ascent. -/
theorem Ascends.mem_or_append {l : List NodeId} (h : f.Ascends (c :: l)) (hp : p ∈ c :: l)
    (hd : f.parentClass? p = some d) : d ∈ l ∨ f.Ascends (c :: (l ++ [d])) := by
  induction l generalizing c with
  | nil =>
    obtain rfl := mem_singleton.mp hp
    exact .inr (isChain_pair.mpr hd)
  | cons b rest ih =>
    obtain ⟨hb, hrest⟩ := isChain_cons_cons.mp h
    rcases mem_cons.mp hp with rfl | hp
    · obtain rfl := Option.some.inj (hb.symm.trans hd)
      exact .inl mem_cons_self
    · rcases ih hrest hp with hmem | hlonger
      · exact .inl (mem_cons_of_mem b hmem)
      · exact .inr (isChain_cons_cons.mpr ⟨hb, hlonger⟩)

section Chain

variable {n : Nat} {met l : List NodeId} {current : Option NodeId}

/-- An ascent that starts at `current` and meets nothing twice, nor anything that was met before. -/
structure AscendsFrom (f : Forest) (met : List NodeId) (current : Option NodeId) (l : List NodeId) : Prop where
  head : ∀ d ∈ l.head?, current = some d
  ascends : f.Ascends l
  nodup : l.Nodup
  new : ∀ d ∈ l, d ∉ met

theorem AscendsFrom.eq_nil (h : f.AscendsFrom met current l) (hstop : ∀ d, current = some d → d ∈ met) : l = [] := by
  cases l with
  | nil => rfl
  | cons d rest => exact absurd (hstop d (h.head d rfl)) (h.new d mem_cons_self)

theorem prefix_nil_iff_ascendsFrom (hstop : ∀ d, current = some d → d ∈ met) :
    l <+: [] ↔ f.AscendsFrom met current l := by
  rw [prefix_nil]
  constructor
  · rintro rfl
    exact ⟨by simp, isChain_nil, nodup_nil, by simp⟩
  · intro h
    exact h.eq_nil hstop

theorem ascendsFrom_cons_iff (hnew : c ∉ met) :
    f.AscendsFrom met (some c) (d :: l) ↔ d = c ∧ f.AscendsFrom (c :: met) (f.parentClass? c) l := by
  constructor
  · intro h
    obtain rfl : c = d := Option.some.inj (h.head d rfl)
    obtain ⟨hhead, hascends⟩ := isChain_cons.mp h.ascends
    obtain ⟨hout, hnodup⟩ := nodup_cons.mp h.nodup
    refine ⟨rfl, hhead, hascends, hnodup, fun y hy hmem => ?_⟩
    rcases mem_cons.mp hmem with rfl | hmem
    · exact hout hy
    · exact h.new y (mem_cons_of_mem c hy) hmem
  · rintro ⟨rfl, h⟩
    refine ⟨fun y hy => hy, isChain_cons.mpr ⟨h.head, h.ascends⟩, nodup_cons.mpr ⟨fun hmem => ?_, h.nodup⟩, ?_⟩
    · exact h.new d hmem mem_cons_self
    · intro y hy
      rcases mem_cons.mp hy with rfl | hy
      · exact hnew
      · exact fun hmem => h.new y hy (mem_cons_of_mem d hmem)

/-- The walk up is the longest ascent of its kind: the others are its beginnings. -/
theorem prefix_chainFrom_iff (hroom : ∀ d, current = some d → f.unmet met < n) :
    l <+: f.chainFrom n met current ↔ f.AscendsFrom met current l := by
  fun_induction chainFrom f n met current generalizing l with
  | case1 met current => exact prefix_nil_iff_ascendsFrom fun d hd => absurd (hroom d hd) (Nat.not_lt_zero _)
  | case2 => exact prefix_nil_iff_ascendsFrom fun d hd => nomatch hd
  | case3 n met b hb =>
    exact prefix_nil_iff_ascendsFrom fun d hd => Option.some.inj hd ▸ contains_iff_mem.mp hb
  | case4 n met b hb ih =>
    have hnew : b ∉ met := fun hmem => hb (contains_iff_mem.mpr hmem)
    have hroom' : ∀ d, f.parentClass? b = some d → f.unmet (b :: met) < n := by
      intro d hd
      by_cases hlt : b < f.size
      · have hfewer := unmet_lt_of_mem (subset_cons_self b met) hlt hnew mem_cons_self
        have hbefore := hroom b rfl
        omega
      · rw [parentClass?_eq_none_of_size_le (Nat.le_of_not_lt hlt)] at hd
        cases hd
    cases l with
    | nil => simpa using ⟨by simp, isChain_nil, nodup_nil, by simp⟩
    | cons d rest => rw [cons_prefix_cons, ih hroom', ascendsFrom_cons_iff hnew]

end Chain

/-- The parents of a class, nearest first, are the longest ascent from it that repeats nothing. -/
theorem prefix_parentChain_iff {l : List NodeId} : l <+: f.parentChain c ↔ f.Ascends (c :: l) ∧ (c :: l).Nodup := by
  rw [parentChain, prefix_chainFrom_iff fun d _ => unmet_lt_succ_size f [c]]
  constructor
  · intro h
    refine ⟨isChain_cons.mpr ⟨h.head, h.ascends⟩, nodup_cons.mpr ⟨fun hmem => ?_, h.nodup⟩⟩
    exact h.new c hmem mem_cons_self
  · rintro ⟨hascends, hnodup⟩
    obtain ⟨hhead, hrest⟩ := isChain_cons.mp hascends
    obtain ⟨hout, hnodup⟩ := nodup_cons.mp hnodup
    exact ⟨hhead, hrest, hnodup, fun y hy hmem => hout (mem_singleton.mp hmem ▸ hy)⟩

theorem ascends_parentChain (f : Forest) (c : NodeId) : f.Ascends (c :: f.parentChain c) :=
  (prefix_parentChain_iff.mp prefix_rfl).1

theorem nodup_parentChain (f : Forest) (c : NodeId) : (c :: f.parentChain c).Nodup :=
  (prefix_parentChain_iff.mp prefix_rfl).2

/-- A parent is linked from the declaration or from a parent. -/
theorem mem_parentChain (h : d ∈ f.parentChain c) : ∃ p ∈ c :: f.parentChain c, f.parentClass? p = some d :=
  (ascends_parentChain f c).exists_parent h

/-- What a parent is linked to is a parent again, or the declaration itself. -/
theorem parentClass?_mem_parentChain (hp : p ∈ c :: f.parentChain c) (hd : f.parentClass? p = some d) :
    d ∈ c :: f.parentChain c := by
  by_contra hnew
  rcases (ascends_parentChain f c).mem_or_append hp hd with hmem | hlonger
  · exact hnew (mem_cons_of_mem c hmem)
  · -- The ascent goes on to `d` and still repeats nothing, so it is longer than the longest one.
    have hnodup : (c :: (f.parentChain c ++ [d])).Nodup := by
      rw [← cons_append]
      refine nodup_append.mpr ⟨nodup_parentChain f c, nodup_singleton d, ?_⟩
      rintro y hy z hz rfl
      exact hnew (mem_singleton.mp hz ▸ hy)
    have hlength := (prefix_parentChain_iff.mpr ⟨hlonger, hnodup⟩).length_le
    rw [length_append, length_singleton] at hlength
    omega

/-! ## Closures -/

section Closure

variable {next : NodeId → List NodeId} {start met out : List NodeId} {n : Nat}

/-- A link leads from one node to the other. -/
def Link (next : NodeId → List NodeId) (a b : NodeId) : Prop :=
  b ∈ next a

open Relation in
/-- Whatever a walk adds can be reached from where it starts. -/
theorem reflTransGen_of_mem_reach (h : d ∈ reach next n met q) : d ∈ met ∨ ReflTransGen (Link next) q d := by
  induction n generalizing met q d with
  | zero => exact .inl h
  | succ n ih =>
    unfold reach at h
    split at h
    · exact .inl h
    · -- Along the fold: what is there was met with `q`, or can be reached from `q`.
      refine List.foldlRecOn (motive := fun out => ∀ y ∈ out, y ∈ met ∨ ReflTransGen (Link next) q y) (next q) _ ?_ ?_ d h
      · intro y hy
        rcases mem_append.mp hy with hy | hy
        · exact .inl hy
        · exact .inr (mem_singleton.mp hy ▸ .refl)
      · intro out hout x hx y hy
        rcases ih hy with hy | hy
        · exact hout y hy
        · exact .inr (.head hx hy)

/-- A walk from some nodes is complete: nothing is met twice, and it has met where it starts and whatever is linked from
a node that it has added. -/
structure Completes (next : NodeId → List NodeId) (start before out : List NodeId) : Prop where
  keeps : before <+: out
  nodup : out.Nodup
  start : start ⊆ out
  closed : ∀ q ∈ out, q ∉ before → next q ⊆ out

theorem Completes.refl (hnodup : met.Nodup) (hstart : start ⊆ met) : Completes next start met met :=
  ⟨prefix_rfl, hnodup, hstart, fun _ hq hnew => absurd hq hnew⟩

theorem Completes.foldl {walk : List NodeId → NodeId → List NodeId}
    (hwalk : ∀ met x, met.Nodup → f.unmet met < n → Completes next [x] met (walk met x)) (l : List NodeId)
    (hmet : met.Nodup) (hroom : f.unmet met < n) : Completes next l met (l.foldl walk met) := by
  induction l generalizing met with
  | nil => exact .refl hmet (nil_subset met)
  | cons x rest ih =>
    have hfirst := hwalk met x hmet hroom
    have hfewer : f.unmet (walk met x) ≤ f.unmet met := unmet_le_of_subset hfirst.keeps.subset
    have htail := ih hfirst.nodup (by omega)
    refine ⟨hfirst.keeps.trans htail.keeps, htail.nodup, ?_, fun q hq hold => ?_⟩
    · exact cons_subset.mpr ⟨htail.keeps.subset (hfirst.start mem_cons_self), htail.start⟩
    · by_cases hmem : q ∈ walk met x
      · exact List.Subset.trans (hfirst.closed q hmem hold) htail.keeps.subset
      · exact htail.closed q hq hmem

variable (hnext : ∀ q, f.size ≤ q → next q = [])
include hnext

theorem reach_completes (n : Nat) (met : List NodeId) (x : NodeId)
    (hmet : met.Nodup) (hroom : f.unmet met < n) : Completes next [x] met (reach next n met x) := by
  induction n generalizing met x with
  | zero => omega
  | succ n ih =>
    unfold reach
    split
    · next hmem => exact .refl hmet (cons_subset.mpr ⟨contains_iff_mem.mp hmem, nil_subset met⟩)
    · next hnew =>
      have hnew : x ∉ met := fun hmem => hnew (contains_iff_mem.mpr hmem)
      have hmet' : (met ++ [x]).Nodup := by
        refine nodup_append.mpr ⟨hmet, nodup_singleton x, ?_⟩
        rintro y hy z hz rfl
        exact hnew (mem_singleton.mp hz ▸ hy)
      have hfold : Completes next (next x) (met ++ [x]) ((next x).foldl (reach next n) (met ++ [x])) := by
        by_cases hx : x < f.size
        · have hfewer := unmet_lt_of_mem (subset_append_left met [x]) hx hnew (by simp)
          exact .foldl ih (next x) hmet' (by omega)
        · rw [hnext x (Nat.le_of_not_lt hx)]
          exact .refl hmet' (nil_subset _)
      refine ⟨(prefix_append met [x]).trans hfold.keeps, hfold.nodup, ?_, fun q hq hold => ?_⟩
      · exact List.Subset.trans (subset_append_right met [x]) hfold.keeps.subset
      · by_cases hq' : q = x
        · exact hq' ▸ hfold.start
        · exact hfold.closed q hq fun hmem => (mem_append.mp hmem).elim hold fun h => hq' (mem_singleton.mp h)

/-- A closure is a complete walk that has met the node which it leaves out. -/
theorem closureFrom_completes (c : NodeId) (start : List NodeId) :
    Completes next start [c] (c :: f.closureFrom next c start) := by
  have hdone := Completes.foldl (reach_completes hnext (f.size + 1)) start (nodup_singleton c)
    (unmet_lt_succ_size f [c])
  have hcons : start.foldl (reach next (f.size + 1)) [c] = c :: f.closureFrom next c start := by
    obtain ⟨new, hnew⟩ := hdone.keeps
    rw [closureFrom, ← hnew]
    rfl
  rwa [hcons] at hdone

theorem nodup_closureFrom (c : NodeId) (start : List NodeId) : (c :: f.closureFrom next c start).Nodup :=
  (closureFrom_completes hnext c start).nodup

omit hnext in
open Relation in
theorem reflTransGen_of_mem_closureFrom (h : d ∈ f.closureFrom next c start) :
    d = c ∨ ∃ s ∈ start, ReflTransGen (Link next) s d := by
  refine List.foldlRecOn (motive := fun out => ∀ y ∈ out, y = c ∨ ∃ s ∈ start, ReflTransGen (Link next) s y) start _ ?_ ?_
    d (mem_of_mem_drop h)
  · intro y hy
    exact .inl (mem_singleton.mp hy)
  · intro out hout x hx y hy
    rcases reflTransGen_of_mem_reach hy with hy | hy
    · exact hout y hy
    · exact .inr ⟨x, hx, hy⟩

/-- A closure that starts with what is linked from `c`, and maybe more, is what can be reached from its start, apart from
`c`. -/
theorem mem_closureFrom_iff (hc : next c ⊆ start) :
    d ∈ f.closureFrom next c start ↔ d ≠ c ∧ ∃ s ∈ start, Relation.ReflTransGen (Link next) s d := by
  have hdone := closureFrom_completes hnext c start
  constructor
  · intro h
    have hne : d ≠ c := by
      rintro rfl
      exact (nodup_cons.mp hdone.nodup).1 h
    exact ⟨hne, (reflTransGen_of_mem_closureFrom h).resolve_left hne⟩
  · rintro ⟨hne, s, hs, hreach⟩
    suffices hmem : d ∈ c :: f.closureFrom next c start from (mem_cons.mp hmem).resolve_left hne
    clear hne
    induction hreach with
    | refl => exact hdone.start hs
    | @tail a b _ hlink ih =>
      by_cases ha : a = c
      · subst ha
        exact hdone.start (hc hlink)
      · exact hdone.closed a ih (fun h => ha (mem_singleton.mp h)) hlink

end Closure

open Relation

/-- The traits of a declaration are what it can reach by the use of traits, apart from itself. -/
theorem mem_traitClosure_iff : d ∈ f.traitClosure c ↔ d ≠ c ∧ TransGen (Link f.traits) c d := by
  rw [traitClosure, mem_closureFrom_iff (fun q => traits_eq_nil_of_size_le) (List.Subset.refl _), TransGen.head'_iff]
  rfl

/-- The interfaces of a declaration are what it or one of its parents can reach by links to interfaces, apart from
itself. -/
theorem mem_interfaceClosure_iff : d ∈ f.interfaceClosure c ↔
    d ≠ c ∧ ∃ p ∈ c :: f.parentChain c, TransGen (Link f.interfaces) p d := by
  have hown : f.interfaces c ⊆ (c :: f.parentChain c).flatMap f.interfaces :=
    fun y hy => mem_flatMap.mpr ⟨c, mem_cons_self, hy⟩
  rw [interfaceClosure, mem_closureFrom_iff (fun q => interfaces_eq_nil_of_size_le) hown]
  simp only [TransGen.head'_iff, mem_flatMap]
  constructor
  · rintro ⟨hne, s, ⟨p, hp, hs⟩, hreach⟩
    exact ⟨hne, p, hp, s, hs, hreach⟩
  · rintro ⟨hne, p, hp, s, hs, hreach⟩
    exact ⟨hne, s, ⟨p, hp, hs⟩, hreach⟩

/-- A trait of a declaration is used by the declaration or by one of its traits. -/
theorem mem_traitClosure (h : d ∈ f.traitClosure c) : ∃ q ∈ c :: f.traitClosure c, d ∈ f.traits q := by
  obtain ⟨q, hq, hd⟩ := TransGen.tail'_iff.mp (mem_traitClosure_iff.mp h).2
  refine ⟨q, ?_, hd⟩
  by_cases hqc : q = c
  · exact hqc ▸ mem_cons_self
  · have hreach := (reflTransGen_iff_eq_or_transGen.mp hq).resolve_left hqc
    exact mem_cons_of_mem c (mem_traitClosure_iff.mpr ⟨hqc, hreach⟩)

/-- What a declaration or one of its traits uses is a trait of it, or the declaration itself. -/
theorem traits_subset_traitClosure (hq : q ∈ c :: f.traitClosure c) : f.traits q ⊆ c :: f.traitClosure c := by
  have hdone := closureFrom_completes (f := f) (fun q => traits_eq_nil_of_size_le) c (f.traits c)
  by_cases hqc : q = c
  · exact hqc ▸ hdone.start
  · exact hdone.closed q hq fun h => hqc (mem_singleton.mp h)

/-- The interfaces of a declaration are linked from it, from its parents or from its interfaces. -/
theorem mem_interfaceClosure (h : d ∈ f.interfaceClosure c) :
    ∃ q ∈ (c :: f.parentChain c) ++ f.interfaceClosure c, d ∈ f.interfaces q := by
  obtain ⟨-, p, hp, hreach⟩ := mem_interfaceClosure_iff.mp h
  obtain ⟨q, hq, hd⟩ := TransGen.tail'_iff.mp hreach
  refine ⟨q, ?_, hd⟩
  rcases reflTransGen_iff_eq_or_transGen.mp hq with rfl | hq
  · exact mem_append_left _ hp
  · by_cases hqc : q = c
    · exact mem_append_left _ (hqc ▸ mem_cons_self)
    · exact mem_append_right _ (mem_interfaceClosure_iff.mpr ⟨hqc, p, hp, hq⟩)

/-- What a declaration, one of its parents or one of its interfaces is linked to is an interface of it, or the
declaration itself. -/
theorem interfaces_subset_interfaceClosure (hq : q ∈ (c :: f.parentChain c) ++ f.interfaceClosure c) :
    f.interfaces q ⊆ c :: f.interfaceClosure c := by
  have hdone := closureFrom_completes (f := f) (fun q => interfaces_eq_nil_of_size_le) c
    ((c :: f.parentChain c).flatMap f.interfaces)
  rcases mem_append.mp hq with hq | hq
  · exact fun d hd => hdone.start (mem_flatMap.mpr ⟨q, hq, hd⟩)
  · refine hdone.closed q (mem_cons_of_mem c hq) fun h => ?_
    exact (nodup_cons.mp hdone.nodup).1 (mem_singleton.mp h ▸ hq)

end EventAtlas.Forest
