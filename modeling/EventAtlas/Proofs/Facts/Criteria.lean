import EventAtlas.Facts.Extraction

/-!
# The criteria of a collector

A collector admits a text for a kind of criterion if it has no such criterion or one of them matches. Extraction does
not try the criteria one by one: it joins them to one pattern, and a collector without criteria of a kind gets the
pattern that matches everything. Whether the joined pattern matches where one of its parts does depends on how the
parts are written, for one may be open to the right; `Collector.Alternates` says that it does.
-/

namespace EventAtlas

namespace Pattern

theorem merge_ne_nil {is js : List Nat} (h : is ≠ []) : merge is js ≠ [] := by
  cases is with
  | nil => exact absurd rfl h
  | cons i is =>
    cases js with
    | nil => simp [merge]
    | cons j js =>
      unfold merge
      split
      · simp
      · split <;> simp

theorem closure_ne_nil (step : List Nat → List Nat) (n : Nat) {is : List Nat} (h : is ≠ []) :
    closure step n is ≠ [] := by
  induction n generalizing is with
  | zero => exact h
  | succ n ih =>
    unfold closure
    dsimp only
    split
    · exact h
    · exact ih (merge_ne_nil h)

/-- A repetition that may be empty matches everything. -/
theorem isMatch_of_times (source : String) (e : Expr) (text : String) :
    (⟨source, .seq (.times e 0 none) .empty⟩ : Pattern).isMatch text = true := by
  have hstart (n : Nat) : List.range (n + 1) ≠ [] := by simp
  simp only [isMatch, Expr.reach, iterate, Bool.not_eq_true', List.isEmpty_eq_false_iff]
  exact closure_ne_nil _ _ (hstart _)

end Pattern

namespace Collector

open Extract

variable {c : Collector} {kind : CriterionKind} {p : Pattern} {text : String}

/-- The text satisfies the criteria of a kind. -/
def Admits (c : Collector) (kind : CriterionKind) (text : String) : Prop :=
  c.patterns kind = [] ∨ ∃ p ∈ c.patterns kind, p.isMatch text = true

/-- The criteria of each kind, joined to one pattern, match where one of them does. -/
def Alternates (c : Collector) : Prop :=
  ∀ kind source p, alternation? (c.patterns kind) = some source → Pattern.parse? source = some p →
    ∀ text, p.isMatch text = true ↔ ∃ q ∈ c.patterns kind, q.isMatch text = true

theorem alternation?_eq_none {patterns : List Pattern} : alternation? patterns = none ↔ patterns = [] := by
  cases patterns <;> simp [alternation?]

/-- The joined pattern says whether a text is admitted. -/
theorem Alternates.isMatch_iff (h : c.Alternates) {source : String}
    (hsource : alternation? (c.patterns kind) = some source) (hp : Pattern.parse? source = some p) :
    p.isMatch text = true ↔ c.Admits kind text := by
  have hsome : c.patterns kind ≠ [] := by
    intro hnone
    rw [alternation?_eq_none.mpr hnone] at hsource
    cases hsource
  rw [h kind source p hsource hp, Admits, or_iff_right hsome]

/-- So does the pattern that stands in for criteria of a kind, if there are none. -/
theorem Alternates.isMatch_iff_of_getD (h : c.Alternates)
    (hp : Pattern.parse? ((alternation? (c.patterns kind)).getD anything) = some p) :
    p.isMatch text = true ↔ c.Admits kind text := by
  cases hsource : alternation? (c.patterns kind) with
  | some source =>
    rw [hsource] at hp
    exact h.isMatch_iff hsource hp
  | none =>
    have hany : Pattern.parse? anything =
        some ⟨".*", .seq (.times (.chars (.compl (.single '\n'))) 0 none) .empty⟩ := rfl
    rw [hsource, Option.getD_none, hany] at hp
    obtain rfl := Option.some.inj hp
    exact iff_of_true (Pattern.isMatch_of_times ..) (.inl (alternation?_eq_none.mp hsource))

/-- One criterion of each kind is joined with nothing, provided that it can stand in brackets. -/
theorem alternates_of_single (h : ∀ kind, ∃ p source, c.patterns kind = [p] ∧
    Pattern.parse? ("(?:" ++ p.source ++ ")") = some ⟨source, .seq p.expr .empty⟩) : c.Alternates := by
  intro kind source p hsource hp text
  obtain ⟨q, source', hpatterns, hq⟩ := h kind
  have hjoined : alternation? [q] = some ("(?:" ++ q.source ++ ")") := rfl
  rw [hpatterns, hjoined] at hsource
  obtain rfl := Option.some.inj hsource
  obtain rfl := Option.some.inj (hq.symm.trans hp)
  rw [hpatterns]
  simp only [List.mem_singleton, exists_eq_left]
  rfl

end Collector

end EventAtlas
