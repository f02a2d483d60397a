import EventAtlas.Proofs.Forest.Documentation

/-!
# Parameters and their default values

A parameter has its name, its modifiers and its declared type before its default value, and nothing in the value changes
them. The marks of variadic parameters and of references, however, are looked for in all the words of a parameter. So a
parameter whose value has such a mark in a text is taken for something else, unless it had the mark already
(`Lowering.default_changes_marks_only`).
-/

namespace EventAtlas

open List Syntax

/-! ## Words of joined texts -/

namespace Text

section Joined

variable {word : List Char} {c : Char}

theorem isSome_stripChars?_append_cons (hc : c ∉ word) (l r : List Char) :
    (stripChars? word (l ++ c :: r)).isSome = (stripChars? word (l ++ [c])).isSome := by
  induction word generalizing l with
  | nil => rfl
  | cons d word ih =>
    obtain ⟨hd, hword⟩ := ne_and_not_mem_of_not_mem_cons hc
    cases l with
    | nil => simp [stripChars?, hd.symm]
    | cons e l =>
      simp only [cons_append, stripChars?]
      split
      · exact ih hword l
      · rfl

theorem containsChars_append_cons (hc : c ∉ word) (hne : word ≠ []) (l r : List Char) :
    containsChars word (l ++ c :: r) = (containsChars word (l ++ [c]) || containsChars word r) := by
  have hstrip := isSome_stripChars?_append_cons hc
  induction l with
  | nil =>
    obtain ⟨d, word, rfl⟩ := exists_cons_of_ne_nil hne
    have hd : d ≠ c := fun h => hc (h ▸ mem_cons_self)
    simp [containsChars, stripChars?, hd]
  | cons d l ih =>
    rw [cons_append, containsChars, ← cons_append, hstrip, ih, cons_append, containsChars, Bool.or_assoc]

/-- A word is in one of two joined texts, if the first one ends with a character that the word has not. -/
theorem contains_append {word s : String} (hne : word ≠ "") (hs : ∀ c ∈ s.toList.getLast?, c ∉ word.toList)
    (t : String) : contains word (s ++ t) = (contains word s || contains word t) := by
  have hword : word.toList ≠ [] := fun h => hne (String.toList_eq_nil_iff.mp h)
  simp only [contains, String.toList_append]
  generalize s.toList = l at hs
  obtain rfl | ⟨l, c, rfl⟩ := eq_nil_or_concat l
  · simp [containsChars, hword]
  · rw [concat_eq_append, append_assoc]
    exact containsChars_append_cons (hs c (by simp)) hword l t.toList

end Joined

end Text

namespace Lowering

open Forest

/-! ## Phrases with the same words -/

/-- A phrase and all phrases inside have the same words in both sources. -/
inductive SameWords (src src' : Source) : Tree → Prop
  | node {t : Tree} (words : src.words t = src'.words t) (inside : ∀ u ∈ t.children, SameWords src src' u) :
    SameWords src src' t

section SameWords

variable {src src' : Source} {t : Tree} {n : Nat}

theorem SameWords.words (h : SameWords src src' t) : src.words t = src'.words t := by
  cases h with
  | node words _ => exact words

theorem SameWords.part (h : SameWords src src' t) : ∀ u ∈ t.parts, SameWords src src' u := by
  cases h with
  | node _ inside => exact fun u hu => inside u (mem_filter.mp hu).1

theorem SameWords.nameNode (h : SameWords src src' t) (role : NameRole) : nameNode src role t = nameNode src' role t := by
  rw [Lowering.nameNode, Lowering.nameNode, h.words]

theorem each_congr {lower lower' : Tree → Build (List NodeId)} {ts : List Tree} (h : ∀ t ∈ ts, lower t = lower' t) :
    each lower ts = each lower' ts := by
  induction ts with
  | nil => rfl
  | cons t ts ih =>
    obtain ⟨ht, hts⟩ := forall_mem_cons.mp h
    rw [each, each, ht, ih hts]

theorem maybe_congr {lower lower' : Tree → Build (List NodeId)} {o : Option Tree} (h : ∀ t ∈ o, lower t = lower' t) :
    maybe lower o = maybe lower' o := by
  cases o with
  | none => rfl
  | some t => exact h t rfl

/-- A declared type is lowered by the words of its names. -/
theorem SameWords.lower_type (h : SameWords src src' t) : lower src n .type t = lower src' n .type t := by
  induction n generalizing t with
  | zero => rfl
  | succ n ih =>
    have hparts : each (lower src n .type) t.parts = each (lower src' n .type) t.parts :=
      each_congr fun u hu => ih (h.part u hu)
    have hfirst : ∀ u ∈ t.parts.head?, SameWords src src' u := fun u hu => h.part u (mem_of_mem_head? hu)
    change type src (lower src n) t = type src' (lower src' n) t
    unfold type
    rw [h.words, hparts, h.nameNode]
    generalize t.parts.head? = first at hfirst
    cases first with
    | none => simp only [Option.getD_none, h.nameNode, maybe]
    | some u =>
      have hu := hfirst u rfl
      simp only [Option.getD_some, hu.nameNode, ih hu, maybe]

end SameWords

/-! ## Parameters -/

/-- The kinds of phrases that say by themselves what a parameter is, apart from types. -/
def signKinds : List Kind :=
  [.referenceMark, .visibilityModifier, .staticModifier, .abstractModifier, .finalModifier, .readonlyModifier]

/-- The words and the phrases of a parameter are those before its default value and those of the value. -/
structure Defaults (src : Source) (pre : String) (front : List Tree) (d t : Tree) : Prop where
  children : t.children = front ++ [d]
  words : src.words t = pre ++ src.words d
  role : d.role = some .defaultValue
  noType : isType d.kind = false
  noSign : d.kind ∉ signKinds

/-- There is the mark of a reference among the phrases before the default value. -/
def hasReference (front : List Tree) : Bool :=
  front.any fun p => p.isPart && p.kind = .referenceMark

/-- A parameter with a name and modifiers, as found by what stands before its default value and by the words of it. -/
def parameterKind (k : Kind) (pre : String) (front : List Tree) (name : String) (promoted : Option Modifiers)
    (value : String) : NodeKind :=
  .parameter name (k = .variadicParameter || Text.contains "..." pre || Text.contains "..." value)
    (hasReference front || Text.contains "&$" pre || Text.contains "&$" value) promoted

/-- A run gives one node of a kind, and its first children are the nodes of its declared type, which were made before. -/
structure HasParameter (kind : NodeKind) (typed r : List NodeId × Forest) : Prop where
  node : ∃ id, r.1 = [id] ∧ r.2.kind id = kind ∧ typed.1 <+: (r.2.node id).children
  stays : Begins typed.2 r.2

theorem hasParameter {typed value : Build (List NodeId)} {kind : NodeKind} {t : Tree} (hvalue : Appends value)
    (f : Forest) : HasParameter kind (typed.run f)
      ((do let types ← typed; let values ← value; one kind t (types ++ values) : Build (List NodeId)).run f) := by
  have hnode := Begins.node_of_push (.refl ((value.run (typed.run f).2).2.push
    { kind, span := spanOf t.extent, children := (typed.run f).1 ++ (value.run (typed.run f).2).1 }))
  refine ⟨⟨_, rfl, congrArg Node.kind hnode, ?_⟩, (hvalue (typed.run f).2).trans (.push _ _)⟩
  exact ⟨_, (congrArg Node.children hnode).symm⟩

namespace Defaults

variable {src src' : Source} {pre : String} {front : List Tree} {d d' t t' : Tree} {n : Nat}

variable (h : Defaults src pre front d t)
include h

/-- A phrase that is not the default value is found before it. -/
theorem find? {p : Tree → Bool} (hp : p d = false) : t.children.find? p = front.find? p := by
  rw [h.children, find?_append, find?_cons_of_neg (by simp [hp]), find?_nil, Option.or_none]

theorem typePart?_eq :
    typePart? t = (front.find? fun c => c.role = some .type).or (front.find? fun p => p.isPart ∧ isType p.kind) := by
  rw [typePart?, Tree.part?, Tree.parts, find?_filter, h.find? (by simp [h.role]), h.find? (by simp [h.noType])]

theorem modifiersOf_eq : modifiersOf src t = modifiersOf src (.node t.kind t.role t.extent front) := by
  unfold modifiersOf
  rw [h.children, foldl_append, foldl_cons, foldl_nil]
  split
  iterate 5 · next hkind => exact absurd (hkind ▸ by decide) h.noSign
  · rfl

/-- What a parameter is found to be. -/
theorem parameterNode_run (ht : t.height ≤ n + 1)
    (hseam : ∀ c ∈ pre.toList.getLast?, c ∉ "...&$".toList) {named : Tree} (hname : t.part? .name = some named)
    (f : Forest) :
    HasParameter (parameterKind t.kind pre front (variableWords src named)
        (if t.kind = .promotedParameter then some (modifiersOf src t) else none) (src.words d))
      ((maybe (lower src n .type) (typePart? t)).run f) ((parameterNode src (lower src n) t).run f) := by
  have hvalue : Appends (maybe (lower src n .value) (t.part? .defaultValue)) :=
    (maybe_sub_step .value (Tree.role_lt ht)).asks.appends fun form u hu =>
      lower_appends src form (Nat.le_of_lt_succ hu)
  have hcontains {word : String} (hne : word ≠ "") (hword : word.toList ⊆ "...&$".toList) :
      Text.contains word (src.words t) = (Text.contains word pre || Text.contains word (src.words d)) := by
    rw [h.words, Text.contains_append hne fun c hc hmem => hseam c hc (hword hmem)]
  have hmark : (t.parts.any fun p => p.kind = .referenceMark) = hasReference front := by
    have hkind : d.kind ≠ .referenceMark := fun heq => absurd (heq ▸ by decide) h.noSign
    simp [hasReference, Tree.parts, any_filter, h.children, hkind]
  unfold parameterNode
  dsimp only
  rw [hname, hcontains (by decide) (by decide), hcontains (by decide) (by decide), hmark, Option.some_or,
    Option.map_some, Option.getD_some, ← Bool.or_assoc, ← Bool.or_assoc]
  exact hasParameter hvalue f

end Defaults

/-- Two parameters that differ in their default value only have the same name, the same modifiers and the same declared
type. Whether they are variadic and whether they are references is the same exactly if what stands before the value
says so already or if both values have the mark, or none of them has. -/
theorem default_changes_marks_only {src src' : Source} {pre : String} {front : List Tree} {d d' t t' : Tree} {n : Nat}
    (h : Defaults src pre front d t) (h' : Defaults src' pre front d' t') (hkind : t'.kind = t.kind)
    (ht : t.height ≤ n + 1) (ht' : t'.height ≤ n + 1) (hfront : ∀ c ∈ front, SameWords src src' c)
    (hname : ∃ c ∈ front, c.role = some .name) (hseam : ∀ c ∈ pre.toList.getLast?, c ∉ "...&$".toList) (f : Forest) :
    ∃ name promoted, let kindOf := parameterKind t.kind pre front name promoted
      HasParameter (kindOf (src.words d)) ((maybe (lower src n .type) (typePart? t)).run f)
        ((parameterNode src (lower src n) t).run f) ∧
      HasParameter (kindOf (src'.words d')) ((maybe (lower src n .type) (typePart? t)).run f)
        ((parameterNode src' (lower src' n) t').run f) ∧
      (kindOf (src'.words d') = kindOf (src.words d) ↔
        ((t.kind = .variadicParameter ∨ Text.contains "..." pre = true) ∨
          Text.contains "..." (src'.words d') = Text.contains "..." (src.words d)) ∧
        ((hasReference front = true ∨ Text.contains "&$" pre = true) ∨
          Text.contains "&$" (src'.words d') = Text.contains "&$" (src.words d))) := by
  obtain ⟨named, hnamed⟩ : ∃ c, front.find? (fun c => c.role = some .name) = some c := by
    rw [← Option.isSome_iff_exists, List.find?_isSome]
    simpa using hname
  have hwords : variableWords src' named = variableWords src named := by
    rw [variableWords, variableWords, (hfront named (List.mem_of_find?_eq_some hnamed)).words]
  have hmods : modifiersOf src' t' = modifiersOf src t := by
    rw [h.modifiersOf_eq, h'.modifiersOf_eq]
    exact List.foldl_ext _ _ _ fun m c hc => by rw [(hfront c hc).words]
  have htyped : maybe (lower src' n .type) (typePart? t') = maybe (lower src n .type) (typePart? t) := by
    rw [h.typePart?_eq, h'.typePart?_eq]
    refine maybe_congr fun u hu => (hfront u ?_).lower_type.symm
    obtain hu | ⟨-, hu⟩ := Option.or_eq_some_iff.mp hu <;> exact List.mem_of_find?_eq_some hu
  have hrun := h.parameterNode_run ht hseam ((h.find? (by simp [h.role])).trans hnamed) f
  have hrun' := h'.parameterNode_run ht' hseam ((h'.find? (by simp [h'.role])).trans hnamed) f
  rw [hkind, hwords, hmods, htyped] at hrun'
  refine ⟨_, _, hrun, hrun', ?_⟩
  have hflag {a b c d : Bool} : (a || b || c) = (a || b || d) ↔ (a = true ∨ b = true) ∨ c = d := by
    cases a <;> cases b <;> simp
  simp only [parameterKind, NodeKind.parameter.injEq, hflag, decide_eq_true_eq, true_and, and_true]

/-- The text of a parameter with a string as its default value, and the parameter. -/
def stringText (value : String) : Source :=
  ("string $s = '" ++ value ++ "'").toUTF8

def stringFront : List Tree :=
  [.node .primitiveType (some .type) ⟨0, 6, 0⟩ [], .node .variableName (some .name) ⟨7, 9, 0⟩ []]

def stringParameter (stop : Nat) : Tree :=
  .node .simpleParameter none ⟨0, stop, 0⟩ (stringFront ++ [.node .string (some .defaultValue) ⟨12, stop, 0⟩ []])

theorem default_changes_marks_only_string : ∃ name promoted typed,
    HasParameter (.parameter name false false promoted) typed
      ((parameterNode (stringText "a") (lower (stringText "a") 1) (stringParameter 15)).run {}) ∧
    HasParameter (.parameter name true false promoted) typed
      ((parameterNode (stringText "...") (lower (stringText "...") 1) (stringParameter 17)).run {}) := by
  have hfront : ∀ c ∈ stringFront, SameWords (stringText "a") (stringText "...") c := by
    simp only [stringFront, List.forall_mem_cons]
    exact ⟨.node (by decide +kernel) nofun, .node (by decide +kernel) nofun, nofun⟩
  have h : Defaults (stringText "a") "string $s = " stringFront _ (stringParameter 15) :=
    ⟨rfl, by decide +kernel, rfl, rfl, by decide⟩
  have h' : Defaults (stringText "...") "string $s = " stringFront _ (stringParameter 17) :=
    ⟨rfl, by decide +kernel, rfl, rfl, by decide⟩
  obtain ⟨name, promoted, hrun, hrun', -⟩ := default_changes_marks_only (n := 1) h h' rfl (by decide) (by decide)
    hfront ⟨_, .tail _ (.head _), rfl⟩ (by simp) {}
  have hkind {v : Bool} {s : String} (hv : Text.contains "..." s = v) (hr : Text.contains "&$" s = false) :
      parameterKind .simpleParameter "string $s = " stringFront name promoted s = .parameter name v false promoted := by
    rw [parameterKind, hv, hr]
    rfl
  rw [show (stringParameter 15).kind = .simpleParameter from rfl] at hrun hrun'
  rw [hkind (v := false) (by decide +kernel) (by decide +kernel)] at hrun
  rw [hkind (v := true) (by decide +kernel) (by decide +kernel)] at hrun'
  exact ⟨name, promoted, _, hrun, hrun'⟩

/-- Strings with the marks turn a parameter into a variadic one and into a reference. -/
theorem strings_taken_for_marks :
    (Forest.ofSource? "a.php" "<?php function f($s = '...', $t = '&$') \x7b\x7d".toUTF8).map (fun f => f.ids.map f.kind) =
      some [.literal .string, .parameter "s" true false none, .literal .string, .parameter "t" false true none, .block,
        .function "f", .file] := by
  decide +kernel

end Lowering

end EventAtlas
