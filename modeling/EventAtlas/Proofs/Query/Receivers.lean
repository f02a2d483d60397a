import EventAtlas.Proofs.Facts.Accounts
import EventAtlas.Proofs.Inference.BoundAnswers
import EventAtlas.Proofs.Inference.Documented

/-!
# Which patterns see the class of a receiver

A condition on the receiver of a call tries the names of its types and those of their supertypes. A type that points at a
class bears the name of the class, but perhaps in other letters and with type arguments behind it. A name of the program
that is linked to a class has just the name of the class, so every pattern that matches the class sees the receiver
(`receiverMatches_of_link`). The types of documentation keep the spelling that stands there: a pattern sees the class
behind it if it matches all its spellings (`receiverMatches_of_spellings`), and may miss it otherwise
(`documented_receivers_missed`), although it then still sees the supertypes of the class.
-/

namespace EventAtlas

/-- The pattern matches the types that have this name as their base name, in any letters and with any arguments. -/
def Pattern.MatchesSpellings (p : Pattern) (fqn : String) : Prop :=
  ∀ t : Ty, Text.sameLetters t.baseName (Typing.normalize fqn) = true → p.isMatch t.name = true

/-- The pattern that collectors without criteria use sees every class. -/
theorem Pattern.matchesSpellings_of_times (source : String) (e : Expr) (fqn : String) :
    (⟨source, .seq (.times e 0 none) .empty⟩ : Pattern).MatchesSpellings fqn :=
  fun _ _ => isMatch_of_times ..

namespace Index

open Query

variable {x : Index} {limit : Nat} {before : List NodeId} {node d : NodeId} {types : TypeSet} {t : Ty} {p : Pattern}
  {fqn text : String} {role : NameRole}

theorem receiverMatches_of_name (ht : t ∈ types.known.toList) (hp : p.isMatch t.name = true) :
    receiverMatches x types p = true := by
  apply List.any_eq_true.mpr
  exact ⟨t, ht, by rw [candidateMatches, hp, Bool.true_or]⟩

/-! ## Types that point at the class -/

/-- What a candidate points at has its base name, and is seen by a pattern that matches all spellings. -/
theorem receiverMatches_of_spellings (hbinds : x.BindsAll types) (ht : t ∈ types.known.toList)
    (hd : t.declaration = some d) (hfqn : x.forest.resolvedName d = some fqn) :
    Text.sameLetters t.baseName (Typing.normalize fqn) = true ∧
      (p.MatchesSpellings fqn → receiverMatches x types p = true) := by
  obtain ⟨-, own, hown, hsame⟩ := hbinds.known.binds ht t .self d hd
  obtain rfl := Option.some.inj (hown.symm.trans hfqn)
  exact ⟨hsame, fun hp => receiverMatches_of_name ht (hp t hsame)⟩

/-! ## Names that are linked to the class -/

/-- However a name is written, the one type of the receiver has the name of the class that it is linked to. -/
theorem receiverMatches_of_link (hk : x.forest.kind node = .name text role) (hrole : role.isClassLike = true)
    (hd : x.forest.declaration node = some d) (hfqn : x.forest.resolvedName d = some fqn)
    (hanswer : x.answerAfter limit before node = .ok types) (hp : p.isMatch (Typing.normalize fqn) = true) :
    receiverMatches x types p = true := by
  have htypes : types = .singleton (.declared fqn d) := by
    rw [answerAfter_of_fixed (fixed_of_name hk) hanswer, nameTypes_of_declaration hrole hd hfqn]
    rfl
  have hknown : Ty.declared fqn d ∈ types.known.toList := by
    have hone : types.toList.filter (fun t => !t.isUnknown) = [.declared fqn d] := by
      rw [htypes, TypeSet.toList_singleton]
      rfl
    rw [TypeSet.known, hone]
    exact List.mem_singleton_self _
  have hname : (Ty.declared fqn d).name = Typing.normalize fqn := by simp only [Ty.declared, Ty.named]
  exact receiverMatches_of_name hknown (hname ▸ hp)

/-- Let a pattern match the qualified name of the class-like that a candidate for the receiver points at, in an index
built from forests whose class-likes and namespaces have plain names. The candidate has that name, up to ASCII case, its
normal form and type arguments. The pattern sees the receiver if the candidate is spelled like the class, or if the
pattern matches all spellings; and if the receiver is a name of the program, it does so whatever the spelling. -/
theorem receiver_sees_own_class {forests : List Forest} (h : ofForests forests = .ok x)
    (hunlinked : ∀ f ∈ forests, f.Unlinked) (hnames : ∀ f ∈ forests, ∀ id, (f.kind id).declaresPlainName = true)
    (hplaces : (∀ u ∈ x.units, Text.startsSolid u.fqn = true) ∨
      ∀ id text, x.forest.kind id = .name text .classRef → x.forest.IsClassPlace id)
    (hanswer : x.answerAfter limit before node = .ok types) (hp : p.isMatch fqn = true) :
    (∀ t ∈ types.known.toList, ∀ d, t.declaration = some d → x.forest.resolvedName d = some fqn →
      Text.sameLetters t.baseName (Typing.normalize fqn) = true ∧
        (t.name = fqn ∨ p.MatchesSpellings fqn → receiverMatches x types p = true)) ∧
    ∀ text role, x.forest.kind node = .name text role → role.isClassLike = true →
      ∀ d, x.forest.declaration node = some d → x.forest.resolvedName d = some fqn → Typing.normalize fqn = fqn →
        receiverMatches x types p = true := by
  have hgiven := (ofForests_built h).bindsGiven (joined_unlinked hunlinked) (declaresPlainName_of_ofForests h hnames)
    hplaces
  have hbinds := answerAfter_binds hgiven hanswer
  constructor
  · intro t ht d hd hfqn
    obtain ⟨hsame, hall⟩ := receiverMatches_of_spellings (p := p) hbinds ht hd hfqn
    refine ⟨hsame, ?_⟩
    rintro (hname | hspellings)
    · exact receiverMatches_of_name ht (hname ▸ hp)
    · exact hall hspellings
  · intro text role hk hrole d hd hfqn hnormal
    refine receiverMatches_of_link hk hrole hd hfqn hanswer ?_
    rw [hnormal]
    exact hp

/-- A class, a static call that spells its name in other letters, and two calls on variables that documentation gives
the type: once with an argument, once in other letters. -/
def boxes : List (String × String) :=
  [("Box.php", "<?php\nnamespace App;\nclass Box implements \\Countable \x7b\x7d\n"),
    ("use.php", "<?php\nnamespace App;\nbox::make();\n/** @var Box<int> $b */\n$b->add();\n" ++
      "/** @var box $c */\n$c->add();\n")]

/-- The types of a receiver, and whether they are seen by the class and by its supertype. -/
def seen (x : Index) (node : NodeId) : Option (List (String × Option NodeId) × Bool × Bool) :=
  (x.answerAfter 64 [] node).toOption.map fun types =>
    (types.known.toList.map fun t => (t.name, t.declaration), receiverMatches x types (word "^App\\\\Box$"),
      receiverMatches x types (word "^Countable$"))

theorem exists_answer_of_seen {name : String} {byClass bySupertype : Bool}
    (h : x.seen node = some ([(name, some d)], byClass, bySupertype)) : ∃ types t, x.answerAfter 64 [] node = .ok types ∧
      t ∈ types.known.toList ∧ t.name = name ∧ t.declaration = some d ∧
      receiverMatches x types (word "^App\\\\Box$") = byClass ∧
      receiverMatches x types (word "^Countable$") = bySupertype := by
  obtain ⟨types, htypes, heq⟩ := Option.map_eq_some_iff.mp h
  obtain ⟨hlist, hmatches⟩ := Prod.mk.inj heq
  obtain ⟨hclass, hsupertype⟩ := Prod.mk.inj hmatches
  obtain ⟨t, ht, hpair⟩ := List.mem_map.mp (hlist ▸ List.mem_singleton_self _)
  obtain ⟨hname, hdeclaration⟩ := Prod.mk.inj hpair
  exact ⟨types, t, eq_ok_of_toOption htypes, ht, hname, hdeclaration, hclass, hsupertype⟩

theorem boxes_facts : let x := ofPrograms boxes
    (∀ f ∈ forestsOf (sourcesOf boxes), ∀ id ∈ f.ids, (f.kind id).declaresPlainName = true) ∧
      (∀ u ∈ x.units, Text.startsSolid u.fqn = true) ∧ (x.forest.kind 1).isClassLike = true ∧
      x.forest.resolvedName 1 = some "App\\Box" ∧ x.forest.kind 4 = .name "box" .classRef ∧
      x.forest.declaration 4 = some 1 ∧ x.seen 4 = some ([("App\\Box", some 1)], true, true) ∧
      x.seen 8 = some ([("App\\Box<int>", some 1)], false, true) ∧
      x.seen 12 = some ([("App\\box", some 1)], false, true) := by
  decide +kernel

theorem isMatch_box : (word "^App\\\\Box$").isMatch "App\\Box" = true := by
  decide +kernel

theorem receiver_sees_own_class_boxes : let x := ofPrograms boxes
    (∃ types, x.answerAfter 64 [] 4 = .ok types ∧ receiverMatches x types (word "^App\\\\Box$") = true) ∧
      ∃ types t, x.answerAfter 64 [] 8 = .ok types ∧ t ∈ types.known.toList ∧ t.name = "App\\Box<int>" ∧
        Text.sameLetters t.baseName (Typing.normalize "App\\Box") = true ∧
        receiverMatches x types (word ".*") = true := by
  obtain ⟨hnames, hsolid, -, hfqn, hkind, hlink, hstatic, hdocumented, -⟩ := boxes_facts
  have hbuilt := ofForests_ofPrograms boxes
  have hplain f (hf : f ∈ forestsOf (sourcesOf boxes)) := declaresPlainName_of_mem_ids (hnames f hf)
  have hany : word ".*" = ⟨".*", .seq (.times (.chars (.compl (.single '\n'))) 0 none) .empty⟩ := rfl
  constructor
  · obtain ⟨types, -, htypes, -⟩ := exists_answer_of_seen hstatic
    have hsees := receiver_sees_own_class hbuilt unlinked_of_mem_forestsOf hplain (.inl hsolid) htypes isMatch_box
    exact ⟨types, htypes, hsees.2 "box" .classRef hkind rfl 1 hlink hfqn (by decide)⟩
  · obtain ⟨types, t, htypes, ht, hname, hd, -⟩ := exists_answer_of_seen hdocumented
    have hsees := receiver_sees_own_class hbuilt unlinked_of_mem_forestsOf hplain (.inl hsolid) htypes
      (hany ▸ Pattern.isMatch_of_times _ _ "App\\Box")
    obtain ⟨hsame, hseen⟩ := hsees.1 t ht 1 hd hfqn
    exact ⟨types, t, htypes, ht, hname, hsame, hseen (.inr (hany ▸ Pattern.matchesSpellings_of_times _ _ _))⟩

/-- Two receivers that documentation gives the type of a class point at it. The pattern matches the name of the class,
but sees neither of them, though the pattern of its supertype does. -/
theorem documented_receivers_missed : let x := ofPrograms boxes
    (x.forest.kind 1).isClassLike = true ∧ x.forest.resolvedName 1 = some "App\\Box" ∧
      (word "^App\\\\Box$").isMatch "App\\Box" = true ∧
      ∀ node ∈ [8, 12], ∃ types t, x.answerAfter 64 [] node = .ok types ∧ t ∈ types.known.toList ∧
        t.declaration = some 1 ∧ receiverMatches x types (word "^App\\\\Box$") = false ∧
        receiverMatches x types (word "^Countable$") = true := by
  obtain ⟨-, -, hclass, hfqn, -, -, -, hargument, hletters⟩ := boxes_facts
  refine ⟨hclass, hfqn, isMatch_box, ?_⟩
  have hmissed {node : NodeId} {name : String}
      (h : (ofPrograms boxes).seen node = some ([(name, some 1)], false, true)) :
      ∃ types t, (ofPrograms boxes).answerAfter 64 [] node = .ok types ∧ t ∈ types.known.toList ∧
        t.declaration = some 1 ∧ receiverMatches (ofPrograms boxes) types (word "^App\\\\Box$") = false ∧
        receiverMatches (ofPrograms boxes) types (word "^Countable$") = true := by
    obtain ⟨types, t, htypes, ht, -, hd, hmatches⟩ := exists_answer_of_seen h
    exact ⟨types, t, htypes, ht, hd, hmatches⟩
  intro node hnode
  rcases List.mem_pair.mp hnode with rfl | rfl
  · exact hmissed hargument
  · exact hmissed hletters

end Index

end EventAtlas
