import EventAtlas.Proofs.Forest.Documentation
import EventAtlas.Proofs.Forest.ImportTexts

/-!
# Comments in import declarations

The reader of import declarations takes comments for text. A comment in a clause or before the braces of a group changes
what is imported, and so does one behind the last comma of a group if it reads as a clause. Comments behind the braces
are never read (`Import.comments_spare_imports_iff`).

Every comment has a slash or a hash, and the reader drops neither of them. So a clause with a comment imports nothing, or
a name with such a sign.
-/

namespace EventAtlas

open List Text Syntax

namespace Text

/-! ## What is kept of a text -/

/-- Characters that are neither blanks nor in keywords: commas, braces and what comments begin with. -/
def keyChars : List Char :=
  [',', '{', '}', '/', '#']

def kept (s : String) : List Char :=
  s.toList.filter keyChars.contains

/-- There is a character with which a comment begins. -/
def Signed (s : String) : Prop :=
  ∃ c ∈ s.toList, c = '/' ∨ c = '#'

instance : DecidablePred Signed :=
  fun s => decidable_of_iff ((s.toList.any fun c => c == '/' || c == '#') = true) (by simp [Signed])

section Marks

variable {p : Char → Bool} {s t : String} {c : Char} {l r : List Char}

theorem mem_iff_of_kept (h : kept t = kept s) (hc : c ∈ keyChars) : c ∈ t.toList ↔ c ∈ s.toList := by
  have hmem : c ∈ kept t ↔ c ∈ kept s := by rw [h]
  simpa [kept, hc] using hmem

theorem signed_iff_of_kept (h : kept t = kept s) : Signed t ↔ Signed s := by
  refine exists_congr fun c => and_congr_left fun hc => mem_iff_of_kept h ?_
  obtain rfl | rfl := hc <;> decide

theorem signed_append : Signed (s ++ t) ↔ Signed s ∨ Signed t := by
  simp [Signed, or_and_right, exists_or]

theorem count_of_kept (h : kept t = kept s) (hc : c ∈ keyChars) : t.toList.count c = s.toList.count c := by
  have hcount := congrArg (List.count c) h
  rwa [kept, kept, count_filter (by simpa using hc), count_filter (by simpa using hc)] at hcount

theorem filter_dropWhile (h : keyChars.any p = false) (l : List Char) :
    (l.dropWhile p).filter keyChars.contains = l.filter keyChars.contains := by
  induction l with
  | nil => rfl
  | cons c l ih =>
    by_cases hc : p c = true
    · have hkey : c ∉ keyChars := fun hmem => any_eq_false.mp h c hmem hc
      rw [dropWhile_cons_of_pos hc, ih, filter_cons_of_neg (by simpa using hkey)]
    · rw [dropWhile_cons_of_neg hc]

theorem kept_dropLeft (h : keyChars.any p = false) (s : String) : kept (dropLeft p s) = kept s := by
  rw [kept, dropLeft, String.toList_ofList, filter_dropWhile h, kept]

theorem kept_dropRight (h : keyChars.any p = false) (s : String) : kept (dropRight p s) = kept s := by
  rw [kept, dropRight, String.toList_ofList, filter_reverse, filter_dropWhile h, filter_reverse,
    reverse_reverse, kept]

theorem kept_trim (s : String) : kept (trim s) = kept s := by
  rw [trim, dropBoth, kept_dropRight (by decide), kept_dropLeft (by decide)]

theorem exists_mem_pieces (hc : c ∈ l) (hp : p c = false) : ∃ piece ∈ pieces p l, c ∈ piece := by
  rw [← mem_flatten, flatten_pieces, mem_filter, hp]
  exact ⟨hc, rfl⟩

theorem length_pieces (p : Char → Bool) (l : List Char) : (pieces p l).length = l.countP p + 1 := by
  fun_induction pieces p l <;> grind

theorem exists_signed_piece (h : Signed s) : ∃ piece ∈ splitAt ',' s, Signed piece := by
  obtain ⟨c, hc, hsign⟩ := h
  obtain ⟨piece, hpiece, hmem⟩ := exists_mem_pieces (p := (· == ',')) hc (by obtain rfl | rfl := hsign <;> rfl)
  exact ⟨_, mem_map_of_mem hpiece, c, by rwa [String.toList_ofList], hsign⟩

theorem exists_signed_word (h : Signed s) : ∃ w ∈ words s, Signed w := by
  obtain ⟨c, hc, hsign⟩ := h
  obtain ⟨piece, hpiece, hmem⟩ := exists_mem_pieces hc (show isBlank c = false by obtain rfl | rfl := hsign <;> rfl)
  refine ⟨_, mem_map_of_mem (mem_filter.mpr ⟨hpiece, ?_⟩), c, by rwa [String.toList_ofList], hsign⟩
  simpa using ne_nil_of_mem hmem

theorem length_splitAt (s : String) : (splitAt ',' s).length = s.toList.count ',' + 1 := by
  rw [splitAt, length_map, length_pieces]
  rfl

end Marks

end Text

namespace Import

section Kept

variable {s t x y z : String} {c : Char}

variable {keyword : String} {p : Char → Bool}

/-- No keyword is dropped with a character that is to be kept. -/
theorem not_mem_of_map_toLower {l : List Char} (hk : keyword ∈ keywords)
    (h : l.map Char.toLower = keyword.toList) (hc : c ∈ keyChars) : c ∉ l := by
  have hnone : ∀ keyword ∈ keywords, (keyChars.any fun c => keyword.toList.contains c.toLower) = false := by decide
  intro hmem
  refine any_eq_false.mp (hnone keyword hk) c hc ?_
  rw [← h, contains_iff_mem]
  exact mem_map_of_mem hmem

theorem kept_of_stripKeyword? (hk : keyword ∈ keywords) (h : stripKeyword? keyword s = some t) : kept t = kept s := by
  unfold stripKeyword? at h
  dsimp only at h
  split at h
  · next hcond =>
    obtain rfl := Option.some.inj h
    have hhead := beq_iff_eq.mp (Bool.and_eq_true_iff.mp hcond).1
    have hnil : (s.toList.take keyword.length).filter keyChars.contains = [] :=
      filter_eq_nil_iff.mpr fun c hc hkey => not_mem_of_map_toLower hk hhead (by simpa using hkey) hc
    rw [trimStart, kept_dropLeft (by decide), kept, kept, String.toList_ofList]
    conv_rhs => rw [← take_append_drop keyword.length s.toList, filter_append, hnil, nil_append]
  · cases h

theorem kept_splitKind (s : String) : kept (splitKind s).2 = kept s := by
  unfold splitKind
  split
  · next h => exact kept_of_stripKeyword? (by decide) h
  · split
    · next h => exact kept_of_stripKeyword? (by decide) h
    · rfl

/-- The kind of a declaration and what it imports, from the text without semicolons and blanks at its end. -/
def reading (s : String) : ImportKind × String :=
  splitKind ((stripKeyword? "use" s).getD s)

theorem splitKind_body_eq (s : String) : splitKind (body s) = reading (trim (dropRight (· == ';') (trim s))) := by
  rw [reading, body]

theorem kept_reading (s : String) : kept (reading s).2 = kept s := by
  rw [reading, kept_splitKind]
  cases h : stripKeyword? "use" s with
  | none => rfl
  | some t => exact kept_of_stripKeyword? (by decide) h

/-- What imports a name with a comment in its clause has the comment in what it imports. -/
theorem signed_of_splitAlias? {name short : String} (hs : Signed s) (h : splitAlias? s = some (name, short)) :
    Signed name ∨ Signed short := by
  obtain ⟨w, hw, hsigned⟩ := exists_signed_word hs
  have hkept (w : String) : kept (unrooted w) = kept w := kept_dropLeft (by decide) w
  unfold splitAlias? at h
  split at h
  · next hwords =>
    obtain ⟨rfl, rfl⟩ := Prod.mk.inj (Option.some.inj h)
    rw [hwords, mem_singleton] at hw
    exact .inl ((signed_iff_of_kept (hkept _)).mpr (hw ▸ hsigned))
  · next first keyword last hwords =>
    split at h
    · next has =>
      obtain ⟨rfl, rfl⟩ := Prod.mk.inj (Option.some.inj h)
      rw [hwords] at hw
      simp only [mem_cons, not_mem_nil, or_false] at hw
      obtain rfl | rfl | rfl := hw
      · exact .inl ((signed_iff_of_kept (hkept _)).mpr hsigned)
      · obtain ⟨c, hc, hsign⟩ := hsigned
        have hchars : w.toList.map Char.toLower = "as".toList := by
          rw [← beq_iff_eq.mp has, lower, String.toList_ofList]
        exact absurd hc (not_mem_of_map_toLower (by decide) hchars (by obtain rfl | rfl := hsign <;> decide))
      · exact .inr hsigned
    · cases h
  · cases h

/-! ## Groups -/

/-- A text with a group in braces. -/
def grouped (x z y : String) : String :=
  x ++ "\x7b" ++ z ++ "\x7d" ++ y

theorem toList_grouped (x z y : String) :
    (grouped x z y).toList = x.toList ++ '{' :: (z.toList ++ '}' :: y.toList) := by
  simp only [grouped, String.toList_append, append_assoc]
  rfl

theorem dropLeft_grouped (hp : p '{' = false) (x z y : String) :
    dropLeft p (grouped x z y) = grouped (dropLeft p x) z y := by
  rw [← String.toList_inj, toList_grouped, dropLeft, dropLeft, String.toList_ofList, String.toList_ofList, toList_grouped,
    dropWhile_append_cons hp]

theorem dropRight_grouped (hp : p '}' = false) (x z y : String) :
    dropRight p (grouped x z y) = grouped x z (dropRight p y) := by
  have hend := rdropWhile_append_cons hp (x.toList ++ '{' :: z.toList) y.toList
  simp only [append_assoc, cons_append] at hend
  rw [← String.toList_inj, toList_grouped, dropRight, dropRight, String.toList_ofList, String.toList_ofList, toList_grouped]
  exact hend

/-- A keyword is found in front of a group exactly if it is found in the text before the braces. -/
theorem stripKeyword?_grouped (hk : keyword ∈ keywords) (x z y : String) :
    stripKeyword? keyword (grouped x z y) = (stripKeyword? keyword x).map (grouped · z y) := by
  unfold stripKeyword?
  dsimp only
  rw [toList_grouped, take_append, drop_append]
  by_cases hlt : keyword.length < x.toList.length
  · obtain ⟨b, more, hmore⟩ := exists_cons_of_length_pos (l := x.toList.drop keyword.length) (by simp; omega)
    have htext : String.ofList (b :: more ++ '{' :: (z.toList ++ '}' :: y.toList)) =
        grouped (String.ofList (b :: more)) z y := by
      rw [← String.toList_inj, toList_grouped, String.toList_ofList, String.toList_ofList]
    rw [Nat.sub_eq_zero_of_le (Nat.le_of_lt hlt), take_zero, append_nil, drop_zero, hmore, htext,
      trimStart, dropLeft_grouped (by decide), cons_append, head?_cons, head?_cons]
    split <;> rfl
  · -- The keyword would reach to the brace, which is neither a part of it nor a blank.
    have hnil : x.toList.drop keyword.length = [] := drop_eq_nil_of_le (by omega)
    rw [hnil, if_neg, if_neg (by simp), Option.map_none]
    rw [Bool.and_eq_true, beq_iff_eq]
    rintro ⟨hhead, hblank⟩
    cases hn : keyword.length - x.toList.length with
    | zero => simp [hn] at hblank; cases hblank
    | succ n =>
      rw [hn] at hhead
      exact not_mem_of_map_toLower hk hhead (c := '{') (by decide) (by simp)

theorem reading_grouped (x z y : String) : reading (grouped x z y) = ((reading x).1, grouped (reading x).2 z y) := by
  have hkind (x : String) : splitKind (grouped x z y) = ((splitKind x).1, grouped (splitKind x).2 z y) := by
    unfold splitKind
    rw [stripKeyword?_grouped (by decide), stripKeyword?_grouped (by decide)]
    cases stripKeyword? "function" x with
    | some => rfl
    | none => cases stripKeyword? "const" x <;> rfl
  rw [reading, stripKeyword?_grouped (by decide), reading]
  cases stripKeyword? "use" x <;> exact hkind _

/-- A group is read from what stands before its braces and from what stands in them. -/
theorem ofText?_grouped (hx : '{' ∉ x.toList) (z : String) (hy : '}' ∉ y.toList) :
    ofText? (grouped x z y) = some (ofGroup (reading (trimStart x)).1 (stemOf (reading (trimStart x)).2) z) := by
  have htwice : dropLeft isBlank (dropLeft isBlank x) = trimStart x := by
    simp [dropLeft, trimStart, dropWhile_idempotent]
  have htrim (x y : String) : trim (grouped x z y) = grouped (trimStart x) z (dropRight isBlank y) := by
    rw [trim, dropBoth, dropLeft_grouped (by decide), dropRight_grouped (by decide), trimStart]
  have hinner : trim (dropRight (· == ';') (trim (grouped x z y))) =
      grouped (trimStart x) z (dropRight isBlank (dropRight (· == ';') (dropRight isBlank y))) := by
    rw [htrim, dropRight_grouped (by decide), htrim, trimStart, trimStart, htwice, trimStart]
  have hsplit := reading_grouped (trimStart x) z (dropRight isBlank (dropRight (· == ';') (dropRight isBlank y)))
  have hbefore : kept (reading (trimStart x)).2 = kept x := (kept_reading _).trans (kept_dropLeft (by decide) x)
  have hafter : kept (dropRight isBlank (dropRight (· == ';') (dropRight isBlank y))) = kept y := by
    rw [kept_dropRight (by decide), kept_dropRight (by decide), kept_dropRight (by decide)]
  have hbraces := braces_ofText (fun hmem => hx ((mem_iff_of_kept hbefore (by decide)).mp hmem)) z
    (fun hmem => hy ((mem_iff_of_kept hafter (by decide)).mp hmem))
  rw [← hinner, ← splitKind_body_eq] at hsplit
  rw [ofText?_eq hsplit, grouped, hbraces]

/-- A text without braces is read as a list. -/
theorem ofText?_list (hs : '{' ∉ s.toList) : ∃ kind rest, kept rest = kept s ∧ ofText? s = some (ofClauses kind rest) := by
  have hkept : kept (splitKind (body s)).2 = kept s := by
    rw [splitKind_body_eq, kept_reading, kept_trim, kept_dropRight (by decide), kept_trim]
  have hnone : '{' ∉ (splitKind (body s)).2.toList := fun hmem => hs ((mem_iff_of_kept hkept (by decide)).mp hmem)
  have hbraces : Braces.ofText (splitKind (body s)).2 = .none := by simp [Braces.ofText, hnone]
  exact ⟨_, _, hkept, by rw [ofText?_eq (Prod.eta _).symm, hbraces]⟩

theorem ofGroup_comma (kind : ImportKind) (stem s t : String) :
    ofGroup kind stem (s ++ "," ++ t) = ofGroup kind stem s ++ ofGroup kind stem t := by
  rw [ofGroup, splitAt_comma, filterMap_append, ofGroup, ofGroup]

/-- If a name is imported with each piece of a text and none of the imports has a sign, the text has none. -/
theorem not_signed_of_filterMap {read : String → Option Import} {imports : List Import}
    (hread : ∀ p i, Signed p → read p = some i → Signed i.name ∨ Signed i.short)
    (himports : ∀ i ∈ imports, ¬Signed i.name ∧ ¬Signed i.short) (h : (splitAt ',' s).filterMap read = imports)
    (hlength : imports.length = s.toList.count ',' + 1) : ¬Signed s := by
  intro hs
  obtain ⟨piece, hpiece, hsigned⟩ := exists_signed_piece hs
  have hall : ∀ p ∈ splitAt ',' s, (read p).isSome = true := by
    rw [← h, ← length_splitAt, length_filterMap_eq_countP] at hlength
    exact countP_eq_length.mp hlength
  obtain ⟨i, hi⟩ := Option.isSome_iff_exists.mp (hall piece hpiece)
  have hmem : i ∈ imports := h ▸ mem_filterMap.mpr ⟨piece, hpiece, hi⟩
  exact (hread piece i hsigned hi).elim (himports i hmem).1 (himports i hmem).2

/-- What a clause of a group imports. -/
def groupClause (kind : ImportKind) (stem p : String) : Option Import :=
  (splitAlias? (splitKind (trim p)).2).map fun (name, short) =>
    ⟨if (splitKind (trim p)).1 = .classLike then kind else (splitKind (trim p)).1, stem ++ "\\" ++ name, short⟩

theorem ofGroup_eq (kind : ImportKind) (stem s : String) :
    ofGroup kind stem s = (splitAt ',' s).filterMap (groupClause kind stem) :=
  filterMap_congr fun p _ => by rw [groupClause]

/-- A clause with a comment imports nothing, or something with the comment. -/
theorem signed_of_groupClause {kind : ImportKind} {stem p : String} {i : Import} (hp : Signed p)
    (h : groupClause kind stem p = some i) : Signed i.name ∨ Signed i.short := by
  have hkept : kept (splitKind (trim p)).2 = kept p := by rw [kept_splitKind, kept_trim]
  obtain ⟨⟨name, short⟩, halias, rfl⟩ := Option.map_eq_some_iff.mp h
  refine (signed_of_splitAlias? ((signed_iff_of_kept hkept).mpr hp) halias).imp_left fun hname => ?_
  exact signed_append.mpr (.inr hname)

theorem signed_of_listClause {kind : ImportKind} {p : String} {i : Import} (hp : Signed p)
    (h : ((splitAlias? (trim p)).map fun (name, short) => (⟨kind, unrooted name, short⟩ : Import)) = some i) :
    Signed i.name ∨ Signed i.short := by
  obtain ⟨⟨name, short⟩, halias, rfl⟩ := Option.map_eq_some_iff.mp h
  refine (signed_of_splitAlias? ((signed_iff_of_kept (kept_trim p)).mpr hp) halias).imp_left fun hname => ?_
  exact (signed_iff_of_kept (kept_dropLeft (by decide) name)).mpr hname

end Kept

/-! ## Comments -/

/-- The texts of comments, up to the end of the comment or of the line. -/
inductive IsComment : String → Prop
  | block {s : String} (h : contains "*/" s = false) : IsComment ("/*" ++ s ++ "*/")
  | line {start s : String} (hstart : start = "//" ∨ start = "#") (h : '\n' ∉ s.toList) : IsComment (start ++ s ++ "\n")

/-- A text with comments in it, none of which has the characters `shy`. -/
inductive Commented (shy : List Char) : String → String → Prop
  | refl (s : String) : Commented shy s s
  | insert {s a b c : String} (h : Commented shy s (a ++ b)) (hc : IsComment c) (hshy : ∀ d ∈ shy, d ∉ c.toList) :
    Commented shy s (a ++ c ++ b)

section Comments

variable {shy : List Char} {s t c : String} {d : Char}

theorem IsComment.signed (h : IsComment c) : Signed c := by
  cases h with
  | block => exact ⟨'/', by simp, .inl rfl⟩
  | line hstart =>
    obtain rfl | rfl := hstart
    · exact ⟨'/', by simp, .inl rfl⟩
    · exact ⟨'#', by simp, .inr rfl⟩

theorem Commented.eq_of_not_signed (h : Commented shy s t) (ht : ¬Signed t) : t = s := by
  cases h with
  | refl => rfl
  | insert _ hc =>
    obtain ⟨d, hd, hsign⟩ := hc.signed
    exact absurd ⟨d, by simp [hd], hsign⟩ ht

theorem Commented.count (h : Commented shy s t) (hd : d ∈ shy) : t.toList.count d = s.toList.count d := by
  induction h with
  | refl => rfl
  | insert _ _ hshy ih =>
    rw [← ih]
    simp [count_eq_zero.mpr (hshy d hd)]

theorem Commented.not_mem (h : Commented shy s t) (hd : d ∈ shy) (hs : d ∉ s.toList) : d ∉ t.toList := by
  rw [← count_eq_zero, h.count hd, count_eq_zero]
  exact hs

end Comments

/-! ## Declarations with comments -/

/-- Every clause imports a name, and the names have no signs of comments. -/
structure Reads (clauses : String) (imports : List Import) : Prop where
  length_eq : imports.length = clauses.toList.count ',' + 1
  unsigned : ∀ i ∈ imports, ¬Signed i.name ∧ ¬Signed i.short

/-- What may follow the clauses of a group: nothing, or a last comma. -/
def Idle (s : String) : Prop :=
  s = "" ∨ ∃ w, Blank w ∧ s = "," ++ w

section Declarations

variable {b b' c c' idle : String} {imports : List Import} {kind kind' : ImportKind} {stem stem' : String}

theorem ofGroup_idle (h : Idle idle) : ofGroup kind stem (c ++ idle) = ofGroup kind stem c := by
  obtain rfl | ⟨w, hw, rfl⟩ := h
  · rw [String.append_empty]
  · have hnone : ofGroup kind stem w = [] := by
      rw [ofGroup, splitAt_of_not_mem (hw.unmarked.not_mem rfl), filterMap_cons_none, filterMap_nil]
      rw [trim_blank hw]
      rfl
    rw [← String.append_assoc, ofGroup_comma, hnone, append_nil]

/-- No comment may stand in a list. -/
theorem ofText?_list_iff (h : Reads c imports) (hread : ofText? c = some imports) (hbrace : '{' ∉ c.toList)
    (hc : Commented [',', '{', '}'] c c') : ofText? c' = some imports ↔ c' = c := by
  refine ⟨fun heq => hc.eq_of_not_signed fun hsigned => ?_, fun heq => heq ▸ hread⟩
  obtain ⟨kind, rest, hkept, hlist⟩ := ofText?_list (hc.not_mem (by decide) hbrace)
  refine not_signed_of_filterMap (fun p i => signed_of_listClause) h.unsigned (Option.some.inj (hlist.symm.trans heq)) ?_
    ((signed_iff_of_kept hkept).mpr hsigned)
  rw [h.length_eq, count_of_kept hkept (by decide), hc.count (by decide)]

/-- No comment may stand in the clauses of a group, and the name before them stays without one. -/
theorem not_signed_of_ofGroup (h : Reads c imports) (hc : Commented [',', '{', '}'] c c')
    (heq : ofGroup kind stem c' = imports) : c' = c ∧ ¬Signed stem := by
  rw [ofGroup_eq] at heq
  refine ⟨hc.eq_of_not_signed (not_signed_of_filterMap (fun p i => signed_of_groupClause) h.unsigned heq ?_), fun hs => ?_⟩
  · rw [h.length_eq, hc.count (by decide)]
  · obtain ⟨i, hi⟩ := exists_mem_of_length_pos (show 0 < imports.length by rw [h.length_eq]; exact Nat.succ_pos _)
    have hname := (h.unsigned i hi).1
    rw [← heq, mem_filterMap] at hi
    obtain ⟨p, -, hp⟩ := hi
    obtain ⟨⟨name, short⟩, -, rfl⟩ := Option.map_eq_some_iff.mp hp
    exact hname (signed_append.mpr (.inl (signed_append.mpr (.inl hs))))

/-- **Comments and imports.** A list of imports with comments in it, which have no marks, never imports the same. In a
group, where no comment stands behind a last comma, the imports are the same exactly if no comment stands in front of the
braces or in a clause. The nodes of a declaration are its imports. -/
theorem comments_spare_imports_iff (h : Reads c imports) (hc : Commented [',', '{', '}'] c c') :
    ('{' ∉ c.toList → ofText? c = some imports → (ofText? c' = some imports ↔ c' = c)) ∧
    (∀ b b' idle a a', Idle idle → '{' ∉ b.toList → '}' ∉ a.toList → Commented [',', '{', '}'] b b' →
      Commented ['}'] a a' → ofText? (grouped b (c ++ idle) a) = some imports →
      (ofText? (grouped b' (c' ++ idle) a') = some imports ↔ b' = b ∧ c' = c)) ∧
    ∀ (src : Source) (t : Tree) (f : Forest), ((Lowering.importNodes src t).run f).1.map
      ((Lowering.importNodes src t).run f).2.kind =
        ((ofText? (src.words t)).getD []).map fun i => .importDecl i.kind i.name i.short := by
  refine ⟨fun hbrace hread => ofText?_list_iff h hread hbrace hc, ?_, fun src t f => Lowering.importNodes_kinds t (.refl _)⟩
  intro b b' idle a a' hidle hopen hclose hb ha hread
  rw [ofText?_grouped hopen _ hclose, ofGroup_idle hidle, Option.some.injEq] at hread
  rw [ofText?_grouped (hb.not_mem (by decide) hopen) _ (ha.not_mem (by decide) hclose), ofGroup_idle hidle,
    Option.some.injEq]
  constructor
  · intro heq
    obtain ⟨hclauses, hstem⟩ := not_signed_of_ofGroup h hc heq
    refine ⟨hb.eq_of_not_signed fun hsigned => hstem ((signed_iff_of_kept ?_).mpr hsigned), hclauses⟩
    rw [stemOf, unrooted, kept_dropLeft (by decide), kept_dropRight (by decide), kept_trim, kept_reading, trimStart,
      kept_dropLeft (by decide)]
  · rintro ⟨rfl, rfl⟩
    exact hread

end Declarations

theorem comments_spare_imports_iff_block :
    ofText? "use App\\\x7bA, B\x7d/* a; b */;" = some [⟨.classLike, "App\\A", "A"⟩, ⟨.classLike, "App\\B", "B"⟩] ∧
    ofText? "use App\\A/* c */;" ≠ some [⟨.classLike, "App\\A", "A"⟩] := by
  have hgroup : Reads "A, B" [⟨.classLike, "App\\A", "A"⟩, ⟨.classLike, "App\\B", "B"⟩] := ⟨by decide, by decide +kernel⟩
  have hlist : Reads "use App\\A;" [⟨.classLike, "App\\A", "A"⟩] := ⟨by decide, by decide +kernel⟩
  have hafter : Commented ['}'] ";" ("" ++ "/* a; b */" ++ ";") := .insert (.refl _) (.block (s := " a; b ") rfl) (by simp)
  have hinside : Commented [',', '{', '}'] "use App\\A;" ("use App\\A" ++ "/* c */" ++ ";") :=
    .insert (.refl _) (.block (s := " c ") rfl) (by simp)
  constructor
  · exact ((comments_spare_imports_iff hgroup (.refl _)).2.1 "use App\\" _ "" _ _ (.inl rfl) (by decide) (by decide) (.refl _)
      hafter (by decide +kernel)).mpr ⟨rfl, rfl⟩
  · intro h
    have hsame := ((comments_spare_imports_iff hlist hinside).1 (by decide) (by decide +kernel)).mp h
    exact absurd hsame (by decide)

/-- Comments are taken for text: a list with one imports nothing or a wrong name, or its braces do not match. Behind the
last comma of a group a comment may be a clause. -/
theorem comments_taken_for_text :
    ofText? "use App\\A /* c */;" = some [] ∧ ofText? "use/**/App\\A;" = some [⟨.classLike, "use/**/App\\A", "A"⟩] ∧
    ofText? "use App\\A /* \x7d\x7b */;" = none ∧
    ofText? "use App\\\x7bA, // the last\n\x7d;" = some [⟨.classLike, "App\\A", "A"⟩] ∧
    ofText? "use App\\\x7bA, /**/\x7d;" = some [⟨.classLike, "App\\A", "A"⟩, ⟨.classLike, "App\\/**/", "/**/"⟩] := by
  decide +kernel

end Import

end EventAtlas
