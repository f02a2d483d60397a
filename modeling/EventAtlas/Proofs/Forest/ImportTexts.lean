import EventAtlas.Proofs.Link.Imported

/-!
# Groups and lists of imports

Names with a common beginning are imported one by one, in a list, or as a group in braces behind what they share. A
list gives what its clauses give one by one, whatever blanks stand around its words and marks, and a comma may follow
the last clause (`Import.ofText?_of_isList`). A group gives the same, unless there are blanks in front of the separator
before the braces: they become a part of every name (`Import.ofText?_of_isGroup`). All this is about names without
blanks, though a name may have characters that are blanks outside of ASCII.
-/

namespace EventAtlas

open List Text

namespace Import

/-! ## Names and clauses -/

/-- The words of import declarations. -/
def keywords : List String :=
  ["use", "function", "const", "as"]

/-- A word that can be imported: it neither starts with a separator nor is a keyword. -/
structure IsName (s : String) : Prop where
  isWord : IsWord s
  unrooted : unrooted s = s
  notKeyword : lower s ∉ keywords

/-- A name to be imported: its last segment, and what stands before it. -/
structure Name where
  path : String
  last : String
  opens : path = "" ∨ ∃ init, path = init ++ "\\"
  segment : Segment last
  named : IsName (path ++ last)

/-- A name to be imported, with its alias if it has one. -/
structure Clause where
  name : Name
  short : Option String
  isWord : ∀ a ∈ short, IsWord a

namespace Name

/-- The name as it is written. -/
def text (n : Name) : String :=
  n.path ++ n.last

theorem isName (n : Name) : IsName n.text :=
  n.named

theorem tight (n : Name) : Tight n.text :=
  n.isName.isWord.tight

theorem isWord_separator : IsWord "\\" :=
  ⟨by decide, rfl⟩

theorem notKeyword_of_mem {s : String} (h : '\\' ∈ s.toList) : lower s ∉ keywords := by
  have hletters : ∀ keyword ∈ keywords, '\\' ∉ keyword.toList := by decide
  exact fun hmem => hletters _ hmem (mem_lower_of_mem (c := '\\') h)

/-- The name below another one. -/
def below (stem n : Name) : Name where
  path := stem.text ++ "\\" ++ n.path
  last := n.last
  opens := by
    obtain hempty | ⟨init, hinit⟩ := n.opens
    · exact .inr ⟨stem.text, by rw [hempty, String.append_empty]⟩
    · exact .inr ⟨stem.text ++ "\\" ++ init, by rw [hinit]; exact String.append_assoc.symm⟩
  segment := n.segment
  named := by
    have hword := (stem.isName.isWord.append isWord_separator).append n.isName.isWord
    rw [String.append_assoc]
    refine ⟨hword, ?_, notKeyword_of_mem ?_⟩
    · rw [String.append_assoc]
      exact unrooted_append stem.isName.unrooted stem.isName.isWord.ne_empty _
    · simp

theorem text_below (stem n : Name) : (below stem n).text = stem.text ++ "\\" ++ n.text :=
  String.append_assoc

theorem afterLast_text (n : Name) : afterLast '\\' n.text = n.last := by
  have hlast : ∀ c ∈ n.last.toList.reverse, (c != '\\') = true := by
    intro c hc
    rw [bne, ← isSeparator, n.segment.unseparated c (mem_reverse.mp hc)]
    rfl
  rw [afterLast, text, String.toList_append, reverse_append, takeWhile_append_of_pos hlast]
  obtain hempty | ⟨init, hinit⟩ := n.opens
  · rw [hempty]
    simp
  · rw [hinit, String.toList_append]
    simp

end Name

namespace Clause

/-- The clause with its name below another one. -/
def below (stem : Name) (c : Clause) : Clause :=
  { c with name := stem.below c.name }

/-- The alias, or else the last segment of the name. -/
def shortText (c : Clause) : String :=
  c.short.getD c.name.last

/-- What the clause imports. -/
def imported (kind : ImportKind) (c : Clause) : Import :=
  ⟨kind, c.name.text, c.shortText⟩

/-- The texts of the clause: its name, or its name, the word `as` in any case and its alias. -/
def Written (c : Clause) (s : String) : Prop :=
  match c.short with
  | none => s = c.name.text
  | some short => ∃ keyword w w', lower keyword = "as" ∧ Gap w ∧ Gap w' ∧
    s = c.name.text ++ w ++ (keyword ++ w' ++ short)

end Clause

/-- The clauses with commas between them, and perhaps one after the last. -/
inductive Lists : List Clause → String → Prop
  | last {c : Clause} {s : String} (h : c.Written s) : Lists [c] s
  | trailing {c : Clause} {s w : String} (h : c.Written s) (hw : Blank w) : Lists [c] (s ++ w ++ ",")
  | more {c : Clause} {clauses : List Clause} {s w w' t : String} (h : c.Written s) (hw : Blank w) (hw' : Blank w')
    (ht : Lists clauses t) : Lists (c :: clauses) (s ++ w ++ "," ++ (w' ++ t))

/-! ## Keywords -/

/-- A text that ends the word before it: a blank or a mark comes first. -/
def Ended (t : String) : Prop :=
  ∀ c, t.toList.head? = some c → isEnd c = true

/-- The text begins with the word `k`. -/
def Leads (k s : String) : Prop :=
  ∃ t, s = k ++ t ∧ Ended t

section Keywords

variable {k keyword s t w : String} {c : Char}

theorem isEnd_toLower (c : Char) : isEnd c.toLower = isEnd c := by
  have hmark : isMark c.toLower = isMark c := by
    rw [Bool.eq_iff_iff]
    simp only [isMark, marks, contains_cons, contains_nil, Bool.or_eq_true, beq_iff_eq]
    rw [toLower_eq_iff rfl, toLower_eq_iff rfl, toLower_eq_iff rfl, toLower_eq_iff rfl]
  rw [isEnd, isEnd, isBlank_toLower, hmark]

theorem isWord_keyword (h : keyword ∈ keywords) : IsWord keyword := by
  have hchars : ∀ keyword ∈ keywords, keyword ≠ "" ∧ (keyword.toList.all fun c => !isEnd c) = true := by decide
  exact ⟨(hchars keyword h).1, (hchars keyword h).2⟩

theorem isWord_of_lower_eq (h : lower k = keyword) (hkeyword : keyword ∈ keywords) : IsWord k := by
  have hword := isWord_keyword hkeyword
  refine ⟨?_, all_eq_true.mpr fun c hc => ?_⟩
  · rintro rfl
    exact hword.ne_empty h.symm
  · rw [← isEnd_toLower]
    exact all_eq_true.mp hword.solid _ (h ▸ mem_lower_of_mem hc)

theorem Ended.append (hs : Ended s) (ht : Ended t) : Ended (s ++ t) := by
  intro c hc
  rw [String.toList_append, head?_append, Option.or_eq_some_iff] at hc
  exact hc.elim (hs c) fun h => ht c h.2

theorem ended_cons {l : List Char} (hs : s.toList = c :: l) (hc : isEnd c = true) : Ended s := by
  intro d hd
  rw [hs] at hd
  exact Option.some.inj hd ▸ hc

theorem isEnd_of_isBlank (h : isBlank c = true) : isEnd c = true := by
  rw [isEnd, h, Bool.true_or]

theorem ended_of_blank (hw : Blank w) : Ended w :=
  fun _ hc => isEnd_of_isBlank (hw.of_mem (mem_of_mem_head? hc))

theorem ended_comma (t : String) : Ended ("," ++ t) :=
  ended_cons String.toList_append rfl

theorem ended_of_gap (hw : Gap w) (t : String) : Ended (w ++ t) := by
  obtain ⟨b, rest, hchars, hb⟩ := exists_of_gap hw
  refine ended_cons (l := rest ++ t.toList) ?_ (isEnd_of_isBlank hb)
  rw [String.toList_append, hchars]
  rfl

theorem Leads.append (h : Leads k s) (ht : Ended t) : Leads k (s ++ t) := by
  obtain ⟨r, rfl, hr⟩ := h
  exact ⟨r ++ t, String.append_assoc, hr.append ht⟩

/-- A keyword in any case is stripped with the gap after it. -/
theorem stripKeyword?_append (hk : lower k = keyword) (hw : Gap w) (hs : startsSolid s = true) :
    stripKeyword? keyword (k ++ w ++ s) = some s := by
  have hchars : k.toList.map Char.toLower = keyword.toList := by rw [← hk, lower, String.toList_ofList]
  have hlength : keyword.length = k.toList.length := by rw [← String.length_toList, ← hchars, length_map]
  obtain ⟨b, rest, hgap, hb⟩ := exists_of_gap hw
  have htext : (k ++ w ++ s).toList = k.toList ++ (w ++ s).toList := by
    rw [String.append_assoc, String.toList_append]
  have hhead : (w ++ s).toList.head? = some b := by
    rw [String.toList_append, hgap]
    rfl
  unfold stripKeyword?
  rw [htext, hlength, take_left, drop_left]
  dsimp only
  rw [hchars, hhead, String.ofList_toList, trimStart_blank_append hw.1 hs]
  simp [hb]

/-- A keyword is not found where another word stands. -/
theorem stripKeyword?_eq_none (hkeyword : keyword ∈ keywords) (hword : IsWord k) (hk : lower k ≠ keyword)
    (h : Leads k s) : stripKeyword? keyword s = none := by
  have htake {l r : List Char} (hl : ∀ c ∈ l, isEnd c = false) (hr : ∀ c, r.head? = some c → isEnd c = true) :
      (l ++ r).takeWhile (fun c => !isEnd c) = l := by
    rw [takeWhile_append_of_pos fun c hc => by rw [hl c hc]; rfl]
    cases r with
    | nil => rw [takeWhile_nil, append_nil]
    | cons c rest => rw [takeWhile_cons_of_neg (by simp [hr c rfl]), append_nil]
  obtain ⟨t, rfl, ht⟩ := h
  unfold stripKeyword?
  refine if_neg fun hcond => hk ?_
  rw [Bool.and_eq_true, beq_iff_eq] at hcond
  obtain ⟨hhead, hblank⟩ := hcond
  have hinside : ∀ c ∈ (k ++ t).toList.take keyword.length, isEnd c = false := by
    intro c hc
    rw [← isEnd_toLower]
    exact (isWord_keyword hkeyword).isEnd _ (hhead ▸ mem_map_of_mem hc)
  have hafter : ∀ c, ((k ++ t).toList.drop keyword.length).head? = some c → isEnd c = true := by
    intro c hc
    rw [hc] at hblank
    exact isEnd_of_isBlank hblank
  -- both words end at the first character that ends one
  have hfound := htake hinside hafter
  rw [take_append_drop, String.toList_append, htake hword.isEnd ht, ← String.toList_append] at hfound
  rw [lower, hfound, hhead, String.ofList_toList]

theorem splitKind_of_leads (hword : IsWord k) (hk : lower k ∉ keywords) (h : Leads k s) :
    splitKind s = (.classLike, s) := by
  have hnone {keyword : String} (hkeyword : keyword ∈ keywords) : stripKeyword? keyword s = none :=
    stripKeyword?_eq_none hkeyword hword (fun heq => hk (heq ▸ hkeyword)) h
  rw [splitKind, hnone (by decide), hnone (by decide)]

end Keywords

/-! ## Reading clauses -/

section Reading

variable {c : Clause} {clauses : List Clause} {s t w w' : String} {kind : ImportKind}

theorem Clause.Written.leads (h : c.Written s) : Leads c.name.text s := by
  unfold Clause.Written at h
  split at h
  · exact ⟨"", by rw [h, String.append_empty], nofun⟩
  · obtain ⟨keyword, w, w', -, hw, -, rfl⟩ := h
    exact ⟨_, String.append_assoc, ended_of_gap hw _⟩

theorem Clause.Written.unmarked (h : c.Written s) : Unmarked s := by
  have hname := c.name.isName.isWord.unmarked
  unfold Clause.Written at h
  split at h
  · exact h ▸ hname
  · next short hshort =>
    obtain ⟨keyword, w, w', hkeyword, hw, hw', rfl⟩ := h
    have hword := isWord_of_lower_eq hkeyword (by decide)
    exact (hname.append hw.1.unmarked).append
      ((hword.unmarked.append hw'.1.unmarked).append (c.isWord short hshort).unmarked)

theorem Clause.Written.tight (h : c.Written s) : Tight s := by
  unfold Clause.Written at h
  split at h
  · exact h ▸ c.name.tight
  · next short hshort =>
    obtain ⟨keyword, w, w', hkeyword, -, -, rfl⟩ := h
    have hword := isWord_of_lower_eq hkeyword (by decide)
    exact c.name.tight.append (hword.tight.append (c.isWord short hshort).tight w') w

/-- The name of a clause and its alias are found whatever blanks stand between them. -/
theorem Clause.Written.splitAlias? (h : c.Written s) : splitAlias? s = some (c.name.text, c.shortText) := by
  have hname := c.name.isName
  unfold Import.splitAlias?
  unfold Clause.Written at h
  split at h
  · next hshort =>
    rw [h, words_of_isWord hname.isWord]
    simp only [hname.unrooted, Name.afterLast_text, Clause.shortText, hshort]
    rfl
  · next short hshort =>
    obtain ⟨keyword, w, w', hkeyword, hw, hw', rfl⟩ := h
    rw [words_append hname.isWord hw, words_append (isWord_of_lower_eq hkeyword (by decide)) hw',
      words_of_isWord (c.isWord short hshort)]
    simp only [hname.unrooted, hkeyword, Clause.shortText, hshort]
    rfl

/-- A list of clauses is read clause by clause. -/
theorem filterMap_splitAt {read : String → Option Import} {found : Clause → Import}
    (hblank : ∀ w, Blank w → read w = none)
    (hread : ∀ c s w w', c.Written s → Blank w → Blank w' → read (w ++ s ++ w') = some (found c))
    (h : Lists clauses s) (hw : Blank w) (hw' : Blank w') :
    (splitAt ',' (w ++ s ++ w')).filterMap read = clauses.map found := by
  have hcomma {c : Clause} {s w w' : String} (h : c.Written s) (hw : Blank w) (hw' : Blank w') :
      ',' ∉ (w ++ s ++ w').toList :=
    ((hw.unmarked.append h.unmarked).append hw'.unmarked).not_mem rfl
  induction h generalizing w with
  | last h =>
    rw [splitAt_of_not_mem (hcomma h hw hw'), filterMap_cons_some (hread _ _ w w' h hw hw')]
    rfl
  | @trailing c s v h hv =>
    have htext : w ++ (s ++ v ++ ",") ++ w' = w ++ s ++ v ++ "," ++ w' := by simp only [String.append_assoc]
    rw [htext, splitAt_comma, splitAt_of_not_mem (hcomma h hw hv), splitAt_of_not_mem (hw'.unmarked.not_mem rfl),
      singleton_append, filterMap_cons_some (hread c s w v h hw hv), filterMap_cons_none (hblank w' hw')]
    rfl
  | @more c clauses s v v' t h hv hv' _ ih =>
    have htext : w ++ (s ++ v ++ "," ++ (v' ++ t)) ++ w' = w ++ s ++ v ++ "," ++ (v' ++ t ++ w') := by
      simp only [String.append_assoc]
    rw [htext, splitAt_comma, splitAt_of_not_mem (hcomma h hw hv), singleton_append,
      filterMap_cons_some (hread c s w v h hw hv), ih hv', map_cons]

theorem ofClauses_lists (h : Lists clauses s) : ofClauses kind s = clauses.map (Clause.imported kind) := by
  have hblank : Blank "" := rfl
  rw [← String.empty_append (s := s), ← String.append_empty (s := "" ++ s)]
  refine filterMap_splitAt (fun w hw => ?_) (fun c s w w' h hw hw' => ?_) h hblank hblank
  · rw [trim_blank hw]
    rfl
  · rw [h.tight.trim hw hw', h.splitAlias?, Option.map_some]
    dsimp only
    rw [c.name.isName.unrooted, Clause.imported]

theorem ofGroup_lists (stem : String) (h : Lists clauses s) (hw : Blank w) (hw' : Blank w') :
    ofGroup kind stem (w ++ s ++ w') = clauses.map fun c => ⟨kind, stem ++ "\\" ++ c.name.text, c.shortText⟩ := by
  refine filterMap_splitAt (fun w hw => ?_) (fun c s w w' h hw hw' => ?_) h hw hw'
  · rw [trim_blank hw]
    rfl
  · rw [h.tight.trim hw hw', splitKind_of_leads c.name.isName.isWord c.name.isName.notKeyword h.leads]
    dsimp only
    rw [h.splitAlias?]
    rfl

theorem Lists.leads (h : Lists clauses s) : ∃ n : Name, Leads n.text s := by
  cases h with
  | last h => exact ⟨_, h.leads⟩
  | trailing h hw => exact ⟨_, (h.leads.append (ended_of_blank hw)).append (ended_comma "")⟩
  | more h hw =>
    rw [String.append_assoc]
    exact ⟨_, (h.leads.append (ended_of_blank hw)).append (ended_comma _)⟩

theorem Lists.tight (h : Lists clauses s) : Tight s := by
  induction h with
  | last h => exact h.tight
  | trailing h _ => exact h.tight.append ⟨rfl, rfl⟩ _
  | @more c clauses s w w' t h _ _ _ ih =>
    have htext : s ++ w ++ "," ++ (w' ++ t) = s ++ (w ++ "," ++ w') ++ t := by simp only [String.append_assoc]
    exact htext ▸ h.tight.append ih _

/-- Of the marks, a list of clauses has commas only. -/
theorem Lists.eq_comma (h : Lists clauses s) {d : Char} (hd : d ∈ s.toList) (hmark : isMark d = true) : d = ',' := by
  have hunmarked {s : String} (hs : Unmarked s) (hd : d ∈ s.toList) : d = ',' := absurd hd (hs.not_mem hmark)
  induction h with
  | last h => exact hunmarked h.unmarked hd
  | trailing h hw =>
    rw [String.toList_append, mem_append] at hd
    exact hd.elim (hunmarked (h.unmarked.append hw.unmarked)) mem_singleton.mp
  | more h hw hw' _ ih =>
    simp only [String.toList_append, mem_append] at hd
    obtain ((hd | hd) | hd) | hd | hd := hd
    · exact hunmarked h.unmarked hd
    · exact hunmarked hw.unmarked hd
    · exact mem_singleton.mp hd
    · exact hunmarked hw'.unmarked hd
    · exact ih hd

end Reading

/-! ## Declarations -/

/-- The keyword with which names of a kind are imported; classes need none. -/
def keywordOf? : ImportKind → Option String
  | .classLike => none
  | .function => some "function"
  | .constant => some "const"

/-- The texts between `use` and what is imported. -/
def Spells (kind : ImportKind) (spelled : String) : Prop :=
  match keywordOf? kind with
  | none => spelled = ""
  | some keyword => ∃ k w, lower k = keyword ∧ Gap w ∧ spelled = k ++ w

/-- The declarations of what is imported: `use` and the keyword of the kind stand before it, and a semicolon behind. -/
def Declares (kind : ImportKind) (inner text : String) : Prop :=
  ∃ use spelled w₀ w₁ w₂ w₃, lower use = "use" ∧ Spells kind spelled ∧ Blank w₀ ∧ Gap w₁ ∧ Blank w₂ ∧ Blank w₃ ∧
    text = w₀ ++ (use ++ w₁ ++ (spelled ++ inner) ++ w₂ ++ ";") ++ w₃

/-- The declarations of the clauses one by one. -/
def IsList (kind : ImportKind) (clauses : List Clause) (text : String) : Prop :=
  ∃ inner, Lists clauses inner ∧ Declares kind inner text

/-- The declarations of the clauses as a group; `gap` stands between the name before the braces and its separator. -/
def IsGroup (kind : ImportKind) (stem : Name) (gap : String) (clauses : List Clause) (text : String) : Prop :=
  ∃ w₀ w₁ w₂ inside, Blank w₀ ∧ Blank w₁ ∧ Blank w₂ ∧ Lists clauses inside ∧
    Declares kind (stem.text ++ gap ++ "\\" ++ w₀ ++ "\x7b" ++ (w₁ ++ inside ++ w₂) ++ "\x7d") text

section Declarations

variable {kind : ImportKind} {k use w₀ w₁ w₂ w₃ inner text gap before inside after : String} {clauses : List Clause}

/-- What stands between `use` and the semicolon is the body. -/
theorem body_eq (huse : lower use = "use") (hw₀ : Blank w₀) (hw₁ : Gap w₁) (hw₂ : Blank w₂) (hw₃ : Blank w₃)
    (hinner : Tight inner) (hend : ';' ∉ inner.toList) :
    body (w₀ ++ (use ++ w₁ ++ inner ++ w₂ ++ ";") ++ w₃) = inner := by
  have hword := isWord_of_lower_eq huse (by decide)
  have hleft : Tight (use ++ w₁ ++ inner) := hword.tight.append hinner w₁
  have hall : Tight (use ++ w₁ ++ inner ++ w₂ ++ ";") := hleft.append ⟨rfl, rfl⟩ w₂
  have hnot : ';' ∉ (use ++ w₁ ++ inner ++ w₂).toList :=
    Text.not_mem_append (Text.not_mem_append ((hword.unmarked.append hw₁.1.unmarked).not_mem rfl) hend) (hw₂.unmarked.not_mem rfl)
  have hdrop : dropRight (· == ';') (use ++ w₁ ++ inner ++ w₂ ++ ";") = use ++ w₁ ++ inner ++ w₂ :=
    dropRight_append (rdropWhile_of_forall (beq_of_not_mem hnot)) (beq_self_eq_true ';') rfl
  have htrim := hleft.trim (w := "") rfl hw₂
  rw [String.empty_append] at htrim
  rw [body, hall.trim hw₀ hw₃, hdrop, htrim, stripKeyword?_append huse hw₁ hinner.starts, Option.getD_some]

theorem splitKind_append {keyword w : String} (h : keywordOf? kind = some keyword) (hk : lower k = keyword)
    (hw : Gap w) (hinner : startsSolid inner = true) : IsWord k ∧ splitKind (k ++ w ++ inner) = (kind, inner) := by
  have hstrip : stripKeyword? keyword (k ++ w ++ inner) = some inner := stripKeyword?_append hk hw hinner
  cases kind with
  | classLike => cases h
  | function =>
    cases h
    exact ⟨isWord_of_lower_eq hk (by decide), by rw [splitKind, hstrip]⟩
  | constant =>
    cases h
    have hword := isWord_of_lower_eq hk (by decide)
    have hnone : stripKeyword? "function" (k ++ w ++ inner) = none :=
      stripKeyword?_eq_none (by decide) hword (by rw [hk]; decide) ⟨_, String.append_assoc, ended_of_gap hw inner⟩
    exact ⟨hword, by rw [splitKind, hnone, hstrip]⟩

/-- A declaration is split into its kind and what is imported. -/
theorem splitKind_body (h : Declares kind inner text) (hinner : Tight inner) (hend : ';' ∉ inner.toList)
    (hword : IsWord k) (hk : lower k ∉ keywords) (hleads : Leads k inner) : splitKind (body text) = (kind, inner) := by
  obtain ⟨use, spelled, w₀, w₁, w₂, w₃, huse, hspelled, hw₀, hw₁, hw₂, hw₃, rfl⟩ := h
  unfold Spells at hspelled
  split at hspelled
  · next hkind =>
    obtain rfl : kind = .classLike := by cases kind <;> first | rfl | cases hkind
    rw [hspelled, String.empty_append, body_eq huse hw₀ hw₁ hw₂ hw₃ hinner hend, splitKind_of_leads hword hk hleads]
  · next hkind =>
    obtain ⟨k, w, hk, hw, rfl⟩ := hspelled
    obtain ⟨hword, hsplit⟩ := splitKind_append hkind hk hw hinner.starts
    have hnot := Text.not_mem_append ((hword.unmarked.append hw.1.unmarked).not_mem rfl) hend
    rw [body_eq huse hw₀ hw₁ hw₂ hw₃ (hword.tight.append hinner w) hnot, hsplit]

theorem ofText?_eq (hsplit : splitKind (body text) = (kind, inner)) : ofText? text =
    match Braces.ofText inner with
    | .none => some (ofClauses kind inner)
    | .group before inside => some (ofGroup kind (stemOf before) inside)
    | .mismatched => none := by
  unfold ofText?
  rewrite [hsplit]
  rfl

/-- A list of clauses is read whatever blanks stand in it. -/
theorem ofText?_of_isList (h : IsList kind clauses text) :
    ofText? text = some (clauses.map (Clause.imported kind)) := by
  obtain ⟨inner, hlists, hdeclares⟩ := h
  obtain ⟨n, hleads⟩ := hlists.leads
  have hnot {d : Char} (hmark : isMark d = true) (hd : d ≠ ',') : d ∉ inner.toList :=
    fun hmem => hd (hlists.eq_comma hmem hmark)
  have hsplit : splitKind (body text) = (kind, inner) :=
    splitKind_body hdeclares hlists.tight (hnot rfl (by decide)) n.isName.isWord n.isName.notKeyword hleads
  have hbraces : Braces.ofText inner = .none := by simp [Braces.ofText, hnot (d := '{') rfl (by decide)]
  rw [ofText?_eq hsplit, hbraces]
  exact congrArg some (ofClauses_lists hlists)

/-- The braces are found if none stands before the first one and none after the last one. -/
theorem braces_ofText (hbefore : '{' ∉ before.toList) (inside : String) (hafter : '}' ∉ after.toList) :
    Braces.ofText (before ++ "\x7b" ++ inside ++ "\x7d" ++ after) = .group before inside := by
  have htext : (before ++ "\x7b" ++ inside ++ "\x7d" ++ after).toList =
      before.toList ++ '{' :: (inside.toList ++ '}' :: after.toList) := by
    simp only [String.toList_append, append_assoc]
    rfl
  have hother {d : Char} {s : String} (h : d ∉ s.toList) : ∀ c ∈ s.toList, (c != d) = true :=
    fun c hc => by rw [bne, beq_of_not_mem h c hc]; rfl
  have hopen (rest : List Char) : (before.toList ++ '{' :: rest).takeWhile (· != '{') = before.toList := by
    rw [takeWhile_append_of_pos (hother hbefore), takeWhile_cons_of_neg (by decide), append_nil]
  have hrest (rest : List Char) : ((before.toList ++ '{' :: rest).dropWhile (· != '{')).drop 1 = rest := by
    rw [dropWhile_append_of_pos (hother hbefore), dropWhile_cons_of_neg (by decide)]
    rfl
  have hclose : (inside.toList ++ '}' :: after.toList).reverse.dropWhile (· != '}') = '}' :: inside.toList.reverse := by
    rw [reverse_append, reverse_cons, append_assoc,
      dropWhile_append_of_pos fun c hc => hother hafter c (mem_reverse.mp hc)]
    rfl
  unfold Braces.ofText
  rw [htext]
  dsimp only
  rw [hopen, hrest, hclose]
  simp

/-- The name before the braces of a group is found with the blanks in front of its separator. -/
theorem stemOf_eq (stem : Name) (hgap : Blank gap) (hw : Blank w₀) :
    stemOf (stem.text ++ gap ++ "\\" ++ w₀) = stem.text ++ gap := by
  have htight : Tight (stem.text ++ gap ++ "\\") := stem.tight.append ⟨rfl, rfl⟩ gap
  have htrim := htight.trim (w := "") rfl hw
  rw [String.empty_append] at htrim
  have hend : (stem.text ++ gap).toList.rdropWhile isSeparator = (stem.text ++ gap).toList := by
    have hnone : ∀ c ∈ (stem.last ++ gap).toList, isSeparator c = false := by
      intro c hc
      obtain hc | hc := mem_append.mp (String.toList_append ▸ hc)
      · exact stem.segment.unseparated c hc
      · refine Bool.eq_false_iff.mpr fun hsep => ?_
        have hblank := hgap.of_mem hc
        rw [beq_iff_eq.mp hsep] at hblank
        cases hblank
    have hne : (stem.last ++ gap).toList ≠ [] :=
      fun h => stem.segment.ne_empty (String.append_eq_empty_iff.mp (String.toList_eq_nil_iff.mp h)).1
    rw [Name.text, String.append_assoc, String.toList_append]
    exact rdropWhile_append_of_self (rdropWhile_of_forall hnone) hne _
  rw [stemOf, htrim, dropRight_append hend (beq_self_eq_true '\\') rfl,
    unrooted_append stem.isName.unrooted stem.isName.isWord.ne_empty]

/-- A word stands before the braces of a group: its name, or its name and the separator. -/
theorem exists_leads_stem (stem : Name) (hgap : Blank gap) (hw : Blank w₀) (rest : String) :
    ∃ k, IsWord k ∧ lower k ∉ keywords ∧ Leads k (stem.text ++ gap ++ "\\" ++ w₀ ++ ("\x7b" ++ rest)) := by
  by_cases hempty : gap = ""
  · have hbrace : Ended ("\x7b" ++ rest) := ended_cons String.toList_append rfl
    refine ⟨stem.text ++ "\\", stem.isName.isWord.append Name.isWord_separator, Name.notKeyword_of_mem (by simp), ?_⟩
    exact ⟨_, by rw [hempty, String.append_empty, String.append_assoc], (ended_of_blank hw).append hbrace⟩
  · refine ⟨stem.text, stem.isName.isWord, stem.isName.notKeyword, ?_⟩
    refine ⟨gap ++ ("\\" ++ w₀ ++ ("\x7b" ++ rest)), ?_, ended_of_gap ⟨hgap, hempty⟩ _⟩
    simp only [String.append_assoc]

/-- A group is read whatever blanks stand in it, and those before its separator become a part of every name. -/
theorem ofText?_of_isGroup {stem : Name} (hgap : Blank gap) (h : IsGroup kind stem gap clauses text) :
    ofText? text = some (clauses.map fun c => ⟨kind, stem.text ++ gap ++ "\\" ++ c.name.text, c.shortText⟩) := by
  obtain ⟨w₀, w₁, w₂, inside, hw₀, hw₁, hw₂, hlists, hdeclares⟩ := h
  have hbefore : Unmarked (stem.text ++ gap ++ "\\" ++ w₀) :=
    ((stem.isName.isWord.unmarked.append hgap.unmarked).append Name.isWord_separator.unmarked).append hw₀.unmarked
  have hsplit : splitKind (body text) =
      (kind, stem.text ++ gap ++ "\\" ++ w₀ ++ "\x7b" ++ (w₁ ++ inside ++ w₂) ++ "\x7d") := by
    obtain ⟨k, hword, hk, hleads⟩ := exists_leads_stem stem hgap hw₀ ((w₁ ++ inside ++ w₂) ++ "\x7d")
    refine splitKind_body hdeclares ?_ ?_ hword hk ?_
    · have htight := stem.tight.append (t := "\x7d") ⟨rfl, rfl⟩ (gap ++ "\\" ++ w₀ ++ "\x7b" ++ (w₁ ++ inside ++ w₂))
      simpa only [String.append_assoc] using htight
    · have hinside : ';' ∉ inside.toList := fun hmem => absurd (hlists.eq_comma hmem rfl) (by decide)
      have hgroup := Text.not_mem_append (Text.not_mem_append (hw₁.unmarked.not_mem rfl) hinside) (hw₂.unmarked.not_mem rfl)
      have hopen : ';' ∉ "\x7b".toList ∧ ';' ∉ "\x7d".toList := by decide
      exact Text.not_mem_append (Text.not_mem_append (Text.not_mem_append (hbefore.not_mem rfl) hopen.1) hgroup) hopen.2
    · simpa only [String.append_assoc] using hleads
  have hbraces := braces_ofText (hbefore.not_mem rfl) (w₁ ++ inside ++ w₂) (show '}' ∉ "".toList from not_mem_nil)
  rw [String.append_empty] at hbraces
  rw [ofText?_eq hsplit, hbraces]
  dsimp only
  rw [stemOf_eq stem hgap hw₀, ofGroup_lists _ hlists hw₁ hw₂]

end Declarations

/-! ## Lists and groups agree -/

theorem mapM_ofText?_singles {kind : ImportKind} {clauses : List Clause} {singles : List String}
    (h : List.Forall₂ (IsList kind [·]) clauses singles) :
    (singles.mapM ofText?).map List.flatten = some (clauses.map (Clause.imported kind)) := by
  induction h with
  | nil => rfl
  | @cons c text clauses singles hc _ ih =>
    obtain ⟨found, hfound, hflat⟩ := Option.map_eq_some_iff.mp ih
    rw [mapM_cons, ofText?_of_isList hc, hfound]
    exact congrArg (fun l => some (c.imported kind :: l)) hflat

theorem Lists.ne_nil {clauses : List Clause} {s : String} (h : Lists clauses s) : clauses ≠ [] := by
  cases h <;> exact cons_ne_nil _ _

/-- Lists and single declarations of the same names give the same imports, whatever blanks stand in them. A group gives
them too exactly if no blank stands in front of the separator before its braces. -/
theorem grouped_imports_agree (kind : ImportKind) (stem : Name) (gap : String) (clauses : List Clause)
    (group list : String) (singles : List String) (hgap : Blank gap)
    (hgroup : IsGroup kind stem gap clauses group) (hlist : IsList kind (clauses.map (Clause.below stem)) list)
    (hsingles : List.Forall₂ (IsList kind [·]) (clauses.map (Clause.below stem)) singles) :
    ofText? list = some (clauses.map fun c => ⟨kind, stem.text ++ "\\" ++ c.name.text, c.shortText⟩) ∧
    (singles.mapM ofText?).map List.flatten = ofText? list ∧
    ofText? group = some (clauses.map fun c => ⟨kind, stem.text ++ gap ++ "\\" ++ c.name.text, c.shortText⟩) ∧
    (ofText? group = ofText? list ↔ gap = "") := by
  have hlisted : ofText? list =
      some (clauses.map fun c => ⟨kind, stem.text ++ "\\" ++ c.name.text, c.shortText⟩) := by
    rw [ofText?_of_isList hlist, List.map_map]
    exact congrArg some (List.map_congr_left fun c _ => congrArg (Import.mk kind · _) (stem.text_below c.name))
  have hgrouped := ofText?_of_isGroup hgap hgroup
  refine ⟨hlisted, ?_, hgrouped, fun h => ?_, fun h => ?_⟩
  · rw [mapM_ofText?_singles hsingles, ofText?_of_isList hlist]
  · rw [hgrouped, hlisted] at h
    obtain ⟨-, -, -, inside, -, -, -, hlists, -⟩ := hgroup
    obtain ⟨c, rest, rfl⟩ := List.exists_cons_of_ne_nil hlists.ne_nil
    have hname := congrArg (String.length ∘ Import.name) (List.cons.inj (Option.some.inj h)).1
    simp only [Function.comp_apply, String.length_append] at hname
    exact String.length_eq_zero_iff.mp (by omega)
  · rw [hgrouped, hlisted, h, String.append_empty]

/-- The name `App`. -/
def appName : Name where
  path := ""
  last := "App"
  opens := .inl rfl
  segment := segment_of_isIdentifier rfl rfl
  named := ⟨⟨by decide, rfl⟩, rfl, by decide⟩

/-- The clause `Sub\stop as halt`. -/
def stopClause : Clause where
  name :=
    { path := "Sub\\", last := "stop", opens := .inr ⟨"Sub", rfl⟩, segment := segment_of_isIdentifier rfl rfl
      named := ⟨⟨by decide, rfl⟩, rfl, by decide⟩ }
  short := some "halt"
  isWord := by
    rintro _ ⟨⟩
    exact ⟨by decide, rfl⟩

theorem grouped_imports_agree_stop :
    ofText? "use const App\\\x7b Sub\\stop  AS halt, \x7d ;" = some [⟨.constant, "App\\Sub\\stop", "halt"⟩] := by
  have hgap : Gap " " := ⟨rfl, by decide⟩
  have hdeclares {inner text : String} (h : text = "" ++ ("use" ++ " " ++ ("const " ++ inner) ++ " " ++ ";") ++ "") :
      Declares .constant inner text :=
    ⟨"use", "const ", "", " ", " ", "", rfl, ⟨"const", " ", rfl, hgap, rfl⟩, rfl, hgap, rfl, rfl, h⟩
  have hgroup : IsGroup .constant appName "" [stopClause] "use const App\\\x7b Sub\\stop  AS halt, \x7d ;" :=
    ⟨"", " ", " ", _, rfl, rfl, rfl, .trailing (w := "") ⟨"AS", "  ", " ", rfl, ⟨rfl, by decide⟩, hgap, rfl⟩ rfl,
      hdeclares (by decide)⟩
  have hlist : IsList .constant [stopClause.below appName] "use const App\\Sub\\stop as halt ;" :=
    ⟨_, .last ⟨"as", " ", " ", rfl, hgap, hgap, rfl⟩, hdeclares (by decide)⟩
  exact (grouped_imports_agree .constant appName "" [stopClause] _ _ _ rfl hgroup hlist (.cons hlist .nil)).2.2.1

/-- A blank before the separator of a group becomes a part of its names, and an identifier with a blank outside of ASCII
is not imported. -/
theorem grouped_imports_differ :
    ofText? "use App \\\x7bA, B as C\x7d;" = some [⟨.classLike, "App \\A", "A"⟩, ⟨.classLike, "App \\B", "C"⟩] ∧
    ofText? "use App\\A, App\\B as C;" = some [⟨.classLike, "App\\A", "A"⟩, ⟨.classLike, "App\\B", "C"⟩] ∧
    isIdentifier "A\u3000B".toList = true ∧ ofText? "use App\\\x7bA\u3000B\x7d;" = some [] := by
  decide +kernel

end Import

end EventAtlas
