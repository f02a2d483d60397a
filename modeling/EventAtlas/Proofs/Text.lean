import EventAtlas.Proofs.Doc.Names
import EventAtlas.Proofs.Typing.Names

/-!
# Blanks, words and pieces of texts

Blanks at the ends of a text are trimmed, and a text is cut into words at blanks and into pieces at a character. What
comes out is told by how the text was put together: a text that is tight has no blanks at its ends, so it is what trimming
leaves of it with blanks around it (`Text.Tight.trim`), and the pieces of two texts with a cut between them are those of
the first and those of the second (`Text.pieces_append_cons`).
-/

namespace EventAtlas

open List

/-! ## Blanks around a text -/

namespace Text

/-- There are only blanks. -/
def Blank (w : String) : Prop :=
  w.toList.all isBlank = true

/-- There is a blank, and nothing else. -/
def Gap (w : String) : Prop :=
  Blank w ∧ w ≠ ""

/-- No blank stands at the ends of a text. -/
structure Tight (s : String) : Prop where
  starts : startsSolid s = true
  ends : s.toList.rdropWhile isBlank = s.toList

section Blank

variable {p : Char → Bool} {w w' s t : String} {l r : List Char}

theorem Blank.of_mem (h : Blank w) {c : Char} (hc : c ∈ w.toList) : isBlank c = true :=
  all_eq_true.mp h c hc

theorem exists_of_gap (hw : Gap w) : ∃ b rest, w.toList = b :: rest ∧ isBlank b = true := by
  obtain ⟨b, rest, hchars⟩ := exists_cons_of_ne_nil fun h => hw.2 (String.toList_eq_nil_iff.mp h)
  exact ⟨b, rest, hchars, hw.1.of_mem (hchars ▸ mem_cons_self)⟩

theorem Unbroken.startsSolid (h : Unbroken s) (hne : s ≠ "") : startsSolid s = true := by
  rw [startsSolid_iff]
  cases hs : s.toList with
  | nil => exact absurd (String.toList_eq_nil_iff.mp hs) hne
  | cons c rest => exact ⟨c, rest, rfl, h c (hs ▸ mem_cons_self)⟩

theorem startsSolid_append (h : startsSolid s = true) (t : String) : startsSolid (s ++ t) = true := by
  obtain ⟨c, rest, hs, hc⟩ := startsSolid_iff.mp h
  exact startsSolid_iff.mpr ⟨c, rest ++ t.toList, by rw [String.toList_append, hs]; rfl, hc⟩

theorem trimStart_blank_append (hw : Blank w) (hs : startsSolid s = true) : trimStart (w ++ s) = s := by
  obtain ⟨c, rest, hchars, hc⟩ := startsSolid_iff.mp hs
  rw [trimStart, dropLeft, String.toList_append, dropWhile_append_of_pos fun _ => hw.of_mem, hchars,
    dropWhile_cons_of_neg (by simp [hc]), ← hchars, String.ofList_toList]

theorem trim_blank (hw : Blank w) : trim w = "" := by
  have hdrop : w.toList.dropWhile isBlank = [] := dropWhile_eq_nil_iff.mpr fun _ => hw.of_mem
  rw [trim, dropBoth, dropLeft, hdrop]
  rfl

theorem rdropWhile_of_forall (h : ∀ c ∈ l, p c = false) : l.rdropWhile p = l :=
  rdropWhile_eq_self_iff.mpr fun hne => by rw [h _ (getLast_mem hne)]; exact Bool.false_ne_true

/-- The end of a text decides what is dropped from its right. -/
theorem rdropWhile_append_of_self (hr : r.rdropWhile p = r) (hne : r ≠ []) (l : List Char) :
    (l ++ r).rdropWhile p = l ++ r := by
  rw [rdropWhile_eq_self_iff] at hr ⊢
  intro _
  rw [getLast_append_of_ne_nil _ hne]
  exact hr hne

/-- A character at the end is dropped if nothing before it is. -/
theorem dropRight_append {d : Char} (hs : s.toList.rdropWhile p = s.toList) (hd : p d = true) (ht : t.toList = [d]) :
    dropRight p (s ++ t) = s := by
  have hlast := rdropWhile_concat_pos p s.toList d hd
  rw [← String.toList_inj, dropRight, String.toList_ofList, String.toList_append, ht]
  exact hlast.trans hs

theorem Tight.ne_empty (h : Tight s) : s ≠ "" := by
  rintro rfl
  cases h.starts

theorem Tight.append (hs : Tight s) (ht : Tight t) (mid : String) : Tight (s ++ mid ++ t) where
  starts := startsSolid_append (startsSolid_append hs.starts mid) t
  ends := by
    rw [String.toList_append]
    exact rdropWhile_append_of_self ht.ends (fun h => ht.ne_empty (String.toList_eq_nil_iff.mp h)) _

/-- The blanks around a text are dropped. -/
theorem Tight.trim (hs : Tight s) (hw : Blank w) (hw' : Blank w') : trim (w ++ s ++ w') = s := by
  obtain ⟨c, rest, hchars, hc⟩ := startsSolid_iff.mp hs.starts
  have hleft : (w ++ s ++ w').toList.dropWhile isBlank = s.toList ++ w'.toList := by
    rw [String.toList_append, String.toList_append, append_assoc, dropWhile_append_of_pos fun _ => hw.of_mem,
      hchars, cons_append, dropWhile_cons_of_neg (by simp [hc])]
  have hright : (s.toList ++ w'.toList).rdropWhile isBlank = s.toList := by
    rw [List.rdropWhile, reverse_append,
      dropWhile_append_of_pos fun c hc => hw'.of_mem (mem_reverse.mp hc)]
    exact hs.ends
  rw [← String.toList_inj, Text.trim, dropBoth, dropLeft, hleft, dropRight, String.toList_ofList, String.toList_ofList]
  exact hright

end Blank

/-! ## Words and marks -/

/-- The marks of import declarations. -/
def marks : List Char :=
  [',', ';', '{', '}']

/-- A mark of import declarations. -/
def isMark (c : Char) : Bool :=
  marks.contains c

/-- A character at which a word ends. -/
def isEnd (c : Char) : Bool :=
  isBlank c || isMark c

/-- A text without marks. -/
def Unmarked (s : String) : Prop :=
  ∀ c ∈ s.toList, isMark c = false

/-- A text that is one word: it is not empty and has neither blanks nor marks. -/
structure IsWord (s : String) : Prop where
  ne_empty : s ≠ ""
  solid : (s.toList.all fun c => !isEnd c) = true

section Words

variable {w s t : String} {c : Char}

theorem Unmarked.append (hs : Unmarked s) (ht : Unmarked t) : Unmarked (s ++ t) := by
  intro c hc
  rw [String.toList_append] at hc
  exact (mem_append.mp hc).elim (hs c) (ht c)

theorem not_mem_append (hs : c ∉ s.toList) (ht : c ∉ t.toList) : c ∉ (s ++ t).toList := by
  rw [String.toList_append, mem_append, not_or]
  exact ⟨hs, ht⟩

theorem Unmarked.not_mem (hs : Unmarked s) (hc : isMark c = true) : c ∉ s.toList := by
  intro hmem
  rw [hs c hmem] at hc
  cases hc

theorem Blank.unmarked (hw : Blank w) : Unmarked w := by
  intro c hc
  by_contra hmark
  have hnot := all_eq_true.mp (show (marks.all fun d => !isBlank d) = true from rfl) c
    (contains_iff_mem.mp (Bool.of_not_eq_false hmark))
  rw [hw.of_mem hc] at hnot
  cases hnot

section

variable (hs : IsWord s)
include hs

theorem IsWord.isEnd : ∀ c ∈ s.toList, isEnd c = false :=
  fun c hc => by simpa using all_eq_true.mp hs.solid c hc

theorem IsWord.unbroken : Unbroken s :=
  fun c hc => (Bool.or_eq_false_iff.mp (hs.isEnd c hc)).1

theorem IsWord.unmarked : Unmarked s :=
  fun c hc => (Bool.or_eq_false_iff.mp (hs.isEnd c hc)).2

theorem IsWord.toList_ne_nil : s.toList ≠ [] :=
  fun h => hs.ne_empty (String.toList_eq_nil_iff.mp h)

theorem IsWord.tight : Tight s where
  starts := hs.unbroken.startsSolid hs.ne_empty
  ends := rdropWhile_of_forall hs.unbroken

theorem IsWord.append (ht : IsWord t) : IsWord (s ++ t) where
  ne_empty h := hs.ne_empty (String.append_eq_empty_iff.mp h).1
  solid := by rw [String.toList_append, all_append, hs.solid, ht.solid, Bool.and_self]

end

theorem pieces_of_forall {p : Char → Bool} {a : List Char} (ha : ∀ c ∈ a, p c = false) : pieces p a = [a] := by
  induction a with
  | nil => rfl
  | cons c a ih =>
    obtain ⟨hc, ha⟩ := forall_mem_cons.mp ha
    rw [pieces, if_neg (by simp [hc]), ih ha]

theorem pieces_ne_nil {p : Char → Bool} (a : List Char) : pieces p a ≠ [] := by
  cases a with
  | nil => exact cons_ne_nil _ _
  | cons c a =>
    unfold pieces
    split
    · exact cons_ne_nil _ _
    · split <;> exact cons_ne_nil _ _

/-- The pieces of two texts with a cut between them. -/
theorem pieces_append_cons {p : Char → Bool} {d : Char} (hd : p d = true) (a b : List Char) :
    pieces p (a ++ d :: b) = pieces p a ++ pieces p b := by
  induction a with
  | nil => exact if_pos hd
  | cons c a ih =>
    rw [cons_append, pieces, pieces, ih]
    split
    · rfl
    · obtain ⟨piece, more, hpieces⟩ := exists_cons_of_ne_nil (pieces_ne_nil (p := p) a)
      rw [hpieces]
      rfl

theorem beq_of_not_mem {l : List Char} (h : c ∉ l) : ∀ d ∈ l, (d == c) = false := by
  intro d hd
  refine beq_eq_false_iff_ne.mpr ?_
  rintro rfl
  exact h hd

theorem splitAt_of_not_mem (h : c ∉ s.toList) : splitAt c s = [s] := by
  rw [splitAt, pieces_of_forall (beq_of_not_mem h), map_singleton, String.ofList_toList]

theorem splitAt_comma (s t : String) : splitAt ',' (s ++ "," ++ t) = splitAt ',' s ++ splitAt ',' t := by
  have hchars : (s ++ "," ++ t).toList = s.toList ++ ',' :: t.toList := by
    rw [String.toList_append, String.toList_append, append_assoc]
    rfl
  have hcut := pieces_append_cons (p := (· == ',')) (beq_self_eq_true ',') s.toList t.toList
  rw [splitAt, hchars, hcut, map_append, splitAt, splitAt]

theorem words_blank_append (hw : Blank w) (s : String) : words (w ++ s) = words s := by
  rw [words, String.toList_append]
  have hblank : ∀ c ∈ w.toList, isBlank c = true := fun _ => hw.of_mem
  generalize w.toList = cs at hblank
  induction cs with
  | nil => rfl
  | cons c cs ih =>
    obtain ⟨hc, hcs⟩ := forall_mem_cons.mp hblank
    rw [cons_append, pieces, if_pos hc, filter_cons_of_neg (by simp), ih hcs]

theorem words_of_isWord (hs : IsWord s) : words s = [s] := by
  rw [words, pieces_of_forall hs.unbroken, filter_cons_of_pos (by simpa using hs.toList_ne_nil), filter_nil,
    map_singleton, String.ofList_toList]

/-- A word and a gap stand in front of further words. -/
theorem words_append (hs : IsWord s) (hw : Gap w) (t : String) : words (s ++ w ++ t) = s :: words t := by
  obtain ⟨b, more, hchars, hb⟩ := exists_of_gap hw
  have hskip := words_blank_append hw.1 t
  rw [words, String.toList_append, hchars, cons_append, pieces, if_pos hb,
    filter_cons_of_neg (by simp)] at hskip
  rw [words, String.toList_append, String.toList_append, append_assoc, hchars, cons_append,
    pieces_append_cons hb, pieces_of_forall hs.unbroken, singleton_append,
    filter_cons_of_pos (by simpa using hs.toList_ne_nil), map_cons, String.ofList_toList, hskip]

end Words

end Text

end EventAtlas
