import EventAtlas.Proofs.Doc.Printing
import EventAtlas.Proofs.Text

/-!
# Tags read from the lines of a comment

The word after the at sign of a line says what is documented, then come a type and perhaps a variable, in either order
for a `@var`. Nothing marks the end of the type: it is read as far as it goes, and a blank ends it, whatever stands before
the variable (`DocTag.stops_variable`). So every type that can be written is read back with the variable beside it
(`DocTag.tag_lines_read`).
-/

namespace EventAtlas

open List Text

namespace DocTag

open DocType

/-! ## Lines and what they are made of -/

/-- The word that stands for a kind after the at sign. -/
def word : DocTagKind → String
  | .var => "var"
  | .param => "param"
  | .returns => "return"

/-- With what the word may begin: nothing, or the name of a tool. -/
def tools : List String :=
  ["", "psalm-", "phpstan-"]

/-- The marks that may stand before the dollar sign of a variable. -/
def variableMarks : List String :=
  ["", "...", "&"]

/-- The name of a variable: letters, digits and underscores. -/
structure IsVariable (x : String) : Prop where
  ne_empty : x ≠ ""
  chars : ∀ c ∈ x.toList, isLetterOrNumber c = true ∨ c = '_'

/-- The tag of a line, read behind its word. -/
def tagAfter? (kind : DocTagKind) (cs : List Char) : Option DocTag :=
  if kind = .var && cs.head? == some '$' then do
    let (name, rest) ← readVariable cs
    let (type, _) ← Reader.union (rest.dropWhile isBlank)
    some ⟨kind, type, some name⟩
  else do
    let (type, rest) ← Reader.union cs
    some ⟨kind, type, (readVariable (Reader.skip rest)).map Prod.fst⟩

variable {tool mark x d : String} {kind : DocTagKind} {t : DocType} {cs rest : List Char}

/-- A word has no blanks and tells its kind, whatever tool it names. -/
theorem word_spec (htool : tool ∈ tools) (kind : DocTagKind) :
    (∀ c ∈ tool.toList ++ (word kind).toList, isBlank c = false) ∧ kindOf? (tool ++ word kind) = some kind := by
  have hall : ∀ tool ∈ tools, (tool.toList ++ (word kind).toList).all (fun c => !isBlank c) = true ∧
      kindOf? (tool ++ word kind) = some kind := by
    cases kind <;> decide
  obtain ⟨hblank, hkind⟩ := hall tool htool
  exact ⟨fun c hc => by simpa using all_eq_true.mp hblank c hc, hkind⟩

/-- The word of a line ends at the first blank. -/
theorem ofLine?_word (htool : tool ∈ tools) (hcs : ∃ c ∈ cs.head?, isBlank c = false) :
    ofLine? (String.ofList (tool.toList ++ (word kind).toList ++ ' ' :: cs)) = tagAfter? kind cs := by
  obtain ⟨hblank, hkind⟩ := word_spec htool kind
  have hsolid : ∀ c ∈ tool.toList ++ (word kind).toList, (!isBlank c) = true := fun c hc => by rw [hblank c hc]; rfl
  have hword : splitFirst? isBlank (String.ofList (tool.toList ++ (word kind).toList ++ ' ' :: cs)) =
      some (tool ++ word kind, String.ofList cs) := by
    unfold splitFirst?
    rw [String.toList_ofList, dropWhile_append_of_pos hsolid, takeWhile_append_of_pos hsolid,
      dropWhile_cons_of_neg (by decide), takeWhile_cons_of_neg (by decide), append_nil]
    dsimp only
    rw [String.ofList_append, String.ofList_toList, String.ofList_toList]
  have htrim : (trimStart (String.ofList cs)).toList = cs := by
    obtain ⟨c, hc, hsolid⟩ := hcs
    obtain ⟨tail, rfl⟩ := head?_eq_some_iff.mp hc
    rw [trimStart, dropLeft, String.toList_ofList, String.toList_ofList,
      dropWhile_cons_of_neg (by simp [hsolid])]
  unfold ofLine?
  rw [hword, Option.getD_some]
  dsimp only
  rw [hkind, Option.bind_eq_bind, Option.bind_some, htrim]
  rfl

/-! ## Variables -/

/-- A variable is read up to what does not go on its name. -/
theorem readVariable_append (hmark : mark ∈ variableMarks) (hx : IsVariable x) (hrest : ∀ c ∈ rest.head?, c = ' ') :
    readVariable (mark.toList ++ '$' :: (x.toList ++ rest)) = some (x, rest) := by
  have hplain : ((stripChars? ['.', '.', '.'] (mark.toList ++ '$' :: (x.toList ++ rest))).or
      (stripChars? ['&'] (mark.toList ++ '$' :: (x.toList ++ rest)))).getD (mark.toList ++ '$' :: (x.toList ++ rest)) =
      '$' :: (x.toList ++ rest) := by
    simp only [variableMarks, mem_cons, not_mem_nil, or_false] at hmark
    rcases hmark with rfl | rfl | rfl <;> simp [stripChars?]
  have hname : ∀ c ∈ x.toList, (isLetterOrNumber c || decide (c = '_')) = true := fun c hc => by simpa using hx.chars c hc
  have hend : rest.takeWhile (fun c => isLetterOrNumber c || decide (c = '_')) = [] ∧
      rest.dropWhile (fun c => isLetterOrNumber c || decide (c = '_')) = rest := by
    cases rest with
    | nil => exact ⟨rfl, rfl⟩
    | cons c rest =>
      obtain rfl := hrest c rfl
      exact ⟨takeWhile_cons_of_neg (by decide), dropWhile_cons_of_neg (by decide)⟩
  obtain ⟨c, tail, hchars⟩ := exists_cons_of_ne_nil fun h => hx.ne_empty (String.toList_eq_nil_iff.mp h)
  unfold readVariable
  dsimp only
  rw [hplain, Reader.char?_cons_self, Option.bind_eq_bind, Option.bind_some, takeWhile_append_of_pos hname,
    dropWhile_append_of_pos hname, hend.1, hend.2, append_nil, hchars]
  dsimp only
  rw [← hchars, String.ofList_toList]

/-! ## Types -/

/-- A blank before a variable ends a type of every level, also if an ampersand follows it. -/
theorem stops_variable (hmark : mark ∈ variableMarks) (rest : List Char) :
    Reader.skip (' ' :: (mark.toList ++ '$' :: rest)) = mark.toList ++ '$' :: rest ∧
      Reader.Stops .union (' ' :: (mark.toList ++ '$' :: rest)) := by
  have hplain : Reader.StopsPlain (' ' :: (mark.toList ++ '$' :: rest)) := by
    intro c hc
    obtain rfl : c = ' ' := by simpa using hc.symm
    decide
  have hskip : Reader.skip (' ' :: (mark.toList ++ '$' :: rest)) = mark.toList ++ '$' :: rest := by
    simp only [variableMarks, mem_cons, not_mem_nil, or_false] at hmark
    rcases hmark with rfl | rfl | rfl <;> simp [Reader.skip, Reader.isSpace]
  refine ⟨hskip, ⟨⟨⟨hplain, by simp⟩, by simp⟩, ?_⟩⟩
  rw [hskip]
  simp only [variableMarks, mem_cons, not_mem_nil, or_false] at hmark
  rcases hmark with rfl | rfl | rfl <;> simp

/-- The type of a line is read up to a rest that does not go on it. -/
theorem tagAfter?_type (ht : t.Printable) (hdollar : kind = .var → t.print.head? ≠ some '$')
    (hrest : Reader.Stops .union rest) :
    tagAfter? kind (t.print ++ rest) = some ⟨kind, t, (readVariable (Reader.skip rest)).map Prod.fst⟩ := by
  have hread : Reader.union (t.print ++ rest) = some (t, rest) := by
    refine (Reader.readable ht).union _ rest ?_ hrest
    simp only [Reader.Level.depth, length_append]
    omega
  have hfirst : ¬ (decide (kind = .var) && (t.print ++ rest).head? == some '$') = true := by
    obtain ⟨c, hc, -⟩ := ht.solid.head
    intro hcond
    rw [Bool.and_eq_true, decide_eq_true_eq, beq_iff_eq, head?_append, hc] at hcond
    exact hdollar hcond.1 (hc.trans hcond.2)
  unfold tagAfter?
  rw [if_neg hfirst, hread]
  rfl

/-- A variable before the type is read first. -/
theorem tagAfter?_variable (ht : t.Printable) (hx : IsVariable x) :
    tagAfter? .var ('$' :: (x.toList ++ ' ' :: t.print)) = some ⟨.var, t, some x⟩ := by
  have hname : readVariable ('$' :: (x.toList ++ ' ' :: t.print)) = some (x, ' ' :: t.print) := by
    have hmark : "" ∈ variableMarks := by decide
    exact readVariable_append hmark hx fun c hc => by simpa using hc.symm
  have hblank : (' ' :: t.print).dropWhile isBlank = t.print := by
    obtain ⟨c, hc, hsolid⟩ := ht.solid.head
    obtain ⟨tail, hprint⟩ := head?_eq_some_iff.mp hc
    rw [dropWhile_cons_of_pos (by decide), hprint, dropWhile_cons_of_neg (by simp [hsolid])]
  unfold tagAfter?
  rw [if_pos (by simp), hname, Option.bind_eq_bind, Option.bind_some]
  dsimp only
  rw [hblank, union_print ht]
  rfl

/-! ## Lines -/

/-- A line with the type before the variable. The description is not looked at. -/
theorem ofLine?_variable_last (ht : t.Printable) (hdollar : kind = .var → t.print.head? ≠ some '$')
    (hmark : mark ∈ variableMarks) (hx : IsVariable x) (hd : ∀ c ∈ d.toList.head?, c = ' ') (htool : tool ∈ tools) :
    ofLine? (tool ++ word kind ++ " " ++ t.text ++ " " ++ mark ++ "$" ++ x ++ d) = some ⟨kind, t, some x⟩ := by
  obtain ⟨hskip, hstops⟩ := stops_variable hmark (x.toList ++ d.toList)
  have hline : tool ++ word kind ++ " " ++ t.text ++ " " ++ mark ++ "$" ++ x ++ d =
      String.ofList (tool.toList ++ (word kind).toList ++
        ' ' :: (t.print ++ ' ' :: (mark.toList ++ '$' :: (x.toList ++ d.toList)))) := by
    rw [← String.toList_inj]
    simp [text]
  have hfirst : ∃ c ∈ (t.print ++ ' ' :: (mark.toList ++ '$' :: (x.toList ++ d.toList))).head?, isBlank c = false := by
    obtain ⟨c, hc, hsolid⟩ := ht.solid.head
    exact ⟨c, by rw [head?_append, Option.mem_def.mp hc]; rfl, hsolid⟩
  rw [hline, ofLine?_word htool hfirst, tagAfter?_type ht hdollar hstops, hskip, readVariable_append hmark hx hd]
  rfl

/-- A line of a tag gives its type and its variable: with the variable after the type, plain or marked, and for a `@var`
also before it. A line without a variable gives the type alone. -/
theorem tag_lines_read (ht : t.Printable) (hdollar : t.print.head? ≠ some '$') (hx : IsVariable x)
    (hd : ∀ c ∈ d.toList.head?, c = ' ') (htool : tool ∈ tools) :
    ofLine? (tool ++ "var " ++ t.text ++ " $" ++ x ++ d) = some ⟨.var, t, some x⟩ ∧
      ofLine? (tool ++ "var $" ++ x ++ " " ++ t.text) = some ⟨.var, t, some x⟩ ∧
      ofLine? (tool ++ "param " ++ t.text ++ " $" ++ x ++ d) = some ⟨.param, t, some x⟩ ∧
      ofLine? (tool ++ "param " ++ t.text ++ " ...$" ++ x ++ d) = some ⟨.param, t, some x⟩ ∧
      ofLine? (tool ++ "param " ++ t.text ++ " &$" ++ x ++ d) = some ⟨.param, t, some x⟩ ∧
      ofLine? (tool ++ "return " ++ t.text) = some ⟨.returns, t, none⟩ := by
  have hlast (kind : DocTagKind) (mark : String) (hmark : mark ∈ variableMarks) :
      ofLine? (tool ++ word kind ++ " " ++ t.text ++ " " ++ mark ++ "$" ++ x ++ d) = some ⟨kind, t, some x⟩ :=
    ofLine?_variable_last ht (fun _ => hdollar) hmark hx hd htool
  have hfirst : ofLine? (String.ofList (tool.toList ++ (word .var).toList ++
      ' ' :: '$' :: (x.toList ++ ' ' :: t.print))) = some ⟨.var, t, some x⟩ := by
    rw [ofLine?_word htool ⟨'$', rfl, by decide⟩, tagAfter?_variable ht hx]
  have halone : ofLine? (String.ofList (tool.toList ++ (word .returns).toList ++ ' ' :: (t.print ++ []))) =
      some ⟨.returns, t, none⟩ := by
    obtain ⟨c, hc, hsolid⟩ := ht.solid.head
    rw [ofLine?_word htool ⟨c, by simpa using hc, hsolid⟩, tagAfter?_type ht (fun _ => hdollar) (Reader.stops_nil .union)]
    rfl
  refine ⟨?_, ?_, ?_, ?_, ?_, ?_⟩
  · convert hlast .var "" (by decide) using 2
    simp [← String.toList_inj, word]
  · convert hfirst using 2
    simp [← String.toList_inj, word, text]
  · convert hlast .param "" (by decide) using 2
    simp [← String.toList_inj, word]
  · convert hlast .param "..." (by decide) using 2
    simp [← String.toList_inj, word]
  · convert hlast .param "&" (by decide) using 2
    simp [← String.toList_inj, word]
  · convert halone using 2
    simp [← String.toList_inj, word, text]

/-- The ampersand before a variable is not taken for one more part of the type. -/
theorem tag_lines_read_reference :
    let t := DocType.union [.generic "list" [.named "A"], .intersection [.named "B", .named "$this"]]
    t.text = "list<A>|B&$this" ∧ t.Printable ∧
      ofLine? ("psalm-" ++ "var $" ++ "x_1" ++ " " ++ t.text) = some ⟨.var, t, some "x_1"⟩ ∧
      ofLine? ("psalm-" ++ "param " ++ t.text ++ " &$" ++ "x_1" ++ " or $y") = some ⟨.param, t, some "x_1"⟩ := by
  intro t
  have ht : t.Printable := by
    refine .union (by decide) (List.forall_mem_cons.mpr ⟨?_, List.forall_mem_singleton.mpr ?_⟩)
    · exact .generic rfl (by decide) (List.forall_mem_singleton.mpr (.named rfl))
    · exact .intersection (by decide) (List.forall_mem_cons.mpr ⟨.named rfl, List.forall_mem_singleton.mpr (.named rfl)⟩)
  have hx : IsVariable "x_1" := ⟨by decide, by simp; decide⟩
  obtain ⟨-, hfirst, -, -, hreference, -⟩ :=
    tag_lines_read ht (by decide +kernel) hx (show ∀ c ∈ " or $y".toList.head?, c = ' ' by simp)
      (show "psalm-" ∈ tools by decide)
  exact ⟨by decide +kernel, ht, hfirst, hreference⟩

end DocTag

end EventAtlas
