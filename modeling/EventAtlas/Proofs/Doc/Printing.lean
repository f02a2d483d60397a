import EventAtlas.Proofs.Doc.Names

/-!
# Types read back from their text

A documented type is written with as few brackets as its grammar allows: a part stands in brackets only where it holds
together less tightly than its place needs. The reader gives back the type that was written, however its parts are nested
(`DocType.parse?_text`).

The proof says for each level of the reader what it does with a text that is followed by something (`Reader.Reads`). The
rest must not go on the type, and which characters would go on it depends on the level (`Reader.Stops`). Brackets in pairs
are the exception to one lemma per level: `T[][]` is read in one go from the innermost element on, so the element is read
together with any number of pairs after it (`Reader.ReadsElement`).
-/

namespace EventAtlas.DocType

open List Text

/-! ## Texts of types -/

/-- How tightly the parts of a written type hold together. -/
def tightness : DocType → Nat
  | union _ => 0
  | intersection _ => 1
  | nullable _ => 2
  | array _ => 3
  | named _ | generic .. => 4

/-- A text, in brackets if it is too loose for its place. -/
def enclose (loose : Bool) (cs : List Char) : List Char :=
  if loose then '(' :: cs ++ [')'] else cs

/-- The characters of a type. -/
def print : DocType → List Char
  | named name => name.toList
  | nullable inner => '?' :: enclose (inner.tightness < 2) inner.print
  | union parts => List.intercalate ['|'] (printAll 1 parts)
  | intersection parts => List.intercalate ['&'] (printAll 2 parts)
  | array element => enclose (element.tightness < 3) element.print ++ ['[', ']']
  | generic base args => base.toList ++ '<' :: List.intercalate [',', ' '] (printAll 0 args) ++ ['>']
where
  /-- The characters of each type, in a place that needs this tightness. -/
  printAll (needed : Nat) : List DocType → List (List Char)
    | [] => []
    | t :: rest => enclose (t.tightness < needed) t.print :: printAll needed rest

/-- The text of a type. -/
def text (t : DocType) : String :=
  String.ofList t.print

/-- The characters of a type in a place that needs this tightness. -/
def printAt (needed : Nat) (t : DocType) : List Char :=
  enclose (t.tightness < needed) t.print

/-- A type that can be written: its names are names, and its lists have the parts that a list needs. -/
inductive Printable : DocType → Prop
  | named {name : String} (h : Reader.name name.toList = some (name, [])) : Printable (.named name)
  | nullable {inner : DocType} (h : Printable inner) : Printable (.nullable inner)
  | union {parts : List DocType} (htwo : 2 ≤ parts.length) (h : ∀ t ∈ parts, Printable t) : Printable (.union parts)
  | intersection {parts : List DocType} (htwo : 2 ≤ parts.length) (h : ∀ t ∈ parts, Printable t) :
    Printable (.intersection parts)
  | array {element : DocType} (h : Printable element) : Printable (.array element)
  | generic {base : String} {args : List DocType} (hbase : Reader.name base.toList = some (base, []))
    (hone : 1 ≤ args.length) (hargs : ∀ t ∈ args, Printable t) : Printable (.generic base args)

variable {t first : DocType} {parts more : List DocType} {needed : Nat}

theorem printAll_eq_map (needed : Nat) (parts : List DocType) : print.printAll needed parts = parts.map (printAt needed) := by
  induction parts with
  | nil => rfl
  | cons t rest ih => simp only [print.printAll, ih, map_cons, printAt]

theorem printAt_of_le (h : needed ≤ t.tightness) : printAt needed t = t.print := by
  simp [printAt, enclose, Nat.not_lt.mpr h]

theorem printAt_of_lt (h : t.tightness < needed) : printAt needed t = '(' :: t.print ++ [')'] := by
  simp [printAt, enclose, h]

/-- A list is written as its first part and then, for each further one, a separator and the part. -/
theorem intercalate_map_cons (separator : List Char) (f : DocType → List Char) (first : DocType) (more : List DocType) :
    List.intercalate separator ((first :: more).map f) = f first ++ more.flatMap fun t => separator ++ f t := by
  induction more generalizing first with
  | nil => simp
  | cons t rest ih =>
    have hrest := ih t
    simp only [map_cons] at hrest ⊢
    rw [intercalate_cons_cons, hrest]
    simp

/-! ## Texts without blanks at their ends -/

/-- A text that neither starts nor ends with a blank, and is not empty. -/
structure Solid (cs : List Char) : Prop where
  head : ∃ c ∈ cs.head?, isBlank c = false
  last : ∃ c ∈ cs.getLast?, isBlank c = false

namespace Solid

variable {cs ds : List Char}

theorem append (hc : Solid cs) (hd : Solid ds) (mid : List Char) : Solid (cs ++ mid ++ ds) := by
  obtain ⟨c, hc, hc'⟩ := hc.head
  obtain ⟨d, hd, hd'⟩ := hd.last
  refine ⟨⟨c, ?_, hc'⟩, ⟨d, ?_, hd'⟩⟩
  · rw [Option.mem_def] at *
    simp [head?_append, hc]
  · rw [Option.mem_def] at *
    simp [getLast?_append, hd]

theorem singleton {c : Char} (h : isBlank c = false) : Solid [c] :=
  ⟨⟨c, rfl, h⟩, ⟨c, rfl, h⟩⟩

theorem flatMap {separator : List Char} {f : DocType → List Char} (hc : Solid cs) (hf : ∀ t ∈ more, Solid (f t)) :
    Solid (cs ++ more.flatMap fun t => separator ++ f t) := by
  induction more generalizing cs with
  | nil => simpa using hc
  | cons t rest ih =>
    obtain ⟨ht, hrest⟩ := forall_mem_cons.mp hf
    have hnext := ih (hc.append ht separator) hrest
    simpa using hnext

theorem enclose (h : Solid cs) (loose : Bool) : Solid (enclose loose cs) := by
  cases loose with
  | false => exact h
  | true => exact append (singleton rfl) (singleton rfl) cs

end Solid

theorem solid_name {name : String} (h : Reader.name name.toList = some (name, [])) : Solid name.toList := by
  have hunbroken : Unbroken name := Reader.unbroken_name _ _ _ h
  have hne : name.toList ≠ [] := by
    intro hnil
    rw [hnil] at h
    cases h
  refine ⟨⟨_, head?_eq_some_head hne, ?_⟩, ⟨_, getLast?_eq_some_getLast hne, ?_⟩⟩
  · exact hunbroken _ (head_mem hne)
  · exact hunbroken _ (getLast_mem hne)

theorem Printable.solid (h : Printable t) : Solid t.print := by
  induction h with
  | named h => exact solid_name h
  | nullable _ ih => exact .append (.singleton rfl) (ih.enclose _) []
  | @union parts htwo _ ih | @intersection parts htwo _ ih =>
    obtain ⟨first, more, rfl⟩ := exists_cons_of_length_pos (Nat.lt_of_lt_of_le Nat.zero_lt_two htwo)
    obtain ⟨hfirst, hmore⟩ := forall_mem_cons.mp ih
    rw [print, printAll_eq_map, intercalate_map_cons]
    exact .flatMap (hfirst.enclose _) fun t ht => (hmore t ht).enclose _
  | array _ ih =>
    rw [print]
    simpa using (ih.enclose _).append (.singleton (show isBlank ']' = false from rfl)) ['[']
  | generic hbase _ _ _ =>
    exact .append (solid_name hbase) (.singleton (show isBlank '>' = false from rfl)) _

theorem trim_of_solid {cs : List Char} (h : Solid cs) : trim (String.ofList cs) = String.ofList cs := by
  have hdrop {ds : List Char} (h : ∃ c ∈ ds.head?, isBlank c = false) : ds.dropWhile isBlank = ds := by
    obtain ⟨c, hc, hblank⟩ := h
    obtain ⟨rest, rfl⟩ := head?_eq_some_iff.mp hc
    simp [hblank]
  have hlast : ∃ c ∈ cs.reverse.head?, isBlank c = false := by
    rw [head?_reverse]
    exact h.last
  simp only [trim, dropBoth, dropRight, dropLeft, String.toList_ofList, hdrop h.head, hdrop hlast,
    reverse_reverse]

namespace Reader

/-! ## What ends a type -/

/-- The rest goes on neither a name nor what may follow a name. -/
def StopsPlain (rest : List Char) : Prop :=
  ∀ c ∈ rest.head?, continuesName c = false ∧ c ≠ '<' ∧ c ≠ '{' ∧ c ≠ '('

/-- Nor does it start with a pair of brackets. -/
def StopsBracketed (rest : List Char) : Prop :=
  StopsPlain rest ∧ rest.head? ≠ some '['

/-- Nor with an ampersand. -/
def StopsIntersection (rest : List Char) : Prop :=
  StopsBracketed rest ∧ rest.head? ≠ some '&'

/-- Nor, after blanks, with a bar. -/
def StopsUnion (rest : List Char) : Prop :=
  StopsIntersection rest ∧ (skip rest).head? ≠ some '|'

/-- The rest does not go on a type of this level. -/
def Stops : Level → List Char → Prop
  | .plain => StopsPlain
  | .bracketed => StopsBracketed
  | .intersection => StopsIntersection
  | .union => StopsUnion

theorem stops_nil (level : Level) : Stops level [] := by
  cases level <;> simp [Stops, StopsPlain, StopsBracketed, StopsIntersection, StopsUnion, skip]

variable {c separator : Char} {base : String} {rest : List Char} {f : DocType → List Char} {first : DocType}
  {more parts : List DocType} {blankBefore : Bool} {join : List DocType → DocType}

theorem stopsPlain_cons (h : continuesName c = false ∧ c ≠ '<' ∧ c ≠ '{' ∧ c ≠ '(') : StopsPlain (c :: rest) := by
  rintro _ ⟨⟩
  exact h

/-- A closing character ends a type of any level. -/
theorem stops_cons (h : c = ')' ∨ c = '>' ∨ c = ',') (level : Level) (rest : List Char) : Stops level (c :: rest) := by
  have hplain : continuesName c = false ∧ c ≠ '<' ∧ c ≠ '{' ∧ c ≠ '(' := by
    rcases h with rfl | rfl | rfl <;> decide
  have hother : isSpace c = false ∧ c ≠ '[' ∧ c ≠ '&' ∧ c ≠ '|' := by
    rcases h with rfl | rfl | rfl <;> decide
  cases level <;> simp [Stops, StopsPlain, StopsBracketed, StopsIntersection, StopsUnion, skip, hplain, hother]

theorem char?_cons_self (c : Char) (rest : List Char) : char? c (c :: rest) = some rest := by
  simp [char?]

theorem char?_eq_none {cs : List Char} (h : cs.head? ≠ some c) : char? c cs = none := by
  cases cs with
  | nil => rfl
  | cons d rest =>
    have hne : d ≠ c := by simpa using h
    simp [char?, hne]

theorem isBlank_of_isSpace (h : isSpace c = true) : isBlank c = true := by
  simp only [isSpace, Bool.or_eq_true, decide_eq_true_eq] at h
  rcases h with ((rfl | rfl) | rfl) | rfl <;> rfl

theorem skip_append_of_solid {cs : List Char} (h : Solid cs) (rest : List Char) : skip (cs ++ rest) = cs ++ rest := by
  obtain ⟨c, hc, hblank⟩ := h.head
  obtain ⟨tail, rfl⟩ := head?_eq_some_iff.mp hc
  have hspace : isSpace c = false := by
    cases hs : isSpace c with
    | false => rfl
    | true => rw [isBlank_of_isSpace hs] at hblank; cases hblank
  simp [skip, hspace]

/-! ## Lists -/

section Lists

variable {α : Type} {step : Reader α} (stop : List Char → Prop) {separator : Char} {body : α → List Char} {as : List α}
  {rest : List Char}

variable (hsep : ∀ tail, stop (separator :: tail)) (hrest : stop rest)
include hsep hrest

theorem stop_flatMap : stop (as.flatMap (fun a => separator :: body a) ++ rest) := by
  cases as with
  | nil => exact hrest
  | cons a more => exact hsep _

variable (hstep : ∀ a ∈ as, ∀ tail, stop tail → step (separator :: body a ++ tail) = some (a, tail))
  (hend : step rest = none)
include hstep hend

theorem many_flatMap {n : Nat} (hn : as.length ≤ n) :
    many step n (as.flatMap (fun a => separator :: body a) ++ rest) = (as, rest) := by
  induction as generalizing n with
  | nil =>
    cases n with
    | zero => rfl
    | succ n => simp [many, hend]
  | cons a more ih =>
    obtain ⟨ha, hmore⟩ := forall_mem_cons.mp hstep
    cases n with
    | zero => simp at hn
    | succ n =>
      have hstop : stop (more.flatMap (fun a => separator :: body a) ++ rest) := stop_flatMap stop hsep hrest
      have hread := ha _ hstop
      have htail := ih hmore (Nat.le_of_succ_le_succ hn)
      rw [flatMap_cons, append_assoc, many, hread]
      simp only [htail]

/-- Parts that each start with the separator are all read, up to a rest with which no part starts. -/
theorem all_flatMap : all step (as.flatMap (fun a => separator :: body a) ++ rest) = (as, rest) := by
  apply many_flatMap stop hsep hrest hstep hend
  clear hstep
  induction as with
  | nil => exact Nat.zero_le _
  | cons a more ih =>
    simp only [flatMap_cons, length_cons, length_append] at ih ⊢
    omega

end Lists

/-! ## Levels -/

/-- The number of levels from this one down to a type in brackets. -/
def Level.depth : Level → Nat
  | .union => 4
  | .intersection => 3
  | .bracketed => 2
  | .plain => 1

/-- Whatever follows the text, if it does not go on it, the reader takes the text and no more. Four levels for each
character and those from this level down are enough. -/
def Reads (level : Level) (t : DocType) (cs : List Char) : Prop :=
  ∀ n rest, 4 * cs.length + level.depth ≤ n → Stops level rest → type n level (cs ++ rest) = some (t, rest)

/-- Pairs of brackets. -/
def pairs (k : Nat) : List Char :=
  (List.replicate k ()).flatMap fun _ => '[' :: [']']

/-- The arrays of arrays, `k` deep, of a type. -/
def arrays : Nat → DocType → DocType
  | 0, t => t
  | k + 1, t => arrays k (.array t)

/-- The text is read together with pairs of brackets after it. -/
def ReadsElement (t : DocType) (cs : List Char) : Prop :=
  ∀ k n rest, 4 * cs.length + 2 ≤ n → Stops .bracketed rest →
    type n .bracketed (cs ++ (pairs k ++ rest)) = some (arrays k t, rest)

variable {t : DocType} {cs : List Char}

theorem foldl_replicate_array (k : Nat) (t : DocType) :
    (List.replicate k ()).foldl (fun t _ => DocType.array t) t = arrays k t := by
  induction k generalizing t with
  | zero => rfl
  | succ k ih => exact ih (.array t)

/-- Pairs of brackets are all read, up to a rest that does not open another. -/
theorem all_pairs (k : Nat) (h : rest.head? ≠ some '[') :
    all (fun cs => (stripChars? ['[', ']'] cs).map fun rest => ((), rest)) (pairs k ++ rest) =
      (List.replicate k (), rest) := by
  refine all_flatMap (fun _ => True) (fun _ => trivial) trivial ?_ ?_
  · intro a _ tail _
    simp [stripChars?]
  · cases rest with
    | nil => rfl
    | cons c rest =>
      have hc : '[' ≠ c := by simpa [eq_comm] using h
      simp [stripChars?, hc]

theorem Reads.element (h : Reads .plain t cs) : ReadsElement t cs := by
  intro k n rest hn hrest
  obtain ⟨n, rfl⟩ : ∃ m, n = m + 1 := ⟨n - 1, by omega⟩
  have hplain : StopsPlain (pairs k ++ rest) :=
    stop_flatMap StopsPlain (fun _ => stopsPlain_cons (by decide)) hrest.1
  have hfirst := h n (pairs k ++ rest) (by simp only [Level.depth]; omega) hplain
  simp only [type, hfirst, Option.bind_eq_bind, Option.bind_some, all_pairs k hrest.2, foldl_replicate_array]

theorem ReadsElement.bracketed (h : ReadsElement t cs) : Reads .bracketed t cs :=
  fun n rest hn hrest => h 0 n rest hn hrest

/-- A pair of brackets after an element is the first of those that the element is read with. -/
theorem ReadsElement.array (h : ReadsElement t cs) : ReadsElement (.array t) (cs ++ ['[', ']']) := by
  intro k n rest hn hrest
  have hread := h (k + 1) n rest (by simp only [length_append] at hn; omega) hrest
  have hpairs : pairs (k + 1) = ['[', ']'] ++ pairs k := by simp [pairs, replicate_succ]
  rw [hpairs, append_assoc] at hread
  rw [append_assoc, hread, arrays]

/-! ## Lists of types -/

/-- One part or several with a separator between them, which are joined into one type. -/
def listed (separator : Char) (blankBefore : Bool) (part : Reader DocType) (join : List DocType → DocType) :
    Reader DocType := fun cs => do
  let (first, rest) ← part cs
  match all (further separator blankBefore part) rest with
  | ([], rest) => some (first, rest)
  | (more, rest) => some (join (first :: more), rest)

/-- A level at which lists of types of the next level are read. -/
structure Lists (level inner : Level) (separator : Char) (blankBefore : Bool) (join : List DocType → DocType) : Prop where
  type_eq : ∀ n, type (n + 1) level = listed separator blankBefore (type n inner) join
  depth_eq : level.depth = inner.depth + 1
  not_space : isSpace separator = false
  stops_separator : ∀ tail, Stops inner (separator :: tail)
  stops_inner : ∀ rest, Stops level rest → Stops inner rest
  further_eq_none : ∀ (part : Reader DocType) (rest : List Char), Stops level rest →
    further separator blankBefore part rest = none

theorem lists_union : Lists .union .intersection '|' true .union := by
  refine ⟨fun n => rfl, rfl, rfl, fun tail => ⟨⟨stopsPlain_cons (by decide), by simp⟩, by simp⟩, fun rest h => h.1,
    fun part rest h => ?_⟩
  simp only [further, if_true, char?_eq_none h.2]
  rfl

theorem lists_intersection : Lists .intersection .bracketed '&' false .intersection := by
  refine ⟨fun n => rfl, rfl, rfl, fun tail => ⟨stopsPlain_cons (by decide), by simp⟩, fun rest h => h.1,
    fun part rest h => ?_⟩
  simp only [further, Bool.false_eq_true, if_false, char?_eq_none h.2]
  rfl

theorem further_cons (hspace : isSpace separator = false) (blankBefore : Bool) (part : Reader DocType)
    (cs : List Char) : further separator blankBefore part (separator :: cs) = part (skip cs) := by
  cases blankBefore <;> simp [further, skip, hspace, char?_cons_self]

theorem length_le_of_mem {separator : List Char}
    (h : t ∈ first :: more) : (f t).length ≤ (f first ++ more.flatMap fun t => separator ++ f t).length := by
  rcases mem_cons.mp h with rfl | h
  · simp
  · have hsub := sublist_flatten_of_mem (mem_map_of_mem (f := fun t => separator ++ f t) h)
    have hle := hsub.length_le
    simp only [length_append, List.flatMap] at hle ⊢
    omega

/-- A list of types is read part by part, and a list of one part is the part. -/
theorem Lists.reads {level inner : Level} (hlists : Lists level inner separator blankBefore join)
    (hparts : ∀ t ∈ first :: more, Reads inner t (f t)) (hsolid : ∀ t ∈ more, Solid (f t)) :
    Reads level (if more = [] then first else join (first :: more)) (f first ++ more.flatMap fun t => [separator] ++ f t) := by
  intro n rest hn hrest
  obtain ⟨n, rfl⟩ : ∃ m, n = m + 1 := ⟨n - 1, by have hdepth := hlists.depth_eq; omega⟩
  have hpart : ∀ t ∈ first :: more, ∀ tail, Stops inner tail → type n inner (f t ++ tail) = some (t, tail) := by
    intro t ht tail htail
    have hle : (f t).length ≤ (f first ++ more.flatMap fun t => [separator] ++ f t).length := length_le_of_mem ht
    have hdepth := hlists.depth_eq
    exact hparts t ht n tail (by omega) htail
  obtain ⟨hfirst, hmore⟩ := forall_mem_cons.mp hpart
  have hstep : ∀ t ∈ more, ∀ tail, Stops inner tail →
      further separator blankBefore (type n inner) (separator :: f t ++ tail) = some (t, tail) := by
    intro t ht tail htail
    rw [cons_append, further_cons hlists.not_space, skip_append_of_solid (hsolid t ht), hmore t ht tail htail]
  have hinner := hlists.stops_inner rest hrest
  have hall := all_flatMap (Stops inner) hlists.stops_separator hinner hstep (hlists.further_eq_none _ rest hrest)
  have hstop : Stops inner (more.flatMap (fun t => separator :: f t) ++ rest) :=
    stop_flatMap (Stops inner) hlists.stops_separator hinner
  simp only [hlists.type_eq, listed, append_assoc, singleton_append, hfirst _ hstop, Option.bind_eq_bind,
    Option.bind_some, hall]
  cases more with
  | nil => rfl
  | cons t ts => rfl

theorem Lists.reads_one {level inner : Level}
    (hlists : Lists level inner separator blankBefore join) (h : Reads inner t cs) : Reads level t cs := by
  have hone : Reads level (if ([] : List DocType) = [] then t else join [t])
      (cs ++ ([] : List DocType).flatMap fun _ => [separator] ++ cs) :=
    hlists.reads (f := fun _ => cs) (by simpa using h) (by simp)
  simpa using hone

/-! ## Names, arguments and brackets -/

/-- A character with which a name starts. -/
def opensName (c : Char) : Bool :=
  c = '$' || startsName c

theorem name_cons (h : '$' ≠ c) (tail : List Char) : name (c :: tail) =
    if startsName c then some (String.ofList (c :: tail.takeWhile continuesName), tail.dropWhile continuesName)
    else none := by
  have hthis : stripChars? "$this".toList (c :: tail) = none := by
    simp [stripChars?, h]
  rw [name.eq_def, hthis]

theorem exists_head_of_name (h : name cs = some (base, rest)) : ∃ c tail, cs = c :: tail ∧ opensName c = true := by
  cases cs with
  | nil => cases h
  | cons c tail =>
    refine ⟨c, tail, rfl, ?_⟩
    by_cases hc : '$' = c
    · simp [opensName, ← hc]
    · rw [name_cons hc] at h
      split at h
      · next hstart => simp [opensName, hstart]
      · cases h

theorem ne_of_opensName {d : Char} (h : opensName c = true) (hd : opensName d = false) : c ≠ d := by
  rintro rfl
  rw [h] at hd
  cases hd

theorem not_isDigit_of_opensName (h : opensName c = true) : c.isDigit = false := by
  have hdigits : ∀ n ∈ List.range' 48 10, opensName (Char.ofNat n) = false := by decide +kernel
  by_contra hdigit
  rw [Bool.not_eq_false, Char.isDigit, Bool.and_eq_true, decide_eq_true_eq, decide_eq_true_eq] at hdigit
  simp only [ge_iff_le, UInt32.le_iff_toNat_le, Char.reduceVal, UInt32.reduceToNat] at hdigit
  have hmem : c.toNat ∈ List.range' 48 10 := by
    rw [mem_range'_1]
    exact ⟨hdigit.1, Nat.lt_succ_of_le hdigit.2⟩
  have hnot := hdigits c.toNat hmem
  rw [Char.ofNat_toNat, h] at hnot
  cases hnot

/-- A name is read up to what does not go on it. -/
theorem name_append (h : name base.toList = some (base, []))
    (hrest : ∀ c ∈ rest.head?, continuesName c = false) : name (base.toList ++ rest) = some (base, rest) := by
  obtain ⟨c, tail, hbase, -⟩ := exists_head_of_name h
  by_cases hc : '$' = c
  · -- The only name with a dollar sign is read as a whole.
    unfold name at h
    split at h
    · obtain ⟨rfl, rfl⟩ := Prod.mk.inj (Option.some.inj h)
      rfl
    · rw [hbase, ← hc] at h
      cases h
  · rw [hbase, name_cons hc] at h
    rw [hbase, cons_append, name_cons hc]
    split at h
    · next hstart =>
      obtain ⟨-, hdrop⟩ := Prod.mk.inj (Option.some.inj h)
      have hall : ∀ d ∈ tail, continuesName d = true := dropWhile_eq_nil_iff.mp hdrop
      have hstop : rest.takeWhile continuesName = [] ∧ rest.dropWhile continuesName = rest := by
        cases rest with
        | nil => exact ⟨rfl, rfl⟩
        | cons d ds => simp [hrest d rfl]
      rw [if_pos hstart, takeWhile_append_of_pos hall, dropWhile_append_of_pos hall, hstop.1, hstop.2,
        append_nil, ← hbase, String.ofList_toList]
    · cases h

/-- What follows a name: its arguments, if it has any, and a shape or a signature. -/
def named (n : Nat) (base : String) (rest : List Char) : Option (DocType × List Char) :=
  match arguments (type n .union) rest with
  | some (args, rest) => do
    let rest ← narrowing? base (type n .bracketed) rest
    some (.generic base args, rest)
  | none => do
    let rest ← narrowing? base (type n .bracketed) rest
    some (.named base, rest)

theorem type_plain_of_name {n : Nat} (h : name cs = some (base, rest)) :
    type (n + 1) .plain cs = named n base rest := by
  obtain ⟨c, tail, rfl, hc⟩ := exists_head_of_name h
  have hne (d : Char) (hd : opensName d = false) : char? d (c :: tail) = none :=
    char?_eq_none (by simpa using ne_of_opensName hc hd)
  simp only [type, hne '?' rfl, hne '(' rfl, quoted, hne '\'' rfl, hne '"' rfl, integer, hne '-' rfl, h,
    Option.bind_eq_bind, Option.bind_none, Option.bind_some, Option.none_or, Option.getD_none, takeWhile_cons,
    not_isDigit_of_opensName hc, Bool.false_eq_true, if_false]
  rfl

theorem narrowing?_of_stops (base : String) (returned : Reader DocType) (h : StopsPlain rest) :
    narrowing? base returned rest = some rest := by
  cases rest with
  | nil => rfl
  | cons c rest =>
    obtain ⟨-, -, hbrace, hbracket⟩ := h c rfl
    unfold narrowing?
    split
    · next heq => exact absurd (List.cons.inj heq).1 hbrace
    · next heq => exact absurd (List.cons.inj heq).1 hbracket
    · rfl

theorem reads_named (h : name base.toList = some (base, [])) : Reads .plain (.named base) base.toList := by
  intro n rest hn hrest
  obtain ⟨n, rfl⟩ : ∃ m, n = m + 1 := ⟨n - 1, by simp only [Level.depth] at hn; omega⟩
  have hread := name_append h fun c hc => (hrest c hc).1
  have hangle : char? '<' rest = none := char?_eq_none fun hc => (hrest '<' hc).2.1 rfl
  rw [type_plain_of_name hread, named, arguments, hangle]
  simp [narrowing?_of_stops base _ hrest]

theorem reads_paren (h : Reads .union t cs) (hsolid : Solid cs) : Reads .plain t ('(' :: cs ++ [')']) := by
  intro n rest hn hrest
  obtain ⟨n, rfl⟩ : ∃ m, n = m + 1 := ⟨n - 1, by simp only [Level.depth] at hn; omega⟩
  have hinner := h n (')' :: rest) (by simp only [Level.depth, length_append, length_cons] at hn ⊢; omega)
    (stops_cons (.inl rfl) .union rest)
  have hskip : skip (')' :: rest) = ')' :: rest := by simp [skip, isSpace]
  have hopen : char? '?' ('(' :: (cs ++ ')' :: rest)) = none := char?_eq_none (by simp)
  rw [cons_append, cons_append, append_assoc, singleton_append]
  simp only [type, hopen, char?_cons_self, skip_append_of_solid hsolid, hinner, hskip, Option.bind_eq_bind,
    Option.bind_none, Option.bind_some, Option.none_or, Option.some_or]

theorem reads_nullable (h : Reads .bracketed t cs) : Reads .bracketed (.nullable t) ('?' :: cs) := by
  intro n rest hn hrest
  obtain ⟨n, rfl⟩ : ∃ m, n = m + 2 := ⟨n - 2, by simp only [Level.depth] at hn; omega⟩
  have hinner := h n rest (by simp only [Level.depth, length_cons] at hn ⊢; omega) hrest
  have hplain : type (n + 1) .plain ('?' :: (cs ++ rest)) = some (.nullable t, rest) := by
    simp only [type, char?_cons_self, hinner, Option.bind_eq_bind, Option.bind_some, Option.some_or]
  -- The pairs of brackets after the inner type are read with it, so none is left to read here.
  have hpairs := all_pairs 0 hrest.2
  rw [cons_append, type]
  simp only [hplain, Option.bind_eq_bind, Option.bind_some]
  rw [show rest = pairs 0 ++ rest from rfl, hpairs]
  rfl

/-- Arguments are read one by one up to the bracket that closes them. -/
theorem arguments_append {part : Reader DocType}
    (hpart : ∀ t ∈ first :: more, ∀ tail, Stops .union tail → part (f t ++ tail) = some (t, tail))
    (hsolid : ∀ t ∈ first :: more, Solid (f t)) (rest : List Char) :
    arguments part ('<' :: (f first ++ (more.flatMap (fun t => ',' :: (' ' :: f t)) ++ '>' :: rest))) =
      some (first :: more, rest) := by
  obtain ⟨hfirst, hmore⟩ := forall_mem_cons.mp hpart
  obtain ⟨hfirstSolid, hmoreSolid⟩ := forall_mem_cons.mp hsolid
  have hstep : ∀ t ∈ more, ∀ tail, Stops .union tail →
      further ',' true part (',' :: (' ' :: f t) ++ tail) = some (t, tail) := by
    intro t ht tail htail
    have hblank : skip (' ' :: f t ++ tail) = skip (f t ++ tail) := by simp [skip, isSpace]
    rw [cons_append, further_cons (by decide), hblank, skip_append_of_solid (hmoreSolid t ht), hmore t ht tail htail]
  have hcomma : ∀ tail, Stops .union (',' :: tail) := stops_cons (.inr (.inr rfl)) .union
  have hclose : Stops .union ('>' :: rest) := stops_cons (.inr (.inl rfl)) .union rest
  have hskip : skip ('>' :: rest) = '>' :: rest := by simp [skip, isSpace]
  have hend : further ',' true part ('>' :: rest) = none := by
    simp only [further, if_true, hskip, char?_eq_none (show ('>' :: rest).head? ≠ some ',' by simp)]
    rfl
  have hall := all_flatMap (Stops .union) hcomma hclose hstep hend
  have hstop : Stops .union (more.flatMap (fun t => ',' :: (' ' :: f t)) ++ '>' :: rest) :=
    stop_flatMap (Stops .union) hcomma hclose
  simp only [arguments, char?_cons_self, skip_append_of_solid hfirstSolid, hfirst _ hstop, hall, hskip,
    Option.bind_eq_bind, Option.bind_some]

theorem reads_generic (hbase : name base.toList = some (base, [])) (hargs : ∀ t ∈ first :: more, Reads .union t (f t))
    (hsolid : ∀ t ∈ first :: more, Solid (f t)) : Reads .plain (.generic base (first :: more))
      (base.toList ++ '<' :: (f first ++ more.flatMap fun t => [',', ' '] ++ f t) ++ ['>']) := by
  intro n rest hn hrest
  obtain ⟨n, rfl⟩ : ∃ m, n = m + 1 := ⟨n - 1, by simp only [Level.depth] at hn; omega⟩
  have hpart : ∀ t ∈ first :: more, ∀ tail, Stops .union tail → type n .union (f t ++ tail) = some (t, tail) := by
    intro t ht tail htail
    have hle : (f t).length ≤ (f first ++ more.flatMap fun t => [',', ' '] ++ f t).length := length_le_of_mem ht
    apply hargs t ht n tail _ htail
    simp only [Level.depth, length_append, length_cons] at hn hle ⊢
    omega
  have hread (tail : List Char) : name (base.toList ++ '<' :: tail) = some (base, '<' :: tail) := by
    apply name_append hbase
    intro c hc
    obtain rfl : c = '<' := by simpa using hc.symm
    decide
  simp only [append_assoc, cons_append, nil_append]
  rw [type_plain_of_name (hread _), named, arguments_append hpart hsolid]
  simp [narrowing?_of_stops base _ hrest]

/-! ## Types -/

/-- A type is read wherever it is written: in brackets where its place needs them. -/
structure Readable (t : DocType) : Prop where
  element : ReadsElement t (printAt 3 t)
  bracketed : Reads .bracketed t (printAt 2 t)
  intersection : Reads .intersection t (printAt 1 t)
  union : Reads .union t t.print

/-- A type that is read as a union is read in brackets wherever it is too loose for its place. -/
theorem reads_printAt {needed : Nat} (h : Reads .union t t.print) (hsolid : Solid t.print) (hloose : t.tightness < needed) :
    Reads .plain t (printAt needed t) := by
  rw [printAt_of_lt hloose]
  exact reads_paren h hsolid

theorem readable_of_bracketed (helement : ReadsElement t (printAt 3 t)) (h : Reads .bracketed t t.print)
    (ht : 2 ≤ t.tightness) : Readable t := by
  have hintersection : Reads .intersection t t.print := lists_intersection.reads_one h
  refine ⟨helement, ?_, ?_, lists_union.reads_one hintersection⟩
  · rwa [printAt_of_le ht]
  · rwa [printAt_of_le (by omega)]

theorem readable_of_plain (h : Reads .plain t t.print) (ht : 3 ≤ t.tightness) : Readable t := by
  apply readable_of_bracketed _ h.element.bracketed (by omega)
  rw [printAt_of_le ht]
  exact h.element

theorem readable_nullable (hsolid : Solid (DocType.nullable t).print) (h : Readable t) : Readable (.nullable t) := by
  have hread : Reads .bracketed (.nullable t) (DocType.nullable t).print := reads_nullable h.bracketed
  have hunion := lists_union.reads_one (lists_intersection.reads_one hread)
  have hclosed : Reads .plain (.nullable t) (printAt 3 (.nullable t)) := reads_printAt hunion hsolid (by simp [tightness])
  exact readable_of_bracketed hclosed.element hread (by simp [tightness])

theorem readable_array (h : Readable t) : Readable (.array t) := by
  have hread : ReadsElement (.array t) (DocType.array t).print := h.element.array
  exact readable_of_bracketed hread hread.bracketed (by simp [tightness])

theorem Lists.reads_printAll {level inner : Level}
    (hlists : Lists level inner separator blankBefore join) {needed : Nat} (htwo : 2 ≤ parts.length)
    (hparts : ∀ t ∈ parts, Reads inner t (printAt needed t) ∧ Solid t.print) :
    Reads level (join parts) (List.intercalate [separator] (print.printAll needed parts)) := by
  match parts, htwo with
  | first :: second :: more, _ =>
    rw [printAll_eq_map, intercalate_map_cons]
    exact hlists.reads (fun t ht => (hparts t ht).1) fun t ht => (hparts t (mem_cons_of_mem _ ht)).2.enclose _

theorem readable_intersection (htwo : 2 ≤ parts.length)
    (hsolid : Solid (DocType.intersection parts).print) (hparts : ∀ t ∈ parts, Readable t ∧ Solid t.print) :
    Readable (.intersection parts) := by
  have hread : Reads .intersection (.intersection parts) (DocType.intersection parts).print :=
    lists_intersection.reads_printAll htwo fun t ht => ⟨(hparts t ht).1.bracketed, (hparts t ht).2⟩
  have hunion := lists_union.reads_one hread
  have hclosed {needed : Nat} (hneeded : 1 < needed) := reads_printAt hunion hsolid hneeded
  exact ⟨(hclosed (by decide)).element, (hclosed (by decide)).element.bracketed, hread, hunion⟩

theorem readable_union (htwo : 2 ≤ parts.length) (hsolid : Solid (DocType.union parts).print)
    (hparts : ∀ t ∈ parts, Readable t ∧ Solid t.print) : Readable (.union parts) := by
  have hunion : Reads .union (.union parts) (DocType.union parts).print :=
    lists_union.reads_printAll htwo fun t ht => ⟨(hparts t ht).1.intersection, (hparts t ht).2⟩
  have hclosed {needed : Nat} (hneeded : 0 < needed) := reads_printAt hunion hsolid hneeded
  have hbracketed := (hclosed (show 0 < 1 by decide)).element.bracketed
  exact ⟨(hclosed (by decide)).element, (hclosed (by decide)).element.bracketed,
    lists_intersection.reads_one hbracketed, hunion⟩

theorem readable_generic {args : List DocType} (hbase : name base.toList = some (base, []))
    (hone : 1 ≤ args.length) (hargs : ∀ t ∈ args, Readable t ∧ Solid t.print) : Readable (.generic base args) := by
  obtain ⟨first, more, rfl⟩ := exists_cons_of_length_pos hone
  refine readable_of_plain ?_ (by simp [tightness])
  rw [print, printAll_eq_map, intercalate_map_cons]
  exact reads_generic hbase (fun t ht => (hargs t ht).1.union) fun t ht => (hargs t ht).2.enclose _

theorem readable (h : Printable t) : Readable t := by
  induction h with
  | named h => exact readable_of_plain (reads_named h) (by simp [tightness])
  | nullable h ih => exact readable_nullable h.nullable.solid ih
  | union htwo h ih => exact readable_union htwo (Printable.union htwo h).solid fun t ht => ⟨ih t ht, (h t ht).solid⟩
  | intersection htwo h ih =>
    exact readable_intersection htwo (Printable.intersection htwo h).solid fun t ht => ⟨ih t ht, (h t ht).solid⟩
  | array _ ih => exact readable_array ih
  | generic hbase hone hargs ih => exact readable_generic hbase hone fun t ht => ⟨ih t ht, (hargs t ht).solid⟩

end Reader

theorem union_print (h : t.Printable) : Reader.union t.print = some (t, []) := by
  have hread := (Reader.readable h).union (4 * t.print.length + 4) [] (by simp [Reader.Level.depth]) (Reader.stops_nil .union)
  rwa [append_nil] at hread

/-- A type is read back from its text. -/
theorem parse?_text (h : t.Printable) : parse? t.text = some t := by
  have htext : (Text.trim t.text).toList = t.print := by
    rw [text, trim_of_solid h.solid, String.toList_ofList]
  unfold parse?
  rw [htext, union_print h]

/-- Every kind of type inside another, with the brackets that their places need and no others. -/
theorem parse?_text_nested :
    let inner := DocType.union [.named "A", .intersection [.nullable (.named "B"), .named "$this"]]
    let t := DocType.nullable (.array (.generic "non-empty-list" [.array (.nullable inner), inner]))
    t.text = "?non-empty-list<(?(A|?B&$this))[], A|?B&$this>[]" ∧ t.Printable ∧ parse? t.text = some t := by
  intro inner t
  have hinner : inner.Printable := by
    refine .union (by decide) (List.forall_mem_cons.mpr ⟨.named rfl, List.forall_mem_singleton.mpr ?_⟩)
    refine .intersection (by decide) (List.forall_mem_cons.mpr ⟨?_, List.forall_mem_singleton.mpr (.named rfl)⟩)
    exact .nullable (.named rfl)
  have ht : t.Printable := by
    refine .nullable (.array (.generic (by decide +kernel) (by decide) ?_))
    exact List.forall_mem_cons.mpr ⟨hinner.nullable.array, List.forall_mem_singleton.mpr hinner⟩
  exact ⟨by decide +kernel, ht, parse?_text ht⟩

end EventAtlas.DocType
