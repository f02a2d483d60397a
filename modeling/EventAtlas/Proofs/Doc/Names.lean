import EventAtlas.Doc.Block
import Mathlib.Data.List.TakeWhile

/-!
# Names in documented types

What a reader takes from a comment can be said without a look at the comment: `Reader.Gives` states what holds of
everything that a reader may read. The names in a type are read character by character, and no character of a name is a
blank. So every name in every type of a documentation comment is unbroken (`DocBlock.allNames_of_mem_tags`).
-/

namespace EventAtlas

namespace Text

variable {c : Char} {s : String}

/-- The code points of the blanks. -/
def blankCodes : List Nat :=
  [9, 10, 11, 12, 13, 0x20, 0x85, 0xA0, 0x1680, 0x2000, 0x2001, 0x2002, 0x2003, 0x2004, 0x2005, 0x2006, 0x2007, 0x2008,
    0x2009, 0x200A, 0x2028, 0x2029, 0x202F, 0x205F, 0x3000]

theorem toNat_mem_blankCodes (h : isBlank c = true) : c.toNat ∈ blankCodes := by
  simp only [isBlank, Bool.or_eq_true, Bool.and_eq_true, decide_eq_true_eq, beq_iff_eq] at h
  simp only [blankCodes, List.mem_cons, List.not_mem_nil, or_false]
  omega

theorem isBlank_of_isLetterOrNumber (h : isLetterOrNumber c = true) : isBlank c = false := by
  have hcodes : ∀ n ∈ blankCodes, isLetterOrNumber (Char.ofNat n) = false := by decide +kernel
  by_contra hblank
  have hnot := hcodes c.toNat (toNat_mem_blankCodes (Bool.of_not_eq_false hblank))
  rw [Char.ofNat_toNat, h] at hnot
  cases hnot

/-- No character is a blank. -/
def Unbroken (s : String) : Prop :=
  ∀ c ∈ s.toList, isBlank c = false

instance : DecidablePred Unbroken :=
  fun s => decidable_of_iff (s.toList.all fun c => !isBlank c) (by simp [Unbroken])

end Text

namespace DocType

open Text

/-- Every name in the type satisfies `p`. -/
inductive AllNames (p : String → Prop) : DocType → Prop
  | named {name : String} (h : p name) : AllNames p (.named name)
  | nullable {inner : DocType} (h : AllNames p inner) : AllNames p (.nullable inner)
  | union {parts : List DocType} (h : ∀ t ∈ parts, AllNames p t) : AllNames p (.union parts)
  | intersection {parts : List DocType} (h : ∀ t ∈ parts, AllNames p t) : AllNames p (.intersection parts)
  | array {element : DocType} (h : AllNames p element) : AllNames p (.array element)
  | generic {base : String} {args : List DocType} (hbase : p base) (hargs : ∀ t ∈ args, AllNames p t) :
    AllNames p (.generic base args)

namespace Reader

variable {α : Type} {p : α → Prop}

/-- Whatever the reader reads satisfies `p`. -/
def Gives (p : α → Prop) (r : Reader α) : Prop :=
  ∀ cs a rest, r cs = some (a, rest) → p a

theorem Gives.or {r r' : Reader α} (h : Gives p r) (h' : Gives p r') : Gives p fun cs => (r cs).or (r' cs) := by
  intro cs a rest hread
  obtain hread | ⟨-, hread⟩ := Option.or_eq_some_iff.mp hread
  · exact h cs a rest hread
  · exact h' cs a rest hread

theorem Gives.further {part : Reader α} (h : Gives p part) (separator : Char) (blankBefore : Bool) :
    Gives p (further separator blankBefore part) := by
  intro cs a rest hread
  obtain ⟨cs', -, hpart⟩ := Option.bind_eq_some_iff.mp hread
  exact h _ a rest hpart

theorem Gives.mem_many {step : Reader α} (h : Gives p step) (n : Nat) (cs : List Char) :
    ∀ a ∈ (many step n cs).1, p a := by
  induction n generalizing cs with
  | zero => exact nofun
  | succ n ih =>
    unfold many
    split
    · next a rest hread => exact List.forall_mem_cons.mpr ⟨h cs a rest hread, ih rest⟩
    · exact nofun

theorem unbroken_name : Gives Unbroken name := by
  have hother {c : Char} (h : (c = '_' ∨ c = '\\') ∨ c = '-') : isBlank c = false := by
    obtain (rfl | rfl) | rfl := h <;> rfl
  have hstart {c : Char} (h : startsName c = true) : isBlank c = false := by
    simp only [startsName, Bool.or_eq_true, decide_eq_true_eq] at h
    obtain (h | h) | h := h
    · exact isBlank_of_isLetterOrNumber (by rw [isLetterOrNumber, h, Bool.true_or])
    · exact hother (.inl (.inl h))
    · exact hother (.inl (.inr h))
  have hcontinue {c : Char} (h : continuesName c = true) : isBlank c = false := by
    simp only [continuesName, Bool.or_eq_true, decide_eq_true_eq] at h
    obtain ((h | h) | h) | h := h
    · exact isBlank_of_isLetterOrNumber h
    · exact hother (.inl (.inl h))
    · exact hother (.inl (.inr h))
    · exact hother (.inr h)
  intro cs s rest hread
  unfold name at hread
  split at hread
  · obtain ⟨rfl, -⟩ := Prod.mk.inj (Option.some.inj hread)
    decide
  · split at hread
    · next c rest' =>
      split at hread
      · next hc =>
        obtain ⟨rfl, -⟩ := Prod.mk.inj (Option.some.inj hread)
        rw [Unbroken, String.toList_ofList]
        exact List.forall_mem_cons.mpr ⟨hstart hc, fun d hd => hcontinue (List.mem_takeWhile_imp hd)⟩
      · cases hread
    · cases hread

theorem quoted_allNames (quote : Char) : Gives (AllNames Unbroken) (quoted quote) := by
  intro cs t rest hread
  simp only [quoted, Option.bind_eq_bind, Option.bind_eq_some_iff, Option.some.injEq, Prod.mk.injEq] at hread
  obtain ⟨_, _, _, _, rfl, -⟩ := hread
  exact .named (by decide)

theorem integer_allNames : Gives (AllNames Unbroken) integer := by
  intro cs t rest hread
  unfold integer at hread
  dsimp only at hread
  split at hread
  · cases hread
  · obtain ⟨rfl, -⟩ := Prod.mk.inj (Option.some.inj hread)
    exact .named (by decide)

theorem mem_arguments {part : Reader DocType} (h : Gives (AllNames Unbroken) part) :
    Gives (fun args => ∀ t ∈ args, AllNames Unbroken t) (arguments part) := by
  intro cs args rest hread
  simp only [arguments, Option.bind_eq_bind, Option.bind_eq_some_iff, Option.some.injEq, Prod.mk.injEq,
    Prod.exists] at hread
  obtain ⟨_, _, first, _, hfirst, _, _, rfl, -⟩ := hread
  exact List.forall_mem_cons.mpr ⟨h _ _ _ hfirst, (h.further ',' true).mem_many _ _⟩

/-- A list of parts is one type: its only part, or all of them together. -/
theorem joined_allNames {make : List DocType → DocType} {part : Reader DocType} {more : Reader DocType}
    (hmake : ∀ parts, (∀ t ∈ parts, AllNames Unbroken t) → AllNames Unbroken (make parts))
    (hpart : Gives (AllNames Unbroken) part) (hmore : Gives (AllNames Unbroken) more) :
    Gives (AllNames Unbroken) (fun cs => do
      let (first, rest) ← part cs
      match all more rest with
      | ([], rest) => some (first, rest)
      | (parts, rest) => some (make (first :: parts), rest)) := by
  intro cs t rest hread
  obtain ⟨⟨first, rest'⟩, hfirst, hread⟩ := Option.bind_eq_some_iff.mp hread
  have hmany := hmore.mem_many rest'.length rest'
  have hhead := hpart cs first rest' hfirst
  dsimp only at hread
  rw [all] at hread
  split at hread
  · obtain ⟨rfl, -⟩ := Prod.mk.inj (Option.some.inj hread)
    exact hhead
  · next parts _ _ heq =>
    obtain ⟨rfl, -⟩ := Prod.mk.inj (Option.some.inj hread)
    rw [heq] at hmany
    exact hmake _ (List.forall_mem_cons.mpr ⟨hhead, hmany⟩)

theorem foldl_array_allNames {α : Type} (pairs : List α) {t : DocType} (h : AllNames Unbroken t) :
    AllNames Unbroken (pairs.foldl (fun t _ => .array t) t) :=
  List.foldlRecOn pairs _ h fun _ ht _ _ => .array ht

/-- Every name in a type that is read is unbroken. -/
theorem type_allNames (n : Nat) (level : Level) : Gives (AllNames Unbroken) (type n level) := by
  induction n generalizing level with
  | zero => exact fun _ _ _ hread => nomatch hread
  | succ n ih =>
    cases level with
    | union => exact joined_allNames (fun _ => .union) (ih _) ((ih _).further '|' true)
    | intersection => exact joined_allNames (fun _ => .intersection) (ih _) ((ih _).further '&' false)
    | bracketed =>
      intro cs t rest hread
      obtain ⟨⟨inner, rest'⟩, hinner, hread⟩ := Option.bind_eq_some_iff.mp hread
      obtain ⟨rfl, -⟩ := Prod.mk.inj (Option.some.inj hread)
      exact foldl_array_allNames _ (ih _ cs inner rest' hinner)
    | plain =>
      refine ((((Gives.or ?_ ?_).or (quoted_allNames '\'')).or (quoted_allNames '"')).or integer_allNames).or ?_
      · intro cs t rest hread
        simp only [Option.bind_eq_bind, Option.bind_eq_some_iff, Option.some.injEq, Prod.mk.injEq, Prod.exists] at hread
        obtain ⟨_, _, inner, _, hinner, rfl, -⟩ := hread
        exact .nullable (ih _ _ _ _ hinner)
      · intro cs t rest hread
        simp only [Option.bind_eq_bind, Option.bind_eq_some_iff, Option.some.injEq, Prod.mk.injEq, Prod.exists] at hread
        obtain ⟨_, _, inner, _, hinner, _, _, rfl, -⟩ := hread
        exact ih _ _ _ _ hinner
      · intro cs t rest hread
        obtain ⟨⟨base, rest'⟩, hbase, hread⟩ := Option.bind_eq_some_iff.mp hread
        have hbase := unbroken_name cs base rest' hbase
        dsimp only at hread
        split at hread
        · next args _ hargs =>
          obtain ⟨_, -, hread⟩ := Option.bind_eq_some_iff.mp hread
          obtain ⟨rfl, -⟩ := Prod.mk.inj (Option.some.inj hread)
          exact .generic hbase (mem_arguments (ih _) _ _ _ hargs)
        · obtain ⟨_, -, hread⟩ := Option.bind_eq_some_iff.mp hread
          obtain ⟨rfl, -⟩ := Prod.mk.inj (Option.some.inj hread)
          exact .named hbase

end Reader

end DocType

open DocType in
theorem DocTag.allNames_of_ofLine? {line : String} {tag : DocTag} (h : ofLine? line = some tag) :
    tag.type.AllNames Text.Unbroken := by
  have hunion : Reader.Gives (AllNames Text.Unbroken) Reader.union :=
    fun cs t rest hread => Reader.type_allNames _ .union cs t rest hread
  unfold ofLine? at h
  dsimp only at h
  obtain ⟨kind, -, h⟩ := Option.bind_eq_some_iff.mp h
  split at h
  · obtain ⟨_, -, h⟩ := Option.bind_eq_some_iff.mp h
    obtain ⟨⟨t, rest⟩, hread, h⟩ := Option.bind_eq_some_iff.mp h
    obtain rfl := Option.some.inj h
    exact hunion _ _ _ hread
  · obtain ⟨⟨t, rest⟩, hread, h⟩ := Option.bind_eq_some_iff.mp h
    obtain rfl := Option.some.inj h
    exact hunion _ _ _ hread

/-- Every name in every type of a comment is unbroken. -/
theorem DocBlock.allNames_of_mem_tags {text : String} {tag : DocTag} (h : tag ∈ (parse text).tags) :
    tag.type.AllNames Text.Unbroken := by
  simp only [parse, List.mem_filterMap, Option.bind_eq_some_iff] at h
  obtain ⟨_, -, _, -, htag⟩ := h
  exact DocTag.allNames_of_ofLine? htag

end EventAtlas
