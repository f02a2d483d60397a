import EventAtlas.Typing.TypeSet
import Mathlib.Data.List.DropRight

/-!
# Normal forms of names

A type is kept under a normal form of its name: trimmed, without leading separators, native types in one spelling.
Blanks go before separators do, so a blank after a leading separator stays, and a second round would take it away. For a
name that has a solid start, separators aside, this cannot happen: its normal form is its own normal form, and names that
are looked up under the same key have normal forms that differ in ASCII case only.
-/

namespace EventAtlas

open List

namespace Text

variable {s : String} {c : Char}

/-! ## Small letters -/

theorem toLower_eq_iff {d : Char} (hd : d.isAlpha = false) : c.toLower = d ↔ c = d := by
  unfold Char.toLower
  split
  · next h =>
    obtain ⟨hlow, hhigh⟩ := h
    unfold Char.isAlpha Char.isUpper Char.isLower at hd
    simp only [Bool.or_eq_false_iff, Bool.and_eq_false_iff, decide_eq_false_iff_not] at hd
    constructor
    · intro heq
      have hval : d.val = c.val + ('a'.val - 'A'.val) := (congrArg Char.val heq).symm
      grind
    · rintro rfl
      grind
  · rfl

theorem isBlank_toLower (c : Char) : isBlank c.toLower = isBlank c := by
  cases hb : isBlank c with
  | true =>
    have hlower : c.toLower = c := by
      unfold Char.toLower
      split
      · next h =>
        simp only [isBlank, Char.toNat, Bool.or_eq_true, Bool.and_eq_true, decide_eq_true_eq, beq_iff_eq] at hb
        simp only [ge_iff_le, UInt32.le_iff_toNat_le, Char.reduceVal, UInt32.reduceToNat] at h
        omega
      · rfl
    rw [hlower, hb]
  | false =>
    by_contra hblank
    rw [Bool.not_eq_false] at hblank
    have hnot : c.toLower.isAlpha = false := by
      simp only [isBlank, Char.toNat, Bool.or_eq_true, Bool.and_eq_true, decide_eq_true_eq, beq_iff_eq] at hblank
      unfold Char.isAlpha Char.isUpper Char.isLower
      simp only [Bool.or_eq_false_iff, Bool.and_eq_false_iff, decide_eq_false_iff_not, ge_iff_le,
        UInt32.le_iff_toNat_le, Char.reduceVal, UInt32.reduceToNat]
      omega
    rw [← (toLower_eq_iff hnot).mp rfl, hb] at hblank
    cases hblank

theorem unrooted_lower (s : String) : unrooted (lower s) = lower (unrooted s) := by
  have hcomp : isSeparator ∘ Char.toLower = isSeparator := by
    funext c
    rw [Function.comp_apply, Bool.eq_iff_iff, isSeparator, isSeparator, beq_iff_eq, beq_iff_eq, toLower_eq_iff rfl]
  rw [unrooted, lower, dropLeft, String.toList_ofList, dropWhile_map, hcomp, unrooted, lower, dropLeft,
    String.toList_ofList]

theorem trim_lower (s : String) : trim (lower s) = lower (trim s) := by
  have hcomp : isBlank ∘ Char.toLower = isBlank := funext isBlank_toLower
  simp only [trim, dropBoth, dropLeft, dropRight, lower, String.toList_ofList, ← map_reverse, dropWhile_map,
    hcomp]

/-! ## Solid starts -/

/-- There is a first character, and it is no blank. -/
def startsSolid (s : String) : Bool :=
  s.toList.head?.any fun c => !isBlank c

theorem startsSolid_iff : startsSolid s = true ↔ ∃ c rest, s.toList = c :: rest ∧ isBlank c = false := by
  unfold startsSolid
  cases s.toList <;> simp

theorem startsSolid_lower (s : String) : startsSolid (lower s) = startsSolid s := by
  simp [startsSolid, lower, String.toList_ofList, Option.any_map, isBlank_toLower]

theorem trim_of_startsSolid (h : startsSolid s = true) : (trim s).toList = s.toList.rdropWhile isBlank := by
  obtain ⟨c, rest, hs, hc⟩ := startsSolid_iff.mp h
  rw [trim, dropBoth, dropLeft, hs, dropWhile_cons_of_neg (by simp [hc]), dropRight, String.toList_ofList,
    String.toList_ofList, List.rdropWhile]

section Dropping

variable {α : Type} {p : α → Bool} {a : α} (ha : p a = false) (l r : List α)
include ha

/-- Nothing is dropped beyond an element that stays. -/
theorem dropWhile_append_cons : (l ++ a :: r).dropWhile p = l.dropWhile p ++ a :: r := by
  rw [dropWhile_append, dropWhile_cons_of_neg (by simp [ha])]
  split <;> simp_all

theorem rdropWhile_append_cons : (l ++ a :: r).rdropWhile p = l ++ a :: r.rdropWhile p := by
  simp [rdropWhile, dropWhile_append_cons ha]

end Dropping

theorem startsSolid_trim (h : startsSolid s = true) : startsSolid (trim s) = true := by
  obtain ⟨c, rest, hs, hc⟩ := startsSolid_iff.mp h
  refine startsSolid_iff.mpr ⟨c, rest.rdropWhile isBlank, ?_, hc⟩
  rw [trim_of_startsSolid h, hs]
  exact rdropWhile_append_cons hc [] rest

theorem trim_trim (h : startsSolid s = true) : trim (trim s) = trim s := by
  rw [← String.toList_inj, trim_of_startsSolid (startsSolid_trim h), trim_of_startsSolid h, rdropWhile_idempotent]

theorem ne_empty_of_startsSolid (h : startsSolid (unrooted s) = true) : s ≠ "" := by
  rintro rfl
  revert h
  decide

theorem unrooted_unrooted (s : String) : unrooted (unrooted s) = unrooted s := by
  rw [unrooted, unrooted, dropLeft, dropLeft, String.toList_ofList, dropWhile_idempotent]

/-- Nothing is dropped from a name exactly if it has no leading separator. -/
theorem unrooted_eq_self_iff : unrooted s = s ↔ ∀ c, s.toList.head? = some c → isSeparator c = false := by
  rw [← String.toList_inj, unrooted, dropLeft, String.toList_ofList]
  cases hs : s.toList with
  | nil => simp
  | cons c rest =>
    rw [dropWhile_cons, head?_cons]
    constructor
    · rintro h _ ⟨⟩
      by_contra hc
      rw [if_pos (Bool.of_not_eq_false hc)] at h
      have hlength := congrArg List.length h
      have hle := (dropWhile_sublist isSeparator (l := rest)).length_le
      rw [length_cons] at hlength
      omega
    · intro h
      rw [h c rfl]
      rfl

theorem unrooted_append {a : String} (ha : unrooted a = a) (hne : a ≠ "") (b : String) : unrooted (a ++ b) = a ++ b := by
  rw [unrooted_eq_self_iff] at ha ⊢
  intro c hc
  rw [String.toList_append, head?_append] at hc
  cases hhead : a.toList.head? with
  | none =>
    rw [head?_eq_none_iff, String.toList_eq_nil_iff] at hhead
    exact absurd hhead hne
  | some d =>
    rw [hhead] at hc
    exact ha c (hhead.trans hc)

/-- Separators before a solid start may go before or after the blanks. -/
theorem unrooted_trim (h : startsSolid (unrooted s) = true) : unrooted (trim s) = trim (unrooted s) := by
  obtain ⟨c, rest, hrest, hc⟩ := startsSolid_iff.mp h
  have hdrop : s.toList.dropWhile isSeparator = c :: rest := by rwa [unrooted, dropLeft, String.toList_ofList] at hrest
  have hs : s.toList = s.toList.takeWhile isSeparator ++ c :: rest := by
    rw [← hdrop, takeWhile_append_dropWhile]
  generalize htake : s.toList.takeWhile isSeparator = seps at hs
  have hseps : ∀ d ∈ seps, isSeparator d = true := htake ▸ fun d hd => mem_takeWhile_imp hd
  have hstart : startsSolid s = true := by
    rw [startsSolid_iff, hs]
    cases seps with
    | nil => exact ⟨c, rest, rfl, hc⟩
    | cons d seps =>
      refine ⟨d, _, rfl, ?_⟩
      rw [beq_iff_eq.mp (hseps d mem_cons_self)]
      rfl
  have hfirst : isSeparator c = false := by
    have hnot := dropWhile_get_zero_not isSeparator s.toList (by rw [hdrop]; exact Nat.succ_pos _)
    simpa [hdrop] using hnot
  rw [← String.toList_inj, trim_of_startsSolid h, hrest, unrooted, dropLeft, String.toList_ofList,
    trim_of_startsSolid hstart, hs, rdropWhile_append_cons hc, dropWhile_append_of_pos hseps,
    dropWhile_cons_of_neg (by simp [hfirst])]
  exact (rdropWhile_append_cons hc [] rest).symm

/-! ## Names of classes -/

/-- A letter, a digit, an underscore, or a character outside of ASCII. -/
def isNameChar (c : Char) : Bool :=
  c.isAlphanum || c == '_' || 128 ≤ c.toNat

/-- An identifier: characters of names, the first of which is no digit. -/
def isIdentifier : List Char → Bool
  | [] => false
  | c :: rest => isNameChar c && !c.isDigit && rest.all isNameChar

/-- Identifiers with one separator between them, and perhaps one before them. -/
def isClassName (name : String) : Bool :=
  (pieces isSeparator ((stripChars? ['\\'] name.toList).getD name.toList)).all isIdentifier

/-- The pieces between the separators hold everything else. -/
theorem flatten_pieces {α : Type} (p : α → Bool) (l : List α) : (pieces p l).flatten = l.filter fun a => !p a := by
  induction l with
  | nil => rfl
  | cons a rest ih =>
    rw [pieces, filter_cons, ← ih]
    cases p a with
    | true => rfl
    | false => cases pieces p rest <;> rfl

variable (h : isClassName s = true)
include h

/-- What is left of a class name after the separator before it, if there is one. -/
theorem toList_of_isClassName : ∃ body, (pieces isSeparator body).all isIdentifier = true ∧
    (s.toList = body ∨ s.toList = '\\' :: body) := by
  unfold isClassName at h
  cases hs : s.toList with
  | nil => exact ⟨[], by rwa [hs] at h, .inl rfl⟩
  | cons c rest =>
    rw [hs, stripChars?] at h
    split at h
    · next hc => exact ⟨rest, h, .inr (by rw [hc])⟩
    · exact ⟨c :: rest, h, .inl rfl⟩

omit h in
theorem isNameChar_of_mem_identifier {cs : List Char} (h : isIdentifier cs = true) : ∀ c ∈ cs, isNameChar c = true := by
  cases cs with
  | nil => exact nofun
  | cons c rest =>
    simp only [isIdentifier, Bool.and_eq_true] at h
    exact forall_mem_cons.mpr ⟨h.1.1, all_eq_true.mp h.2⟩

/-- A class name is made of characters of names and separators. -/
theorem isNameChar_or_isSeparator (hc : c ∈ s.toList) : isSeparator c = true ∨ isNameChar c = true := by
  obtain ⟨body, hbody, hs⟩ := toList_of_isClassName h
  cases hsep : isSeparator c with
  | true => exact .inl rfl
  | false =>
    right
    have hmem : c ∈ body := by
      obtain hs | hs := hs
      · exact hs ▸ hc
      · rw [hs] at hc
        obtain rfl | hc := mem_cons.mp hc
        · cases hsep
        · exact hc
    have hflat : c ∈ (pieces isSeparator body).flatten := by
      rw [flatten_pieces]
      exact mem_filter.mpr ⟨hmem, by rw [hsep]; rfl⟩
    obtain ⟨piece, hpiece, hc⟩ := mem_flatten.mp hflat
    exact isNameChar_of_mem_identifier (all_eq_true.mp hbody piece hpiece) c hc

/-- A class name has a first character after the separator before it, if there is one. -/
theorem exists_first_of_isClassName : ∃ first rest, isSeparator first = false ∧
    (s.toList = first :: rest ∨ s.toList = '\\' :: first :: rest) := by
  obtain ⟨body, hbody, hs⟩ := toList_of_isClassName h
  cases body with
  | nil => cases hbody
  | cons first rest =>
    refine ⟨first, rest, ?_, hs⟩
    by_contra hsep
    rw [pieces, if_pos (by simpa using hsep)] at hbody
    cases hbody

/-- The key of a class name is the name in small letters, apart from the separator before it. -/
theorem lower_eq_of_isClassName : lower s = lower (unrooted s) ∨ lower s = "\\" ++ lower (unrooted s) := by
  obtain ⟨first, rest, hfirst, hs | hs⟩ := exists_first_of_isClassName h
  · left
    rw [unrooted, dropLeft, hs, dropWhile_cons_of_neg (by simp [hfirst]), ← hs, String.ofList_toList]
  · right
    rw [unrooted, dropLeft, hs, dropWhile_cons_of_pos rfl, dropWhile_cons_of_neg (by simp [hfirst]), lower,
      hs, lower, String.toList_ofList, ← String.toList_inj, String.toList_append, String.toList_ofList]
    simp

theorem lower_unrooted_ne_this : lower (unrooted s) ≠ "$this" := by
  intro hthis
  have hmem : '$' ∈ (lower (unrooted s)).toList := by
    rw [hthis]
    decide
  rw [lower, String.toList_ofList] at hmem
  obtain ⟨c, hc, hlower⟩ := mem_map.mp hmem
  rw [toLower_eq_iff rfl] at hlower
  subst hlower
  rw [unrooted, dropLeft, String.toList_ofList] at hc
  obtain hsep | hname := isNameChar_or_isSeparator h ((dropWhile_sublist _).subset hc)
  · cases hsep
  · cases hname

end Text

namespace Typing

open Text

variable {a b n : String}

theorem native?_congr (h : lower (unrooted a) = lower (unrooted b)) : native? a = native? b := by
  simp only [native?, h]

theorem normalize_native : ∀ n ∈ nativeNames, normalize n = n := by
  decide

theorem mem_nativeNames_of_native? (h : native? a = some n) : n ∈ nativeNames := by
  unfold native? at h
  dsimp only at h
  split at h
  · next hmem =>
    rw [← Option.some.inj h]
    exact contains_iff_mem.mp hmem
  · obtain ⟨l₁, l₂, hsplit, -⟩ := lookup_eq_some_iff.mp h
    have haliases : ∀ e ∈ nativeAliases, e.2 ∈ nativeNames := by decide
    refine haliases (lower (unrooted a), n) ?_
    rw [hsplit]
    exact mem_append_right _ mem_cons_self

theorem normalize_eq (h : startsSolid (unrooted a) = true) :
    normalize a = (native? (trim (unrooted a))).getD (trim (unrooted a)) := by
  have hkey : unrooted (trim (unrooted a)) = unrooted (trim a) := by rw [← unrooted_trim h, unrooted_unrooted]
  rw [native?_congr (congrArg lower hkey), ← unrooted_trim h]
  rfl

/-- A normal form is its own normal form. -/
theorem normalize_normalize (h : startsSolid (unrooted a) = true) : normalize (normalize a) = normalize a := by
  rw [normalize_eq h]
  cases hn : native? (trim (unrooted a)) with
  | some n => exact normalize_native n (mem_nativeNames_of_native? hn)
  | none =>
    have hroot : unrooted (trim (unrooted a)) = trim (unrooted a) := by rw [← unrooted_trim h, unrooted_unrooted]
    simp only [Option.getD_none, normalize, trim_trim h, hn, hroot]

/-- Names with the same key have normal forms that differ in case only. -/
theorem sameLetters_normalize (ha : startsSolid (unrooted a) = true) (h : lower (unrooted a) = lower (unrooted b)) :
    sameLetters (normalize a) (normalize b) = true := by
  have hb : startsSolid (unrooted b) = true := by rw [← startsSolid_lower, ← h, startsSolid_lower, ha]
  have htrim : lower (trim (unrooted a)) = lower (trim (unrooted b)) := by rw [← trim_lower, h, trim_lower]
  have hkey : lower (unrooted (trim (unrooted a))) = lower (unrooted (trim (unrooted b))) := by
    rw [← unrooted_lower, htrim, unrooted_lower]
  rw [normalize_eq ha, normalize_eq hb, native?_congr hkey, sameLetters, beq_iff_eq]
  cases native? (trim (unrooted b)) with
  | some n => rw [Option.getD_some, Option.getD_some]
  | none =>
    simp only [Option.getD_none]
    exact htrim

end Typing

namespace TypeSet

open Text

/-- The sets have the same types, bound to the same declarations. -/
def Agrees (s t : TypeSet) : Prop :=
  s.same t = true ∧ s.toList.map Ty.declaration = t.toList.map Ty.declaration

instance (s t : TypeSet) : Decidable (s.Agrees t) :=
  inferInstanceAs (Decidable (_ ∧ _))

theorem types_singleton (t : Ty) : (singleton t).types = ⟨[(t.name, t)]⟩ := rfl

theorem toList_singleton (t : Ty) : (singleton t).toList = [t] := rfl

theorem same_singleton {a b : Ty} (hname : Typing.normalize a.name = a.name) (h : a.same b = true) :
    (singleton a).same (singleton b) = true := by
  have hkey : (singleton b).keyOf? a.name = some a.name ∨ (singleton b).keyOf? a.name = some b.name := by
    rw [Ty.same, Text.sameLetters, beq_iff_eq] at h
    unfold keyOf?
    split
    · exact .inl rfl
    · right
      simp [types_singleton, Sorted.keys, Text.sameLetters, h]
  have hcontains : (singleton b).contains a.name = true := by
    rw [contains, hname]
    obtain hkey | hkey := hkey <;> rw [hkey] <;> rfl
  simp [same, size, names, types_singleton, Sorted.size, Sorted.keys, hcontains]

/-- Types whose names have the same key agree if they have the same declaration. -/
theorem agrees_of_key {a b : String} {d : Option NodeId} (ha : startsSolid (unrooted a) = true)
    (h : lower (unrooted a) = lower (unrooted b)) :
    (singleton { Ty.named a with declaration := d }).Agrees (singleton { Ty.named b with declaration := d }) := by
  refine ⟨same_singleton ?_ ?_, ?_⟩
  · simp only [Ty.named]
    exact Typing.normalize_normalize ha
  · simp only [Ty.same, Ty.named]
    exact Typing.sameLetters_normalize ha h
  · rw [toList_singleton, toList_singleton, map_singleton, map_singleton]

end TypeSet

end EventAtlas
