import EventAtlas.Proofs.Typing.Names

/-!
# Types as their constructors make them

A constructor normalises the name that it is given, and the name of a container is put together from the names of its
parts. So a type is kept under a name that is its own normal form, unless there are blanks in it: a blank behind a
leading separator is left where it is when the name is normalised for the first time, and goes the next time. `Plain`
types have no blanks in their names; they are found under their names (`Ty.Plain.normalize_name`), and the types of
their keys and elements are plain as well.
-/

namespace EventAtlas

open List

namespace Text

variable {a b s : String} {c : Char}

/-- There is no blank in the text. -/
def isBlankless (s : String) : Bool :=
  s.toList.all fun c => !isBlank c

theorem isBlankless_append : isBlankless (a ++ b) = (isBlankless a && isBlankless b) := by
  rw [isBlankless, String.toList_append, all_append, isBlankless, isBlankless]

theorem dropWhile_of_all_not {α : Type} {p : α → Bool} {l : List α} (h : (l.all fun x => !p x) = true) :
    l.dropWhile p = l := by
  cases l with
  | nil => rfl
  | cons x rest =>
    have hx : p x = false := by simpa using all_eq_true.mp h x mem_cons_self
    rw [dropWhile_cons_of_neg (by simp [hx])]

theorem trim_of_isBlankless (h : isBlankless s = true) : trim s = s := by
  have hleft : s.toList.dropWhile isBlank = s.toList := dropWhile_of_all_not h
  have hright : s.toList.reverse.dropWhile isBlank = s.toList.reverse := by
    apply dropWhile_of_all_not
    rwa [all_reverse]
  rw [trim, dropBoth, dropLeft, hleft, dropRight, String.toList_ofList, hright, reverse_reverse,
    String.ofList_toList]

theorem unrooted_append_of_unrooted (ha : unrooted a = a) (hb : unrooted b = b) : unrooted (a ++ b) = a ++ b := by
  by_cases hne : a = ""
  · rw [hne, String.empty_append, hb]
  · exact unrooted_append ha hne b

end Text

namespace Typing

open Text

variable {a s : String} {c : Char}

/-- A bracket in a name makes it the name of a container, and no native type is written with one. -/
theorem native?_eq_none_of_mem (hc : c = '<' ∨ c = '[') (hmem : c ∈ s.toList) : native? s = none := by
  have hplain : c ∈ (lower (unrooted s)).toList := by
    have hsep : isSeparator c = false := by rcases hc with rfl | rfl <;> rfl
    have hkept : c ∈ (unrooted s).toList := by
      rw [unrooted, dropLeft, String.toList_ofList]
      have hsplit : c ∈ s.toList.takeWhile isSeparator ++ s.toList.dropWhile isSeparator := by
        rwa [takeWhile_append_dropWhile]
      rcases mem_append.mp hsplit with htaken | hdropped
      · have hthere := mem_takeWhile_imp htaken
        rw [hsep] at hthere
        cases hthere
      · exact hdropped
    have hlower : c.toLower = c := by rcases hc with rfl | rfl <;> rfl
    rw [lower, String.toList_ofList, ← hlower]
    exact mem_map_of_mem hkept
  have hnone : ∀ n ∈ nativeNames ++ nativeAliases.map Prod.fst, '<' ∉ n.toList ∧ '[' ∉ n.toList := by decide
  have hother : ∀ n ∈ nativeNames ++ nativeAliases.map Prod.fst, lower (unrooted s) ≠ n := by
    rintro n hn rfl
    obtain ⟨hangle, hsquare⟩ := hnone _ hn
    rcases hc with rfl | rfl
    · exact hangle hplain
    · exact hsquare hplain
  have hname : nativeNames.contains (lower (unrooted s)) = false := by
    rw [contains_eq_mem, decide_eq_false_iff_not]
    exact fun hmem => hother _ (mem_append_left _ hmem) rfl
  rw [native?, hname, if_neg (by simp), lookup_eq_none_iff]
  intro e he
  have hne := hother e.1 (mem_append_right _ (mem_map_of_mem he))
  simpa using hne

theorem unrooted_normalize (a : String) : unrooted (normalize a) = normalize a := by
  have hnative : ∀ n ∈ nativeNames, unrooted n = n := by decide
  unfold normalize
  dsimp only
  cases h : native? (trim a) with
  | some n =>
    rw [Option.getD_some]
    exact hnative n (mem_nativeNames_of_native? h)
  | none =>
    simp only [Option.getD_none]
    exact unrooted_unrooted _

theorem isBlankless_normalize (h : isBlankless a = true) : isBlankless (normalize a) = true := by
  have hnative : ∀ n ∈ nativeNames, isBlankless n = true := by decide
  unfold normalize
  dsimp only
  cases hn : native? (trim a) with
  | some n =>
    rw [Option.getD_some]
    exact hnative n (mem_nativeNames_of_native? hn)
  | none =>
    simp only [Option.getD_none, trim_of_isBlankless h, unrooted, dropLeft, isBlankless, String.toList_ofList]
    exact all_eq_true.mpr fun c hc => all_eq_true.mp h c ((dropWhile_sublist _).subset hc)

/-- Without blanks, a normal form is its own normal form. -/
theorem normalize_normalize_of_isBlankless (h : isBlankless (normalize a) = true) :
    normalize (normalize a) = normalize a := by
  have hroot := unrooted_normalize a
  generalize hn : normalize a = n at h hroot ⊢
  cases hnative : native? (trim a) with
  | some m =>
    have hm : m = n := by rw [← hn, normalize, hnative, Option.getD_some]
    exact normalize_native n (hm ▸ mem_nativeNames_of_native? hnative)
  | none =>
    have heq : unrooted (trim a) = n := by rw [← hn, normalize, hnative, Option.getD_none]
    have hnone : native? n = none := by
      rw [← hnative]
      exact native?_congr (by rw [hroot, heq])
    simp only [normalize, trim_of_isBlankless h, hnone, Option.getD_none, hroot]

/-- A name without blanks and leading separators that is written with a bracket is its own normal form. -/
theorem normalize_of_mem (hc : c = '<' ∨ c = '[') (hmem : c ∈ s.toList) (hblank : isBlankless s = true)
    (hroot : unrooted s = s) : normalize s = s := by
  simp only [normalize, trim_of_isBlankless hblank, native?_eq_none_of_mem hc hmem, Option.getD_none, hroot]

end Typing

namespace Ty

open Text Typing

variable {t e k : Ty}

/-- The type is made by the constructors of types, from whatever names. -/
inductive Constructed : Ty → Prop
  | named (name : String) : Constructed (named name)
  | declared (name : String) (node : NodeId) : Constructed (declared name node)
  | unknown (origin : String) : Constructed (unknown origin)
  | null : Constructed null
  | arrayOf {e : Ty} : Constructed e → Constructed (arrayOf e)
  | mapOf {k e : Ty} : Constructed k → Constructed e → Constructed (mapOf k e)
  | generic {base e : Ty} {k : Option Ty} : Constructed base → (∀ t, k = some t → Constructed t) → Constructed e →
      Constructed (generic base k e)
  | withDeclaration {t : Ty} (node : NodeId) : Constructed t → Constructed (t.withDeclaration node)

/-- The type is made by the constructors, and there is no blank in its name. -/
structure Plain (t : Ty) : Prop where
  constructed : t.Constructed
  blankless : isBlankless t.name = true

theorem plain_named {name : String} (h : isBlankless name = true) : (named name).Plain :=
  ⟨.named name, by simpa only [named] using isBlankless_normalize h⟩

theorem plain_declared {name : String} (h : isBlankless name = true) (node : NodeId) : (declared name node).Plain :=
  ⟨.declared name node, by simpa only [declared, named] using isBlankless_normalize h⟩

/-- The name of a container without blanks has parts without blanks. -/
theorem isBlankless_generic {base : Ty} {key : Option Ty} (h : isBlankless (generic base key e).name = true) :
    isBlankless base.name = true ∧ (∀ t, key = some t → isBlankless t.name = true) ∧ isBlankless e.name = true := by
  cases key with
  | none =>
    simp only [generic, isBlankless_append, Bool.and_eq_true] at h
    exact ⟨h.1.1.1, nofun, h.1.2⟩
  | some k =>
    simp only [generic, isBlankless_append, Bool.and_eq_true] at h
    exact ⟨h.1.1.1, fun t ht => Option.some.inj ht ▸ h.1.2.1.1, h.1.2.2⟩

/-- A plain type is kept under a name that is its own normal form. -/
theorem Plain.normalize_name (h : t.Plain) : normalize t.name = t.name := by
  obtain ⟨hmade, hblank⟩ := h
  induction hmade with
  | named name | declared name node =>
    simp only [declared, named] at hblank ⊢
    exact normalize_normalize_of_isBlankless hblank
  | null => decide
  | unknown origin =>
    refine normalize_of_mem (.inl rfl) ?_ hblank (unrooted_eq_self_iff.mpr ?_)
    · simp [unknown]
    · simp [unknown, isSeparator]
  | @mapOf k e _ _ _ _ =>
    refine normalize_of_mem (.inl rfl) ?_ hblank (unrooted_eq_self_iff.mpr ?_)
    · simp [mapOf]
    · simp [mapOf, isSeparator]
  | @arrayOf e _ ih =>
    simp only [arrayOf, isBlankless_append, Bool.and_eq_true] at hblank ih ⊢
    have hroot : unrooted e.name = e.name := by rw [← ih hblank.1, unrooted_normalize]
    refine normalize_of_mem (.inr rfl) ?_ ?_ (unrooted_append_of_unrooted hroot (by decide))
    · simp
    · rw [isBlankless_append, hblank.1, hblank.2, Bool.and_self]
  | @generic base e k _ _ _ ih _ _ =>
    have hroot : unrooted base.name = base.name := by
      rw [← ih (isBlankless_generic hblank).1, unrooted_normalize]
    refine normalize_of_mem (.inl rfl) ?_ hblank ?_
    · simp [generic]
    · simp only [generic, String.append_assoc]
      refine unrooted_append_of_unrooted hroot (unrooted_eq_self_iff.mpr ?_)
      simp [isSeparator]
  | withDeclaration node _ ih => exact ih hblank

/-- The elements of plain containers are plain. -/
theorem Plain.element (h : t.Plain) (he : t.element = some e) : e.Plain := by
  obtain ⟨hmade, hblank⟩ := h
  induction hmade with
  | named | declared | unknown | null => cases he
  | arrayOf hmade _ =>
    obtain rfl := Option.some.inj he
    rw [Ty.arrayOf, isBlankless_append, Bool.and_eq_true] at hblank
    exact ⟨hmade, hblank.1⟩
  | mapOf _ hmade _ _ =>
    obtain rfl := Option.some.inj he
    simp only [Ty.mapOf, isBlankless_append, Bool.and_eq_true] at hblank
    exact ⟨hmade, hblank.1.2⟩
  | generic _ _ hmade _ _ _ =>
    obtain rfl := Option.some.inj he
    exact ⟨hmade, (isBlankless_generic hblank).2.2⟩
  | withDeclaration node _ ih => exact ih he hblank

/-- The keys of plain containers are plain. -/
theorem Plain.key (h : t.Plain) (hk : t.key = some k) : k.Plain := by
  obtain ⟨hmade, hblank⟩ := h
  induction hmade with
  | named | declared | unknown | null | arrayOf => cases hk
  | mapOf hmade _ _ _ =>
    obtain rfl := Option.some.inj hk
    simp only [Ty.mapOf, isBlankless_append, Bool.and_eq_true] at hblank
    exact ⟨hmade, hblank.1.1.1.2⟩
  | generic _ hmade _ _ _ _ => exact ⟨hmade k hk, (isBlankless_generic hblank).2.1 k hk⟩
  | withDeclaration node _ ih => exact ih hk hblank

end Ty

end EventAtlas
