import EventAtlas.Component
import EventAtlas.Proofs.Sorted

/-!
# Components own paths by their longest directory

A component map is made by giving directories to names, one after the other. Each directory stands in it once, with the
name that it was given last (`Distinct`, `nameOf?_ofInserts`). Of the directories that hold a path none has as many
bytes as another, for both are leading parts of the path (`Holds.eq_of_size_eq`). So the directory that decides on a path
is the only longest one, and it does not matter in which order different directories were given away.
-/

namespace EventAtlas

open List String

namespace Text

theorem stripChars?_eq_some {head text rest : List Char} : stripChars? head text = some rest ↔ text = head ++ rest := by
  induction head generalizing text with
  | nil => exact Option.some_inj
  | cons c head ih =>
    cases text with
    | nil => exact iff_of_false nofun nofun
    | cons d text =>
      rw [stripChars?, cons_append, List.cons.injEq]
      split
      · next heq => rw [ih, and_iff_right heq.symm]
      · next hne => exact iff_of_false nofun fun h => hne h.1.symm

theorem strip?_eq_some {head s rest : String} : strip? head s = some rest ↔ s = head ++ rest := by
  rw [strip?, Option.map_eq_some_iff]
  constructor
  · rintro ⟨chars, hchars, rfl⟩
    rw [stripChars?_eq_some] at hchars
    rw [← toList_inj, toList_append, toList_ofList, hchars]
  · rintro rfl
    exact ⟨rest.toList, stripChars?_eq_some.mpr toList_append, ofList_toList⟩

theorem startsWith_iff {head s : String} : startsWith head s = true ↔ ∃ rest, s = head ++ rest := by
  have hmap : startsWith head s = (strip? head s).isSome := by rw [strip?, Option.isSome_map, startsWith]
  rw [hmap, Option.isSome_iff_exists]
  simp only [strip?_eq_some]

end Text

namespace ComponentMap

open Text

variable {m : ComponentMap} {d e path name : String} {entries inserts : List (String × String)}

/-! ## Directories that hold a path -/

/-- The directory is the empty one, the path itself or one of its leading directories. -/
def Holds (d path : String) : Prop :=
  d = "" ∨ path = d ∨ ∃ rest, path = d ++ "/" ++ rest

theorem owns_eq_true : owns d path = true ↔ Holds d path := by
  have hlead : ((strip? d path).map (startsWith "/")).getD false = true ↔ ∃ rest, path = d ++ "/" ++ rest := by
    constructor
    · intro h
      cases hstrip : strip? d path with
      | none =>
        rw [hstrip] at h
        cases h
      | some tail =>
        rw [hstrip] at h
        obtain ⟨rest, rfl⟩ := startsWith_iff.mp h
        exact ⟨rest, by rw [strip?_eq_some.mp hstrip, String.append_assoc]⟩
    · rintro ⟨rest, hpath⟩
      rw [String.append_assoc] at hpath
      rw [strip?_eq_some.mpr hpath, Option.map_some, Option.getD_some, startsWith_iff]
      exact ⟨rest, rfl⟩
  rw [owns, Bool.or_eq_true, Bool.or_eq_true, hlead, String.isEmpty_iff, beq_iff_eq, or_assoc, Holds]

instance (d path : String) : Decidable (Holds d path) :=
  decidable_of_iff _ owns_eq_true

theorem Holds.exists_append (h : Holds d path) : ∃ rest, path = d ++ rest := by
  rcases h with rfl | rfl | ⟨rest, rfl⟩
  · exact ⟨path, empty_append.symm⟩
  · exact ⟨"", append_empty.symm⟩
  · exact ⟨"/" ++ rest, append_assoc⟩

theorem eq_of_append_of_size_eq {rest : String} (h : e = d ++ rest) (hsize : d.utf8ByteSize = e.utf8ByteSize) :
    d = e := by
  rw [h, utf8ByteSize_append] at hsize
  have hrest : rest = "" := utf8ByteSize_eq_zero_iff.mp (by omega)
  rw [h, hrest, append_empty]

/-- No two directories of the same size hold a path. -/
theorem Holds.eq_of_size_eq (hd : Holds d path) (he : Holds e path) (hsize : d.utf8ByteSize = e.utf8ByteSize) :
    d = e := by
  have hlead {d : String} (h : Holds d path) : d.toList <+: path.toList := by
    obtain ⟨rest, hrest⟩ := h.exists_append
    exact ⟨rest.toList, by rw [hrest, toList_append]⟩
  have happend {d e : String} (h : d.toList <+: e.toList) : ∃ rest, e = d ++ rest := by
    obtain ⟨rest, hrest⟩ := h
    exact ⟨.ofList rest, by rw [← toList_inj, toList_append, toList_ofList, hrest]⟩
  rcases prefix_or_prefix_of_prefix (hlead hd) (hlead he) with h | h
  · obtain ⟨rest, hrest⟩ := happend h
    exact eq_of_append_of_size_eq hrest hsize
  · obtain ⟨rest, hrest⟩ := happend h
    exact (eq_of_append_of_size_eq hrest hsize.symm).symm

/-! ## The entries of a map -/

/-- The name that a directory belongs to. -/
def nameOf? (m : ComponentMap) (d : String) : Option String :=
  (m.entries.find? fun entry => entry.1 == d).map Prod.snd

/-- Every directory stands in the map once. -/
def Distinct (m : ComponentMap) : Prop :=
  (m.entries.map Prod.fst).Nodup

theorem map_fst_insertEntry (d name : String) (entries : List (String × String)) :
    (insertEntry d name entries).map Prod.fst =
      if d ∈ entries.map Prod.fst then entries.map Prod.fst else entries.map Prod.fst ++ [d] := by
  induction entries with
  | nil => rfl
  | cons entry rest ih =>
    rw [insertEntry]
    by_cases heq : entry.1 = d
    · simp [heq]
    · have hne : d ≠ entry.1 := fun h => heq h.symm
      simp only [beq_iff_eq, heq, if_false, map_cons, mem_cons, hne, false_or, ih]
      split <;> rfl

theorem Distinct.insert (h : m.Distinct) (written name : String) : (m.insert written name).Distinct := by
  unfold Distinct ComponentMap.insert at *
  rw [map_fst_insertEntry]
  split
  · exact h
  · next hnew =>
    rw [nodup_append]
    refine ⟨h, pairwise_singleton _ _, ?_⟩
    rintro a ha b hb rfl
    exact hnew (mem_singleton.mp hb ▸ ha)

theorem find?_insertEntry (d name e : String) (entries : List (String × String)) :
    ((insertEntry d name entries).find? fun entry => entry.1 == e).map Prod.snd =
      if d = e then some name else (entries.find? fun entry => entry.1 == e).map Prod.snd := by
  induction entries with
  | nil => by_cases heq : d = e <;> simp [insertEntry, heq]
  | cons entry rest ih =>
    simp only [insertEntry, beq_iff_eq]
    by_cases hd : entry.1 = d
    · by_cases heq : d = e <;> simp [hd, heq]
    · rw [if_neg hd]
      by_cases he : entry.1 = e
      · have hne : d ≠ e := fun h => hd (he.trans h.symm)
        simp [he, hne]
      · simpa [he] using ih

theorem nameOf?_insert (m : ComponentMap) (written name d : String) :
    (m.insert written name).nameOf? d = if directory written = d then some name else m.nameOf? d :=
  find?_insertEntry ..

theorem Distinct.mem_entries_iff (h : m.Distinct) : (d, name) ∈ m.entries ↔ m.nameOf? d = some name :=
  (Sorted.find?_eq_some_iff_mem h).symm

/-! ## The longest entry -/

theorem longest?_eq_none {entries : List (String × String)} : longest? entries = none ↔ entries = [] := by
  cases entries with
  | nil => exact iff_of_true rfl rfl
  | cons entry rest =>
    refine iff_of_false ?_ nofun
    rw [longest?]
    split
    · exact nofun
    · split <;> exact nofun

theorem longest?_eq_some {entry : String × String} (h : longest? entries = some entry) :
    entry ∈ entries ∧ ∀ other ∈ entries, other.1.utf8ByteSize ≤ entry.1.utf8ByteSize := by
  induction entries generalizing entry with
  | nil => cases h
  | cons first rest ih =>
    rw [longest?] at h
    cases hrest : longest? rest with
    | none =>
      rw [hrest] at h
      cases h
      rw [longest?_eq_none.mp hrest]
      simp
    | some best =>
      obtain ⟨hmem, hbest⟩ := ih hrest
      simp only [hrest] at h
      split at h
      · next hle =>
        cases h
        exact ⟨mem_cons_of_mem _ hmem, forall_mem_cons.mpr ⟨hle, hbest⟩⟩
      · next hlt =>
        cases h
        refine ⟨mem_cons_self, forall_mem_cons.mpr ⟨Nat.le_refl _, ?_⟩⟩
        intro other hother
        have hle := hbest other hother
        omega

/-- The name of a path is that of the longest directory which holds it. -/
theorem Distinct.ownerOf?_eq_some (h : m.Distinct) : m.ownerOf? path = some name ↔
    ∃ d, m.nameOf? d = some name ∧ Holds d (stripMany "./" path) ∧
      ∀ e other, m.nameOf? e = some other → Holds e (stripMany "./" path) → e.utf8ByteSize ≤ d.utf8ByteSize := by
  rw [ownerOf?]
  generalize stripMany "./" path = plain
  have hmem (d name : String) :
      (d, name) ∈ m.entries.filter (fun entry => owns entry.1 plain) ↔ m.nameOf? d = some name ∧ Holds d plain := by
    rw [mem_filter, h.mem_entries_iff, owns_eq_true]
  rw [Option.map_eq_some_iff]
  constructor
  · rintro ⟨⟨d, _⟩, hlongest, rfl⟩
    obtain ⟨hin, hmax⟩ := longest?_eq_some hlongest
    obtain ⟨hname, hholds⟩ := (hmem d _).mp hin
    exact ⟨d, hname, hholds, fun e other he hplain => hmax (e, other) ((hmem e other).mpr ⟨he, hplain⟩)⟩
  · rintro ⟨d, hname, hholds, hmax⟩
    have hin := (hmem d name).mpr ⟨hname, hholds⟩
    cases hlongest : longest? (m.entries.filter fun entry => owns entry.1 plain) with
    | none =>
      rw [longest?_eq_none.mp hlongest] at hin
      cases hin
    | some entry =>
      obtain ⟨e, other⟩ := entry
      obtain ⟨hentry, hbest⟩ := longest?_eq_some hlongest
      obtain ⟨hother, hplain⟩ := (hmem e other).mp hentry
      -- Each of the two is at least as long as the other.
      have hsize : d.utf8ByteSize = e.utf8ByteSize := Nat.le_antisymm (hbest _ hin) (hmax e other hother hplain)
      obtain rfl := hholds.eq_of_size_eq hplain hsize
      exact ⟨(d, other), rfl, Option.some.inj (hother.symm.trans hname)⟩

/-! ## Maps made by inserts -/

/-- The map in which directories, as they are written, were given to names one after the other. -/
def ofInserts (inserts : List (String × String)) : ComponentMap :=
  inserts.foldl (fun m i => m.insert i.1 i.2) empty

theorem distinct_ofInserts (inserts : List (String × String)) : (ofInserts inserts).Distinct := by
  refine List.foldlRecOn (motive := Distinct) inserts _ nodup_nil ?_
  intro m hm i _
  exact hm.insert i.1 i.2

theorem nameOf?_foldl_insert (inserts : List (String × String)) (m : ComponentMap) (d : String) :
    (inserts.foldl (fun m i => m.insert i.1 i.2) m).nameOf? d =
      ((inserts.reverse.find? fun i => directory i.1 == d).map Prod.snd).or (m.nameOf? d) := by
  induction inserts generalizing m with
  | nil => rfl
  | cons i rest ih =>
    rw [foldl_cons, ih, nameOf?_insert, reverse_cons, find?_append]
    cases rest.reverse.find? fun i => directory i.1 == d with
    | some last => simp
    | none => by_cases hd : directory i.1 = d <;> simp [hd]

/-- A directory belongs to the name it was given last. -/
theorem nameOf?_ofInserts (inserts : List (String × String)) (d : String) :
    (ofInserts inserts).nameOf? d = (inserts.reverse.find? fun i => directory i.1 == d).map Prod.snd := by
  rw [ofInserts, nameOf?_foldl_insert]
  exact Option.or_none

theorem nameOf?_ofInserts_eq_some : (ofInserts inserts).nameOf? d = some name ↔
    ∃ before written after, inserts = before ++ (written, name) :: after ∧ directory written = d ∧
      ∀ i ∈ after, directory i.1 ≠ d := by
  rw [nameOf?_ofInserts, Option.map_eq_some_iff]
  simp only [find?_eq_some_iff_append, Bool.not_eq_true', beq_eq_false_iff_ne, beq_iff_eq]
  constructor
  · rintro ⟨⟨written, _⟩, ⟨hd, after, before, hsplit, hafter⟩, rfl⟩
    refine ⟨before.reverse, written, after.reverse, ?_, hd, fun i hi => hafter i (mem_reverse.mp hi)⟩
    rw [← reverse_reverse inserts, hsplit]
    simp
  · rintro ⟨before, written, after, rfl, hd, hafter⟩
    refine ⟨(written, name), ⟨hd, after.reverse, before.reverse, by simp, fun i hi => ?_⟩, rfl⟩
    exact hafter i (mem_reverse.mp hi)

theorem exists_nameOf?_ofInserts : (∃ name, (ofInserts inserts).nameOf? d = some name) ↔
    ∃ i ∈ inserts, directory i.1 = d := by
  rw [← Option.isSome_iff_exists, nameOf?_ofInserts, Option.isSome_map, find?_isSome]
  simp only [mem_reverse, beq_iff_eq]

/-- The last insert of the longest directory that holds the path gives the name. -/
def Decides (inserts : List (String × String)) (path name : String) : Prop :=
  ∃ before written after, inserts = before ++ (written, name) :: after ∧ Holds (directory written) path ∧
    (∀ i ∈ inserts, Holds (directory i.1) path → (directory i.1).utf8ByteSize ≤ (directory written).utf8ByteSize) ∧
    ∀ i ∈ after, directory i.1 ≠ directory written

theorem ownerOf?_ofInserts_eq_some :
    (ofInserts inserts).ownerOf? path = some name ↔ Decides inserts (stripMany "./" path) name := by
  rw [(distinct_ofInserts inserts).ownerOf?_eq_some]
  constructor
  · rintro ⟨d, hname, hholds, hmax⟩
    obtain ⟨before, written, after, hsplit, rfl, hafter⟩ := nameOf?_ofInserts_eq_some.mp hname
    refine ⟨before, written, after, hsplit, hholds, ?_, hafter⟩
    intro i hi hheld
    obtain ⟨other, hother⟩ := exists_nameOf?_ofInserts.mpr ⟨i, hi, rfl⟩
    exact hmax _ other hother hheld
  · rintro ⟨before, written, after, hsplit, hholds, hmax, hafter⟩
    refine ⟨directory written, nameOf?_ofInserts_eq_some.mpr ⟨before, written, after, hsplit, rfl, hafter⟩, hholds, ?_⟩
    intro e other hother hheld
    obtain ⟨i, hi, rfl⟩ := exists_nameOf?_ofInserts.mp ⟨other, hother⟩
    exact hmax i hi hheld

theorem ownerOf?_ofInserts_eq_none : (ofInserts inserts).ownerOf? path = none ↔
    ∀ i ∈ inserts, ¬Holds (directory i.1) (stripMany "./" path) := by
  rw [ownerOf?, Option.map_eq_none_iff, longest?_eq_none, filter_eq_nil_iff]
  simp only [owns_eq_true]
  constructor
  · intro h i hi
    obtain ⟨name, hname⟩ := exists_nameOf?_ofInserts.mpr ⟨i, hi, rfl⟩
    exact h (directory i.1, name) ((distinct_ofInserts inserts).mem_entries_iff.mpr hname)
  · rintro h ⟨d, name⟩ hmem
    obtain ⟨i, hi, rfl⟩ :=
      exists_nameOf?_ofInserts.mp ⟨name, (distinct_ofInserts inserts).mem_entries_iff.mp hmem⟩
    exact h i hi

theorem reverse_find?_congr {α : Type} {p : α → Bool} {l l' : List α} (h : l.filter p = l'.filter p) :
    l.reverse.find? p = l'.reverse.find? p := by
  rw [← head?_filter, ← head?_filter, filter_reverse, filter_reverse, h]

/-- Each directory stands in the map once, and a path belongs to the name that was given last to the longest directory
that holds it, to none if no directory does. So only the order of the inserts for one directory matters: two runs of
inserts that agree on those answer alike. -/
theorem owner_is_longest_directory (inserts : List (String × String)) :
    ((ofInserts inserts).entries.map Prod.fst).Nodup ∧
      (∀ path name, (ofInserts inserts).ownerOf? path = some name ↔ Decides inserts (stripMany "./" path) name) ∧
      (∀ path, (ofInserts inserts).ownerOf? path = none ↔
        ∀ i ∈ inserts, ¬Holds (directory i.1) (stripMany "./" path)) ∧
      ∀ others : List (String × String),
        (∀ d, inserts.filter (fun i => directory i.1 == d) = others.filter fun i => directory i.1 == d) →
          ∀ path, (ofInserts inserts).ownerOf? path = (ofInserts others).ownerOf? path := by
  refine ⟨distinct_ofInserts inserts, fun _ _ => ownerOf?_ofInserts_eq_some, fun _ => ownerOf?_ofInserts_eq_none, ?_⟩
  intro others hsame path
  have hnames (d : String) : (ofInserts inserts).nameOf? d = (ofInserts others).nameOf? d := by
    rw [nameOf?_ofInserts, nameOf?_ofInserts, reverse_find?_congr (hsame d)]
  ext name
  rw [(distinct_ofInserts inserts).ownerOf?_eq_some, (distinct_ofInserts others).ownerOf?_eq_some]
  simp only [hnames]

/-- The directories of a shop, one of them given away twice. -/
def shopInserts : List (String × String) :=
  [("src/", "App"), ("./src/Billing", "Billing"), ("src/Billing/Invoice", "Invoicing"), ("src\\Billing/", "Payments")]

/-- The same with the different directories in another order. -/
def shopInsertsMoved : List (String × String) :=
  [("src/Billing/Invoice", "Invoicing"), ("./src/Billing", "Billing"), ("src\\Billing/", "Payments"), ("src/", "App")]

theorem owner_is_longest_directory_shop :
    (∀ d, shopInserts.filter (fun i => directory i.1 == d) = shopInsertsMoved.filter fun i => directory i.1 == d) ∧
      Decides shopInserts "src/Billing/Pay.php" "Payments" ∧
      (ofInserts shopInsertsMoved).ownerOf? "./src/Billing/Pay.php" = some "Payments" ∧
      (ofInserts shopInserts).ownerOf? "srcs/Thing.php" = none := by
  have hsame (d : String) : shopInserts.filter (fun i => directory i.1 == d) =
      shopInsertsMoved.filter fun i => directory i.1 == d := by
    have hdirectories : directory "src/" = "src" ∧ directory "./src/Billing" = "src/Billing" ∧
        directory "src\\Billing/" = "src/Billing" ∧ directory "src/Billing/Invoice" = "src/Billing/Invoice" := by
      decide +kernel
    obtain ⟨hsrc, hbilling, hagain, hinvoice⟩ := hdirectories
    simp only [shopInserts, shopInsertsMoved, List.filter_cons, List.filter_nil, hsrc, hbilling, hagain, hinvoice,
      beq_iff_eq]
    by_cases h₁ : "src" = d
    · subst h₁
      decide
    · by_cases h₂ : "src/Billing" = d
      · subst h₂
        decide
      · simp only [h₁, h₂, if_false]
  obtain ⟨-, howner, hnone, horder⟩ := owner_is_longest_directory shopInserts
  have hpay : (ofInserts shopInserts).ownerOf? "./src/Billing/Pay.php" = some "Payments" := by decide +kernel
  have hplain : stripMany "./" "./src/Billing/Pay.php" = "src/Billing/Pay.php" := by decide +kernel
  refine ⟨hsame, hplain ▸ (howner _ _).mp hpay, ?_, (hnone _).mpr (by decide +kernel)⟩
  rw [← horder shopInsertsMoved hsame, hpay]

end ComponentMap

end EventAtlas
