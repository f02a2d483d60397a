import EventAtlas.Sorted

/-!
# Sorted maps

What `find?` gives after each change of a map, for which the entries need not be in order; and that every change keeps
the order of the keys. Maps in order are the same if they have the same entries.
-/

namespace EventAtlas.Sorted

open List

variable {κ α : Type} [Ord κ] [BEq κ] [LawfulBEq κ] [Std.LawfulEqOrd κ] {k : κ} {entries : List (κ × α)}

theorem find?_insert_self (m : Sorted κ α) (k : κ) (v : α) : (m.insert k v).find? k = some v := by
  obtain ⟨entries⟩ := m
  simp only [insert, find?]
  induction entries with
  | nil => simp [insertEntry]
  | cons e rest ih =>
    unfold insertEntry
    cases h : compare k e.1 with
    | lt => simp
    | eq => simp
    | gt =>
      have hne : e.1 ≠ k := by
        rintro rfl
        simp [Std.ReflCmp.compare_self] at h
      simpa [hne] using ih

theorem find?_insert_of_ne (m : Sorted κ α) {k' : κ} (v : α) (hne : k' ≠ k) : (m.insert k v).find? k' = m.find? k' := by
  obtain ⟨entries⟩ := m
  simp only [insert, find?]
  induction entries with
  | nil => simp [insertEntry, Ne.symm hne]
  | cons e rest ih =>
    unfold insertEntry
    cases h : compare k e.1 with
    | lt => simp [Ne.symm hne]
    | eq =>
      have heq : k = e.1 := Std.LawfulEqCmp.eq_of_compare h
      simp [Ne.symm hne, ← heq]
    | gt =>
      by_cases he : e.1 = k'
      · simp [he]
      · simpa [he] using ih

theorem find?_foldl_insert (entries : List (κ × α)) (m : Sorted κ α) (k : κ) :
    (entries.foldl (fun m e => m.insert e.1 e.2) m).find? k =
      ((entries.reverse.find? fun e => e.1 == k).map Prod.snd).or (m.find? k) := by
  induction entries generalizing m with
  | nil => rfl
  | cons e rest ih =>
    rw [foldl_cons, ih, reverse_cons, find?_append]
    by_cases hk : k = e.1
    · subst hk
      cases rest.reverse.find? fun d => d.1 == e.1 <;> simp [find?_insert_self]
    · cases rest.reverse.find? fun d => d.1 == k <;> simp [find?_insert_of_ne m e.2 hk, Ne.symm hk]

/-- Of several entries for one key the last one counts. -/
theorem find?_ofList (entries : List (κ × α)) (k : κ) :
    (ofList entries).find? k = (entries.reverse.find? fun e => e.1 == k).map Prod.snd := by
  rw [ofList, find?_foldl_insert]
  exact Option.or_none

omit [Ord κ] [LawfulBEq κ] [Std.LawfulEqOrd κ] in
theorem find?_erase_self (m : Sorted κ α) (k : κ) : (m.erase k).find? k = none := by
  rw [find?, erase, Option.map_eq_none_iff, find?_eq_none]
  intro e he
  simpa using (mem_filter.mp he).2

omit [Ord κ] [Std.LawfulEqOrd κ] in
theorem find?_erase_of_ne (m : Sorted κ α) {k' : κ} (hne : k' ≠ k) : (m.erase k).find? k' = m.find? k' := by
  rw [find?, find?, erase, find?_filter]
  congr 2
  funext e
  by_cases heq : e.1 = k'
  · simp [heq, hne]
  · simp [heq]

omit [Ord κ] [LawfulBEq κ] [Std.LawfulEqOrd κ] in
theorem contains_eq_isSome_find? (m : Sorted κ α) (k : κ) : m.contains k = (m.find? k).isSome := by
  rw [Bool.eq_iff_iff, contains, find?, Option.isSome_map, find?_isSome, any_eq_true]

omit [Ord κ] [Std.LawfulEqOrd κ] in
/-- Of entries with distinct keys, the one of a key is found. -/
theorem find?_eq_some_iff_mem (h : (entries.map Prod.fst).Nodup) {v : α} :
    (entries.find? fun e => e.1 == k).map Prod.snd = some v ↔ (k, v) ∈ entries := by
  induction entries with
  | nil => exact iff_of_false nofun nofun
  | cons e rest ih =>
    obtain ⟨hnew, hrest⟩ := nodup_cons.mp h
    by_cases hk : e.1 = k
    · have hlast : (k, v) ∉ rest := fun hmem => hnew (hk ▸ mem_map_of_mem hmem)
      rw [find?_cons_of_pos (by simp [hk]), Option.map_some, Option.some.injEq, mem_cons, or_iff_left hlast,
        Prod.ext_iff, and_iff_right hk.symm, eq_comm]
    · have hne : (k, v) ≠ e := fun heq => hk (heq ▸ rfl)
      rw [find?_cons_of_neg (by simp [hk]), ih hrest, mem_cons, or_iff_right hne]

omit [BEq κ] [LawfulBEq κ] [Std.LawfulEqOrd κ] in
theorem mem_insertEntry {v : α} {e : κ × α} (h : e ∈ insertEntry k v entries) : e = (k, v) ∨ e ∈ entries := by
  induction entries with
  | nil => exact .inl (mem_singleton.mp h)
  | cons d rest ih =>
    unfold insertEntry at h
    split at h <;> grind

omit [BEq κ] [LawfulBEq κ] in
/-- A new key comes with one entry more. -/
theorem perm_insertEntry {v : α} (h : ∀ e ∈ entries, e.1 ≠ k) : (insertEntry k v entries).Perm ((k, v) :: entries) := by
  induction entries with
  | nil => exact .refl _
  | cons e rest ih =>
    obtain ⟨he, hrest⟩ := forall_mem_cons.mp h
    unfold insertEntry
    cases hc : compare k e.1 with
    | lt => exact .refl _
    | eq => exact absurd (Std.LawfulEqCmp.eq_of_compare hc).symm he
    | gt => exact ((ih hrest).cons e).trans (.swap ..)

omit [Ord κ] [LawfulBEq κ] [Std.LawfulEqOrd κ] in
theorem keys_adjust (m : Sorted κ α) (k : κ) (f : α → α) : (m.adjust k f).keys = m.keys := by
  rw [keys, adjust, map_map, keys]
  apply map_congr_left
  intro e _
  rw [Function.comp_apply]
  split <;> rfl

/-! ## Properties of all values -/

/-- Every value of the map satisfies `p`. -/
def All (p : α → Prop) (m : Sorted κ α) : Prop :=
  ∀ e ∈ m.entries, p e.2

section All

variable {p : α → Prop} {m : Sorted κ α}

omit [BEq κ] [LawfulBEq κ] [Std.LawfulEqOrd κ] in
theorem All.insert (h : m.All p) (k : κ) {v : α} (hv : p v) : (m.insert k v).All p := by
  intro e he
  obtain rfl | he := mem_insertEntry he
  · exact hv
  · exact h e he

omit [Ord κ] [LawfulBEq κ] [Std.LawfulEqOrd κ] in
theorem All.find? (h : m.All p) {k : κ} {v : α} (hv : m.find? k = some v) : p v := by
  obtain ⟨e, he, rfl⟩ := Option.map_eq_some_iff.mp hv
  exact h e (mem_of_find?_eq_some he)

omit [Ord κ] [LawfulBEq κ] [Std.LawfulEqOrd κ] in
theorem All.erase (h : m.All p) (k : κ) : (m.erase k).All p :=
  fun e he => h e (mem_filter.mp he).1

end All

/-! ## Order -/

section Order

variable {κ α : Type} [Ord κ] [Std.TransOrd κ] {m : Sorted κ α}

/-- The keys ascend strictly. -/
def Ordered (m : Sorted κ α) : Prop :=
  m.entries.Pairwise fun d e => compare d.1 e.1 = .lt

instance (m : Sorted κ α) : Decidable m.Ordered :=
  inferInstanceAs (Decidable (m.entries.Pairwise _))

omit [Std.TransOrd κ] in
theorem ordered_empty : (empty : Sorted κ α).Ordered :=
  List.Pairwise.nil

variable (h : m.Ordered)
include h

theorem Ordered.nodup_keys : m.keys.Nodup := by
  rw [keys, List.Nodup, pairwise_map]
  refine List.Pairwise.imp ?_ h
  intro d e hlt heq
  simp [heq, Std.ReflCmp.compare_self] at hlt

theorem Ordered.find?_eq_some_iff [BEq κ] [LawfulBEq κ] {k : κ} {v : α} : m.find? k = some v ↔ (k, v) ∈ m.entries :=
  find?_eq_some_iff_mem h.nodup_keys

theorem Ordered.insert [Std.LawfulEqOrd κ] (k : κ) (v : α) : (m.insert k v).Ordered := by
  obtain ⟨entries⟩ := m
  simp only [Ordered, Sorted.insert] at h ⊢
  induction entries with
  | nil => exact pairwise_singleton _ _
  | cons e rest ih =>
    obtain ⟨hhead, hrest⟩ := pairwise_cons.mp h
    unfold insertEntry
    cases hc : compare k e.1 with
    | lt =>
      refine pairwise_cons.mpr ⟨fun d hd => ?_, h⟩
      rcases mem_cons.mp hd with rfl | hd
      · exact hc
      · exact Std.TransCmp.lt_trans hc (hhead d hd)
    | eq =>
      have heq : k = e.1 := Std.LawfulEqCmp.eq_of_compare hc
      exact pairwise_cons.mpr ⟨heq ▸ hhead, hrest⟩
    | gt =>
      refine pairwise_cons.mpr ⟨fun d hd => ?_, ih hrest⟩
      rcases mem_insertEntry hd with rfl | hd
      · exact Std.OrientedCmp.lt_of_gt hc
      · exact hhead d hd

omit [Std.TransOrd κ] in
theorem Ordered.adjust [BEq κ] (k : κ) (f : α → α) : (m.adjust k f).Ordered := by
  have hkeys : ∀ m : Sorted κ α, m.Ordered ↔ m.keys.Pairwise fun a b => compare a b = .lt := by
    intro m
    rw [Ordered, keys, pairwise_map]
  rw [hkeys, keys_adjust, ← hkeys]
  exact h

omit [Std.TransOrd κ] in
theorem Ordered.erase [BEq κ] (k : κ) : (m.erase k).Ordered :=
  List.Pairwise.filter _ h

/-- Maps in order are the same if they have the same entries. -/
theorem Ordered.eq_of_mem_iff {m' : Sorted κ α} (h' : m'.Ordered)
    (hmem : ∀ e, e ∈ m.entries ↔ e ∈ m'.entries) : m = m' := by
  have hnodup : ∀ {m : Sorted κ α}, m.Ordered → m.entries.Nodup :=
    fun hm => (pairwise_map.mp hm.nodup_keys).imp fun hne heq => hne (congrArg Prod.fst heq)
  have hperm := (perm_ext_iff_of_nodup (hnodup h) (hnodup h')).mpr hmem
  have hentries : m.entries = m'.entries := by
    refine hperm.eq_of_pairwise ?_ h h'
    intro d e _ _ hlt hgt
    rw [Std.OrientedCmp.gt_of_lt hlt] at hgt
    cases hgt
  obtain ⟨entries⟩ := m
  obtain ⟨entries'⟩ := m'
  exact congrArg mk hentries

omit h in
theorem insertEntry_of_forall_lt {k : κ} {v : α} {entries : List (κ × α)} (h : ∀ e ∈ entries, compare e.1 k = .lt) :
    insertEntry k v entries = entries ++ [(k, v)] := by
  induction entries with
  | nil => rfl
  | cons e rest ih =>
    obtain ⟨he, hrest⟩ := forall_mem_cons.mp h
    have hgt : compare k e.1 = .gt := Std.OrientedCmp.gt_of_lt he
    simp only [insertEntry, hgt, ih hrest, cons_append]

omit h in
theorem foldl_insert_of_pairwise {seen entries : List (κ × α)}
    (h : (seen ++ entries).Pairwise fun d e => compare d.1 e.1 = .lt) :
    entries.foldl (fun m e => m.insert e.1 e.2) (⟨seen⟩ : Sorted κ α) = ⟨seen ++ entries⟩ := by
  induction entries generalizing seen with
  | nil => rw [foldl_nil, append_nil]
  | cons e rest ih =>
    have hlast : insertEntry e.1 e.2 seen = seen ++ [e] :=
      insertEntry_of_forall_lt fun d hd => (pairwise_append.mp h).2.2 d hd e mem_cons_self
    have hsplit : seen ++ e :: rest = seen ++ [e] ++ rest := append_cons seen e rest
    rw [foldl_cons, Sorted.insert, hlast, ih (hsplit ▸ h), hsplit]

/-- An ordered map is the map of its own entries. -/
theorem Ordered.ofList_entries : ofList m.entries = m :=
  foldl_insert_of_pairwise h

end Order

end EventAtlas.Sorted
