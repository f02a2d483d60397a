import EventAtlas.Inference.Classes
import EventAtlas.Inference.Operators
import EventAtlas.Proofs.Doc.Names
import EventAtlas.Proofs.Forest.Arena
import EventAtlas.Proofs.Typing.Keyed

/-!
# Types that point at what they name

A type may point at a declaration, and so may the types of its keys and elements (`Ty.Part`). It is bound if every one
of these points at a class-like of its own name, up to ASCII case and the normal form of names (`Index.Binds`). Sets of
types are bound if their entries are, each kept under its name (`Index.BindsAll`); the name matters because an entry
takes over the declaration of a newcomer that has the same letters (`BindsAll.add`).

Everything that is done to types and sets on the way to an answer keeps this, and so does the meaning of a documented
type if the meaning of its names does (`bindsAll_types`).
-/

namespace EventAtlas

open List

/-! ## Names up to case -/

namespace Text

variable {s : String}

theorem toList_lower (s : String) : (lower s).toList = s.toList.map Char.toLower :=
  String.toList_ofList

/-- Characters that are no letters are found in small letters where they are found at all. -/
theorem isSome_stripChars?_map {head : List Char} (hhead : ∀ c ∈ head, c.isAlpha = false) (text : List Char) :
    (stripChars? head (text.map Char.toLower)).isSome = (stripChars? head text).isSome := by
  induction head generalizing text with
  | nil => rfl
  | cons c head ih =>
    obtain ⟨hc, hhead⟩ := forall_mem_cons.mp hhead
    cases text with
    | nil => rfl
    | cons d text =>
      have hiff : c = d.toLower ↔ c = d := by rw [eq_comm, toLower_eq_iff hc, eq_comm]
      rw [map_cons, stripChars?, stripChars?]
      simp only [hiff]
      split
      · exact ih hhead text
      · rfl

theorem endsWith_lower {tail : String} (htail : (tail.toList.all fun c => !c.isAlpha) = true) (s : String) :
    endsWith tail (lower s) = endsWith tail s := by
  have hchars : ∀ c ∈ tail.toList.reverse, c.isAlpha = false := by simpa using htail
  rw [endsWith, toList_lower, ← map_reverse, isSome_stripChars?_map hchars, endsWith]

end Text

namespace Ty

open Text

theorem lower_baseName (t : Ty) : lower t.baseName = baseName { name := lower t.name } := by
  have hcomp : (· != '<') ∘ Char.toLower = (· != '<') := by
    funext c
    rw [Function.comp_apply, Bool.eq_iff_iff, bne_iff_ne, bne_iff_ne, Ne, Ne, toLower_eq_iff rfl]
  have hhead : String.ofList ((lower t.name).toList.takeWhile (· != '<')) =
      lower (String.ofList (t.name.toList.takeWhile (· != '<'))) := by
    rw [toList_lower, takeWhile_map, hcomp, lower, String.toList_ofList]
  unfold baseName
  dsimp only
  rw [hhead, endsWith_lower (by decide)]
  split <;> rfl

theorem lower_baseName_congr {t u : Ty} (h : lower t.name = lower u.name) : lower t.baseName = lower u.baseName := by
  rw [lower_baseName, h, lower_baseName]

/-- Type arguments do not belong to the base name. -/
theorem baseName_generic (base : Ty) (key : Option Ty) (element : Ty) :
    (generic base key element).baseName = base.baseName := by
  have htake (l rest : List Char) : (l ++ '<' :: rest).takeWhile (· != '<') = l.takeWhile (· != '<') := by
    induction l with
    | nil => rfl
    | cons c l ih => rw [cons_append, takeWhile_cons, takeWhile_cons, ih]
  unfold baseName generic
  simp only [String.append_assoc, String.toList_append]
  exact congrArg (fun head => if endsWith "[]" (String.ofList head) then "array" else String.ofList head) (htake _ _)

/-- A name without brackets is its own base name. -/
theorem baseName_of_forall_ne {t : Ty} (h : ∀ c ∈ t.name.toList, c ≠ '<' ∧ c ≠ ']') : t.baseName = t.name := by
  have hhead : t.name.toList.takeWhile (· != '<') = t.name.toList :=
    takeWhile_eq_self_iff.mpr fun c hc => bne_iff_ne.mpr (h c hc).1
  have hend : endsWith "[]" t.name = false := by
    rw [endsWith]
    cases hrev : t.name.toList.reverse with
    | nil => rfl
    | cons c rest =>
      have hmem : c ∈ t.name.toList := mem_reverse.mp (hrev ▸ mem_cons_self)
      have hne : ']' ≠ c := (h c hmem).2.symm
      rw [show "[]".toList.reverse = [']', '['] from rfl, stripChars?, if_neg hne]
      rfl
  unfold baseName
  dsimp only
  rw [hhead, String.ofList_toList, hend]
  rfl

/-! ## Parts -/

/-- `u` is the type itself, or a part of the type of its keys or elements. -/
inductive Part (u : Ty) : Ty → Prop
  | self : Part u u
  | key {t k : Ty} (hk : t.key = some k) (h : Part u k) : Part u t
  | element {t e : Ty} (he : t.element = some e) (h : Part u e) : Part u t

end Ty

namespace Index

open Text

variable {x : Index} {t : Ty} {d : NodeId} {name : String}

/-! ## Bound types -/

/-- The node is a class-like, and this is the normal form of its qualified name, up to ASCII case. -/
def IsNamed (x : Index) (d : NodeId) (name : String) : Prop :=
  (x.forest.kind d).isClassLike = true ∧
    ∃ fqn, x.forest.resolvedName d = some fqn ∧ sameLetters name (Typing.normalize fqn) = true

theorem IsNamed.congr {other : String} (h : x.IsNamed d name) (hname : lower name = lower other) :
    x.IsNamed d other := by
  obtain ⟨hclass, fqn, hfqn, hsame⟩ := h
  refine ⟨hclass, fqn, hfqn, ?_⟩
  rwa [sameLetters, ← hname]

/-- Wherever the type or a part of it points, a class-like of this name is declared. -/
def Binds (x : Index) (t : Ty) : Prop :=
  ∀ u : Ty, u.Part t → ∀ d, u.declaration = some d → x.IsNamed d u.baseName

theorem binds_of_parts (hself : ∀ d, t.declaration = some d → x.IsNamed d t.baseName)
    (hkey : ∀ k, t.key = some k → x.Binds k) (helement : ∀ e, t.element = some e → x.Binds e) : x.Binds t := by
  intro u hu
  cases hu with
  | self => exact hself
  | key hk h => exact hkey _ hk u h
  | element he h => exact helement _ he u h

theorem Binds.key {k : Ty} (h : x.Binds t) (hk : t.key = some k) : x.Binds k :=
  fun u hu => h u (.key hk hu)

theorem Binds.element {e : Ty} (h : x.Binds t) (he : t.element = some e) : x.Binds e :=
  fun u hu => h u (.element he hu)

theorem binds_named (x : Index) (name : String) : x.Binds (.named name) :=
  binds_of_parts nofun nofun nofun

theorem binds_unknown (x : Index) (origin : String) : x.Binds (.unknown origin) :=
  binds_of_parts nofun nofun nofun

theorem Binds.arrayOf (h : x.Binds t) : x.Binds (.arrayOf t) :=
  binds_of_parts nofun nofun fun _ he => Option.some.inj he ▸ h

theorem Binds.mapOf {k : Ty} (hk : x.Binds k) (h : x.Binds t) : x.Binds (.mapOf k t) :=
  binds_of_parts nofun (fun _ he => Option.some.inj he ▸ hk) fun _ he => Option.some.inj he ▸ h

theorem Binds.generic {base : Ty} {k : Option Ty} (hbase : x.Binds base) (hk : ∀ t, k = some t → x.Binds t)
    (h : x.Binds t) : x.Binds (.generic base k t) := by
  refine binds_of_parts (fun d hd => ?_) hk fun _ he => Option.some.inj he ▸ h
  rw [Ty.baseName_generic]
  exact hbase base .self d hd

/-- An entry may take over the declaration of a type that has the same letters. -/
theorem Binds.bindDeclaration {entry : Ty} (hentry : x.Binds entry) (ht : x.Binds t)
    (hname : lower t.name = lower entry.name) : x.Binds (TypeSet.bindDeclaration t entry) := by
  unfold TypeSet.bindDeclaration
  split
  · refine binds_of_parts (fun d hd => ?_) (fun _ hk => hentry.key hk) fun _ he => hentry.element he
    exact (ht t .self d hd).congr (Ty.lower_baseName_congr hname)
  · exact hentry

/-! ## Bound sets -/

/-- The types of the set are bound, and each stands under its name. -/
def BindsAll (x : Index) (s : TypeSet) : Prop :=
  ∀ e ∈ s.types.entries, e.1 = e.2.name ∧ x.Binds e.2

namespace BindsAll

variable {s s' : TypeSet}

variable (h : x.BindsAll s)
include h

theorem binds (ht : t ∈ s.toList) : x.Binds t := by
  obtain ⟨e, he, rfl⟩ := mem_map.mp ht
  exact (h e he).2

theorem add (ht : x.Binds t) : x.BindsAll (s.add t) := by
  unfold TypeSet.add
  split
  · next key hkey =>
    intro e he
    obtain ⟨e', he', rfl⟩ := mem_map.mp he
    obtain ⟨hname, hbinds⟩ := h e' he'
    split
    · next heq =>
      have hlower : lower t.name = lower e'.2.name := by
        rw [← hname, beq_iff_eq.mp heq, (TypeSet.keyOf?_eq_some hkey).2]
      refine ⟨?_, hbinds.bindDeclaration ht hlower⟩
      unfold TypeSet.bindDeclaration
      split <;> exact hname
    · exact ⟨hname, hbinds⟩
  · intro e he
    obtain rfl | he := Sorted.mem_insertEntry he
    · exact ⟨rfl, ht⟩
    · exact h e he

theorem foldl_add {ts : List Ty} (hts : ∀ t ∈ ts, x.Binds t) : x.BindsAll (ts.foldl TypeSet.add s) :=
  foldlRecOn ts _ h fun _ hs t ht => hs.add (hts t ht)

theorem union (h' : x.BindsAll s') : x.BindsAll (s.union s') :=
  h.foldl_add fun _ ht => h'.binds ht

end BindsAll

theorem bindsAll_empty (x : Index) : x.BindsAll {} :=
  nofun

theorem bindsAll_ofList {ts : List Ty} (h : ∀ t ∈ ts, x.Binds t) : x.BindsAll (.ofList ts) :=
  (bindsAll_empty x).foldl_add h

theorem bindsAll_singleton (h : x.Binds t) : x.BindsAll (.singleton t) :=
  (bindsAll_empty x).add h

theorem bindsAll_ofName (x : Index) (name : String) : x.BindsAll (.ofName name) :=
  bindsAll_singleton (binds_named x name)

theorem bindsAll_unknown (x : Index) (origin : String) : x.BindsAll (.unknown origin) :=
  bindsAll_singleton (binds_unknown x origin)

theorem bindsAll_named (x : Index) (names : List String) : x.BindsAll (.ofList (names.map .named)) := by
  refine bindsAll_ofList fun t ht => ?_
  obtain ⟨name, -, rfl⟩ := mem_map.mp ht
  exact binds_named x name

theorem bindsAll_arraysOf {ts : List Ty} (h : ∀ t ∈ ts, x.Binds t) : x.BindsAll (.ofList (ts.map .arrayOf)) := by
  refine bindsAll_ofList fun t ht => ?_
  obtain ⟨element, helement, rfl⟩ := mem_map.mp ht
  exact (h element helement).arrayOf

namespace BindsAll

variable {s s' : TypeSet}

variable (h : x.BindsAll s)
include h

theorem filter (p : Ty → Bool) : ∀ t ∈ s.toList.filter p, x.Binds t :=
  fun _ ht => h.binds (mem_filter.mp ht).1

theorem known : x.BindsAll s.known :=
  bindsAll_ofList (h.filter _)

theorem withoutNull : x.BindsAll s.withoutNull :=
  bindsAll_ofList (h.filter _)

theorem elements : x.BindsAll s.elements := by
  refine bindsAll_ofList fun e he => ?_
  obtain ⟨t, ht, he⟩ := mem_filterMap.mp he
  exact (h.binds ht).element he

theorem keys : x.BindsAll s.keys := by
  refine bindsAll_ofList fun k hk => ?_
  obtain ⟨t, ht, hk⟩ := mem_filterMap.mp hk
  exact (h.binds ht).key hk

/-- Where a type of the set was declared by a method's class, a bound receiver may take its place. -/
theorem lateBound {receiver : Ty} (hreceiver : x.Binds receiver) (method : NodeId) :
    x.BindsAll (x.lateBound method s receiver) := by
  unfold Index.lateBound
  split
  · exact h
  · split
    · refine bindsAll_ofList fun t ht => ?_
      obtain ⟨t', ht', rfl⟩ := mem_map.mp ht
      split
      · exact hreceiver
      · exact h.binds ht'
    · exact h

end BindsAll

/-! ## Operations -/

theorem bindsAll_number (x : Index) : x.BindsAll Operation.number :=
  bindsAll_named x ["int", "float"]

theorem bindsAll_arithmetic (x : Index) (op : String) (left right : TypeSet) :
    x.BindsAll (Operation.arithmetic op left right) := by
  unfold Operation.arithmetic
  split
  · exact bindsAll_ofName x _
  split
  · exact bindsAll_ofName x _
  split
  · exact bindsAll_ofName x _
  · exact bindsAll_number x

/-- What the sign of an operation says about its result is bound. -/
theorem bindsAll_of_binary {op : String} {types : TypeSet} (h : Operation.binary op = .fixed types) :
    x.BindsAll types := by
  have hname {name : String} (h : Operation.Result.fixed (.ofName name) = .fixed types) : x.BindsAll types :=
    Operation.Result.fixed.inj h ▸ bindsAll_ofName x name
  unfold Operation.binary at h
  split at h
  · exact hname h
  split at h
  · exact hname h
  split at h
  · exact hname h
  split at h
  · exact Operation.Result.fixed.inj h ▸ bindsAll_number x
  split at h
  · exact hname h
  split at h <;> cases h

theorem bindsAll_of_compound {op : String} {types : TypeSet} (h : Operation.compound op = .fixed types) :
    x.BindsAll types := by
  unfold Operation.compound at h
  split at h
  · exact Operation.Result.fixed.inj h ▸ bindsAll_ofName x _
  split at h
  · exact Operation.Result.fixed.inj h ▸ bindsAll_number x
  split at h
  · exact Operation.Result.fixed.inj h ▸ bindsAll_ofName x _
  split at h <;> cases h

theorem bindsAll_cast (x : Index) (target : String) : x.BindsAll (Operation.cast target) := by
  unfold Operation.cast
  split
  · exact bindsAll_ofName x _
  · exact bindsAll_ofName x _
  · split
    · exact bindsAll_ofName x _
    · exact bindsAll_empty x

/-! ## Documented types -/

open DocType

theorem bindsAll_of_nativeTypes? {types : TypeSet} (h : nativeTypes? name = some types) : x.BindsAll types := by
  unfold nativeTypes? at h
  dsimp only at h
  split at h
  · exact Option.some.inj h ▸ bindsAll_ofName x _
  split at h
  · exact Option.some.inj h ▸ bindsAll_ofName x _
  split at h
  · exact Option.some.inj h ▸ bindsAll_named x ["int", "string"]
  split at h
  · exact Option.some.inj h ▸ bindsAll_ofName x _
  · obtain ⟨native, -, rfl⟩ := Option.map_eq_some_iff.mp h
    exact bindsAll_ofName x native

theorem bindsAll_of_refined? {types : TypeSet} (h : refined? name = some types) : x.BindsAll types := by
  unfold refined? at h
  dsimp only at h
  split at h
  · exact Option.some.inj h ▸ bindsAll_ofName x _
  split at h
  · exact Option.some.inj h ▸ bindsAll_ofName x _
  · cases h

theorem bindsAll_containers {make : Option Ty → Ty → Ty} {keys : Option TypeSet} {elements : TypeSet}
    (hmake : ∀ k t, (∀ t', k = some t' → x.Binds t') → x.Binds t → x.Binds (make k t))
    (hkeys : ∀ s, keys = some s → x.BindsAll s) (h : x.BindsAll elements) :
    x.BindsAll (containers make keys elements) := by
  refine bindsAll_ofList fun t ht => ?_
  obtain ⟨element, helement, ht⟩ := mem_flatMap.mp ht
  cases keys with
  | none =>
    rw [mem_singleton.mp ht]
    exact hmake none element nofun (h.binds helement)
  | some keys =>
    obtain ⟨key, hkey, rfl⟩ := mem_map.mp ht
    exact hmake (some key) element (fun _ hk => Option.some.inj hk ▸ (hkeys keys rfl).binds hkey) (h.binds helement)

theorem binds_arrayType (k : Option Ty) (t : Ty) (hk : ∀ t', k = some t' → x.Binds t') (h : x.Binds t) :
    x.Binds (arrayType k t) := by
  cases k with
  | none => exact h.arrayOf
  | some key => exact (hk key rfl).mapOf h

section Types

variable {p : String → Prop} {resolve : String → Ty} (hresolve : ∀ name, p name → x.Binds (resolve name))
include hresolve

theorem bindsAll_nameTypes (hname : p name) : x.BindsAll (DocType.nameTypes (m := Id) resolve name).run := by
  unfold DocType.nameTypes
  split
  · next types hnative => exact bindsAll_of_nativeTypes? hnative
  · exact bindsAll_singleton (hresolve name hname)

omit hresolve in
theorem bindsAll_typesOf {parts : List DocType} (h : ∀ t ∈ parts, x.BindsAll (t.types (m := Id) resolve).run) :
    ∀ s ∈ (types.typesOf (m := Id) resolve parts).run, x.BindsAll s := by
  induction parts with
  | nil => exact nofun
  | cons t rest ih =>
    obtain ⟨ht, hrest⟩ := forall_mem_cons.mp h
    exact forall_mem_cons.mpr ⟨ht, ih hrest⟩

omit hresolve in
theorem bindsAll_foldl_union {sets : List TypeSet} {s : TypeSet} (hs : x.BindsAll s) (h : ∀ s ∈ sets, x.BindsAll s) :
    x.BindsAll (sets.foldl TypeSet.union s) :=
  foldlRecOn sets _ hs fun _ hs s' hs' => hs.union (h s' hs')

omit hresolve in
theorem bindsAll_lastTypes {args : List DocType} (h : ∀ t ∈ args, x.BindsAll (t.types (m := Id) resolve).run)
    {s : TypeSet} (hs : (types.lastTypes (m := Id) resolve args).run = some s) : x.BindsAll s := by
  induction args with
  | nil => cases hs
  | cons t rest ih =>
    obtain ⟨ht, hrest⟩ := forall_mem_cons.mp h
    cases rest with
    | nil => exact Option.some.inj hs ▸ ht
    | cons t' rest => exact ih hrest hs

omit hresolve in
theorem bindsAll_firstTypes {args : List DocType} (h : ∀ t ∈ args, x.BindsAll (t.types (m := Id) resolve).run)
    {s : TypeSet} (hs : (types.firstTypes (m := Id) resolve args).run = some s) : x.BindsAll s := by
  match args with
  | [] | [_] => cases hs
  | t :: _ :: _ => exact Option.some.inj hs ▸ h t mem_cons_self

/-- A documented type means bound types if all its names do. -/
theorem bindsAll_types {doc : DocType} (h : doc.AllNames p) : x.BindsAll (doc.types (m := Id) resolve).run := by
  induction h with
  | named hname => exact bindsAll_nameTypes hresolve hname
  | nullable _ ih => exact ih.add (binds_named x "null")
  | union _ ih => exact bindsAll_foldl_union (bindsAll_empty x) (bindsAll_typesOf ih)
  | intersection _ ih => exact bindsAll_foldl_union (bindsAll_empty x) (bindsAll_typesOf ih)
  | array _ ih => exact bindsAll_arraysOf fun _ ht => ih.binds ht
  | @generic base args hbase _ ih =>
    unfold DocType.types
    split
    · next types hrefined => exact bindsAll_of_refined? hrefined
    · cases hlast : (types.lastTypes (m := Id) resolve args).run with
      | none =>
        have hnone : types.lastTypes (m := Id) resolve args = pure none := hlast
        rw [hnone]
        exact bindsAll_nameTypes hresolve hbase
      | some elements =>
        have hsome : types.lastTypes (m := Id) resolve args = pure (some elements) := hlast
        rw [hsome]
        have helements := bindsAll_lastTypes ih hlast
        have hkeys : ∀ s, (types.firstTypes (m := Id) resolve args).run = some s → x.BindsAll s :=
          fun s => bindsAll_firstTypes ih
        simp only [Id.run_bind, pure_bind]
        split
        · exact bindsAll_containers binds_arrayType hkeys helements
        · exact bindsAll_containers (fun k t hk ht => (hresolve base hbase).generic hk ht) hkeys helements

end Types

end Index

end EventAtlas
