import EventAtlas.Doc.DocType

/-!
# Names that a documented type asks for

To say what a documented type denotes, one has to know what some of the names in it stand for. Native types and refined
spellings of them are known without asking, and the arguments of a container but the first and the last do not count.
The names that are left are listed in the order in which they are asked for (`DocType.asked`). If what a name stands for
may be refused, the meaning of the whole type is refused just if one of these names is (`DocType.types_answerUnless`).

Two computations of the meaning go the same way, whatever answers them (`DocType.Consults`). So the list can be compared
with what a resolver is in fact asked (`DocType.Consults.noted`). Native names are in it where they are the base of a
container that is not known to be native, and nowhere else (`DocType.native_asked_iff`).
-/

namespace EventAtlas

open List

/-! ## Answers that may be refused -/

/-- An answer, refused under a condition. -/
def answerUnless {α : Type} (refused : Bool) (answer : α) : Option α :=
  if refused then none else some answer

section answerUnless

variable {α β : Type} {refused again : Bool} {a : α}

theorem answerUnless_bind {f : α → Option β} {b : β} (h : f a = answerUnless again b) :
    (answerUnless refused a >>= f) = answerUnless (refused || again) b := by
  cases refused with
  | false => exact h
  | true => rfl

theorem answerUnless_bind_pure (f : α → β) :
    (answerUnless refused a >>= fun x => pure (f x)) = answerUnless refused (f a) := by
  cases refused <;> rfl

theorem answerUnless_eq_none : answerUnless refused a = none ↔ refused = true := by
  cases refused <;> simp [answerUnless]

theorem answerUnless_eq_some {b : α} : answerUnless refused a = some b ↔ refused = false ∧ a = b := by
  cases refused <;> simp [answerUnless]

end answerUnless

namespace DocType

/-- The name of a type, unless it is known what it stands for. -/
def askedName (name : String) : List String :=
  if (nativeTypes? name).isSome then [] else [name]

/-- The names in a type that it has to be known of what they stand for, in the order in which they are asked for. -/
def asked : DocType → List String
  | named name => askedName name
  | nullable inner | array inner => inner.asked
  | union parts | intersection parts => askedOf parts
  | generic base args =>
    if (refined? base).isSome then []
    else if args.isEmpty then askedName base
    else askedLast args ++ (askedFirst args ++ if arrayNames.contains (Text.lower base) then [] else [base])
where
  /-- The names that the parts ask for. -/
  askedOf : List DocType → List String
    | [] => []
    | t :: rest => t.asked ++ askedOf rest
  /-- The names that the last argument asks for. -/
  askedLast : List DocType → List String
    | [] => []
    | [t] => t.asked
    | _ :: rest => askedLast rest
  /-- The names that the first of several arguments asks for. -/
  askedFirst : List DocType → List String
    | t :: _ :: _ => t.asked
    | _ => []

/-- What a name stands for, unless it is refused. -/
def resolveUnless (refuses : String → Bool) (resolve : String → Ty) (name : String) : Option Ty :=
  answerUnless (refuses name) (resolve name)

/-! ## Computations that go the same way -/

section Consults

variable {m n : Type → Type} [Monad m] [Monad n]

/-- Two computations ask for these names, in this order, and go on alike after like answers. -/
inductive Consults (resolve : String → m Ty) (resolve' : String → n Ty) :
    {α : Type} → List String → m α → n α → Prop
  | pure {α : Type} (a : α) : Consults resolve resolve' [] (pure a) (pure a)
  | ask (name : String) : Consults resolve resolve' [name] (resolve name) (resolve' name)
  | bind {α β : Type} {names more : List String} {x : m α} {x' : n α} {k : α → m β} {k' : α → n β}
    (h : Consults resolve resolve' names x x') (hk : ∀ a, Consults resolve resolve' more (k a) (k' a)) :
    Consults resolve resolve' (names ++ more) (x >>= k) (x' >>= k')

/-- Whatever answers it, the meaning of a type asks for the names that are listed for it. -/
def AsksItsNames (resolve : String → m Ty) (resolve' : String → n Ty) (t : DocType) : Prop :=
  Consults resolve resolve' t.asked (t.types resolve) (t.types resolve')

variable {resolve : String → m Ty} {resolve' : String → n Ty} {parts args : List DocType}

theorem Consults.map {α β : Type} {names : List String} {x : m α} {x' : n α} (f : α → β)
    (h : Consults resolve resolve' names x x') :
    Consults resolve resolve' names (x >>= fun a => Pure.pure (f a)) (x' >>= fun a => Pure.pure (f a)) := by
  have hbind := h.bind fun a => .pure (f a)
  rwa [append_nil] at hbind

theorem consults_nameTypes (name : String) :
    Consults resolve resolve' (askedName name) (nameTypes resolve name) (nameTypes resolve' name) := by
  unfold nameTypes askedName
  cases nativeTypes? name with
  | some types => exact .pure types
  | none => exact (Consults.ask name).map TypeSet.singleton

theorem consults_typesOf (h : ∀ t ∈ parts, AsksItsNames resolve resolve' t) :
    Consults resolve resolve' (asked.askedOf parts) (types.typesOf resolve parts) (types.typesOf resolve' parts) := by
  induction parts with
  | nil => exact .pure []
  | cons t rest ih =>
    obtain ⟨ht, hrest⟩ := forall_mem_cons.mp h
    exact ht.bind fun head => (ih hrest).map (head :: ·)

theorem consults_firstTypes (h : ∀ t ∈ args, AsksItsNames resolve resolve' t) :
    Consults resolve resolve' (asked.askedFirst args) (types.firstTypes resolve args)
      (types.firstTypes resolve' args) := by
  match args with
  | [] | [_] => exact .pure none
  | t :: _ :: _ => exact (h t mem_cons_self).map some

variable [LawfulMonad m] [LawfulMonad n]

/-- The last of some arguments has types, so only what follows these matters. -/
theorem consults_lastTypes {β : Type} {more : List String} {k : Option TypeSet → m β} {k' : Option TypeSet → n β}
    (h : ∀ t ∈ args, AsksItsNames resolve resolve' t) (hne : args ≠ [])
    (hk : ∀ s, Consults resolve resolve' more (k (some s)) (k' (some s))) :
    Consults resolve resolve' (asked.askedLast args ++ more) (types.lastTypes resolve args >>= k)
      (types.lastTypes resolve' args >>= k') := by
  induction args with
  | nil => exact absurd rfl hne
  | cons t rest ih =>
    obtain ⟨ht, hrest⟩ := forall_mem_cons.mp h
    cases rest with
    | nil =>
      simp only [types.lastTypes, asked.askedLast, bind_assoc, pure_bind]
      exact ht.bind hk
    | cons t' rest => exact ih hrest (by simp)

theorem consults_generic (base : String) (h : ∀ t ∈ args, AsksItsNames resolve resolve' t) :
    AsksItsNames resolve resolve' (generic base args) := by
  unfold AsksItsNames types asked
  cases refined? base with
  | some types => exact .pure types
  | none =>
    cases args with
    | nil =>
      simp only [types.lastTypes, pure_bind]
      exact consults_nameTypes base
    | cons first rest =>
      refine consults_lastTypes h (by simp) fun elements => (consults_firstTypes h).bind fun keys => ?_
      cases arrayNames.contains (Text.lower base) with
      | true => exact .pure _
      | false => exact (Consults.ask base).map fun container => containers (Ty.generic container) keys elements

theorem consults_types (resolve : String → m Ty) (resolve' : String → n Ty) (t : DocType) :
    AsksItsNames resolve resolve' t := by
  unfold AsksItsNames
  match t with
  | .named name => exact consults_nameTypes name
  | .nullable inner =>
    unfold types asked
    exact (consults_types resolve resolve' inner).map (TypeSet.add · .null)
  | .array element =>
    unfold types asked
    exact (consults_types resolve resolve' element).map fun s => TypeSet.ofList (s.toList.map Ty.arrayOf)
  | .union parts | .intersection parts =>
    unfold types asked
    exact (consults_typesOf fun t _ => consults_types resolve resolve' t).map fun sets =>
      sets.foldl TypeSet.union .empty
  | .generic base args => exact consults_generic base fun t _ => consults_types resolve resolve' t

end Consults

theorem Consults.eq_answerUnless {refuses : String → Bool} {resolve : String → Ty} {α : Type} {names : List String}
    {x : Option α} {y : Id α} (h : Consults (n := Id) (resolveUnless refuses resolve) resolve names x y) :
    x = answerUnless (names.any refuses) y.run := by
  induction h with
  | pure a => rfl
  | ask name =>
    rw [any_cons, any_nil, Bool.or_false]
    rfl
  | bind h hk ih ihk =>
    rw [ih, any_append]
    exact answerUnless_bind (ihk _)

/-- The meaning of a documented type is refused just if one of the names is that it asks for. -/
theorem types_answerUnless (refuses : String → Bool) (resolve : String → Ty) (t : DocType) :
    t.types (resolveUnless refuses resolve) =
      answerUnless (t.asked.any refuses) (t.types (m := Id) resolve).run :=
  (consults_types (n := Id) (resolveUnless refuses resolve) resolve t).eq_answerUnless

/-! ## Native names -/

/-- What answers for a name notes down the name. -/
def noting {m : Type → Type} [Monad m] (resolve : String → m Ty) (name : String) : StateT (List String) m Ty :=
  fun noted => do return (← resolve name, noted ++ [name])

theorem Consults.noted {m : Type → Type} [Monad m] [LawfulMonad m] {resolve : String → m Ty} {α : Type}
    {names : List String} {x : StateT (List String) m α} {y : m α} (h : Consults (noting resolve) resolve names x y)
    (noted : List String) : x.run noted = do return (← y, noted ++ names) := by
  induction h generalizing noted with
  | pure a => simp
  | ask name => rfl
  | bind h hk ih ihk => simp [ih, ihk]

/-- The types inside of a type that count for its meaning: all its parts, but of the arguments of a container the first
and the last alone, and none if the container is a refined native type. -/
def inner : DocType → List DocType
  | named _ => []
  | nullable t | array t => [t]
  | union parts | intersection parts => parts
  | generic base args => if (refined? base).isSome then [] else args.head?.toList ++ args.getLast?.toList

/-- The name that a type asks for beside those of the types inside of it. -/
def own : DocType → List String
  | named name => askedName name
  | generic base args =>
    if (refined? base).isSome then []
    else if args.isEmpty then askedName base
    else if arrayNames.contains (Text.lower base) then [] else [base]
  | _ => []

/-- The type is looked at for the meaning of another one. -/
inductive LooksAt : DocType → DocType → Prop
  | refl (t : DocType) : LooksAt t t
  | inside {t u v : DocType} (hu : u ∈ t.inner) (h : LooksAt u v) : LooksAt t v

variable {name : String} {t u : DocType} {parts args : List DocType}

theorem mem_askedOf : name ∈ asked.askedOf parts ↔ ∃ t ∈ parts, name ∈ t.asked := by
  induction parts with
  | nil => simp [asked.askedOf]
  | cons t rest ih => simp [asked.askedOf, ih]

theorem mem_askedLast : name ∈ asked.askedLast args ↔ ∃ t ∈ args.getLast?, name ∈ t.asked := by
  induction args with
  | nil => simp [asked.askedLast]
  | cons t rest ih =>
    cases rest with
    | nil => simp [asked.askedLast]
    | cons t' rest =>
      rw [getLast?_cons_cons]
      exact ih

theorem mem_askedLast_or_askedFirst : name ∈ asked.askedLast args ∨ name ∈ asked.askedFirst args ↔
    ∃ t ∈ args.head?.toList ++ args.getLast?.toList, name ∈ t.asked := by
  match args with
  | [] | [_] => simp [asked.askedLast, asked.askedFirst]
  | t :: t' :: rest =>
    rw [mem_askedLast, asked.askedFirst, or_comm]
    simp

theorem mem_asked_iff_inner (t : DocType) : name ∈ t.asked ↔ name ∈ t.own ∨ ∃ u ∈ t.inner, name ∈ u.asked := by
  cases t with
  | named other | nullable t | array t => simp [asked, own, inner]
  | union parts | intersection parts => simp [asked, own, inner, mem_askedOf]
  | generic base args =>
    cases hbase : refined? base with
    | some types => simp [asked, own, inner, hbase]
    | none =>
      cases args with
      | nil => simp [asked, own, inner, hbase]
      | cons first rest =>
        have hasked : (generic base (first :: rest)).asked = asked.askedLast (first :: rest) ++
            (asked.askedFirst (first :: rest) ++ (generic base (first :: rest)).own) := by
          rw [asked, own, hbase]
          rfl
        have hinner : (generic base (first :: rest)).inner =
            (first :: rest).head?.toList ++ (first :: rest).getLast?.toList := by
          rw [inner, hbase]
          rfl
        rw [hasked, hinner, mem_append, mem_append, ← or_assoc, mem_askedLast_or_askedFirst, or_comm]

theorem sizeOf_lt_of_mem_inner (h : u ∈ t.inner) : sizeOf u < sizeOf t := by
  cases t with
  | named name => cases h
  | nullable t | array t =>
    obtain rfl := mem_singleton.mp h
    simp
  | union parts | intersection parts =>
    have hlt := sizeOf_lt_of_mem (show u ∈ parts from h)
    simp only [union.sizeOf_spec, intersection.sizeOf_spec]
    omega
  | generic base args =>
    have hmem : u ∈ args := by
      simp only [inner] at h
      split at h
      · cases h
      · rcases mem_append.mp h with h | h
        · exact mem_of_mem_head? (Option.mem_toList.mp h)
        · exact mem_of_mem_getLast? (Option.mem_toList.mp h)
    have hlt := sizeOf_lt_of_mem hmem
    simp only [generic.sizeOf_spec]
    omega

/-- The names of a type are the own names of the types that it looks at. -/
theorem mem_asked_iff (t : DocType) : name ∈ t.asked ↔ ∃ u, t.LooksAt u ∧ name ∈ u.own := by
  constructor
  · intro h
    obtain h | ⟨u, hu, h⟩ := (mem_asked_iff_inner t).mp h
    · exact ⟨t, .refl t, h⟩
    · have hlt := sizeOf_lt_of_mem_inner hu
      obtain ⟨v, hlooks, hv⟩ := (mem_asked_iff u).mp h
      exact ⟨v, .inside hu hlooks, hv⟩
  · rintro ⟨u, hlooks, hu⟩
    induction hlooks with
    | refl t => exact (mem_asked_iff_inner t).mpr (.inl hu)
    | inside hmem h ih => exact (mem_asked_iff_inner _).mpr (.inr ⟨_, hmem, ih hu⟩)
termination_by sizeOf t

/-- What a native name stands for is known without asking. -/
theorem not_mem_askedName (h : Typing.isNative name = true) (other : String) : name ∉ askedName other := by
  intro hmem
  unfold askedName at hmem
  split at hmem
  · cases hmem
  · next hother =>
    obtain rfl := mem_singleton.mp hmem
    obtain ⟨native, hnative⟩ := Option.isSome_iff_exists.mp h
    refine hother ?_
    unfold nativeTypes?
    simp only [hnative, Option.map_some]
    repeat' split
    all_goals rfl

theorem native_mem_own (h : Typing.isNative name = true) (hown : name ∈ u.own) : ∃ args, args ≠ [] ∧
    u = .generic name args ∧ refined? name = none ∧ arrayNames.contains (Text.lower name) = false := by
  cases u with
  | named other => exact absurd hown (not_mem_askedName h other)
  | generic base args =>
    rw [own] at hown
    split at hown
    · cases hown
    split at hown
    · exact absurd hown (not_mem_askedName h base)
    split at hown
    · cases hown
    · next hrefined hargs hcontains =>
      obtain rfl := mem_singleton.mp hown
      exact ⟨args, by simpa using hargs, rfl, by simpa using hrefined, Bool.eq_false_iff.mpr hcontains⟩
  | _ => cases hown

/-- A resolver is asked for the names of a type and for no others, one after the other. A native name is among them just
if it is the base of a container that the type looks at, with arguments and none of the containers that are known: not as
a name alone, however deep it stands. -/
theorem native_asked_iff {m : Type → Type} [Monad m] [LawfulMonad m] (resolve : String → m Ty) (t : DocType) :
    (∀ noted, (t.types (noting resolve)).run noted = do return (← t.types resolve, noted ++ t.asked)) ∧
      ∀ name, Typing.isNative name = true → (name ∈ t.asked ↔ ∃ args, args ≠ [] ∧ t.LooksAt (.generic name args) ∧
        refined? name = none ∧ arrayNames.contains (Text.lower name) = false) := by
  refine ⟨(consults_types (noting resolve) resolve t).noted, fun name h => ?_⟩
  rw [mem_asked_iff]
  constructor
  · rintro ⟨u, hlooks, hown⟩
    obtain ⟨args, hne, rfl, hknown⟩ := native_mem_own h hown
    exact ⟨args, hne, hlooks, hknown⟩
  · rintro ⟨args, hne, hlooks, hbase, hcontains⟩
    refine ⟨_, hlooks, ?_⟩
    rw [own, hbase, if_neg (by simp), if_neg (by simpa using hne), if_neg (Bool.eq_false_iff.mp hcontains)]
    exact List.mem_singleton_self name

/-- Native names alone and as bases that are known, at all depths, beside one name that is asked for. -/
theorem native_asked_iff_nested :
    let t := nullable (union [.generic "List" [.named "\\INT"], .array (.intersection [.named "string", .named "A"])])
    t.asked = ["A"] ∧ (t.types (noting (m := Id) fun name => .named name)).run [] =
      (t.types (m := Id) fun name => .named name, ["A"]) := by
  intro t
  exact ⟨by decide +kernel, (native_asked_iff (m := Id) (fun name => .named name) t).1 []⟩

/-- A string with an argument is taken for a class. -/
theorem string_asked : Typing.isNative "string" = true ∧
    ((generic "string" [.named "Foo"]).types (noting (m := Id) fun name => .named name)).run [] =
      ((generic "string" [.named "Foo"]).types (m := Id) fun name => .named name, ["Foo", "string"]) := by
  exact ⟨by decide +kernel, rfl⟩

end DocType

end EventAtlas
