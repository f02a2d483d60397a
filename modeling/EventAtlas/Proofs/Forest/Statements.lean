import EventAtlas.Proofs.Forest.Documentation
import Mathlib.Data.List.Intervals

/-!
# Where statements are placed

A list of statements is lowered with a look at what comes before and after: documentation waits for a declaration, and
a namespace without a block takes what follows it. Here the nodes of a list are said place by place. Each phrase has its
place in the list and is either in such a namespace (`Lowering.Under`) or in none, and its nodes are `Lowering.nodesOf`
there. Lowering a list makes the nodes of all places in the order of the list (`Lowering.statementNodes_eq_placed`).

The list can be worked off with an index. `Lowering.Loop` is such a loop as a relation: what it reads has to be there,
and a derivation is a loop that has come to its end (`Lowering.loop_iff`).
-/

namespace EventAtlas

open List Syntax

namespace Lowering

variable {src : Source} {sub : Sub} {ts rest : List Tree} {t : Tree} {pending : Option Tree} {n m i j k : Nat}

/-! ## One after the other -/

/-- The nodes of two parts, one after the other. -/
def andThen (first second : Build (List NodeId)) : Build (List NodeId) := do
  let head ← first
  let more ← second
  return head ++ more

theorem andThen_run (first second : Build (List NodeId)) (f : Forest) :
    (andThen first second).run f =
      ((first.run f).1 ++ (second.run (first.run f).2).1, (second.run (first.run f).2).2) := rfl

theorem nil_andThen (m : Build (List NodeId)) : andThen (pure []) m = m := rfl

theorem andThen_nil (m : Build (List NodeId)) : andThen m (pure []) = m := by
  simp [andThen]

/-! ## The rounds of a list of statements -/

theorem statementNodes_nil : statementNodes src sub (n + 1) pending [] = maybe (docNode src) pending := rfl

theorem statementNodes_remark (hkind : t.kind = .comment) (hdoc : isDoc src t = false) :
    statementNodes src sub (n + 1) pending (t :: rest) = statementNodes src sub n pending rest := by
  rw [statementNodes, if_pos hkind, if_neg (by simp [hdoc])]

theorem statementNodes_doc (hdoc : isDoc src t = true) :
    statementNodes src sub (n + 1) pending (t :: rest) =
      andThen (maybe (docNode src) pending) (statementNodes src sub n (some t) rest) := by
  rw [statementNodes, if_pos (kind_of_isDoc hdoc), if_pos hdoc]
  rfl

/-- The node of a namespace without a block. -/
def openNode (src : Source) (t : Tree) (inside : List Tree) (lower : Build (List NodeId)) : Build (List NodeId) := do
  let children ← lower
  return [← push (.namespaceDecl (nameWords src t)) (reaching t inside) children]

theorem statementNodes_open (hopen : isOpenNamespace t = true) :
    statementNodes src sub (n + 1) pending (t :: rest) =
      andThen (maybe (docNode src) pending)
        (andThen (openNode src t (rest.takeWhile fun s => s.kind ≠ .namespaceDefinition)
            (statementNodes src sub n none (rest.takeWhile fun s => s.kind ≠ .namespaceDefinition)))
          (statementNodes src sub n none (rest.dropWhile fun s => s.kind ≠ .namespaceDefinition))) := by
  have hkind : t.kind ≠ .comment := by simp [kind_of_isOpenNamespace hopen]
  rw [statementNodes, if_neg hkind, if_pos hopen]
  simp [andThen, openNode]

theorem ne_comment_of_isDocumented (hkind : t.kind.isDocumented = true) :
    t.kind ≠ .comment ∧ ¬isOpenNamespace t = true := by
  constructor <;> intro h
  · simp [h, Kind.isDocumented] at hkind
  · simp [kind_of_isOpenNamespace h, Kind.isDocumented] at hkind

theorem statementNodes_declared (hkind : t.kind.isDocumented = true) :
    statementNodes src sub (n + 1) pending (t :: rest) =
      andThen (declaration src sub pending t) (statementNodes src sub n none rest) := by
  obtain ⟨hcomment, hopen⟩ := ne_comment_of_isDocumented hkind
  rw [statementNodes, if_neg hcomment, if_neg hopen, if_pos hkind]
  rfl

theorem statementNodes_other (hcomment : t.kind ≠ .comment) (hopen : isOpenNamespace t = false)
    (hkind : t.kind.isDocumented = false) :
    statementNodes src sub (n + 1) pending (t :: rest) =
      andThen (maybe (docNode src) pending) (andThen (sub .phrase t) (statementNodes src sub n none rest)) := by
  rw [statementNodes, if_neg hcomment, if_neg (by simp [hopen]), if_neg (by simp [hkind])]
  simp [andThen]

/-! ## Places -/

/-- A comment that documents nothing. -/
def isRemark (src : Source) (t : Tree) : Bool :=
  t.kind = .comment && !isDoc src t

/-- The documentation at place `i` is that of the declaration at place `j`: only comments that document nothing are
between the two. -/
def IsDocFor (src : Source) (ts : List Tree) (i j : Nat) : Prop :=
  ts[i]?.any (isDoc src) = true ∧ ts[j]?.any (·.kind.isDocumented) = true ∧ i < j ∧
    ∀ k < j, i < k → ts[k]?.any (isRemark src) = true

instance : Decidable (IsDocFor src ts i j) :=
  inferInstanceAs (Decidable (_ ∧ _ ∧ _ ∧ _))

/-- The documentation of the declaration at a place. -/
def docFor? (src : Source) (ts : List Tree) (j : Nat) : Option Tree :=
  (List.range j).findSome? fun i => if IsDocFor src ts i j then ts[i]? else none

/-- A namespace is at this place. -/
def namespaceAt (ts : List Tree) (i : Nat) : Bool :=
  ts[i]?.any fun t => t.kind = .namespaceDefinition

/-- The phrase at place `i` is in the namespace without a block at place `j`: it comes after it, and before the next
namespace. -/
def Under (ts : List Tree) (j i : Nat) : Prop :=
  ts[j]?.any isOpenNamespace = true ∧ j < i ∧ i < ts.length ∧ ∀ k < i + 1, j < k → namespaceAt ts k = false

instance : Decidable (Under ts j i) :=
  inferInstanceAs (Decidable (_ ∧ _ ∧ _ ∧ _))

/-- The phrase at a place is in no namespace without a block. -/
def Outer (ts : List Tree) (i : Nat) : Prop :=
  ∀ j < i, ¬Under ts j i

instance : Decidable (Outer ts i) :=
  inferInstanceAs (Decidable (∀ j < i, ¬Under ts j i))

/-- The places in the namespace at place `j`. -/
def innerPlaces (ts : List Tree) (j : Nat) : List Nat :=
  (List.range ts.length).filter fun i => Under ts j i

/-- The places that are in no namespace without a block. -/
def outerPlaces (ts : List Tree) : List Nat :=
  (List.range ts.length).filter fun i => Outer ts i

/-- The nodes of places, one after the other. -/
def nodesAt (nodes : Nat → Build (List NodeId)) : List Nat → Build (List NodeId)
  | [] => return []
  | i :: rest => andThen (nodes i) (nodesAt nodes rest)

/-- The nodes of the phrase at a place; `inside` makes those in a namespace without a block. -/
def nodesOf (src : Source) (sub : Sub) (ts : List Tree) (inside : Nat → Build (List NodeId)) (i : Nat) :
    Build (List NodeId) :=
  match ts[i]? with
  | none => return []
  | some t =>
    if t.kind = .comment then
      -- Documentation of a declaration has its node there.
      if isDoc src t = true ∧ ∀ j < ts.length, ¬IsDocFor src ts i j then docNode src t else return []
    else if isOpenNamespace t then openNode src t ((innerPlaces ts i).filterMap (ts[·]?)) (inside i)
    else if t.kind.isDocumented then declaration src sub (docFor? src ts i) t
    else sub .phrase t

/-- The nodes of a list of statements, place by place. -/
def placed (src : Source) (sub : Sub) (ts : List Tree) : Build (List NodeId) :=
  nodesAt (nodesOf src sub ts fun j => nodesAt (nodesOf src sub ts fun _ => return []) (innerPlaces ts j))
    (outerPlaces ts)

/-! ## What waits -/

theorem not_isRemark_of_isDocumented (hkind : t.kind.isDocumented = true) : isRemark src t = false := by
  have hcomment : t.kind ≠ .comment := fun h => by simp [h, Kind.isDocumented] at hkind
  simp [isRemark, hcomment]

/-- The documentation that waits after some phrases: the last of them, comments that document nothing aside. -/
def docAfter? (src : Source) (before : List Tree) : Option Tree :=
  (before.reverse.find? fun t => !isRemark src t).filter (isDoc src)

theorem docAfter?_concat (before : List Tree) (t : Tree) :
    docAfter? src (before ++ [t]) =
      if isRemark src t then docAfter? src before else if isDoc src t then some t else none := by
  rw [docAfter?, reverse_append, reverse_singleton, singleton_append, find?_cons]
  cases isRemark src t with
  | true => rfl
  | false =>
    cases hdoc : isDoc src t <;> simp [Option.filter, hdoc]

theorem docAfter?_take_succ (ht : ts[i]? = some t) :
    docAfter? src (ts.take (i + 1)) =
      if isRemark src t then docAfter? src (ts.take i) else if isDoc src t then some t else none := by
  rw [take_add_one, ht, Option.toList_some, docAfter?_concat]

theorem drop_eq_cons (ht : ts[i]? = some t) : ts.drop i = t :: ts.drop (i + 1) := by
  obtain ⟨hi, rfl⟩ := List.getElem?_eq_some_iff.mp ht
  exact drop_eq_getElem_cons hi

theorem declaresNext_drop (ht : ts[i]? = some t) :
    declaresNext src (ts.drop i) =
      if isRemark src t then declaresNext src (ts.drop (i + 1)) else t.kind.isDocumented := by
  rw [drop_eq_cons ht]
  rfl

/-- What waits at a place is the last documentation before it, with only comments that document nothing since. -/
theorem docAfter?_take_iff {d : Tree} (hj : j ≤ ts.length) :
    docAfter? src (ts.take j) = some d ↔
      ∃ i < j, ts[i]? = some d ∧ isDoc src d = true ∧ ∀ k < j, i < k → ts[k]?.any (isRemark src) = true := by
  induction j with
  | zero => simp [docAfter?]
  | succ j ih =>
    have ht := getElem?_eq_getElem (show j < ts.length by omega)
    rw [docAfter?_take_succ ht, Nat.exists_lt_succ_right]
    simp only [Nat.forall_lt_succ_right, ht, Option.any_some]
    cases hremark : isRemark src ts[j] with
    | true =>
      -- The last phrase is no documentation, so what waited before it still waits.
      have hdoc : isDoc src ts[j] = false := by simpa using (Bool.and_eq_true_iff.mp hremark).2
      rw [if_pos rfl, ih (by omega)]
      grind
    | false =>
      -- Nothing that is before the last phrase waits any longer.
      rw [if_neg Bool.false_ne_true]
      grind

/-- A declaration comes next if there are only comments that document nothing up to it. -/
theorem declaresNext_drop_iff :
    declaresNext src (ts.drop i) = true ↔
      ∃ j, i ≤ j ∧ ts[j]?.any (·.kind.isDocumented) = true ∧ ∀ k < j, i ≤ k → ts[k]?.any (isRemark src) = true := by
  induction hm : ts.length - i generalizing i with
  | zero =>
    rw [drop_eq_nil_of_le (Nat.le_of_sub_eq_zero hm)]
    refine ⟨nofun, ?_⟩
    rintro ⟨j, hj, hkind, -⟩
    rw [getElem?_eq_none (by omega)] at hkind
    cases hkind
  | succ m ih =>
    have ht := getElem?_eq_getElem (show i < ts.length by omega)
    rw [declaresNext_drop ht]
    cases hremark : isRemark src ts[i] with
    | true =>
      -- The first phrase is no declaration, so one that comes next is behind it.
      have hkind : ts[i].kind.isDocumented ≠ true := fun hkind => by
        simp [not_isRemark_of_isDocumented hkind] at hremark
      rw [if_pos rfl, ih (by omega)]
      grind
    | false =>
      rw [if_neg Bool.false_ne_true]
      grind

/-- A declaration takes the documentation at a place if it comes next. -/
theorem declaresNext_iff_isDocFor (ht : ts[i]? = some t) (hdoc : isDoc src t = true) :
    declaresNext src (ts.drop (i + 1)) = true ↔ ∃ j < ts.length, IsDocFor src ts i j := by
  rw [declaresNext_drop_iff]
  constructor
  · rintro ⟨j, hj, hkind, hbetween⟩
    obtain ⟨u, hu, -⟩ := (Option.any_eq_true _ _).mp hkind
    exact ⟨j, (List.getElem?_eq_some_iff.mp hu).1, by rw [ht]; exact hdoc, hkind, hj, hbetween⟩
  · rintro ⟨j, -, -, hkind, hlt, hbetween⟩
    exact ⟨j, hlt, hkind, hbetween⟩

theorem IsDocFor.not_lt (h : IsDocFor src ts i k) (h' : IsDocFor src ts j k) : ¬i < j := by
  intro hlt
  obtain ⟨t, ht, hdoc⟩ := (Option.any_eq_true _ _).mp h'.1
  have hremark := h.2.2.2 j h'.2.2.1 hlt
  rw [ht] at hremark
  simp [isRemark, hdoc] at hremark

theorem IsDocFor.doc_unique (h : IsDocFor src ts i k) (h' : IsDocFor src ts j k) : i = j :=
  Nat.le_antisymm (Nat.le_of_not_lt (h'.not_lt h)) (Nat.le_of_not_lt (h.not_lt h'))

theorem IsDocFor.not_between (h : IsDocFor src ts i j) (h' : IsDocFor src ts i k) : ¬j < k := by
  intro hlt
  obtain ⟨t, ht, hkind⟩ := (Option.any_eq_true _ _).mp h.2.1
  have hremark := h'.2.2.2 j hlt h.2.2.1
  rw [ht, Option.any_some, not_isRemark_of_isDocumented hkind] at hremark
  cases hremark

theorem IsDocFor.declaration_unique (h : IsDocFor src ts i j) (h' : IsDocFor src ts i k) : j = k :=
  Nat.le_antisymm (Nat.le_of_not_lt (h'.not_between h)) (Nat.le_of_not_lt (h.not_between h'))

theorem docFor?_eq_some_iff {d : Tree} : docFor? src ts j = some d ↔ ∃ i, IsDocFor src ts i j ∧ ts[i]? = some d := by
  have hmp {e : Tree} (h : docFor? src ts j = some e) : ∃ i, IsDocFor src ts i j ∧ ts[i]? = some e := by
    obtain ⟨i, -, hi⟩ := exists_of_findSome?_eq_some h
    exact ⟨i, Option.ite_none_right_eq_some.mp hi⟩
  refine ⟨hmp, ?_⟩
  rintro ⟨i, hi, hd⟩
  cases hfor : docFor? src ts j with
  | none =>
    have hnone := findSome?_eq_none_iff.mp hfor i (mem_range.mpr hi.2.2.1)
    rw [if_pos hi, hd] at hnone
    cases hnone
  | some e =>
    obtain ⟨k, hk, he⟩ := hmp hfor
    obtain rfl := hi.doc_unique hk
    exact he.symm.trans hd

/-- What waits at the place of a declaration is its documentation. -/
theorem docFor?_eq (ht : ts[j]? = some t) (hkind : t.kind.isDocumented = true) :
    docFor? src ts j = docAfter? src (ts.take j) := by
  refine Option.ext fun d => ?_
  rw [docFor?_eq_some_iff, docAfter?_take_iff (Nat.le_of_lt (List.getElem?_eq_some_iff.mp ht).1)]
  constructor
  · rintro ⟨i, ⟨hdoc, -, hlt, hbetween⟩, hd⟩
    rw [hd] at hdoc
    exact ⟨i, hlt, hd, hdoc, hbetween⟩
  · rintro ⟨i, hlt, hd, hdoc, hbetween⟩
    exact ⟨i, ⟨by rw [hd]; exact hdoc, by rw [ht]; exact hkind, hlt, hbetween⟩, hd⟩

/-- The documentation that is waiting, unless a declaration comes next that takes it. -/
def leftOver (src : Source) (pending : Option Tree) (next : List Tree) : Build (List NodeId) :=
  if declaresNext src next then return [] else maybe (docNode src) pending

/-- What is waiting before a place, if a declaration takes it, is what the phrases before have left. -/
def Waits (src : Source) (ts : List Tree) (i : Nat) (pending : Option Tree) : Prop :=
  declaresNext src (ts.drop i) = true → pending = docAfter? src (ts.take i)

theorem leftOver_drop (ht : ts[i]? = some t) (hremark : isRemark src t = false) (hkind : t.kind.isDocumented = false) :
    leftOver src pending (ts.drop i) = maybe (docNode src) pending := by
  rw [leftOver, declaresNext_drop ht, hremark, hkind]
  rfl

theorem leftOver_none (next : List Tree) : leftOver src none next = pure [] := by
  unfold leftOver
  split <;> rfl

/-! ## The nodes at a place -/

section

variable {inside : Nat → Build (List NodeId)}

variable (ht : ts[i]? = some t)
include ht

theorem nodesOf_remark (hcomment : t.kind = .comment) (hdoc : isDoc src t = false) :
    nodesOf src sub ts inside i = pure [] := by
  rw [nodesOf, ht]
  dsimp only
  rw [if_pos hcomment, if_neg (by simp [hdoc])]

theorem nodesOf_doc (hdoc : isDoc src t = true) :
    nodesOf src sub ts inside i = leftOver src (some t) (ts.drop (i + 1)) := by
  rw [nodesOf, ht]
  dsimp only
  rw [if_pos (kind_of_isDoc hdoc), leftOver]
  by_cases hdeclares : declaresNext src (ts.drop (i + 1)) = true
  · obtain ⟨j, hj, hfor⟩ := (declaresNext_iff_isDocFor ht hdoc).mp hdeclares
    rw [if_pos hdeclares, if_neg fun h => h.2 j hj hfor]
  · have hnone : ∀ j < ts.length, ¬IsDocFor src ts i j := fun j hj hfor =>
      hdeclares ((declaresNext_iff_isDocFor ht hdoc).mpr ⟨j, hj, hfor⟩)
    rw [if_neg hdeclares, if_pos ⟨hdoc, hnone⟩]
    rfl

theorem nodesOf_open (hopen : isOpenNamespace t = true) :
    nodesOf src sub ts inside i = openNode src t ((innerPlaces ts i).filterMap (ts[·]?)) (inside i) := by
  rw [nodesOf, ht]
  dsimp only
  rw [if_neg (by simp [kind_of_isOpenNamespace hopen]), if_pos hopen]

theorem nodesOf_declared (hkind : t.kind.isDocumented = true) :
    nodesOf src sub ts inside i = declaration src sub (docAfter? src (ts.take i)) t := by
  obtain ⟨hcomment, hopen⟩ := ne_comment_of_isDocumented hkind
  rw [nodesOf, ht]
  dsimp only
  rw [if_neg hcomment, if_neg hopen, if_pos hkind, docFor?_eq ht hkind]

theorem nodesOf_other (hcomment : t.kind ≠ .comment) (hopen : isOpenNamespace t = false)
    (hkind : t.kind.isDocumented = false) : nodesOf src sub ts inside i = sub .phrase t := by
  rw [nodesOf, ht]
  dsimp only
  rw [if_neg hcomment, if_neg (by simp [hopen]), if_neg (by simp [hkind])]

/-- A phrase that is no namespace without a block adds its nodes to what is made after it. -/
theorem statementNodes_step {body : Build (List NodeId)} (hopen : isOpenNamespace t = false)
    (hwaits : Waits src ts i pending)
    (hrest : ∀ pending, Waits src ts (i + 1) pending →
      statementNodes src sub n pending rest = andThen (leftOver src pending (ts.drop (i + 1))) body) :
    statementNodes src sub (n + 1) pending (t :: rest) =
      andThen (leftOver src pending (ts.drop i)) (andThen (nodesOf src sub ts inside i) body) := by
  have hdocs : docAfter? src (ts.take (i + 1)) = _ := docAfter?_take_succ ht
  by_cases hcomment : t.kind = .comment
  · cases hdoc : isDoc src t with
    | true =>
      have hremark : isRemark src t = false := by simp [isRemark, hdoc]
      rw [hremark, hdoc] at hdocs
      rw [statementNodes_doc hdoc, hrest (some t) fun _ => hdocs.symm, nodesOf_doc ht hdoc,
        leftOver_drop ht hremark (by rw [hcomment]; rfl)]
    | false =>
      have hremark : isRemark src t = true := by simp [isRemark, hcomment, hdoc]
      have hnext : declaresNext src (ts.drop i) = declaresNext src (ts.drop (i + 1)) := by
        rw [declaresNext_drop ht, if_pos hremark]
      rw [if_pos hremark] at hdocs
      rw [statementNodes_remark hcomment hdoc, hrest pending (by rwa [Waits, ← hnext, hdocs]),
        nodesOf_remark ht hcomment hdoc, nil_andThen, leftOver, leftOver, hnext]
  · have hremark : isRemark src t = false := by simp [isRemark, hcomment]
    have hdoc : isDoc src t = false := Bool.eq_false_iff.mpr fun h => hcomment (kind_of_isDoc h)
    rw [hremark, hdoc] at hdocs
    have hbody : statementNodes src sub n none rest = body := by
      rw [hrest none fun _ => hdocs.symm, leftOver_none, nil_andThen]
    cases hkind : t.kind.isDocumented with
    | true =>
      have hnext : declaresNext src (ts.drop i) = true := by rw [declaresNext_drop ht, hremark, hkind]; rfl
      rw [statementNodes_declared hkind, hbody, hwaits hnext, nodesOf_declared ht hkind, leftOver, if_pos hnext,
        nil_andThen]
    | false =>
      rw [statementNodes_other hcomment hopen hkind, hbody, nodesOf_other ht hcomment hopen hkind,
        leftOver_drop ht hremark hkind]

end

/-! ## The next namespace -/

/-- How many phrases come after a place and before the next namespace. -/
def beforeNext (ts : List Tree) (i : Nat) : Nat :=
  (ts.drop (i + 1)).findIdx fun s => s.kind = .namespaceDefinition

theorem findIdx_namespace (ts : List Tree) :
    (ts.findIdx fun s => !decide (s.kind ≠ .namespaceDefinition)) =
      ts.findIdx fun s => s.kind = .namespaceDefinition := by
  congr 1
  funext s
  simp

theorem takeWhile_eq_take (ts : List Tree) (i : Nat) :
    ((ts.drop (i + 1)).takeWhile fun s => s.kind ≠ .namespaceDefinition) =
      (ts.drop (i + 1)).take (beforeNext ts i) := by
  rw [takeWhile_eq_take_findIdx_not, findIdx_namespace, beforeNext]

theorem dropWhile_eq_drop (ts : List Tree) (i : Nat) :
    ((ts.drop (i + 1)).dropWhile fun s => s.kind ≠ .namespaceDefinition) = ts.drop (i + 1 + beforeNext ts i) := by
  rw [dropWhile_eq_drop_findIdx_not, findIdx_namespace, drop_drop, beforeNext]

theorem length_beforeNext (hi : i < ts.length) : i + 1 + beforeNext ts i ≤ ts.length := by
  have hle : beforeNext ts i ≤ (ts.drop (i + 1)).length := findIdx_le_length
  rw [length_drop] at hle
  omega

theorem namespaceAt_of_get (ht : ts[i]? = some t) : namespaceAt ts i = decide (t.kind = .namespaceDefinition) := by
  rw [namespaceAt, ht]
  rfl

theorem exists_of_namespaceAt (h : namespaceAt ts i = true) : ∃ t, ts[i]? = some t ∧ t.kind = .namespaceDefinition := by
  obtain ⟨t, ht, hkind⟩ := (Option.any_eq_true _ _).mp h
  exact ⟨t, ht, of_decide_eq_true hkind⟩

theorem namespaceAt_beforeNext (hlt : i < ts.length) (hi : i < k) (hk : k < i + 1 + beforeNext ts i) :
    namespaceAt ts k = false := by
  have hlength := length_beforeNext hlt
  have hnot := not_of_lt_findIdx (show k - (i + 1) < beforeNext ts i by omega)
  rw [getElem_drop] at hnot
  rw [namespaceAt_of_get (getElem?_eq_getElem (by omega)), ← hnot]
  simp only [show i + 1 + (k - (i + 1)) = k by omega]

/-- The phrases before the next namespace end with the list or with the namespace. -/
theorem beforeNext_end (hi : i < ts.length) :
    i + 1 + beforeNext ts i = ts.length ∨ namespaceAt ts (i + 1 + beforeNext ts i) = true := by
  obtain hlt | heq := Nat.lt_or_eq_of_le (length_beforeNext hi)
  · right
    have hbound : beforeNext ts i < (ts.drop (i + 1)).length := by rw [length_drop]; omega
    have hfound : (fun s : Tree => decide (s.kind = .namespaceDefinition)) (ts.drop (i + 1))[beforeNext ts i] = true :=
      findIdx_getElem (w := hbound)
    rw [getElem_drop] at hfound
    rw [namespaceAt_of_get (getElem?_eq_getElem hlt)]
    exact hfound
  · exact .inl heq

/-- No declaration comes next at the end of a section. -/
theorem declaresNext_end (hend : i = ts.length ∨ namespaceAt ts i = true) : declaresNext src (ts.drop i) = false := by
  obtain rfl | hns := hend
  · rw [drop_length]
    rfl
  · obtain ⟨t, ht, hkind⟩ := exists_of_namespaceAt hns
    rw [declaresNext_drop ht, isRemark, hkind]
    rfl

/-- The nodes of a section are those of its places. -/
theorem statementNodes_inner {inside : Nat → Build (List NodeId)}
    (hend : i + m = ts.length ∨ namespaceAt ts (i + m) = true)
    (hinner : ∀ k < i + m, i ≤ k → namespaceAt ts k = false) (hn : m < n) (hwaits : Waits src ts i pending) :
    statementNodes src sub n pending ((ts.drop i).take m) =
      andThen (leftOver src pending (ts.drop i)) (nodesAt (nodesOf src sub ts inside) (List.range' i m)) := by
  induction m generalizing i n pending with
  | zero =>
    obtain ⟨n, rfl⟩ := Nat.exists_eq_add_one.mpr hn
    rw [take_zero, statementNodes_nil, leftOver, declaresNext_end (i := i) hend]
    exact (andThen_nil _).symm
  | succ m ih =>
    obtain ⟨n, rfl⟩ := Nat.exists_eq_add_one.mpr (Nat.zero_lt_of_lt hn)
    have hlt : i < ts.length := by
      obtain heq | hns := hend
      · omega
      · obtain ⟨t, ht, -⟩ := exists_of_namespaceAt hns
        have := (List.getElem?_eq_some_iff.mp ht).1
        omega
    have ht := getElem?_eq_getElem hlt
    have hopen : isOpenNamespace ts[i] = false := by
      refine Bool.eq_false_iff.mpr fun hopen => ?_
      have hns := hinner i (by omega) (Nat.le_refl i)
      rw [namespaceAt_of_get ht, kind_of_isOpenNamespace hopen] at hns
      cases hns
    rw [drop_eq_cons ht, take_succ_cons, ← drop_eq_cons ht, range'_succ, nodesAt]
    refine statementNodes_step ht hopen hwaits fun pending hwaits => ih ?_ ?_ (Nat.lt_of_succ_lt_succ hn) hwaits
    · rwa [Nat.add_right_comm, Nat.add_assoc]
    · exact fun k hk hle => hinner k (by omega) (by omega)

/-! ## All places -/

theorem range'_split (hi : i ≤ k) (hk : k ≤ m) :
    List.range' i (m - i) = List.range' i (k - i) ++ List.range' k (m - k) := by
  have happend := range'_append_1 (s := i) (m := k - i) (n := m - k)
  rw [show i + (k - i) = k by omega, show k - i + (m - k) = m - i by omega] at happend
  exact happend.symm

/-- After a namespace without a block come the places in it. -/
theorem under_iff (ht : ts[i]? = some t) (hopen : isOpenNamespace t = true) :
    Under ts i k ↔ i < k ∧ k < i + 1 + beforeNext ts i := by
  have hi := (List.getElem?_eq_some_iff.mp ht).1
  have hlength := length_beforeNext hi
  constructor
  · rintro ⟨-, hlt, hk, hnone⟩
    refine ⟨hlt, Nat.lt_of_not_le fun hge => ?_⟩
    obtain hend | hns := beforeNext_end hi
    · omega
    · rw [hnone _ (by omega) (by omega)] at hns
      cases hns
  · rintro ⟨hlt, hk⟩
    refine ⟨by rw [ht]; exact hopen, hlt, by omega, fun l hl hil => namespaceAt_beforeNext hi hil (by omega)⟩

theorem innerPlaces_of_open (ht : ts[i]? = some t) (hopen : isOpenNamespace t = true) :
    innerPlaces ts i = List.range' (i + 1) (beforeNext ts i) := by
  have hlength := length_beforeNext (List.getElem?_eq_some_iff.mp ht).1
  have hafter : (List.range ts.length).filter (fun k => k < i + 1 + beforeNext ts i) = Ico 0 (i + 1 + beforeNext ts i) := by
    rw [← Ico.zero_bot, Ico.filter_lt, Nat.min_eq_right hlength]
  have hbefore : (Ico 0 (i + 1 + beforeNext ts i)).filter (fun k => i < k) = Ico (i + 1) (i + 1 + beforeNext ts i) :=
    (Ico.filter_le 0 _ (i + 1)).trans (by rw [Nat.zero_max])
  simp only [innerPlaces, under_iff ht hopen, Bool.decide_and, ← filter_filter, hafter, hbefore]
  rw [Ico, Nat.add_sub_cancel_left]

theorem innerPlaces_of_not_open (h : ts[i]?.any isOpenNamespace = false) : innerPlaces ts i = [] :=
  filter_eq_nil_iff.mpr fun k _ hk => by simp [Under, h] at hk

theorem Outer.succ (h : Outer ts i) (hnot : ts[i]?.any isOpenNamespace = false) : Outer ts (i + 1) := by
  rintro j hj ⟨hopen, -, hlt, hnone⟩
  obtain hji | rfl := Nat.lt_succ_iff_lt_or_eq.mp hj
  · exact h j hji ⟨hopen, hji, by omega, fun k hk => hnone k (by omega)⟩
  · rw [hnot] at hopen
    cases hopen

theorem outer_of_namespaceAt (h : namespaceAt ts i = true) : Outer ts i := by
  rintro j hj ⟨-, -, -, hnone⟩
  rw [hnone i (Nat.lt_succ_self i) hj] at h
  cases h

/-- The places from one on that are in no namespace without a block. -/
def outerFrom (ts : List Tree) (i : Nat) : List Nat :=
  (List.range' i (ts.length - i)).filter fun k => Outer ts k

theorem outerFrom_of_le (hi : ts.length ≤ i) : outerFrom ts i = [] := by
  rw [outerFrom, Nat.sub_eq_zero_of_le hi]
  rfl

theorem outerFrom_of_outer (hi : i < ts.length) (houter : Outer ts i) : outerFrom ts i = i :: outerFrom ts (i + 1) := by
  rw [outerFrom, show ts.length - i = ts.length - (i + 1) + 1 by omega, range'_succ, filter_cons,
    if_pos (decide_eq_true houter)]
  rfl

/-- After a namespace without a block, the next place that is in none is that of the next namespace. -/
theorem outerFrom_of_open (ht : ts[i]? = some t) (hopen : isOpenNamespace t = true) :
    outerFrom ts (i + 1) = outerFrom ts (i + 1 + beforeNext ts i) := by
  have hlength := length_beforeNext (List.getElem?_eq_some_iff.mp ht).1
  have hinside : (List.range' (i + 1) (i + 1 + beforeNext ts i - (i + 1))).filter (fun k => Outer ts k) = [] := by
    refine filter_eq_nil_iff.mpr fun k hk => ?_
    rw [mem_range'_1] at hk
    rw [decide_eq_true_eq]
    exact fun houter => houter i (by omega) ((under_iff ht hopen).mpr (by omega))
  rw [outerFrom, range'_split (Nat.le_add_right (i + 1) (beforeNext ts i)) hlength, filter_append, hinside]
  rfl

theorem filterMap_range' (hm : i + m ≤ ts.length) : (List.range' i m).filterMap (ts[·]?) = (ts.drop i).take m := by
  induction m generalizing i with
  | zero => rfl
  | succ m ih =>
    have ht := getElem?_eq_getElem (show i < ts.length by omega)
    rw [range'_succ, filterMap_cons, ht, ih (by omega), drop_eq_cons ht, take_succ_cons]

/-- After the phrases in a namespace without a block comes a namespace, which is in none. -/
theorem outer_next (hi : i < ts.length) (hlt : i + 1 + beforeNext ts i < ts.length) :
    Outer ts (i + 1 + beforeNext ts i) :=
  outer_of_namespaceAt ((beforeNext_end hi).resolve_left (Nat.ne_of_lt hlt))

/-- The phrases in a namespace without a block are worked off place by place. -/
theorem statementNodes_inside {inside : Nat → Build (List NodeId)} (ht : ts[i]? = some t)
    (hopen : isOpenNamespace t = true) (hn : beforeNext ts i < n) :
    statementNodes src sub n none ((ts.drop (i + 1)).take (beforeNext ts i)) =
      nodesAt (nodesOf src sub ts inside) (innerPlaces ts i) := by
  have hi := (List.getElem?_eq_some_iff.mp ht).1
  have hnone : docAfter? src (ts.take (i + 1)) = none := by
    rw [docAfter?_take_succ ht, isRemark, isDoc, kind_of_isOpenNamespace hopen]
    rfl
  rw [statementNodes_inner (beforeNext_end hi) (fun k hk hle => namespaceAt_beforeNext hi hle hk) hn
    fun _ => hnone.symm, leftOver_none, nil_andThen, innerPlaces_of_open ht hopen]

/-- The nodes from a place on that is in no namespace without a block are those of the places from there on. -/
theorem statementNodes_outer (houter : i < ts.length → Outer ts i) (hn : ts.length - i < n)
    (hwaits : Waits src ts i pending) :
    statementNodes src sub n pending (ts.drop i) =
      andThen (leftOver src pending (ts.drop i))
        (nodesAt (nodesOf src sub ts fun j => nodesAt (nodesOf src sub ts fun _ => return []) (innerPlaces ts j))
          (outerFrom ts i)) := by
  induction n generalizing i pending with
  | zero => omega
  | succ n ih =>
    obtain hlt | hle := Nat.lt_or_ge i ts.length
    · have ht := getElem?_eq_getElem hlt
      rw [outerFrom_of_outer hlt (houter hlt), nodesAt]
      cases hopen : isOpenNamespace ts[i] with
      | false =>
        have hnext : Outer ts (i + 1) := (houter hlt).succ (by rw [ht]; exact hopen)
        refine (congrArg _ (drop_eq_cons ht)).trans ?_
        exact statementNodes_step ht hopen hwaits fun pending hwaits => ih (fun _ => hnext) (by omega) hwaits
      | true =>
        have hkind := kind_of_isOpenNamespace hopen
        have hlength := length_beforeNext hlt
        -- The loop goes on where the namespace ends, and no documentation waits there.
        have hwaits' : Waits src ts (i + 1 + beforeNext ts i) none := fun hdeclares => by
          rw [declaresNext_end (beforeNext_end hlt)] at hdeclares
          cases hdeclares
        have hafter := ih (outer_next hlt) (by omega) hwaits'
        rw [leftOver_none, nil_andThen] at hafter
        have hpieces : (innerPlaces ts i).filterMap (ts[·]?) = (ts.drop (i + 1)).take (beforeNext ts i) := by
          rw [innerPlaces_of_open ht hopen, filterMap_range' hlength]
        refine (congrArg _ (drop_eq_cons ht)).trans ?_
        rw [statementNodes_open hopen, takeWhile_eq_take, dropWhile_eq_drop,
          statementNodes_inside ht hopen (by omega), hafter, outerFrom_of_open ht hopen, nodesOf_open ht hopen, hpieces,
          leftOver_drop ht (by simp [isRemark, hkind]) (by rw [hkind]; rfl)]
    · rw [outerFrom_of_le hle, drop_eq_nil_of_le hle, statementNodes_nil, nodesAt, andThen_nil]
      rfl

theorem outerFrom_zero (ts : List Tree) : outerFrom ts 0 = outerPlaces ts := by
  rw [outerFrom, outerPlaces, Nat.sub_zero, range_eq_range']

theorem outer_zero (ts : List Tree) : Outer ts 0 :=
  fun _ hj => absurd hj (Nat.not_lt_zero _)

/-- Lowering a list of statements makes the nodes of its places in their order. -/
theorem statementNodes_eq_placed (src : Source) (sub : Sub) (ts : List Tree) :
    statementNodes src sub (ts.length + 1) none ts = placed src sub ts := by
  have hnodes : statementNodes src sub (ts.length + 1) none (ts.drop 0) = _ :=
    statementNodes_outer (fun _ => outer_zero ts) (Nat.lt_succ_self _) fun _ => rfl
  rwa [drop_zero, leftOver_none, nil_andThen, outerFrom_zero] at hnodes

/-- Each place from one on is met once, in order. -/
theorem flatMap_outerFrom (houter : i < ts.length → Outer ts i) :
    (outerFrom ts i).flatMap (fun i => i :: innerPlaces ts i) = List.range' i (ts.length - i) := by
  induction hm : ts.length - i using Nat.strongRecOn generalizing i with
  | _ m ih =>
    subst hm
    obtain hlt | hle := Nat.lt_or_ge i ts.length
    · have ht := getElem?_eq_getElem hlt
      rw [outerFrom_of_outer hlt (houter hlt), flatMap_cons]
      cases hopen : isOpenNamespace ts[i] with
      | false =>
        have hnot : ts[i]?.any isOpenNamespace = false := by rw [ht]; exact hopen
        rw [innerPlaces_of_not_open hnot, ih _ (by omega) (fun _ => (houter hlt).succ hnot) rfl,
          show ts.length - i = ts.length - (i + 1) + 1 by omega, range'_succ]
        rfl
      | true =>
        rw [outerFrom_of_open ht hopen, innerPlaces_of_open ht hopen, ih _ (by omega) (outer_next hlt) rfl,
          show ts.length - i = ts.length - (i + 1) + 1 by omega, range'_succ,
          range'_split (Nat.le_add_right (i + 1) (beforeNext ts i)) (length_beforeNext hlt), Nat.add_sub_cancel_left]
        rfl
    · rw [outerFrom_of_le hle, Nat.sub_eq_zero_of_le hle]
      rfl

/-! ## The loop -/

/-- The loop over a list of statements, from the place `i` on: what waits, the nodes so far and the forest, and then the
nodes and the forest at the end. What a round reads is there, or there is no round. -/
inductive Loop (src : Source) (sub : Sub) :
    List Tree → Nat → Option Tree → List NodeId → Forest → List NodeId → Forest → Prop
  | finish {ts : List Tree} {i : Nat} {pending : Option Tree} {out flushed : List NodeId} {f g : Forest}
    (hi : ts.length ≤ i) (hflush : (maybe (docNode src) pending).run f = (flushed, g)) :
    Loop src sub ts i pending out f (out ++ flushed) g
  | remark {ts : List Tree} {i : Nat} {pending : Option Tree} {out ids : List NodeId} {f g : Forest} {t : Tree}
    (ht : ts[i]? = some t) (hkind : t.kind = .comment) (hdoc : isDoc src t = false)
    (hnext : Loop src sub ts (i + 1) pending out f ids g) : Loop src sub ts i pending out f ids g
  | doc {ts : List Tree} {i : Nat} {pending : Option Tree} {out flushed ids : List NodeId} {f f₁ g : Forest} {t : Tree}
    (ht : ts[i]? = some t) (hdoc : isDoc src t = true)
    (hflush : (maybe (docNode src) pending).run f = (flushed, f₁))
    (hnext : Loop src sub ts (i + 1) (some t) (out ++ flushed) f₁ ids g) : Loop src sub ts i pending out f ids g
  /-- The statements up to the next namespace are worked off by a loop of their own. The last phrase read may be the
  namespace itself. -/
  | openNamespace {ts : List Tree} {i stop : Nat} {pending : Option Tree} {out flushed children ids : List NodeId}
    {id : NodeId} {f f₁ f₂ f₃ g : Forest} {t last : Tree} (ht : ts[i]? = some t) (hopen : isOpenNamespace t = true)
    (hflush : (maybe (docNode src) pending).run f = (flushed, f₁))
    (hstop : stop = i + 1 + beforeNext ts i) (hslice : stop ≤ ts.length)
    (hinside : Loop src sub ((ts.drop (i + 1)).take (stop - (i + 1))) 0 none [] f₁ children f₂)
    (hlast : ts[stop - 1]? = some last)
    (hpush : (push (.namespaceDecl (nameWords src t))
      { t.extent with stop := max last.extent.stop t.extent.stop } children).run f₂ = (id, f₃))
    (hnext : Loop src sub ts stop none (out ++ flushed ++ [id]) f₃ ids g) : Loop src sub ts i pending out f ids g
  | declaration {ts : List Tree} {i : Nat} {pending : Option Tree} {out nodes ids : List NodeId} {f f₁ g : Forest}
    {t : Tree} (ht : ts[i]? = some t) (hkind : t.kind.isDocumented = true)
    (hnodes : (declaration src sub pending t).run f = (nodes, f₁))
    (hnext : Loop src sub ts (i + 1) none (out ++ nodes) f₁ ids g) : Loop src sub ts i pending out f ids g
  | statement {ts : List Tree} {i : Nat} {pending : Option Tree} {out flushed nodes ids : List NodeId}
    {f f₁ f₂ g : Forest} {t : Tree} (ht : ts[i]? = some t) (hcomment : t.kind ≠ .comment)
    (hopen : isOpenNamespace t = false) (hkind : t.kind.isDocumented = false)
    (hflush : (maybe (docNode src) pending).run f = (flushed, f₁)) (hnodes : (sub .phrase t).run f₁ = (nodes, f₂))
    (hnext : Loop src sub ts (i + 1) none (out ++ flushed ++ nodes) f₂ ids g) : Loop src sub ts i pending out f ids g

theorem reaching_eq {last : Tree} (ht : ts[i]? = some t) (hm : i + 1 + m ≤ ts.length) (hlast : ts[i + m]? = some last) :
    reaching t ((ts.drop (i + 1)).take m) = { t.extent with stop := max last.extent.stop t.extent.stop } := by
  have hgetLast : ((ts.drop (i + 1)).take m).getLast?.getD t = last := by
    cases m with
    | zero =>
      rw [Nat.add_zero, ht] at hlast
      exact Option.some.inj hlast
    | succ m =>
      rw [getLast?_eq_getElem?, length_take, length_drop, Nat.min_eq_left (by omega),
        getElem?_take_of_lt (by omega), getElem?_drop, Nat.add_sub_cancel, Nat.add_right_comm,
        Nat.add_assoc, hlast]
      rfl
  rw [reaching, hgetLast]

theorem openNode_run (inside : List Tree) (lower : Build (List NodeId)) (f : Forest) :
    (openNode src t inside lower).run f =
      ([((push (.namespaceDecl (nameWords src t)) (reaching t inside) (lower.run f).1).run (lower.run f).2).1],
        ((push (.namespaceDecl (nameWords src t)) (reaching t inside) (lower.run f).1).run (lower.run f).2).2) := rfl

/-- The loop comes to its end from every place, with the nodes of the phrases from there on. -/
theorem loop_run {out : List NodeId} {f : Forest} (hn : ts.length - i < n) :
    Loop src sub ts i pending out f (out ++ ((statementNodes src sub n pending (ts.drop i)).run f).1)
      ((statementNodes src sub n pending (ts.drop i)).run f).2 := by
  induction n generalizing ts i pending out f with
  | zero => omega
  | succ n ih =>
    obtain hlt | hle := Nat.lt_or_ge i ts.length
    · have ht := getElem?_eq_getElem hlt
      rw [drop_eq_cons ht]
      by_cases hcomment : ts[i].kind = .comment
      · cases hdoc : isDoc src ts[i] with
        | true =>
          rw [statementNodes_doc hdoc, andThen_run, ← append_assoc]
          exact .doc ht hdoc rfl (ih (by omega))
        | false =>
          rw [statementNodes_remark hcomment hdoc]
          exact .remark ht hcomment hdoc (ih (by omega))
      · cases hopen : isOpenNamespace ts[i] with
        | true =>
          have hlength := length_beforeNext hlt
          have hlast := getElem?_eq_getElem (show i + beforeNext ts i < ts.length by omega)
          have hinside : (ts.drop (i + 1)).take (i + 1 + beforeNext ts i - (i + 1)) =
              (ts.drop (i + 1)).take (beforeNext ts i) := by rw [Nat.add_sub_cancel_left]
          rw [statementNodes_open hopen, takeWhile_eq_take, dropWhile_eq_drop, andThen_run, andThen_run, openNode_run,
            reaching_eq ht hlength hlast, ← append_assoc, ← append_assoc]
          refine .openNamespace ht hopen rfl rfl hlength ?_ ?_ rfl (ih (by omega))
          · rw [hinside]
            exact ih (by rw [length_take]; omega)
          · rw [Nat.add_right_comm, Nat.add_sub_cancel]
            exact hlast
        | false =>
          cases hkind : ts[i].kind.isDocumented with
          | true =>
            rw [statementNodes_declared hkind, andThen_run, ← append_assoc]
            exact .declaration ht hkind rfl (ih (by omega))
          | false =>
            rw [statementNodes_other hcomment hopen hkind, andThen_run, andThen_run, ← append_assoc,
              ← append_assoc]
            exact .statement ht hcomment hopen hkind rfl rfl (ih (by omega))
    · rw [drop_eq_nil_of_le hle, statementNodes_nil]
      exact .finish hle rfl

/-- A round at a place leaves room for the rounds after it. -/
theorem exists_room (ht : ts[i]? = some t) (hn : ts.length - i < n) : ∃ m, n = m + 1 ∧ ts.length - (i + 1) < m := by
  have hi := (List.getElem?_eq_some_iff.mp ht).1
  exact ⟨n - 1, by omega, by omega⟩

/-- The nodes that a loop adds to those so far are the nodes of the phrases from its place on. -/
theorem Loop.exists_run {out ids : List NodeId} {f g : Forest} (h : Loop src sub ts i pending out f ids g)
    (hn : ts.length - i < n) :
    ∃ more, ids = out ++ more ∧ (statementNodes src sub n pending (ts.drop i)).run f = (more, g) := by
  induction h generalizing n with
  | finish hi hflush =>
    obtain ⟨n, rfl⟩ := Nat.exists_eq_add_one.mpr (Nat.zero_lt_of_lt hn)
    rw [drop_eq_nil_of_le hi, statementNodes_nil]
    exact ⟨_, rfl, hflush⟩
  | remark ht hkind hdoc _ ih =>
    obtain ⟨n, rfl, hroom⟩ := exists_room ht hn
    rw [drop_eq_cons ht, statementNodes_remark hkind hdoc]
    exact ih hroom
  | doc ht hdoc hflush _ ih =>
    obtain ⟨n, rfl, hroom⟩ := exists_room ht hn
    obtain ⟨more, rfl, hmore⟩ := ih hroom
    rw [drop_eq_cons ht, statementNodes_doc hdoc, andThen_run, hflush, hmore]
    exact ⟨_, append_assoc _ _ _, rfl⟩
  | @openNamespace ts i stop _ _ _ _ _ _ _ _ _ _ _ t last ht hopen hflush hstop hslice _ hlast hpush _ ihInside ih =>
    obtain ⟨n, rfl, hroom⟩ := exists_room ht hn
    subst hstop
    rw [Nat.add_sub_cancel_left] at ihInside
    rw [Nat.add_right_comm, Nat.add_sub_cancel] at hlast
    obtain ⟨_, rfl, hchildren⟩ := ihInside (n := n) (by rw [length_take]; omega)
    obtain ⟨more, rfl, hmore⟩ := ih (n := n) (by omega)
    rw [drop_zero] at hchildren
    rw [drop_eq_cons ht, statementNodes_open hopen, takeWhile_eq_take, dropWhile_eq_drop, andThen_run, hflush,
      andThen_run, openNode_run, hchildren, reaching_eq ht hslice hlast]
    dsimp only at hpush ⊢
    rw [hpush, hmore]
    exact ⟨_, by rw [append_assoc, append_assoc], rfl⟩
  | declaration ht hkind hnodes _ ih =>
    obtain ⟨n, rfl, hroom⟩ := exists_room ht hn
    obtain ⟨more, rfl, hmore⟩ := ih hroom
    rw [drop_eq_cons ht, statementNodes_declared hkind, andThen_run, hnodes, hmore]
    exact ⟨_, append_assoc _ _ _, rfl⟩
  | statement ht hcomment hopen hkind hflush hnodes _ ih =>
    obtain ⟨n, rfl, hroom⟩ := exists_room ht hn
    obtain ⟨more, rfl, hmore⟩ := ih hroom
    rw [drop_eq_cons ht, statementNodes_other hcomment hopen hkind, andThen_run, hflush, andThen_run, hnodes, hmore]
    exact ⟨_, by rw [append_assoc, append_assoc], rfl⟩

/-- The loop over a list comes to its end, and it makes the nodes of the list. -/
theorem loop_iff {ids : List NodeId} {f g : Forest} :
    Loop src sub ts 0 none [] f ids g ↔ (statementNodes src sub (ts.length + 1) none ts).run f = (ids, g) := by
  constructor
  · intro h
    obtain ⟨_, rfl, hrun⟩ := h.exists_run (Nat.lt_succ_self _)
    exact hrun
  · intro h
    have hrun : Loop src sub ts 0 none [] f (((statementNodes src sub (ts.length + 1) none ts).run f).1)
        ((statementNodes src sub (ts.length + 1) none ts).run f).2 := loop_run (Nat.lt_succ_self ts.length)
    rwa [h] at hrun

/-! ## Statements are placed once -/

/-- **Statements are placed once.** The loop over a list of statements comes to its end on every forest and reads nothing
outside of the list. Its nodes are those of the places: each place is met once and in order, those in a namespace
without a block under the node of that namespace. Documentation is for one declaration at most, and has its node there
or else at its own place. -/
theorem statements_placed_once (src : Source) (sub : Sub) (ts : List Tree) :
    (∀ f, ∃ ids g, Loop src sub ts 0 none [] f ids g) ∧
    (∀ f ids g, Loop src sub ts 0 none [] f ids g ↔
      (statementNodes src sub (ts.length + 1) none ts).run f = (ids, g)) ∧
    statementNodes src sub (ts.length + 1) none ts = placed src sub ts ∧
    ((outerPlaces ts).flatMap fun i => i :: innerPlaces ts i) = List.range ts.length ∧
    (∀ j d, docFor? src ts j = some d ↔ ∃ i, IsDocFor src ts i j ∧ ts[i]? = some d) ∧
    (∀ i j k, IsDocFor src ts i k → IsDocFor src ts j k → i = j) ∧
    ∀ i j k, IsDocFor src ts i j → IsDocFor src ts i k → j = k := by
  have hplaces : ((outerPlaces ts).flatMap fun i => i :: innerPlaces ts i) = List.range ts.length := by
    rw [← outerFrom_zero, flatMap_outerFrom fun _ => outer_zero ts, Nat.sub_zero, List.range_eq_range']
  exact ⟨fun _ => ⟨_, _, loop_iff.mpr rfl⟩, fun _ _ _ => loop_iff, statementNodes_eq_placed src sub ts, hplaces,
    fun _ _ => docFor?_eq_some_iff, fun _ _ _ => IsDocFor.doc_unique, fun _ _ _ => IsDocFor.declaration_unique⟩

/-- A class with documentation, and two namespaces without a block with documentation before each. -/
def openNamespaces : Source :=
  "<?php /** a */ /* b */ class A \x7b \x7d /** c */ namespace N; f(); /** d */ namespace M;".toUTF8

theorem statements_placed_once_openNamespaces :
    ∃ program, Tree.ofSource openNamespaces = some program ∧
      outerPlaces program.phrases = [0, 1, 2, 3, 4, 5, 8] ∧ innerPlaces program.phrases 5 = [6, 7] ∧
      IsDocFor openNamespaces program.phrases 1 3 ∧ (∀ j, IsDocFor openNamespaces program.phrases 1 j → 3 = j) ∧
      (∀ j < program.phrases.length, ¬IsDocFor openNamespaces program.phrases 4 j) ∧
      ∀ sub f, ∃ ids g, Loop openNamespaces sub program.phrases 0 none [] f ids g ∧
        (placed openNamespaces sub program.phrases).run f = (ids, g) := by
  have hplaces : ((Tree.ofSource openNamespaces).any fun program =>
      decide (outerPlaces program.phrases = [0, 1, 2, 3, 4, 5, 8] ∧ innerPlaces program.phrases 5 = [6, 7] ∧
        IsDocFor openNamespaces program.phrases 1 3 ∧
        ∀ j < program.phrases.length, ¬IsDocFor openNamespaces program.phrases 4 j)) = true := by
    decide +kernel
  obtain ⟨program, hprogram, hplaces⟩ := (Option.any_eq_true _ _).mp hplaces
  obtain ⟨houter, hinner, hfor, hnone⟩ := of_decide_eq_true hplaces
  refine ⟨program, hprogram, houter, hinner, hfor, fun j hj => ?_, hnone, fun sub f => ?_⟩
  · obtain ⟨-, -, -, -, -, -, hunique⟩ := statements_placed_once openNamespaces (fun _ _ => return []) program.phrases
    exact hunique 1 3 j hfor hj
  · obtain ⟨hends, hloop, heq, -⟩ := statements_placed_once openNamespaces sub program.phrases
    obtain ⟨ids, g, hrun⟩ := hends f
    exact ⟨ids, g, hrun, by rw [← heq]; exact (hloop f ids g).mp hrun⟩

end Lowering

end EventAtlas
