import LispKernel.Proofs.Equality.Laws

/-!
# Sets are finite sets up to equality

A set that was built with lawful elements never has two equal ones. What it contains after an
element was added or taken out is what a finite set contains, and the other elements keep their
order. Two sets are equal exactly if each contains the elements of the other: as neither has equal
elements, neither can then be the longer one.
-/
namespace LispKernel

open Run (ReturnsIn Settles Refines)
open Value (Lawful Fits Equal agree)

/-! ## Elements up to a test -/

namespace Elements

variable (p : Test)

/-- Whether one of the elements is equal to a value. -/
def has (xs : List Value) (x : Value) : Bool := xs.any fun y => p y x

/-- A new element goes to the end. -/
def insert (x : Value) (xs : List Value) : List Value := if has p xs x then xs else xs ++ [x]

def remove (x : Value) (xs : List Value) : List Value := xs.filter fun y => !p y x

variable {p} {C : Value → Prop} {x y : Value} {xs ys : List Value}

theorem has_iff : has p xs x = true ↔ ∃ y ∈ xs, p y x = true := List.any_eq_true

theorem has_eq_false_iff : has p xs x = false ↔ ∀ y ∈ xs, p y x = false := by
  simp [has]

theorem insert_of_has (h : has p xs x = true) : insert p x xs = xs := if_pos h

theorem insert_of_not_has (h : has p xs x = false) : insert p x xs = xs ++ [x] := by
  rw [insert, if_neg (by simp [h])]

theorem forall_mem_insert (hx : C x) (hxs : ∀ y ∈ xs, C y) : ∀ y ∈ insert p x xs, C y := by
  unfold insert
  split
  · exact hxs
  · simpa [or_imp, forall_and] using ⟨hxs, hx⟩

/-- An element that is equal to itself is taken out as it was put in. -/
theorem remove_insert (h : has p xs x = false) (hx : p x x = true) :
    remove p x (insert p x xs) = xs := by
  have hxs : xs.filter (fun y => !p y x) = xs :=
    List.filter_eq_self.2 fun y hy => by simp [has_eq_false_iff.1 h y hy]
  rw [insert_of_not_has h, remove, List.filter_append, hxs]
  simp [hx]

section Lawful

variable (hp : PartialEquivalence C p) (hxs : ∀ x ∈ xs, C x)

include hp hxs

theorem has_insert (hx : C x) (hy : C y) :
    has p (insert p x xs) y = (has p xs y || p x y) := by
  cases h : has p xs x with
  | false =>
    rw [insert_of_not_has h]
    simp [has]
  | true =>
    rw [insert_of_has h]
    cases hxy : p x y with
    | false => simp
    | true =>
      obtain ⟨z, hz, hzx⟩ := has_iff.1 h
      have hzy : p z y = true := hp.trans (hxs z hz) hx hy hzx hxy
      simpa using has_iff.2 ⟨z, hz, hzy⟩

theorem has_remove (hx : C x) (hy : C y) :
    has p (remove p x xs) y = (has p xs y && !p x y) := by
  -- What is equal to `y` compares with `x` as `y` does.
  have hsame : ∀ z ∈ xs, p z y = true → p z x = p x y := fun z hz hzy =>
    (hp.congr (hxs z hz) hy hx hzy).trans (hp.comm hy hx)
  rw [Bool.eq_iff_iff, Bool.and_eq_true, has_iff, has_iff, Bool.not_eq_true']
  simp only [remove, List.mem_filter, Bool.not_eq_true']
  constructor
  · rintro ⟨z, ⟨hz, hzx⟩, hzy⟩
    exact ⟨⟨z, hz, hzy⟩, (hsame z hz hzy).symm.trans hzx⟩
  · rintro ⟨⟨z, hz, hzy⟩, hxy⟩
    exact ⟨z, ⟨hz, (hsame z hz hzy).trans hxy⟩, hzy⟩

/-- No element of a list without equal ones shares its partner. -/
theorem length_le_of_has (hys : ∀ y ∈ ys, C y) (hd : xs.Pairwise fun x x' => p x x' = false)
    (h : ∀ x ∈ xs, has p ys x = true) : xs.length ≤ ys.length := by
  refine Matching.length_le_of_search (R := fun x y => p y x = true) (fun x hx => has_iff.1 (h x hx))
    (hd.imp_of_mem fun {x x'} hx hx' hne y hy hyx hyx' => ?_)
  have hequal := hp.trans (hxs x hx) (hys y hy) (hxs x' hx') (hp.symm (hys y hy) (hxs x hx) hyx) hyx'
  simp [hne] at hequal

/-- A search in one direction and the length are enough to find the elements of both lists in each
other, and the other way round. -/
theorem agreeBy_elems_iff (hys : ∀ y ∈ ys, C y) (hdx : xs.Pairwise fun x x' => p x x' = false)
    (hdy : ys.Pairwise fun y y' => p y y' = false) :
    Content.agreeBy p (.elems xs) (.elems ys) = true ↔
      (∀ x ∈ xs, has p ys x = true) ∧ ∀ y ∈ ys, has p xs y = true := by
  constructor
  · intro h
    have hmatching := (Content.elems_iff hp hxs hys hdx).1 h
    refine ⟨fun x hx => ?_, fun y hy => ?_⟩
    · obtain ⟨y, hy, hxy⟩ := hmatching.exists_right hx
      exact has_iff.2 ⟨y, hy, hp.symm (hxs x hx) (hys y hy) hxy⟩
    · exact has_iff.2 (hmatching.symm.exists_right hy)
  · rintro ⟨hx, hy⟩
    have hlen : xs.length = ys.length := Nat.le_antisymm (length_le_of_has hp hxs hys hdx hx)
      (length_le_of_has hp hys hxs hdy hy)
    simp only [Content.agreeBy, Bool.and_eq_true, beq_iff_eq, List.all_eq_true, List.any_eq_true]
    refine ⟨hlen, fun x hx' => ?_⟩
    obtain ⟨y, hy, hyx⟩ := has_iff.1 (hx x hx')
    exact ⟨y, hy, hp.symm (hys y hy) (hxs x hx') hyx⟩

end Lawful

end Elements

/-! ## What the operations return -/

namespace ElemSet

section Returns

variable {I : World → Prop} {eq : Comparison} {C : Value → Prop} {p : Test}
  (heq : eq.Decides I C p) {s : ElemSet} {x : Value} (hx : C x) (hs : ∀ y ∈ s.items, C y)

include heq hx hs

theorem tryContains_returns : (s.tryContains eq x).ReturnsIn I (· = Elements.has p s.items x) :=
  anyM_returns fun y hy => heq y x (hs y hy) hx

theorem contains_returns : (s.contains eq x).ReturnsIn I (· = Elements.has p s.items x) :=
  tryContains_returns heq.lenient hx hs

variable (hI : Elastic I)

include hI

omit heq hx hs in
theorem replace_returns (s : ElemSet) (items : List Value) :
    (s.replace items).ReturnsIn I (·.items = items) :=
  (ReturnsIn.freshStorage hI).bind fun _ _ => .pure rfl

theorem conj_returns : (s.conj eq x).ReturnsIn I fun s' =>
    s'.items = Elements.insert p x s.items ∧ (Elements.has p s.items x = true → s' = s) := by
  refine (contains_returns heq hx hs).bind fun found hfound => ?_
  subst hfound
  cases hhas : Elements.has p s.items x with
  | true => exact .pure ⟨(Elements.insert_of_has hhas).symm, fun _ => rfl⟩
  | false =>
    rw [Elements.insert_of_not_has hhas]
    exact (replace_returns hI s _).mono fun s' hs' => ⟨hs', by simp⟩

theorem add?_returns : (s.add? eq x).ReturnsIn I fun added =>
    (added = none ↔ Elements.has p s.items x = true) ∧
      ∀ s' ∈ added, s'.items = Elements.insert p x s.items := by
  refine (tryContains_returns heq hx hs).bind fun found hfound => ?_
  subst hfound
  cases hhas : Elements.has p s.items x with
  | true => exact .pure ⟨by simp, by simp⟩
  | false =>
    rw [Elements.insert_of_not_has hhas]
    exact (replace_returns hI s _).bind fun s' hs' => .pure ⟨by simp, by simp [hs']⟩

theorem disj_returns : (s.disj eq x).ReturnsIn I (·.items = Elements.remove p x s.items) := by
  refine (Run.reject_returns fun y hy => (heq y x (hs y hy) hx).lenient).bind fun items hitems => ?_
  subst hitems
  exact replace_returns hI s _

theorem conj_disj_returns (habsent : Elements.has p s.items x = false) (hself : p x x = true) :
    ReturnsIn I (do (← s.conj eq x).disj eq x) (·.items = s.items) := by
  refine (conj_returns heq hx hs hI).bind fun s' hs' => ?_
  rw [← Elements.remove_insert habsent hself, ← hs'.1]
  exact disj_returns heq hx (hs'.1 ▸ Elements.forall_mem_insert hx hs) hI

end Returns

/-! ## What the operations settle on -/

variable {σ : Store} {s t : ElemSet} {x : Value}

theorem Built.lawful (h : s.Built (Lawful σ)) : ∀ x ∈ s.items, x.Lawful σ := h.separate.all

theorem Built.distinct (h : s.Built (Lawful σ)) :
    s.items.Pairwise fun x y => agree x y = false :=
  h.separate.apart.imp_of_mem fun hx hy hapart =>
    hapart (h.lawful _ hx).lazyFree (h.lawful _ hy).lazyFree

theorem items_fit {items : List Value} (h : ∀ x ∈ items, x.Lawful σ) {n : Nat}
    (hn : listWeight items ≤ n) : ∀ x ∈ items, x.Fits n := by
  intro x hx
  have := weight_le_listWeight hx
  exact ⟨(h x hx).lazyFree, by omega⟩

section Settles

variable (force : Force) (hs : ∀ y ∈ s.items, y.Lawful σ) (hx : x.Lawful σ)

include hs hx

theorem tryContains_settles : Settles (fun n => s.tryContains (Value.equals force n) x)
    (· = Elements.has agree s.items x) := by
  refine Value.settles_of_decides force (x := fun eq => s.tryContains eq x)
    (N := listWeight s.items + x.weight) (fun heq => tryContains_congr Refines.any heq s x) ?_
  intro n hn I eq hI heq
  exact tryContains_returns heq ⟨hx.lazyFree, by omega⟩ (items_fit hs (by omega))

theorem contains_settles : Settles (fun n => s.contains (Value.equals force n) x)
    (· = Elements.has agree s.items x) := by
  refine Value.settles_of_decides force (x := fun eq => s.contains eq x)
    (N := listWeight s.items + x.weight) (fun heq => contains_congr Refines.any heq s x) ?_
  intro n hn I eq hI heq
  exact contains_returns heq ⟨hx.lazyFree, by omega⟩ (items_fit hs (by omega))

theorem conj_settles : Settles (fun n => s.conj (Value.equals force n) x) fun s' =>
    s'.items = Elements.insert agree x s.items ∧
      (Elements.has agree s.items x = true → s' = s) := by
  refine Value.settles_of_decides force (x := fun eq => s.conj eq x)
    (N := listWeight s.items + x.weight) (fun heq => conj_congr Refines.any heq s x) ?_
  intro n hn I eq hI heq
  exact conj_returns heq ⟨hx.lazyFree, by omega⟩ (items_fit hs (by omega)) hI

theorem add?_settles : Settles (fun n => s.add? (Value.equals force n) x) fun added =>
    (added = none ↔ Elements.has agree s.items x = true) ∧
      ∀ s' ∈ added, s'.items = Elements.insert agree x s.items := by
  refine Value.settles_of_decides force (x := fun eq => s.add? eq x)
    (N := listWeight s.items + x.weight) (fun heq => add?_congr Refines.any heq s x) ?_
  intro n hn I eq hI heq
  exact add?_returns heq ⟨hx.lazyFree, by omega⟩ (items_fit hs (by omega)) hI

theorem disj_settles : Settles (fun n => s.disj (Value.equals force n) x)
    (·.items = Elements.remove agree x s.items) := by
  refine Value.settles_of_decides force (x := fun eq => s.disj eq x)
    (N := listWeight s.items + x.weight) (fun heq => disj_congr Refines.any heq s x) ?_
  intro n hn I eq hI heq
  exact disj_returns heq ⟨hx.lazyFree, by omega⟩ (items_fit hs (by omega)) hI

theorem conj_disj_settles (habsent : Elements.has agree s.items x = false)
    (hself : agree x x = true) :
    Settles (fun n => do (← s.conj (Value.equals force n) x).disj (Value.equals force n) x)
      (·.items = s.items) := by
  refine Value.settles_of_decides force (x := fun eq => do (← s.conj eq x).disj eq x)
    (N := listWeight s.items + x.weight)
    (fun heq => Refines.any.bind (conj_congr Refines.any heq s x) fun s' =>
      disj_congr Refines.any heq s' x) ?_
  intro n hn I eq hI heq
  exact conj_disj_returns heq ⟨hx.lazyFree, by omega⟩ (items_fit hs (by omega)) hI habsent hself

end Settles

/-! ## The laws of sets -/

/-- The set is found to contain the value. -/
def Member (force : Force) (s : ElemSet) (x : Value) : Prop :=
  Settles (fun n => s.contains (Value.equals force n) x) (· = true)

/-- The set `s'` is the set `s` with one more element, unless it has an equal one. -/
structure Extended (force : Force) (σ : Store) (s : ElemSet) (x : Value) (s' : ElemSet) : Prop where
  member_iff {y : Value} : y.Lawful σ → (s'.Member force y ↔ s.Member force y ∨ Equal force x y)
  of_member : s.Member force x → s' = s
  of_absent : ¬ s.Member force x → s'.items = s.items ++ [x]

/-- The set `s'` is the set `s` without the elements equal to a value. -/
structure Reduced (force : Force) (σ : Store) (s : ElemSet) (x : Value) (s' : ElemSet) : Prop where
  member_iff {y : Value} : y.Lawful σ → (s'.Member force y ↔ s.Member force y ∧ ¬ Equal force x y)
  sublist : s'.items.Sublist s.items

variable {force : Force}

theorem member_iff (hs : ∀ y ∈ s.items, y.Lawful σ) (hx : x.Lawful σ) :
    s.Member force x ↔ Elements.has agree s.items x = true := by
  have hcontains := contains_settles force hs hx
  constructor
  · exact fun h => hcontains.unique h
  · intro h
    rw [h] at hcontains
    exact hcontains

theorem extended {s' : ElemSet} (hs : ∀ y ∈ s.items, y.Lawful σ) (hx : x.Lawful σ)
    (h : s'.items = Elements.insert agree x s.items)
    (hsame : Elements.has agree s.items x = true → s' = s) : s.Extended force σ x s' where
  member_iff {y} hy := by
    have hs' : ∀ y ∈ s'.items, y.Lawful σ := h ▸ Elements.forall_mem_insert hx hs
    rw [member_iff hs' hy, member_iff hs hy, h, Value.equal_iff_agree force hx.lazyFree hy.lazyFree,
      Elements.has_insert (Value.agree_partialEquivalence σ) hs hx hy, Bool.or_eq_true]
  of_member := by
    rw [member_iff hs hx]
    exact hsame
  of_absent habsent := by
    rw [member_iff hs hx, Bool.not_eq_true] at habsent
    rw [h, Elements.insert_of_not_has habsent]

theorem reduced {s' : ElemSet} (hs : ∀ y ∈ s.items, y.Lawful σ) (hx : x.Lawful σ)
    (h : s'.items = Elements.remove agree x s.items) : s.Reduced force σ x s' where
  member_iff {y} hy := by
    have hs' : ∀ y ∈ s'.items, y.Lawful σ := fun y hy => hs y (List.mem_of_mem_filter (h ▸ hy))
    rw [member_iff hs' hy, member_iff hs hy, h, Value.equal_iff_agree force hx.lazyFree hy.lazyFree,
      Elements.has_remove (Value.agree_partialEquivalence σ) hs hx hy, Bool.and_eq_true,
      Bool.not_eq_true', Bool.not_eq_true]
  sublist := h ▸ List.filter_sublist

theorem lazyFree_set (hs : ∀ x ∈ s.items, x.Lawful σ) : (Value.set s).LazyFree :=
  Value.everywhere_iff.2 ⟨rfl, fun x hx => (hs x hx).lazyFree⟩

theorem agree_set_iff (hs : s.Built (Lawful σ)) (ht : t.Built (Lawful σ)) :
    agree (.set s) (.set t) = true ↔
      (∀ x ∈ s.items, t.Member force x) ∧ ∀ y ∈ t.items, s.Member force y := by
  have hagree : agree (.set s) (.set t) = Content.agreeBy agree (.elems s.items) (.elems t.items) :=
    Value.agree_eq ..
  rw [hagree, Elements.agreeBy_elems_iff (Value.agree_partialEquivalence σ) hs.lawful ht.lawful
    hs.distinct ht.distinct]
  refine and_congr (forall₂_congr fun x hx => ?_) (forall₂_congr fun y hy => ?_)
  · rw [member_iff ht.lawful (hs.lawful x hx)]
  · rw [member_iff hs.lawful (ht.lawful y hy)]

/-- Elements are distinct, asking for one always has an answer, and adding and taking out do what
they do to a finite set. Adding in place is refused exactly for what the set contains, and otherwise
it gives the same elements. Sets are equal exactly if each contains the elements of the other. -/
theorem finite_set_laws (force : Force) {σ : Store} {s t : ElemSet} {x : Value}
    (hs : s.Built (Lawful σ)) (ht : t.Built (Lawful σ)) (hx : x.Lawful σ) :
    (s.items.Pairwise fun y z => ¬ Equal force y z ∧ ¬ Equal force z y) ∧
    (∃ r, Settles (fun n => s.contains (Value.equals force n) x) (· = r)) ∧
    Settles (fun n => s.conj (Value.equals force n) x) (s.Extended force σ x) ∧
    Settles (fun n => s.disj (Value.equals force n) x) (s.Reduced force σ x) ∧
    (Equal force x x → ¬ s.Member force x →
      Settles (fun n => do (← s.conj (Value.equals force n) x).disj (Value.equals force n) x)
        (·.items = s.items)) ∧
    Settles (fun n => s.add? (Value.equals force n) x) (fun added =>
      (added = none ↔ s.Member force x) ∧ ∀ s' ∈ added, s'.items = s.items ++ [x]) ∧
    Settles (fun n => (Value.set s).equals force n (.set t)) fun r => r = true ↔
      (∀ y ∈ s.items, t.Member force y) ∧ ∀ y ∈ t.items, s.Member force y := by
  have hlawful := hs.lawful
  have hmember : s.Member force x ↔ Elements.has agree s.items x = true := member_iff hlawful hx
  refine ⟨?_, ⟨_, contains_settles force hlawful hx⟩, ?_, ?_, ?_, ?_, ?_⟩
  · refine hs.distinct.imp_of_mem fun {y z} hy hz hne => ?_
    have hy := hlawful y hy
    have hz := hlawful z hz
    rw [Value.equal_iff_agree force hy.lazyFree hz.lazyFree,
      Value.equal_iff_agree force hz.lazyFree hy.lazyFree,
      (Value.agree_partialEquivalence σ).comm hz hy]
    simp [hne]
  · exact (conj_settles force hlawful hx).mono fun s' hs' => extended hlawful hx hs'.1 hs'.2
  · exact (disj_settles force hlawful hx).mono fun s' hs' => reduced hlawful hx hs'
  · rw [hmember, Bool.not_eq_true, Value.equal_iff_agree force hx.lazyFree hx.lazyFree]
    exact fun hself habsent => conj_disj_settles force hlawful hx habsent hself
  · refine (add?_settles force hlawful hx).mono fun added hadded => ?_
    refine ⟨hadded.1.trans hmember.symm, fun s' hs' => ?_⟩
    have habsent : Elements.has agree s.items x = false := by
      rw [Bool.eq_false_iff, Ne, ← hadded.1, Option.mem_def.1 hs']
      simp
    rw [hadded.2 s' hs', Elements.insert_of_not_has habsent]
  · refine (Value.equals_settles force (lazyFree_set hlawful) (lazyFree_set ht.lawful)).mono ?_
    rintro r rfl
    exact agree_set_iff hs ht

/-- A set with a NaN and a vector, and a sequence that is equal to the vector, which another set
does not contain. -/
theorem finite_set_laws_nan :
    let nan : Value := .double ⟨0x7ff8000000000000⟩
    let pair : Value := .vector ⟨⟨20, [.int 1, .int 2]⟩, .plain⟩
    let x : Value := .seq (.view .array 21 ⟨#[.int 1, .int 2], 0⟩ .plain)
    let s : ElemSet := ⟨⟨2, [nan, pair]⟩, .plain⟩
    let t : ElemSet := ⟨⟨11, [.int 4]⟩, .plain⟩
    let σ : Store :=
      ⟨fun _ => (.nil, .empty .plain), fun _ => [.int 1, .int 2], fun _ => []⟩
    let force : Force := fun _ => Run.exhausted
    (s.Built (Lawful σ) ∧ t.Built (Lawful σ) ∧ x.Lawful σ ∧ Equal force x x ∧
        s.Member force x ∧ ¬ t.Member force x ∧ ¬ s.Member force nan) ∧
      Settles (fun n => s.conj (Value.equals force n) x) (s.Extended force σ x) ∧
      Settles (fun n => do (← t.conj (Value.equals force n) x).disj (Value.equals force n) x)
        (·.items = t.items) ∧
      Settles (fun n => (Value.set s).equals force n (.set s)) fun r => r = true ↔
        (∀ y ∈ s.items, s.Member force y) ∧ ∀ y ∈ s.items, s.Member force y := by
  intro nan pair x s t σ force
  have hnan : nan.Lawful σ := Value.lawful_atom _
  have hpair : pair.Lawful σ := Value.lawful_iff.2
    ⟨⟨rfl, trivial, trivial⟩, by simp [pair, Value.parts, Vec.items, Value.lawful_atom]⟩
  have hx : x.Lawful σ := Value.lawful_iff.2
    ⟨⟨rfl, trivial, rfl⟩, by simp [x, Value.parts, Slice.toList, Value.lawful_atom]⟩
  have hnewrun (k : Nat) : ElemSet.new { storages := k } =
      some (.ok ⟨⟨k, []⟩, .plain⟩, { storages := k + 1 }) := rfl
  have hnanrun : ElemSet.conj (Value.equals force 1) ⟨⟨0, []⟩, .plain⟩ nan { storages := 1 } =
      some (.ok ⟨⟨1, [nan]⟩, .plain⟩, { storages := 2 }) := rfl
  have hpairrun : ElemSet.conj (Value.equals force 1) ⟨⟨1, [nan]⟩, .plain⟩ pair { storages := 2 } =
      some (.ok s, { storages := 3 }) := rfl
  have hintrun : ElemSet.conj (Value.equals force 1) ⟨⟨10, []⟩, .plain⟩ (.int 4)
      { storages := 11 } = some (.ok t, { storages := 12 }) := rfl
  have hs : s.Built (Lawful σ) :=
    .conj (.conj (.new (hnewrun 0)) hnan hnanrun) hpair hpairrun
  have ht : t.Built (Lawful σ) := .conj (.new (hnewrun 10)) (Value.lawful_atom (.int 4)) hintrun
  have hself : Equal force x x :=
    (Value.equal_iff_agree force hx.lazyFree hx.lazyFree).2 (by decide)
  have hmember : s.Member force x := (member_iff hs.lawful hx).2 (by decide)
  have habsent : ¬ t.Member force x := by
    rw [member_iff ht.lawful hx]
    decide
  have hnever : ¬ s.Member force nan := by
    rw [member_iff hs.lawful hnan]
    decide
  obtain ⟨-, -, hconj, -, -, -, hequal⟩ := finite_set_laws force hs hs hx
  obtain ⟨-, -, -, -, hdisj, -, -⟩ := finite_set_laws force ht hs hx
  exact ⟨⟨hs, ht, hx, hself, hmember, habsent, hnever⟩, hconj, hdisj hself habsent, hequal⟩

end ElemSet

end LispKernel
