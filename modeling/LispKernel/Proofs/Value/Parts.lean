import LispKernel.Value

/-!
# Parts of values

What occurs in a value at any depth: elements, keys, values under keys and the rests of sequences.
Positions and metadata are not parts. Every part weighs less than the whole, so what holds of a
value if it holds of all lighter values holds of every value.
-/
namespace LispKernel

/-- A key and its value as an entry is seen from outside. The storage of the pair is immaterial. -/
def Value.pair (key value : Value) : Value := .vector ⟨⟨0, [key, value]⟩, .plain⟩

/-- The elements that a sequence shows without realizing anything. -/
def Seq.items : Seq → List Value
  | .empty _ => []
  | .cons _ x rest _ => x :: rest.items
  | .view _ _ slice _ => slice.toList
  | .entries _ slice _ => slice.map fun entry => .pair entry.1 entry.2
  | .lazy .. => []

/-! ## Weight -/

mutual

def Value.weight : Value → Nat
  | .atom _ => 3
  | .vector v => v.weight
  | .map m => m.weight
  | .set s => s.weight
  | .seq s => s.weight

def Seq.weight : Seq → Nat
  | .empty _ => 3
  | .cons _ x rest _ => 3 + x.weight + rest.weight
  | .view _ _ slice _ => 3 + slice.weight
  | .entries _ slice _ => 3 + slice.weight
  | .lazy .. => 3

def Slice.weight : Slice → Nat
  | ⟨buffer, _⟩ => arrayWeight buffer

/-- Twice what the buffer weighs, since entries are pairs from outside. -/
def EntrySlice.weight : EntrySlice → Nat
  | ⟨buffer, _⟩ => 2 * arrayWeight buffer

def Block.weight : Block → Nat
  | ⟨_, items⟩ => 3 + listWeight items

def Vec.weight : Vec → Nat
  | ⟨block, _⟩ => block.weight

def ElemSet.weight : ElemSet → Nat
  | ⟨block, _⟩ => block.weight

def Dict.weight : Dict → Nat
  | ⟨_, entries, _⟩ => 3 + entriesWeight entries

def listWeight : List Value → Nat
  | [] => 0
  | x :: xs => x.weight + listWeight xs

def arrayWeight : Array Value → Nat
  | ⟨items⟩ => listWeight items

def entryWeight : Value × Value → Nat
  | (key, value) => 3 + (key.weight + value.weight)

def entriesWeight : List (Value × Value) → Nat
  | [] => 0
  | entry :: entries => entryWeight entry + entriesWeight entries

end

@[simp] theorem weight_atom (a : Atom) : (Value.atom a).weight = 3 := rfl

@[simp] theorem weight_vector (v : Vec) : (Value.vector v).weight = 3 + listWeight v.items := by
  rcases v with ⟨⟨storage, items⟩, info⟩
  rfl

@[simp] theorem weight_set (s : ElemSet) : (Value.set s).weight = 3 + listWeight s.items := by
  rcases s with ⟨⟨storage, items⟩, info⟩
  rfl

@[simp] theorem weight_map (m : Dict) : (Value.map m).weight = 3 + entriesWeight m.entries := by
  rcases m with ⟨storage, entries, info⟩
  rfl

@[simp] theorem weight_seq (s : Seq) : (Value.seq s).weight = s.weight := rfl

theorem entryWeight_eq (entry : Value × Value) :
    entryWeight entry = 3 + (entry.1.weight + entry.2.weight) := by
  cases entry
  rfl

theorem three_le_weight (v : Value) : 3 ≤ v.weight := by
  cases v with
  | seq s =>
    rw [weight_seq]
    cases s <;> rw [Seq.weight] <;> omega
  | _ => simp

theorem weight_le_listWeight {x : Value} {xs : List Value} (h : x ∈ xs) :
    x.weight ≤ listWeight xs := by
  induction xs with
  | nil => cases h
  | cons y ys ih =>
    simp only [listWeight]
    rcases List.mem_cons.1 h with rfl | h
    · omega
    · have := ih h
      omega

theorem length_le_listWeight (xs : List Value) : xs.length ≤ listWeight xs := by
  induction xs with
  | nil => simp
  | cons x xs ih =>
    have := three_le_weight x
    simp only [listWeight, List.length_cons]
    omega

theorem entryWeight_le_entriesWeight {entry : Value × Value} {entries : List (Value × Value)}
    (h : entry ∈ entries) : entryWeight entry ≤ entriesWeight entries := by
  induction entries with
  | nil => cases h
  | cons e es ih =>
    simp only [entriesWeight]
    rcases List.mem_cons.1 h with rfl | h
    · omega
    · have := ih h
      omega

theorem length_le_entriesWeight (entries : List (Value × Value)) :
    entries.length ≤ entriesWeight entries := by
  induction entries with
  | nil => simp
  | cons entry entries ih =>
    simp only [entriesWeight, entryWeight_eq, List.length_cons]
    omega

@[simp] theorem weight_pair (key value : Value) :
    (Value.pair key value).weight = entryWeight (key, value) := rfl

theorem Vec.weight_lt_of_mem {v : Vec} {x : Value} (h : x ∈ v.items) :
    x.weight < (Value.vector v).weight := by
  have := weight_le_listWeight h
  rw [weight_vector]
  omega

theorem ElemSet.weight_lt_of_mem {s : ElemSet} {x : Value} (h : x ∈ s.items) :
    x.weight < (Value.set s).weight := by
  have := weight_le_listWeight h
  rw [weight_set]
  omega

theorem Dict.weight_lt_of_mem {m : Dict} {entry : Value × Value} (h : entry ∈ m.entries) :
    entry.1.weight < (Value.map m).weight ∧ entry.2.weight < (Value.map m).weight := by
  have := entryWeight_le_entriesWeight h
  rw [entryWeight_eq] at this
  rw [weight_map]
  omega

/-! ## Slices -/

namespace Slice

@[simp] theorem weight_eq (s : Slice) : s.weight = listWeight s.buffer.toList := by
  rcases s with ⟨⟨items⟩, index⟩
  rfl

/-- Nothing is left where the index is not before the end. -/
theorem toList_eq_nil (s : Slice) (h : s.buffer.size ≤ s.index) : s.toList = [] :=
  List.drop_eq_nil_of_le h

theorem mem_of_mem_toList {s : Slice} {x : Value} (h : x ∈ s.toList) : x ∈ s.buffer.toList :=
  List.mem_of_mem_drop h

theorem weight_le_of_mem (s : Slice) {x : Value} (h : x ∈ s.toList) : x.weight ≤ s.weight := by
  rw [weight_eq]
  exact weight_le_listWeight (mem_of_mem_toList h)

theorem length_le_weight (s : Slice) : s.toList.length ≤ s.weight := by
  have := length_le_listWeight s.buffer.toList
  rw [weight_eq, toList, List.length_drop]
  omega

end Slice

namespace EntrySlice

@[simp] theorem weight_eq (s : EntrySlice) : s.weight = 2 * listWeight s.buffer.toList := by
  rcases s with ⟨⟨items⟩, index⟩
  rfl

theorem toList_eq_nil (s : EntrySlice) (h : s.buffer.size ≤ s.index) : s.toList = [] := by
  rw [toList, flat, List.drop_eq_nil_of_le h, pairUp]
  simp

theorem pairUp_map (f : Value → Value) (xs : List Value) :
    pairUp (xs.map f) = (pairUp xs).map fun e => (f e.1, f e.2) := by
  induction xs using pairUp.induct with
  | case1 key value rest ih => simp [pairUp, ih]
  | case2 xs hxs =>
    rcases xs with _ | ⟨x, _ | ⟨y, xs⟩⟩
    · simp [pairUp]
    · simp [pairUp]
    · exact absurd rfl (hxs x y xs)

theorem mem_of_mem_pairUp {entry : Value × Value} {xs : List Value} (h : entry ∈ pairUp xs) :
    entry.1 ∈ xs ∧ entry.2 ∈ xs := by
  induction xs using pairUp.induct with
  | case1 key value rest ih =>
    rcases List.mem_cons.1 h with rfl | h
    · simp
    · simp [ih h]
  | case2 xs hxs => simp [pairUp] at h

/-- What holds of the keys and values holds of the entries. -/
theorem forall_toList {P : Value → Prop} {s : EntrySlice} (h : ∀ x ∈ s.flat, P x) :
    ∀ e ∈ s.toList, P e.1 ∧ P e.2 := by
  intro e he
  obtain ⟨hkey, hvalue⟩ := mem_of_mem_pairUp he
  exact ⟨h _ hkey, h _ hvalue⟩

theorem length_pairUp (xs : List Value) : (pairUp xs).length = xs.length / 2 := by
  induction xs using pairUp.induct with
  | case1 key value rest ih =>
    simp only [pairUp, List.length_cons, ih]
    omega
  | case2 xs hxs =>
    rcases xs with _ | ⟨x, _ | ⟨y, xs⟩⟩
    · simp [pairUp]
    · simp [pairUp]
    · exact absurd rfl (hxs x y xs)

theorem listWeight_of_mem_pairUp {entry : Value × Value} {xs : List Value}
    (h : entry ∈ pairUp xs) : entry.1.weight + entry.2.weight ≤ listWeight xs := by
  induction xs using pairUp.induct with
  | case1 key value rest ih =>
    simp only [listWeight]
    rcases List.mem_cons.1 h with rfl | h
    · dsimp only
      omega
    · have := ih h
      omega
  | case2 xs hxs => simp [pairUp] at h

theorem listWeight_drop_le (i : Nat) (xs : List Value) :
    listWeight (xs.drop i) ≤ listWeight xs := by
  induction i generalizing xs with
  | zero => simp
  | succ i ih =>
    cases xs with
    | nil => simp
    | cons x xs =>
      have := ih xs
      simp only [List.drop_succ_cons, listWeight]
      omega

theorem weight_le_of_mem (s : EntrySlice) {x : Value} (h : x ∈ s.flat) : x.weight ≤ s.weight := by
  have := weight_le_listWeight (List.mem_of_mem_drop h)
  rw [weight_eq]
  omega

theorem entryWeight_lt_of_mem (s : EntrySlice) {entry : Value × Value} (h : entry ∈ s.toList) :
    entryWeight entry < 3 + s.weight := by
  have hpair := listWeight_of_mem_pairUp h
  have hdrop : listWeight s.flat ≤ listWeight s.buffer.toList := listWeight_drop_le ..
  have hkey := three_le_weight entry.1
  rw [entryWeight_eq, weight_eq]
  omega

theorem length_le_weight (s : EntrySlice) : s.toList.length ≤ s.weight := by
  have := length_le_listWeight s.buffer.toList
  rw [weight_eq, toList, length_pairUp, flat, List.length_drop]
  omega

end EntrySlice

namespace Seq

/-- The sequence of a slice is a view or, with nothing left, the empty list. -/
@[elab_as_elim] theorem ofSlice_cases {motive : Seq → Prop} {kind : ViewKind} {storage : Storage}
    {slice : Slice}
    (view : slice.index < slice.buffer.size → motive (view kind storage slice .plain))
    (empty : slice.toList = [] → motive (empty .plain)) : motive (ofSlice kind storage slice) := by
  unfold ofSlice
  split
  · next hindex => exact view hindex
  · next hindex => exact empty (slice.toList_eq_nil (Nat.le_of_not_lt hindex))

/-- The sequence of entries is a view or, with nothing left, the empty list. -/
@[elab_as_elim] theorem ofEntries_cases {motive : Seq → Prop} {storage : Storage}
    {slice : EntrySlice}
    (entries : slice.index < slice.buffer.size → motive (entries storage slice .plain))
    (empty : slice.toList = [] → motive (empty .plain)) : motive (ofEntries storage slice) := by
  unfold ofEntries
  split
  · next hindex => exact entries hindex
  · next hindex => exact empty (slice.toList_eq_nil (Nat.le_of_not_lt hindex))

end Seq

theorem Seq.weight_lt_of_mem {s : Seq} {x : Value} (h : x ∈ s.items) :
    x.weight < (Value.seq s).weight := by
  induction s using Seq.items.induct with
  | case1 info => cases h
  | case2 cell first rest info ih =>
    rw [weight_seq] at ih
    rw [weight_seq, Seq.weight]
    rcases List.mem_cons.1 h with rfl | h
    · omega
    · have := ih h
      omega
  | case3 kind storage slice info =>
    have := slice.weight_le_of_mem h
    rw [weight_seq, Seq.weight]
    omega
  | case4 storage slice info =>
    obtain ⟨entry, hentry, rfl⟩ := List.mem_map.1 h
    have := slice.entryWeight_lt_of_mem hentry
    rw [weight_pair, weight_seq, Seq.weight]
    omega
  | case5 cell info => cases h

theorem Seq.length_items_add (s : Seq) : s.items.length + 3 ≤ (Value.seq s).weight := by
  induction s using Seq.items.induct with
  | case1 info => simp [items, weight]
  | case2 cell first rest info ih =>
    have := three_le_weight first
    rw [weight_seq] at ih
    rw [weight_seq, Seq.weight, items, List.length_cons]
    omega
  | case3 kind storage slice info =>
    have := slice.length_le_weight
    rw [weight_seq, Seq.weight, items]
    omega
  | case4 storage slice info =>
    have := slice.length_le_weight
    rw [weight_seq, Seq.weight, items, EntrySlice.map, List.length_map]
    omega
  | case5 cell info => simp [items, weight]

theorem Vec.length_items_add (v : Vec) : v.items.length + 3 ≤ (Value.vector v).weight := by
  have := length_le_listWeight v.items
  rw [weight_vector]
  omega

/-! ## Occurrence -/

theorem forall_entries {α : Type} {P : α → Prop} {entries : List (α × α)}
    (h : ∀ x ∈ entries.flatMap fun e => [e.1, e.2], P x) : ∀ e ∈ entries, P e.1 ∧ P e.2 :=
  fun e he => ⟨h e.1 (List.mem_flatMap.2 ⟨e, he, by simp⟩),
    h e.2 (List.mem_flatMap.2 ⟨e, he, by simp⟩)⟩

namespace Value

/-- The parts that a value is made of directly. -/
def parts : Value → List Value
  | atom _ => []
  | vector v => v.items
  | map m => m.entries.flatMap fun entry => [entry.1, entry.2]
  | set s => s.items
  | seq (.empty _) => []
  | seq (.cons _ x rest _) => [x, seq rest]
  | seq (.view _ _ slice _) => slice.toList
  | seq (.entries _ slice _) => slice.flat
  | seq (.lazy ..) => []

inductive Occurs : Value → Value → Prop where
  | self (v : Value) : Occurs v v
  | part {x y v : Value} : y ∈ v.parts → Occurs x y → Occurs x v

/-- The condition holds of the value and of all that occurs in it. -/
def Everywhere (P : Value → Prop) (v : Value) : Prop := ∀ x, Occurs x v → P x

variable {P : Value → Prop}

theorem everywhere_iff {v : Value} : v.Everywhere P ↔ P v ∧ ∀ x ∈ v.parts, x.Everywhere P := by
  constructor
  · intro h
    exact ⟨h v (.self v), fun x hx y hy => h y (.part hx hy)⟩
  · rintro ⟨hv, hparts⟩ x hx
    cases hx with
    | self => exact hv
    | part hy hx => exact hparts _ hy x hx

theorem Everywhere.here {v : Value} (h : v.Everywhere P) : P v := (everywhere_iff.1 h).1

theorem Everywhere.of_mem {v x : Value} (h : v.Everywhere P) (hx : x ∈ v.parts) :
    x.Everywhere P := (everywhere_iff.1 h).2 x hx

theorem Everywhere.entry {m : Dict} (h : (map m).Everywhere P) {entry : Value × Value}
    (he : entry ∈ m.entries) : entry.1.Everywhere P ∧ entry.2.Everywhere P :=
  ⟨h.of_mem (List.mem_flatMap.2 ⟨entry, he, by simp⟩),
    h.of_mem (List.mem_flatMap.2 ⟨entry, he, by simp⟩)⟩

theorem everywhere_pair (hP : ∀ v, P (vector v)) {key value : Value} :
    (pair key value).Everywhere P ↔ key.Everywhere P ∧ value.Everywhere P := by
  rw [everywhere_iff, pair]
  simp [hP, parts, Vec.items]

/-- The elements of a sequence, entries as pairs included, are made of its parts. -/
theorem Everywhere.items (hP : ∀ v, P (vector v)) {s : Seq} (h : (seq s).Everywhere P) :
    ∀ x ∈ s.items, x.Everywhere P := by
  induction s using Seq.items.induct with
  | case1 info => intro x hx; cases hx
  | case2 cell first rest info ih =>
    intro x hx
    rcases List.mem_cons.1 hx with rfl | hx
    · exact h.of_mem (by simp [parts])
    · exact ih (h.of_mem (by simp [parts])) x hx
  | case3 kind storage slice info => exact fun x hx => h.of_mem hx
  | case4 storage slice info =>
    intro x hx
    obtain ⟨entry, hentry, rfl⟩ := List.mem_map.1 hx
    exact (everywhere_pair hP).2 (EntrySlice.forall_toList (fun y hy => h.of_mem hy) entry hentry)
  | case5 cell info => intro x hx; cases hx

def isLazy : Value → Bool
  | seq (.lazy ..) => true
  | _ => false

/-- No lazy cell occurs in the value. -/
def LazyFree (v : Value) : Prop := v.Everywhere fun x => x.isLazy = false

def isNaN : Value → Bool
  | double d => d.isNaN
  | _ => false

/-- No double that is not a number occurs in the value. -/
def NaNFree (v : Value) : Prop := v.Everywhere fun x => x.isNaN = false

end Value

end LispKernel
