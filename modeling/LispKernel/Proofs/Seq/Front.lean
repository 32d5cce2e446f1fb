import LispKernel.Seq.Walk
import LispKernel.Proofs.Value.Parts

/-!
# Fronts of sequences

Slices count, read and step by their index; what they do is what is done to the list of the elements
that are left. A look for whether a sequence is empty, for its first element or for its rest
realizes the same lazy cells and then reads off one part of the front of the sequence.
-/
namespace LispKernel

/-- What a sequence begins with; an entry of a map is not yet a vector. -/
inductive Front where
  | done
  | item (x : Value) (rest : Seq)
  | entry (key value : Value) (rest : Seq)

namespace Front

def isDone : Front → Bool
  | done => true
  | _ => false

/-- Nil where nothing is left; an entry becomes a new vector each time. -/
def first : Front → Run Value
  | done => return .nil
  | item x _ => return x
  | entry key value _ => return .vector (← Vec.pair key value)

def rest : Front → Seq
  | done => .empty .plain
  | item _ rest | entry _ _ rest => rest

end Front

/-! ## Slices -/

namespace Slice

variable (s : Slice)

theorem count_eq : s.count = s.toList.length := by
  rw [count, toList, List.length_drop, Array.length_toList]

theorem first_eq : s.first = s.toList.headD .nil := by
  rw [first, toList, List.headD_eq_head?_getD, List.head?_drop, Array.getElem?_toList]

theorem toList_whole (items : List Value) : (⟨items.toArray, 0⟩ : Slice).toList = items := rfl

theorem toList_rest : s.rest.toList = s.toList.tail := by
  rw [toList, toList, List.tail_drop]
  rfl

/-- What a view begins with. -/
def front (kind : ViewKind) (storage : Storage) : Front :=
  match s.toList with
  | [] => .done
  | x :: _ => .item x (.ofSlice kind storage s.rest)

theorem front_cases (kind : ViewKind) (storage : Storage) :
    (s.toList = [] ∧ s.front kind storage = .done) ∨ ∃ x, s.toList = x :: s.rest.toList ∧
      s.front kind storage = .item x (.ofSlice kind storage s.rest) := by
  rw [toList_rest, front]
  cases s.toList with
  | nil => exact .inl ⟨rfl, rfl⟩
  | cons x rest => exact .inr ⟨x, rfl, rfl⟩

theorem isDone_front (kind : ViewKind) (storage : Storage) :
    (s.front kind storage).isDone = (s.count == 0) := by
  rw [count_eq]
  obtain ⟨hnil, hfront⟩ | ⟨x, hcons, hfront⟩ := s.front_cases kind storage
  · rw [hfront, hnil]
    rfl
  · rw [hfront, hcons]
    rfl

theorem first_front (kind : ViewKind) (storage : Storage) :
    (s.front kind storage).first = pure s.first := by
  rw [first_eq]
  obtain ⟨hnil, hfront⟩ | ⟨x, hcons, hfront⟩ := s.front_cases kind storage
  · rw [hfront, hnil]
    rfl
  · rw [hfront, hcons]
    rfl

/-- After the last element comes the empty list. -/
theorem ofSlice_rest (h : s.toList = []) (kind : ViewKind) (storage : Storage) :
    Seq.ofSlice kind storage s.rest = .empty .plain := by
  have hcount := s.count_eq
  rw [h, count, List.length_nil] at hcount
  have hend : ¬s.index + 1 < s.buffer.size := by omega
  exact if_neg hend

theorem rest_front (kind : ViewKind) (storage : Storage) :
    (s.front kind storage).rest = .ofSlice kind storage s.rest := by
  obtain ⟨hnil, hfront⟩ | ⟨x, -, hfront⟩ := s.front_cases kind storage
  · rw [hfront, s.ofSlice_rest hnil]
    rfl
  · rw [hfront]
    rfl

end Slice

namespace EntrySlice

variable (s : EntrySlice)

theorem count_eq : s.count = s.toList.length := by
  rw [count, toList, length_pairUp, flat, List.length_drop, Array.length_toList]

theorem head?_pairUp (xs : List Value) : (pairUp xs).head? = match xs[0]?, xs[1]? with
    | some key, some value => some (key, value)
    | _, _ => none := by
  rcases xs with _ | ⟨key, _ | ⟨value, rest⟩⟩ <;> simp [pairUp]

theorem first?_eq : s.first? = s.toList.head? := by
  rw [toList, head?_pairUp, flat, List.getElem?_drop, List.getElem?_drop, Array.getElem?_toList,
    Array.getElem?_toList, Nat.add_zero]
  rfl

theorem pairUp_drop_two (xs : List Value) : pairUp (xs.drop 2) = (pairUp xs).tail := by
  rcases xs with _ | ⟨key, _ | ⟨value, rest⟩⟩ <;> simp [pairUp]

/-- The entries of a map are read back from its keys and values in turn. -/
theorem pairUp_flatMap (entries : List (Value × Value)) :
    pairUp (entries.flatMap fun entry => [entry.1, entry.2]) = entries := by
  induction entries with
  | nil => simp [pairUp]
  | cons entry entries ih => simp [pairUp, ih]

theorem toList_whole (m : Dict) : (⟨m.flatten.toArray, 0⟩ : EntrySlice).toList = m.entries :=
  pairUp_flatMap m.entries

theorem flat_rest : s.rest.flat = s.flat.drop 2 := by
  rw [flat, flat, List.drop_drop]
  rfl

theorem toList_rest : s.rest.toList = s.toList.tail := by
  rw [toList, flat_rest, pairUp_drop_two, toList]

/-- What a view of entries begins with. -/
def front (storage : Storage) : Front :=
  match s.toList with
  | [] => .done
  | (key, value) :: _ => .entry key value (.ofEntries storage s.rest)

theorem front_cases (storage : Storage) :
    (s.toList = [] ∧ s.front storage = .done) ∨
      ∃ key value, s.toList = (key, value) :: s.rest.toList ∧
        s.front storage = .entry key value (.ofEntries storage s.rest) := by
  rw [toList_rest, front]
  cases s.toList with
  | nil => exact .inl ⟨rfl, rfl⟩
  | cons entry rest => exact .inr ⟨entry.1, entry.2, rfl, rfl⟩

theorem isDone_front (storage : Storage) : (s.front storage).isDone = (s.count == 0) := by
  rw [count_eq]
  obtain ⟨hnil, hfront⟩ | ⟨key, value, hcons, hfront⟩ := s.front_cases storage
  · rw [hfront, hnil]
    rfl
  · rw [hfront, hcons]
    rfl

/-- After the last entry comes the empty list. -/
theorem ofEntries_rest (h : s.toList = []) (storage : Storage) :
    Seq.ofEntries storage s.rest = .empty .plain := by
  have hcount := s.count_eq
  rw [h, count, List.length_nil] at hcount
  have hend : ¬s.index + 2 < s.buffer.size := by omega
  exact if_neg hend

theorem rest_front (storage : Storage) :
    (s.front storage).rest = .ofEntries storage s.rest := by
  obtain ⟨hnil, hfront⟩ | ⟨key, value, -, hfront⟩ := s.front_cases storage
  · rw [hfront, s.ofEntries_rest hnil]
    rfl
  · rw [hfront]
    rfl

end EntrySlice

/-! ## Looks -/

namespace Seq

variable (force : Force)

/-- A look at the front of a sequence. -/
def front : Nat → Seq → Run Front
  | 0, _ => .exhausted
  | n + 1, lazy cell _ => do front n (← force cell)
  | _ + 1, empty _ => return .done
  | _ + 1, cons _ x rest _ => return .item x rest
  | _ + 1, view kind storage slice _ => return slice.front kind storage
  | _ + 1, entries storage slice _ => return slice.front storage

theorem isEmpty_eq (n : Nat) (s : Seq) :
    s.isEmpty force n = (do return (← s.front force n).isDone) := by
  induction n generalizing s with
  | zero => rfl
  | succ n ih =>
    cases s with
    | empty info => rfl
    | cons cell x rest info => rfl
    | view kind storage slice info => rw [isEmpty, front, pure_bind, slice.isDone_front]
    | entries storage slice info => rw [isEmpty, front, pure_bind, slice.isDone_front]
    | «lazy» cell info =>
      rw [isEmpty, front, bind_assoc]
      exact bind_congr fun t => ih t

theorem first_eq (n : Nat) (s : Seq) : s.first force n = s.front force n >>= Front.first := by
  induction n generalizing s with
  | zero => rfl
  | succ n ih =>
    cases s with
    | empty info => rfl
    | cons cell x rest info => rfl
    | view kind storage slice info => rw [first, front, pure_bind, slice.first_front]
    | entries storage slice info =>
      rw [first, front, slice.first?_eq, pure_bind]
      obtain ⟨hnil, hfront⟩ | ⟨key, value, hcons, hfront⟩ := slice.front_cases storage
      · rw [hfront, hnil]
        rfl
      · rw [hfront, hcons]
        rfl
    | «lazy» cell info =>
      rw [first, front, bind_assoc]
      exact bind_congr fun t => ih t

theorem rest_eq (n : Nat) (s : Seq) :
    s.rest force n = (do return (← s.front force n).rest) := by
  induction n generalizing s with
  | zero => rfl
  | succ n ih =>
    cases s with
    | empty info => rfl
    | cons cell x rest info => rfl
    | view kind storage slice info => rw [rest, front, pure_bind, slice.rest_front]
    | entries storage slice info => rw [rest, front, pure_bind, slice.rest_front]
    | «lazy» cell info =>
      rw [rest, front, bind_assoc]
      exact bind_congr fun t => ih t

end Seq

end LispKernel
