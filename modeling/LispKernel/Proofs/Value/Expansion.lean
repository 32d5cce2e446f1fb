import LispKernel.Proofs.Equality.Agreement

/-!
# Values with their lazy cells replaced

A value in which a sequence stands in for each lazy cell, at any depth. Storage, positions and
metadata stay as they are, and so does what a view has left behind. If every cell stands for itself,
the value is the value it was.
-/
namespace LispKernel

/-- A sequence to stand in for a lazy cell, which may take over the information of the cell. -/
abbrev Showing := LazyRef → Info → Seq

mutual

def Value.expand (shown : Showing) : Value → Value
  | .atom a => .atom a
  | .vector v => .vector (v.expand shown)
  | .map m => .map (m.expand shown)
  | .set s => .set (s.expand shown)
  | .seq s => .seq (s.expand shown)

def Seq.expand (shown : Showing) : Seq → Seq
  | .empty info => .empty info
  | .cons cell x rest info => .cons cell (x.expand shown) (rest.expand shown) info
  | .view kind storage slice info => .view kind storage (slice.expand shown) info
  | .entries storage slice info => .entries storage (slice.expand shown) info
  | .lazy cell info => shown cell info

def Slice.expand (shown : Showing) : Slice → Slice
  | ⟨buffer, index⟩ => ⟨arrayExpandFrom shown index buffer, index⟩

def EntrySlice.expand (shown : Showing) : EntrySlice → EntrySlice
  | ⟨buffer, index⟩ => ⟨arrayExpandFrom shown index buffer, index⟩

def Block.expand (shown : Showing) : Block → Block
  | ⟨storage, items⟩ => ⟨storage, listExpand shown items⟩

def Vec.expand (shown : Showing) : Vec → Vec
  | ⟨block, info⟩ => ⟨block.expand shown, info⟩

def ElemSet.expand (shown : Showing) : ElemSet → ElemSet
  | ⟨block, info⟩ => ⟨block.expand shown, info⟩

def Dict.expand (shown : Showing) : Dict → Dict
  | ⟨storage, entries, info⟩ => ⟨storage, entriesExpand shown entries, info⟩

def listExpand (shown : Showing) : List Value → List Value
  | [] => []
  | x :: xs => x.expand shown :: listExpand shown xs

/-- The elements before the index stay as they are. -/
def listExpandFrom (shown : Showing) : Nat → List Value → List Value
  | _, [] => []
  | 0, x :: xs => x.expand shown :: listExpandFrom shown 0 xs
  | index + 1, x :: xs => x :: listExpandFrom shown index xs

def arrayExpandFrom (shown : Showing) (index : Nat) : Array Value → Array Value
  | ⟨items⟩ => ⟨listExpandFrom shown index items⟩

def entryExpand (shown : Showing) : Value × Value → Value × Value
  | (key, value) => (key.expand shown, value.expand shown)

def entriesExpand (shown : Showing) : List (Value × Value) → List (Value × Value)
  | [] => []
  | entry :: entries => entryExpand shown entry :: entriesExpand shown entries

end

variable {shown : Showing}

@[simp] theorem listExpand_eq (xs : List Value) :
    listExpand shown xs = xs.map (Value.expand shown) := by
  induction xs with
  | nil => rfl
  | cons x xs ih => rw [listExpand, ih, List.map_cons]

theorem listExpandFrom_eq (index : Nat) (xs : List Value) :
    listExpandFrom shown index xs =
      xs.take index ++ (xs.drop index).map (Value.expand shown) := by
  induction xs generalizing index with
  | nil => simp [listExpandFrom]
  | cons x xs ih => cases index <;> simp [listExpandFrom, ih]

@[simp] theorem toList_arrayExpandFrom (index : Nat) (buffer : Array Value) :
    (arrayExpandFrom shown index buffer).toList =
      buffer.toList.take index ++ (buffer.toList.drop index).map (Value.expand shown) := by
  rcases buffer with ⟨items⟩
  exact listExpandFrom_eq index items

theorem drop_listExpandFrom (index : Nat) (xs : List Value) :
    (listExpandFrom shown index xs).drop index = (xs.drop index).map (Value.expand shown) := by
  induction xs generalizing index with
  | nil => simp [listExpandFrom]
  | cons x xs ih =>
    cases index with
    | zero => simpa [listExpandFrom] using ih 0
    | succ index => simpa [listExpandFrom] using ih index

theorem drop_arrayExpandFrom (index : Nat) (buffer : Array Value) :
    (arrayExpandFrom shown index buffer).toList.drop index =
      (buffer.toList.drop index).map (Value.expand shown) := by
  rcases buffer with ⟨items⟩
  exact drop_listExpandFrom index items

@[simp] theorem entriesExpand_eq (entries : List (Value × Value)) :
    entriesExpand shown entries = entries.map (entryExpand shown) := by
  induction entries with
  | nil => rfl
  | cons entry entries ih => rw [entriesExpand, ih, List.map_cons]

@[simp] theorem entryExpand_fst (entry : Value × Value) :
    (entryExpand shown entry).1 = entry.1.expand shown := by
  cases entry
  rfl

@[simp] theorem entryExpand_snd (entry : Value × Value) :
    (entryExpand shown entry).2 = entry.2.expand shown := by
  cases entry
  rfl

@[simp] theorem Block.items_expand (block : Block) :
    (block.expand shown).items = block.items.map (Value.expand shown) := by
  rcases block with ⟨storage, items⟩
  exact listExpand_eq items

@[simp] theorem Vec.items_expand (v : Vec) :
    (v.expand shown).items = v.items.map (Value.expand shown) := by
  rcases v with ⟨block, info⟩
  exact block.items_expand

@[simp] theorem ElemSet.items_expand (s : ElemSet) :
    (s.expand shown).items = s.items.map (Value.expand shown) := by
  rcases s with ⟨block, info⟩
  exact block.items_expand

@[simp] theorem Dict.entries_expand (m : Dict) :
    (m.expand shown).entries = m.entries.map (entryExpand shown) := by
  rcases m with ⟨storage, entries, info⟩
  exact entriesExpand_eq entries

@[simp] theorem Dict.storage_expand (m : Dict) : (m.expand shown).storage = m.storage := by
  cases m
  rfl

namespace Slice

@[simp] theorem index_expand (s : Slice) : (s.expand shown).index = s.index := by
  cases s
  rfl

@[simp] theorem toList_expand (s : Slice) :
    (s.expand shown).toList = s.toList.map (Value.expand shown) := by
  rcases s with ⟨buffer, index⟩
  exact drop_arrayExpandFrom index buffer

end Slice

namespace EntrySlice

@[simp] theorem index_expand (s : EntrySlice) : (s.expand shown).index = s.index := by
  cases s
  rfl

@[simp] theorem flat_expand (s : EntrySlice) :
    (s.expand shown).flat = s.flat.map (Value.expand shown) := by
  rcases s with ⟨buffer, index⟩
  exact drop_arrayExpandFrom index buffer

@[simp] theorem toList_expand (s : EntrySlice) :
    (s.expand shown).toList = s.toList.map (entryExpand shown) := by
  rw [toList, flat_expand, pairUp_map, toList]
  exact List.map_congr_left fun e _ => by cases e; rfl

end EntrySlice

namespace Seq

@[simp] theorem items_expand_view (kind : ViewKind) (storage : Storage) (slice : Slice)
    (info : Info) :
    ((view kind storage slice info).expand shown).items = slice.toList.map (Value.expand shown) :=
  slice.toList_expand

@[simp] theorem items_expand_entries (storage : Storage) (slice : EntrySlice) (info : Info) :
    ((entries storage slice info).expand shown).items =
      slice.toList.map fun e => .pair (e.1.expand shown) (e.2.expand shown) := by
  rw [expand, items, EntrySlice.map, EntrySlice.toList_expand, List.map_map]
  apply List.map_congr_left
  intro e _
  simp

@[simp] theorem items_expand_ofSlice (kind : ViewKind) (storage : Storage) (slice : Slice) :
    ((ofSlice kind storage slice).expand shown).items = slice.toList.map (Value.expand shown) :=
  ofSlice_cases (fun _ => items_expand_view ..) fun hnil => by rw [hnil]; rfl

@[simp] theorem items_expand_ofEntries (storage : Storage) (slice : EntrySlice) :
    ((ofEntries storage slice).expand shown).items =
      slice.toList.map fun e => .pair (e.1.expand shown) (e.2.expand shown) :=
  ofEntries_cases (fun _ => items_expand_entries ..) fun hnil => by rw [hnil]; rfl

/-- What is the same before the replacement is the same after it. -/
theorem same_expand (hshown : ∀ c i j, (shown c i).same (shown c j) = true) {s t : Seq}
    (h : s.same t = true) : (s.expand shown).same (t.expand shown) = true := by
  cases s <;> cases t <;> simp only [same, Bool.false_eq_true] at h
  case empty.empty => rfl
  case cons.cons => exact h
  case view.view => simpa [expand, same] using h
  case entries.entries => simpa [expand, same] using h
  case lazy.lazy =>
    rw [expand, expand, beq_iff_eq.1 h]
    exact hshown ..

/-- What is the same after the replacement was the same before it, apart from cells. -/
theorem same_of_expand {s t : Seq} (hs : (Value.seq s).isLazy = false)
    (ht : (Value.seq t).isLazy = false) (h : (s.expand shown).same (t.expand shown) = true) :
    s.same t = true := by
  cases s <;> cases t <;> simp only [Value.isLazy, Bool.true_eq_false] at hs ht
  case view.view => simpa [expand, same] using h
  case entries.entries => simpa [expand, same] using h
  all_goals exact h

theorem items_expand_withInfo {s : Seq} (hs : (Value.seq s).isLazy = false) (info : Info) :
    ((s.withInfo info).expand shown).items = (s.expand shown).items := by
  cases s <;> first | rfl | cases hs

end Seq

/-! ## Cells that stand for themselves -/

mutual

theorem Value.expand_lazy : (v : Value) → v.expand Seq.lazy = v
  | .atom _ => rfl
  | .vector v => congrArg Value.vector v.expand_lazy
  | .map m => congrArg Value.map m.expand_lazy
  | .set s => congrArg Value.set s.expand_lazy
  | .seq s => congrArg Value.seq s.expand_lazy

theorem Seq.expand_lazy : (s : Seq) → s.expand Seq.lazy = s
  | .empty _ => rfl
  | .cons _ x rest _ => by rw [Seq.expand, x.expand_lazy, rest.expand_lazy]
  | .view _ _ slice _ => by rw [Seq.expand, slice.expand_lazy]
  | .entries _ slice _ => by rw [Seq.expand, slice.expand_lazy]
  | .lazy .. => rfl

theorem Slice.expand_lazy : (s : Slice) → s.expand Seq.lazy = s
  | ⟨buffer, index⟩ => by rw [Slice.expand, arrayExpandFrom_lazy index buffer]

theorem EntrySlice.expand_lazy : (s : EntrySlice) → s.expand Seq.lazy = s
  | ⟨buffer, index⟩ => by rw [EntrySlice.expand, arrayExpandFrom_lazy index buffer]

theorem Block.expand_lazy : (block : Block) → block.expand Seq.lazy = block
  | ⟨storage, items⟩ => congrArg (Block.mk storage) (listExpand_lazy items)

theorem Vec.expand_lazy : (v : Vec) → v.expand Seq.lazy = v
  | ⟨block, _⟩ => by rw [Vec.expand, block.expand_lazy]

theorem ElemSet.expand_lazy : (s : ElemSet) → s.expand Seq.lazy = s
  | ⟨block, _⟩ => by rw [ElemSet.expand, block.expand_lazy]

theorem Dict.expand_lazy : (m : Dict) → m.expand Seq.lazy = m
  | ⟨_, entries, _⟩ => by rw [Dict.expand, entriesExpand_lazy entries]

theorem listExpand_lazy : (xs : List Value) → listExpand Seq.lazy xs = xs
  | [] => rfl
  | x :: xs => by rw [listExpand, x.expand_lazy, listExpand_lazy xs]

theorem listExpandFrom_lazy : (index : Nat) → (xs : List Value) →
    listExpandFrom Seq.lazy index xs = xs
  | _, [] => by rw [listExpandFrom]
  | 0, x :: xs => by rw [listExpandFrom, x.expand_lazy, listExpandFrom_lazy 0 xs]
  | index + 1, x :: xs => by rw [listExpandFrom, listExpandFrom_lazy index xs]

theorem arrayExpandFrom_lazy : (index : Nat) → (buffer : Array Value) →
    arrayExpandFrom Seq.lazy index buffer = buffer
  | index, ⟨items⟩ => by rw [arrayExpandFrom, listExpandFrom_lazy index items]

theorem entryExpand_lazy : (entry : Value × Value) → entryExpand Seq.lazy entry = entry
  | (key, value) => by rw [entryExpand, key.expand_lazy, value.expand_lazy]

theorem entriesExpand_lazy : (entries : List (Value × Value)) →
    entriesExpand Seq.lazy entries = entries
  | [] => rfl
  | entry :: entries => by rw [entriesExpand, entryExpand_lazy entry, entriesExpand_lazy entries]

end

/-! ## Contents -/

namespace Content

def map (f : Value → Value) : Content → Content
  | atom a => atom a
  | items xs => items (xs.map f)
  | entries l => entries (l.map fun e => (f e.1, f e.2))
  | elems xs => elems (xs.map f)

variable {f : Value → Value}

theorem forall_map {P : Value → Prop} {c : Content} :
    (c.map f).Forall P ↔ c.Forall fun x => P (f x) := by
  cases c <;> simp only [map, Forall, List.forall_mem_map]

/-- A comparison of the images of two contents. -/
theorem agreeBy_map (p : Test) (c d : Content) :
    (c.map f).agreeBy p (d.map f) = c.agreeBy (fun x y => p (f x) (f y)) d := by
  have hitems (xs ys : List Value) :
      (xs.map f).isEqv (ys.map f) p = xs.isEqv ys fun x y => p (f x) (f y) := by
    induction xs generalizing ys with
    | nil => cases ys <;> rfl
    | cons x xs ih => cases ys <;> simp [List.isEqv, ih]
  cases c <;> cases d <;> simp only [map, agreeBy]
  case items.items xs ys => exact hitems xs ys
  case entries.entries l l' =>
    simp only [List.length_map, List.all_map, Table.find?, List.find?_map, Option.any_map]
    rfl
  case elems.elems xs ys =>
    simp only [List.length_map, List.all_map, List.any_map]
    rfl

end Content

namespace Value

/-- The content of a value other than a sequence is replaced part by part. -/
theorem content_expand {v : Value} (h : ∀ s, v ≠ seq s) :
    (v.expand shown).content = v.content.map (expand shown) := by
  cases v with
  | atom a => rfl
  | vector v => simp [expand, content, Content.map]
  | map m =>
    simp only [expand, content, Content.map, Dict.entries_expand]
    exact congrArg Content.entries (List.map_congr_left fun e _ => by cases e; rfl)
  | set s => simp [expand, content, Content.map]
  | seq s => exact absurd rfl (h s)

end Value

/-! ## Parts -/

namespace Value

theorem weight_lt_of_mem_parts {v x : Value} (h : x ∈ v.parts) : x.weight < v.weight := by
  have hentries {entries : List (Value × Value)}
      (hx : x ∈ entries.flatMap fun e => [e.1, e.2]) : x.weight < entriesWeight entries := by
    obtain ⟨e, he, hx⟩ := List.mem_flatMap.1 hx
    have := entryWeight_le_entriesWeight he
    rw [entryWeight_eq] at this
    rcases List.mem_cons.1 hx with rfl | hx
    · omega
    · rw [List.mem_singleton.1 hx]
      omega
  cases v with
  | atom a => cases h
  | vector v => exact v.weight_lt_of_mem h
  | map m =>
    have := hentries h
    rw [weight_map]
    omega
  | set s => exact s.weight_lt_of_mem h
  | seq s =>
    rw [weight_seq]
    cases s with
    | cons cell first rest info =>
      rw [Seq.weight]
      rcases List.mem_cons.1 h with rfl | h
      · omega
      · rw [List.mem_singleton.1 h, weight_seq]
        omega
    | view kind storage slice info =>
      have := slice.weight_le_of_mem h
      rw [Seq.weight]
      omega
    | entries storage slice info =>
      have := slice.weight_le_of_mem h
      rw [Seq.weight]
      omega
    | _ => cases h

/-- The parts of a value are replaced one by one, unless it is a cell itself. -/
theorem parts_expand {v : Value} (h : v.isLazy = false) :
    (v.expand shown).parts = v.parts.map (expand shown) := by
  have hentries (entries : List (Value × Value)) :
      ((entries.map (entryExpand shown)).flatMap fun e => [e.1, e.2]) =
        (entries.flatMap fun e => [e.1, e.2]).map (expand shown) := by
    simp [List.flatMap_map, List.map_flatMap]
  cases v with
  | atom a => rfl
  | vector v => exact v.items_expand
  | map m => rw [expand, parts, parts, Dict.entries_expand, hentries]
  | set s => exact s.items_expand
  | seq s =>
    cases s with
    | empty info => rfl
    | cons cell first rest info => rfl
    | view kind storage slice info => exact slice.toList_expand
    | entries storage slice info => exact slice.flat_expand
    | «lazy» cell info => cases h

end Value

/-! ## Which cells occur -/

namespace Value

def cell? : Value → Option LazyRef
  | seq (.lazy cell _) => some cell
  | _ => none

/-- The condition holds of all lazy cells that occur in the value. -/
def CellsIn (known : LazyRef → Prop) (v : Value) : Prop :=
  v.Everywhere fun x => ∀ c ∈ x.cell?, known c

theorem isLazy_expand {v : Value} (h : v.isLazy = false) : (v.expand shown).isLazy = false := by
  cases v with
  | seq s => cases s <;> first | rfl | cases h
  | _ => rfl

/-- Without cells in what stands in for the cells that occur, no cell is left. -/
theorem lazyFree_expand {known : LazyRef → Prop} {v : Value} (hv : v.CellsIn known)
    (h : ∀ c i, known c → (seq (shown c i)).LazyFree) : (v.expand shown).LazyFree := by
  induction hd : v.weight using Nat.strongRecOn generalizing v with
  | ind d ih =>
    by_cases hlazy : v.isLazy = true
    · cases v with
      | seq s =>
        cases s with
        | «lazy» c i => exact h c i (hv.here c rfl)
        | _ => cases hlazy
      | _ => cases hlazy
    · rw [Bool.not_eq_true] at hlazy
      refine everywhere_iff.2 ⟨isLazy_expand hlazy, ?_⟩
      rw [parts_expand hlazy, List.forall_mem_map]
      exact fun x hx => ih x.weight (hd ▸ weight_lt_of_mem_parts hx) (hv.of_mem hx) rfl

end Value

theorem arrayExpandFrom_congr {shown' : Showing} {index : Nat} {buffer : Array Value}
    (h : ∀ x ∈ buffer.toList.drop index, x.expand shown = x.expand shown') :
    arrayExpandFrom shown index buffer = arrayExpandFrom shown' index buffer := by
  apply Array.ext'
  rw [toList_arrayExpandFrom, toList_arrayExpandFrom, List.map_congr_left h]

/-- Only what stands in for the cells that occur makes a difference. -/
theorem Value.expand_congr {shown' : Showing} {known : LazyRef → Prop} {v : Value}
    (hv : v.CellsIn known) (h : ∀ c i, known c → shown c i = shown' c i) :
    v.expand shown = v.expand shown' := by
  induction hd : v.weight using Nat.strongRecOn generalizing v with
  | ind d ih =>
    have hparts : ∀ x ∈ v.parts, x.expand shown = x.expand shown' :=
      fun x hx => ih x.weight (hd ▸ weight_lt_of_mem_parts hx) (hv.of_mem hx) rfl
    have hentries {entries : List (Value × Value)}
        (he : ∀ x ∈ entries.flatMap fun e => [e.1, e.2], x.expand shown = x.expand shown') :
        entries.map (entryExpand shown) = entries.map (entryExpand shown') := by
      apply List.map_congr_left
      intro e hmem
      apply Prod.ext
      · rw [entryExpand_fst, entryExpand_fst]
        exact he e.1 (List.mem_flatMap.2 ⟨e, hmem, by simp⟩)
      · rw [entryExpand_snd, entryExpand_snd]
        exact he e.2 (List.mem_flatMap.2 ⟨e, hmem, by simp⟩)
    cases v with
    | atom a => rfl
    | vector v =>
      rcases v with ⟨⟨storage, items⟩, info⟩
      have hitems : items.map (expand shown) = items.map (expand shown') :=
        List.map_congr_left hparts
      simp only [expand, Vec.expand, Block.expand, listExpand_eq, hitems]
    | map m =>
      rcases m with ⟨storage, entries, info⟩
      simp only [expand, Dict.expand, entriesExpand_eq, hentries hparts]
    | set s =>
      rcases s with ⟨⟨storage, items⟩, info⟩
      have hitems : items.map (expand shown) = items.map (expand shown') :=
        List.map_congr_left hparts
      simp only [expand, ElemSet.expand, Block.expand, listExpand_eq, hitems]
    | seq s =>
      cases s with
      | empty info => rfl
      | cons cell first rest info =>
        have hrest : seq (rest.expand shown) = seq (rest.expand shown') :=
          hparts (seq rest) (by simp [parts])
        simp only [expand, Seq.expand, hparts first (by simp [parts]), Value.seq.inj hrest]
      | view kind storage slice info =>
        rcases slice with ⟨buffer, index⟩
        have hbuffer : arrayExpandFrom shown index buffer = arrayExpandFrom shown' index buffer :=
          arrayExpandFrom_congr hparts
        simp only [expand, Seq.expand, Slice.expand, hbuffer]
      | entries storage slice info =>
        rcases slice with ⟨buffer, index⟩
        have hbuffer : arrayExpandFrom shown index buffer = arrayExpandFrom shown' index buffer :=
          arrayExpandFrom_congr hparts
        simp only [expand, Seq.expand, EntrySlice.expand, hbuffer]
      | «lazy» cell info => exact congrArg Value.seq (h cell info (hv.here cell rfl))

end LispKernel
