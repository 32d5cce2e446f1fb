import LispKernel.Metadata
import LispKernel.Proofs.Value.Inert

/-!
# Values with their storage renamed

A value in which every piece of storage has another number, at any depth and in metadata too. If the
new numbers are different for different pieces, everything that can be asked of a value without a
look at the world has the same answer: its kind, its elements in place, and whether two values share
storage.
-/
namespace LispKernel

/-- New numbers for pieces of storage. -/
abbrev Renaming := Storage → Storage

mutual

def Value.rename (ρ : Renaming) : Value → Value
  | .atom a => .atom a
  | .vector v => .vector (v.rename ρ)
  | .map m => .map (m.rename ρ)
  | .set s => .set (s.rename ρ)
  | .seq s => .seq (s.rename ρ)

def Seq.rename (ρ : Renaming) : Seq → Seq
  | .empty info => .empty (info.rename ρ)
  | .cons cell x rest info => .cons (ρ cell) (x.rename ρ) (rest.rename ρ) (info.rename ρ)
  | .view kind storage slice info => .view kind (ρ storage) (slice.rename ρ) (info.rename ρ)
  | .entries storage slice info => .entries (ρ storage) (slice.rename ρ) (info.rename ρ)
  | .lazy cell info => .lazy cell (info.rename ρ)

def Slice.rename (ρ : Renaming) : Slice → Slice
  | ⟨buffer, index⟩ => ⟨arrayRename ρ buffer, index⟩

def EntrySlice.rename (ρ : Renaming) : EntrySlice → EntrySlice
  | ⟨buffer, index⟩ => ⟨arrayRename ρ buffer, index⟩

def Block.rename (ρ : Renaming) : Block → Block
  | ⟨storage, items⟩ => ⟨ρ storage, listRename ρ items⟩

def Vec.rename (ρ : Renaming) : Vec → Vec
  | ⟨block, info⟩ => ⟨block.rename ρ, info.rename ρ⟩

def ElemSet.rename (ρ : Renaming) : ElemSet → ElemSet
  | ⟨block, info⟩ => ⟨block.rename ρ, info.rename ρ⟩

def Dict.rename (ρ : Renaming) : Dict → Dict
  | ⟨storage, entries, info⟩ => ⟨ρ storage, entriesRename ρ entries, info.rename ρ⟩

def Info.rename (ρ : Renaming) : Info → Info
  | ⟨position, metadata⟩ => ⟨position, metadataRename ρ metadata⟩

def metadataRename (ρ : Renaming) : Option Dict → Option Dict
  | none => none
  | some m => some (m.rename ρ)

def listRename (ρ : Renaming) : List Value → List Value
  | [] => []
  | x :: xs => x.rename ρ :: listRename ρ xs

def arrayRename (ρ : Renaming) : Array Value → Array Value
  | ⟨items⟩ => ⟨listRename ρ items⟩

def entryRename (ρ : Renaming) : Value × Value → Value × Value
  | (key, value) => (key.rename ρ, value.rename ρ)

def entriesRename (ρ : Renaming) : List (Value × Value) → List (Value × Value)
  | [] => []
  | entry :: entries => entryRename ρ entry :: entriesRename ρ entries

end

variable {ρ : Renaming}

@[simp] theorem metadataRename_eq (o : Option Dict) :
    metadataRename ρ o = o.map (Dict.rename ρ) := by
  cases o <;> rfl

@[simp] theorem listRename_eq (xs : List Value) : listRename ρ xs = xs.map (Value.rename ρ) := by
  induction xs with
  | nil => rfl
  | cons x xs ih => rw [listRename, ih, List.map_cons]

@[simp] theorem arrayRename_eq (buffer : Array Value) :
    arrayRename ρ buffer = buffer.map (Value.rename ρ) := by
  rcases buffer with ⟨items⟩
  simp [arrayRename]

@[simp] theorem entriesRename_eq (entries : List (Value × Value)) :
    entriesRename ρ entries = entries.map (entryRename ρ) := by
  induction entries with
  | nil => rfl
  | cons entry entries ih => rw [entriesRename, ih, List.map_cons]

@[simp] theorem entryRename_mk (key value : Value) :
    entryRename ρ (key, value) = (key.rename ρ, value.rename ρ) := rfl

@[simp] theorem entryRename_fst (entry : Value × Value) :
    (entryRename ρ entry).1 = entry.1.rename ρ := by
  cases entry
  rfl

@[simp] theorem entryRename_snd (entry : Value × Value) :
    (entryRename ρ entry).2 = entry.2.rename ρ := by
  cases entry
  rfl

@[simp] theorem Info.rename_plain : Info.plain.rename ρ = Info.plain := rfl

@[simp] theorem Info.metadata_rename (info : Info) :
    (info.rename ρ).metadata = info.metadata.map (Dict.rename ρ) := by
  rcases info with ⟨position, metadata⟩
  exact metadataRename_eq metadata

@[simp] theorem Info.position_rename (info : Info) : (info.rename ρ).position = info.position := by
  cases info
  rfl

namespace Slice

@[simp] theorem rename_mk (buffer : Array Value) (index : Nat) :
    (Slice.mk buffer index).rename ρ = ⟨buffer.map (Value.rename ρ), index⟩ := by
  rw [rename, arrayRename_eq]

@[simp] theorem index_rename (s : Slice) : (s.rename ρ).index = s.index := by
  cases s
  rfl

theorem toList_rename (s : Slice) : (s.rename ρ).toList = s.toList.map (Value.rename ρ) := by
  rcases s with ⟨buffer, index⟩
  simp [toList]

theorem rest_rename (s : Slice) : (s.rename ρ).rest = s.rest.rename ρ := by
  rcases s with ⟨buffer, index⟩
  simp [rest]

end Slice

namespace EntrySlice

@[simp] theorem rename_mk (buffer : Array Value) (index : Nat) :
    (EntrySlice.mk buffer index).rename ρ = ⟨buffer.map (Value.rename ρ), index⟩ := by
  rw [rename, arrayRename_eq]

@[simp] theorem index_rename (s : EntrySlice) : (s.rename ρ).index = s.index := by
  cases s
  rfl

theorem toList_rename (s : EntrySlice) : (s.rename ρ).toList = s.toList.map (entryRename ρ) := by
  rcases s with ⟨buffer, index⟩
  have hflat : (rename ρ ⟨buffer, index⟩).flat =
      (EntrySlice.mk buffer index).flat.map (Value.rename ρ) := by simp [flat]
  rw [toList, hflat, pairUp_map, toList]
  exact List.map_congr_left fun e _ => by cases e; rfl

theorem rest_rename (s : EntrySlice) : (s.rename ρ).rest = s.rest.rename ρ := by
  rcases s with ⟨buffer, index⟩
  simp [rest]

end EntrySlice

@[simp] theorem Block.items_rename (block : Block) :
    (block.rename ρ).items = block.items.map (Value.rename ρ) := by
  rcases block with ⟨storage, items⟩
  exact listRename_eq items

@[simp] theorem Block.storage_rename (block : Block) :
    (block.rename ρ).storage = ρ block.storage := by
  cases block
  rfl

namespace Vec

@[simp] theorem block_rename (v : Vec) : (v.rename ρ).block = v.block.rename ρ := by
  cases v
  rfl

@[simp] theorem info_rename (v : Vec) : (v.rename ρ).info = v.info.rename ρ := by
  cases v
  rfl

@[simp] theorem items_rename (v : Vec) : (v.rename ρ).items = v.items.map (Value.rename ρ) := by
  simp [items]

@[simp] theorem count_rename (v : Vec) : (v.rename ρ).count = v.count := by simp [count]

end Vec

namespace ElemSet

@[simp] theorem block_rename (s : ElemSet) : (s.rename ρ).block = s.block.rename ρ := by
  cases s
  rfl

@[simp] theorem info_rename (s : ElemSet) : (s.rename ρ).info = s.info.rename ρ := by
  cases s
  rfl

@[simp] theorem items_rename (s : ElemSet) :
    (s.rename ρ).items = s.items.map (Value.rename ρ) := by
  simp [items]

@[simp] theorem count_rename (s : ElemSet) : (s.rename ρ).count = s.count := by simp [count]

end ElemSet

namespace Dict

@[simp] theorem storage_rename (m : Dict) : (m.rename ρ).storage = ρ m.storage := by
  cases m
  rfl

@[simp] theorem info_rename (m : Dict) : (m.rename ρ).info = m.info.rename ρ := by
  cases m
  rfl

@[simp] theorem entries_rename (m : Dict) :
    (m.rename ρ).entries = m.entries.map (entryRename ρ) := by
  rcases m with ⟨storage, entries, info⟩
  exact entriesRename_eq entries

@[simp] theorem count_rename (m : Dict) : (m.rename ρ).count = m.count := by simp [count]

@[simp] theorem isEmpty_rename (m : Dict) : (m.rename ρ).isEmpty = m.isEmpty := by simp [isEmpty]

theorem valueAt?_rename (m : Dict) (i : Nat) :
    (m.rename ρ).valueAt? i = (m.valueAt? i).map (Value.rename ρ) := by
  simp only [valueAt?, entries_rename, List.getElem?_map, Option.map_map]
  exact congrArg (Option.map · m.entries[i]?) (funext entryRename_snd)

theorem detached_rename (m : Dict) : m.detached.rename ρ = (m.rename ρ).detached := by
  cases m
  rfl

theorem same_rename (hρ : Function.Injective ρ) (m other : Dict) :
    (m.rename ρ).same (other.rename ρ) = m.same other := by
  simp [same, hρ.eq_iff]

end Dict

namespace Seq

@[simp] theorem info_rename (s : Seq) : (s.rename ρ).info = s.info.rename ρ := by
  cases s <;> rfl

theorem withInfo_rename (s : Seq) (info : Info) :
    (s.withInfo info).rename ρ = (s.rename ρ).withInfo (info.rename ρ) := by
  cases s <;> rfl

@[simp] theorem typeName_rename (s : Seq) : (s.rename ρ).typeName = s.typeName := by
  cases s with
  | view kind storage slice info => cases kind <;> rfl
  | _ => rfl

theorem ofSlice_rename (kind : ViewKind) (storage : Storage) (slice : Slice) :
    (ofSlice kind storage slice).rename ρ = ofSlice kind (ρ storage) (slice.rename ρ) := by
  rcases slice with ⟨buffer, index⟩
  simp only [ofSlice, Slice.rename_mk, Array.size_map]
  split
  · simp [rename]
  · rfl

theorem ofEntries_rename (storage : Storage) (slice : EntrySlice) :
    (ofEntries storage slice).rename ρ = ofEntries (ρ storage) (slice.rename ρ) := by
  rcases slice with ⟨buffer, index⟩
  simp only [ofEntries, EntrySlice.rename_mk, Array.size_map]
  split
  · simp [rename]
  · rfl

/-- Sequences share storage after a renaming that keeps pieces apart exactly if they did before. -/
theorem same_rename (hρ : Function.Injective ρ) (s t : Seq) :
    (s.rename ρ).same (t.rename ρ) = s.same t := by
  have hstorage (a b : Storage) : (ρ a == ρ b) = (a == b) := by
    rw [Bool.eq_iff_iff]
    simp [hρ.eq_iff]
  cases s <;> cases t <;> simp [rename, same, hstorage]

end Seq

theorem Vec.seq_rename (v : Vec) : (v.rename ρ).seq = v.seq.rename ρ := by
  simp [seq, Seq.ofSlice_rename]

namespace Value

@[simp] theorem typeName_rename (v : Value) : (v.rename ρ).typeName = v.typeName := by
  cases v with
  | seq s => exact s.typeName_rename
  | _ => rfl

@[simp] theorem truthy_rename (v : Value) : (v.rename ρ).truthy = v.truthy := by
  cases v <;> rfl

@[simp] theorem isCallable_rename (v : Value) : (v.rename ρ).isCallable = v.isCallable := by
  cases v <;> rfl

theorem info?_rename (v : Value) : (v.rename ρ).info? = v.info?.map (Info.rename ρ) := by
  cases v <;> simp [rename, info?]

theorem withInfo_rename (v : Value) (info : Info) :
    (v.withInfo info).rename ρ = (v.rename ρ).withInfo (info.rename ρ) := by
  cases v with
  | atom a => rfl
  | vector v => cases v; rfl
  | map m => cases m; rfl
  | set s => cases s; rfl
  | seq s => exact congrArg seq (s.withInfo_rename info)

theorem asInt_rename (v : Value) : (v.rename ρ).asInt = v.asInt := by
  cases v with
  | seq s => simp [rename, asInt, refuse, typeName]
  | _ => rfl

end Value

theorem Vec.nth_rename (v : Vec) (index : Int64) :
    (v.rename ρ).nth index = (v.nth index).map (Value.rename ρ) := by
  have hcheck : (v.rename ρ).checkIndex index = v.checkIndex index := by
    simp [checkIndex]
  unfold nth
  rw [hcheck]
  cases v.checkIndex index with
  | error e => rfl
  | ok i =>
    have hget : (v.rename ρ).get? i = (v.get? i).map (Value.rename ρ) := by simp [get?]
    simp only [bind, Except.bind, hget, count_rename]
    cases v.get? i <;> rfl

/-! ## Renamings that leave storage as it is -/

mutual

theorem Value.rename_id : (v : Value) → v.rename id = v
  | .atom _ => rfl
  | .vector v => congrArg Value.vector v.rename_id
  | .map m => congrArg Value.map m.rename_id
  | .set s => congrArg Value.set s.rename_id
  | .seq s => congrArg Value.seq s.rename_id

theorem Seq.rename_id : (s : Seq) → s.rename id = s
  | .empty info => congrArg Seq.empty info.rename_id
  | .cons _ x rest info => by
    rw [Seq.rename, x.rename_id, rest.rename_id, info.rename_id, id]
  | .view _ _ slice info => by rw [Seq.rename, slice.rename_id, info.rename_id, id]
  | .entries _ slice info => by rw [Seq.rename, slice.rename_id, info.rename_id, id]
  | .lazy cell info => congrArg (Seq.lazy cell) info.rename_id

theorem Slice.rename_id : (s : Slice) → s.rename id = s
  | ⟨buffer, index⟩ => congrArg (Slice.mk · index) (arrayRename_id buffer)

theorem EntrySlice.rename_id : (s : EntrySlice) → s.rename id = s
  | ⟨buffer, index⟩ => congrArg (EntrySlice.mk · index) (arrayRename_id buffer)

theorem Block.rename_id : (block : Block) → block.rename id = block
  | ⟨storage, items⟩ => congrArg (Block.mk storage) (listRename_id items)

theorem Vec.rename_id : (v : Vec) → v.rename id = v
  | ⟨block, info⟩ => by rw [Vec.rename, block.rename_id, info.rename_id]

theorem ElemSet.rename_id : (s : ElemSet) → s.rename id = s
  | ⟨block, info⟩ => by rw [ElemSet.rename, block.rename_id, info.rename_id]

theorem Dict.rename_id : (m : Dict) → m.rename id = m
  | ⟨storage, entries, info⟩ => by rw [Dict.rename, entriesRename_id entries, info.rename_id, id]

theorem Info.rename_id : (info : Info) → info.rename id = info
  | ⟨position, metadata⟩ => congrArg (Info.mk position) (metadataRename_id metadata)

theorem metadataRename_id : (o : Option Dict) → metadataRename id o = o
  | none => rfl
  | some m => congrArg some m.rename_id

theorem listRename_id : (xs : List Value) → listRename id xs = xs
  | [] => rfl
  | x :: xs => by rw [listRename, x.rename_id, listRename_id xs]

theorem arrayRename_id : (buffer : Array Value) → arrayRename id buffer = buffer
  | ⟨items⟩ => congrArg Array.mk (listRename_id items)

theorem entryRename_id : (entry : Value × Value) → entryRename id entry = entry
  | (key, value) => by rw [entryRename, key.rename_id, value.rename_id]

theorem entriesRename_id : (entries : List (Value × Value)) → entriesRename id entries = entries
  | [] => rfl
  | entry :: entries => by rw [entriesRename, entryRename_id entry, entriesRename_id entries]

end

theorem Value.map_rename_of_fixed {ρ : Renaming} {o : Option Value}
    (h : ∀ v ∈ o, v.rename ρ = v) : o.map (Value.rename ρ) = o := by
  cases o with
  | none => rfl
  | some v => exact congrArg some (h v rfl)

/-- Every piece of storage in the value has a number below the given one: a renaming that leaves
those as they are leaves the value as it is. -/
def Value.Issued (k : Storage) (v : Value) : Prop :=
  ∀ ρ : Renaming, (∀ s < k, ρ s = s) → v.rename ρ = v

end LispKernel
