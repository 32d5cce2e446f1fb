import LispKernel.Proofs.Dict.FiniteMap
import LispKernel.Proofs.Seq.Elements

/-!
# The views of a map

A map shows its entries one at a time, as a sequence of pairs, as its keys, as its values, and as
keys and values in turn. All views show the same entries in the same order. As no two keys of a map
without lazy keys are equal, the entries that a view shows give the map back when they are put into
an empty one.
-/
namespace LispKernel

open Run (ReturnsIn Settles Refines)
open Value (LazyFree Copy agree)

/-- The elements of the sequence are the given ones, and every operation on it is the operation on
the list of them. -/
def Seq.Denotes (force : Force) (s : Seq) (items : List Value) : Prop :=
  s.items = items ∧ s.ActsAsList force

theorem Seq.Eager.denotes (force : Force) {s : Seq} (hs : s.Eager) : s.Denotes force s.items :=
  ⟨rfl, actsAsList force hs⟩

namespace Dict

/-! ## One entry at a time -/

namespace Cursor

variable {c c' : Cursor} {e : Value × Value} {taken rest : List (Value × Value)}

/-- The cursor gives the entries one after another, and that takes it to another place. -/
inductive Passes : Cursor → List (Value × Value) → Cursor → Prop where
  | refl (c : Cursor) : Passes c [] c
  | step {c c' c'' : Cursor} {e : Value × Value} {taken : List (Value × Value)} :
      c.next? = some (e, c') → Passes c' taken c'' → Passes c (e :: taken) c''

/-- The cursor gives these entries and then no more. -/
def Drains (c : Cursor) (rest : List (Value × Value)) : Prop :=
  ∃ c', c.Passes rest c' ∧ c'.next? = none

/-- What stands in the buffer from the place on are these entries. -/
def Holds (c : Cursor) (rest : List (Value × Value)) : Prop :=
  c.buffer.drop c.place = rest.flatMap fun e => [e.1, e.2]

theorem getElem?_of_holds (h : c.Holds rest) (i : Nat) :
    c.buffer[c.place + i]? = (rest.flatMap fun e => [e.1, e.2])[i]? := by
  rw [← h, List.getElem?_drop]

theorem next?_of_holds_nil (h : c.Holds []) : c.next? = none := by
  have hkey : c.buffer[c.place]? = none := getElem?_of_holds h 0
  rw [next?, hkey]

theorem next?_of_holds_cons (h : c.Holds (e :: rest)) :
    c.next? = some (e, { c with place := c.place + 2 }) := by
  have hkey : c.buffer[c.place]? = some e.1 := getElem?_of_holds h 0
  have hvalue : c.buffer[c.place + 1]? = some e.2 := getElem?_of_holds h 1
  rw [next?, hkey, hvalue]

/-- One step goes past a key and a value. -/
theorem Holds.step (h : c.Holds (e :: rest)) :
    Holds { c with place := c.place + 2 } rest := by
  have hdrop : (c.buffer.drop c.place).drop 2 = rest.flatMap fun e => [e.1, e.2] := by
    rw [h]
    rfl
  rwa [List.drop_drop] at hdrop

theorem length_flat (entries : List (Value × Value)) :
    (entries.flatMap fun e => [e.1, e.2]).length = 2 * entries.length := by
  simp [List.length_flatMap, Nat.mul_comm]

theorem Holds.sizeHint_eq (h : c.Holds rest) : c.sizeHint = (rest.length, some rest.length) := by
  have hlength := congrArg List.length h
  rw [List.length_drop, length_flat] at hlength
  have hleft : (c.buffer.length - c.place) / 2 = rest.length := by omega
  rw [sizeHint, hleft]

/-- What the cursor gives on the way are the first of the entries it holds. -/
theorem Holds.passes (h : c.Holds rest) (hrun : c.Passes taken c') :
    ∃ left, rest = taken ++ left ∧ c'.Holds left := by
  induction hrun generalizing rest with
  | refl c => exact ⟨rest, rfl, h⟩
  | step hnext _ ih =>
    cases rest with
    | nil =>
      rw [next?_of_holds_nil h] at hnext
      cases hnext
    | cons e rest =>
      rw [next?_of_holds_cons h] at hnext
      cases hnext
      obtain ⟨left, rfl, hleft⟩ := ih h.step
      exact ⟨left, rfl, hleft⟩

theorem Holds.drains (h : c.Holds rest) : c.Drains rest := by
  induction rest generalizing c with
  | nil => exact ⟨c, .refl c, next?_of_holds_nil h⟩
  | cons e rest ih =>
    obtain ⟨c', hpasses, hend⟩ := ih h.step
    exact ⟨c', .step (next?_of_holds_cons h) hpasses, hend⟩

theorem Holds.eq_of_drains (h : c.Holds rest) (hdrains : c.Drains taken) : taken = rest := by
  obtain ⟨c', hpasses, hend⟩ := hdrains
  obtain ⟨left, rfl, hleft⟩ := h.passes hpasses
  cases left with
  | nil => rw [List.append_nil]
  | cons e left =>
    rw [next?_of_holds_cons hleft] at hend
    cases hend

end Cursor

theorem cursor_holds (m : Dict) : m.cursor.Holds m.entries := rfl

/-! ## All at once -/

/-- Keys stand at the even places of the flat order, each with its value behind it. -/
theorem getElem?_flatten (m : Dict) (i : Nat) :
    m.flatten[2 * i]? = (m.entries.map Prod.fst)[i]? ∧
      m.flatten[2 * i + 1]? = (m.entries.map Prod.snd)[i]? := by
  unfold flatten
  induction m.entries generalizing i with
  | nil => simp
  | cons e entries ih =>
    cases i with
    | zero => simp
    | succ i => simpa [Nat.mul_add] using ih i

theorem everySecond_cons (x : Value) (rest : List Value) :
    everySecond (x :: rest) = x :: everySecond (rest.drop 1) := by
  cases rest <;> rfl

/-- Every second value of the flat order, from the first on, is a key. -/
theorem everySecond_flatten (m : Dict) : everySecond m.flatten = m.entries.map Prod.fst := by
  unfold flatten
  induction m.entries with
  | nil => rfl
  | cons e entries ih =>
    rw [List.flatMap_cons, List.map_cons, ← ih]
    exact everySecond_cons e.1 _

/-- Every second value of the flat order, from the second on, is the value under a key. -/
theorem everySecond_flatten_drop (m : Dict) :
    everySecond (m.flatten.drop 1) = m.entries.map Prod.snd := by
  unfold flatten
  induction m.entries with
  | nil => rfl
  | cons e entries ih =>
    rw [List.flatMap_cons, List.map_cons, ← ih]
    exact everySecond_cons e.2 _

/-- Every view of the map shows its entries in their order. -/
structure Shown (force : Force) (m : Dict) : Prop where
  cursor {taken : List (Value × Value)} {c : Cursor} : m.cursor.Passes taken c →
    ∃ rest, m.entries = taken ++ rest ∧ c.Drains rest ∧
      c.sizeHint = (rest.length, some rest.length)
  entrySeq : m.entrySeq.Denotes force (m.entries.map fun e => .pair e.1 e.2)
  seq : m.seq.Denotes force (m.entries.map fun e => .pair e.1 e.2)
  keys : m.keys.Returns (·.Denotes force (m.entries.map Prod.fst))
  vals : m.vals.Returns (·.Denotes force (m.entries.map Prod.snd))
  flatSeq : m.flatSeq.Denotes force (m.entries.flatMap fun e => [e.1, e.2])
  places (i : Nat) : m.flatten[2 * i]? = (m.entries.map Prod.fst)[i]? ∧
    m.flatten[2 * i + 1]? = (m.entries.map Prod.snd)[i]?

theorem ofArray_denotes (force : Force) (items : List Value) :
    (Seq.ofArray items).Returns (·.Denotes force items) := by
  apply Run.Returns.bind .freshStorage
  intro k _
  apply Run.Returns.pure
  exact Seq.Eager.denotes force fun _ _ => trivial

theorem entrySeq_eager (m : Dict) : m.entrySeq.Eager := fun _ _ => ⟨trivial, trivial⟩

theorem seq_eager (m : Dict) : m.seq.Eager := Seq.over_ofEntries fun _ _ => ⟨trivial, trivial⟩

theorem items_entrySeq (m : Dict) :
    m.entrySeq.items = m.entries.map fun e => .pair e.1 e.2 := by
  rw [← EntrySlice.toList_whole m]
  rfl

theorem items_seq (m : Dict) : m.seq.items = m.entries.map fun e => .pair e.1 e.2 := by
  rw [← EntrySlice.toList_whole m, seq]
  exact Seq.ofEntries_cases (fun _ => rfl) fun hnil => by rw [hnil]; rfl

theorem shown (force : Force) (m : Dict) : m.Shown force where
  cursor {taken c} hpasses := by
    obtain ⟨rest, hrest, hholds⟩ := m.cursor_holds.passes hpasses
    exact ⟨rest, hrest, hholds.drains, hholds.sizeHint_eq⟩
  entrySeq := by
    rw [← items_entrySeq]
    exact m.entrySeq_eager.denotes force
  seq := by
    rw [← items_seq]
    exact m.seq_eager.denotes force
  keys := by
    rw [← everySecond_flatten]
    exact ofArray_denotes force _
  vals := by
    rw [← everySecond_flatten_drop]
    exact ofArray_denotes force _
  flatSeq := Seq.Eager.denotes force fun _ _ => trivial
  places := m.getElem?_flatten

/-! ## Putting the entries back -/

/-- What a sequence shows, taken up into an empty map one after another. -/
def gather (force : Force) (s : Seq) (n : Nat) : Run Dict := do
  s.fold force (fun m x => m.conj (Value.equals force n) x) n (← Dict.new)

/-- A table with the entry that a vector of two elements stands for. -/
def putPair (p : Test) (l : List (Value × Value)) : Value → List (Value × Value)
  | .vector ⟨⟨_, [key, value]⟩, _⟩ => Table.put p key value l
  | _ => l

theorem foldl_putPair (p : Test) (l entries : List (Value × Value)) :
    (entries.map fun e => Value.pair e.1 e.2).foldl (putPair p) l = Table.putAll p l entries := by
  rw [List.foldl_map]
  rfl

section Returns

variable {I : World → Prop} {eq : Comparison} {C : Value → Prop} {p : Test} {m : Dict}
  {key value : Value} {entries : List (Value × Value)}

theorem new_returns (hI : Elastic I) : Dict.new.ReturnsIn I (·.entries = []) :=
  (ReturnsIn.freshStorage hI).bind fun _ _ => .pure rfl

/-- Whatever storage the pair is in, its entry is put into the map. -/
theorem conj_returns (hI : Elastic I) (heq : eq.Decides I C p) {x : Value}
    (hx : Copy x (.pair key value)) (hkey : C key) (hm : ∀ e ∈ m.entries, C e.1) :
    (m.conj eq x).ReturnsIn I (·.entries = Table.put p key value m.entries) := by
  unfold Value.pair at hx
  cases hx <;> exact assoc_returns hI heq hkey hm

theorem fold_conj_returns (force : Force) (hI : Elastic I) (heq : eq.Decides I C p) {s : Seq}
    (hs : s.Eager) (hitems : s.items = entries.map fun e => .pair e.1 e.2)
    (hentries : ∀ e ∈ entries, C e.1) (hm : ∀ e ∈ m.entries, C e.1) {n : Nat}
    (hn : entries.length + 1 < n) :
    (s.fold force (fun m x => m.conj eq x) n m).ReturnsIn I
      (·.entries = Table.putAll p m.entries entries) := by
  have hlength : (s.expand Seq.lazy).items.length + 0 + 1 < n := by
    rw [s.expand_lazy, hitems, List.length_map]
    exact hn
  have hfold := Seq.fold_returns (.eager force hI) hs hlength
    (R := fun d l => d.entries = l ∧ ∀ e ∈ l, C e.1) (f := fun m x => m.conj eq x)
    (g := putPair p) (b := m) ⟨rfl, hm⟩ ?step
  · rw [s.expand_lazy, hitems, foldl_putPair] at hfold
    exact hfold.mono fun d hd => hd.1
  case step =>
    rintro d _ ⟨rfl, hd⟩ y hy x hx
    rw [s.expand_lazy, hitems] at hy
    obtain ⟨e, he, rfl⟩ := List.mem_map.1 hy
    refine (conj_returns hI heq hx.copy (hentries e he) hd).mono fun d' hd' => ⟨hd', ?_⟩
    exact Table.keys_put C (hentries e he) hd

end Returns

section Settles

variable (force : Force) {entries : List (Value × Value)} (hfree : ∀ e ∈ entries, e.1.LazyFree)
  (hdistinct : Table.Distinct agree entries)

include hfree hdistinct

theorem ofList_settles :
    Settles (fun n => Dict.ofList (Value.equals force n) entries) (·.entries = entries) := by
  apply Value.settles_of_decides force (x := fun eq => Dict.ofList eq entries)
    (N := entriesWeight entries)
  · intro eq eq' heq
    exact Refines.any.bind (new_congr Refines.any) fun m => setAll_congr Refines.any heq m entries
  · intro n hn I eq hI heq
    apply (new_returns hI).bind
    intro m hm
    have hset := setAll_returns hI heq (m := m) (by simp [hm]) (fits_of_lazyFree hfree hn)
    rwa [hm, Table.putAll_nil hdistinct] at hset

theorem gather_settles {s : Seq} (hs : s.Eager)
    (hitems : s.items = entries.map fun e => .pair e.1 e.2) :
    Settles (gather force s) (·.entries = entries) := by
  apply Settles.of_returnsIn (N := entriesWeight entries + 2)
  · intro n n' hn
    apply Refines.any.bind (new_congr Refines.any)
    intro m
    apply Seq.fold_congr Refines.any (Seq.refines_self force) hn
    intro d x
    exact conj_congr Refines.any (fun a b => Value.equals_mono force a b hn) d x
  · intro u n hn
    have hI := World.Storing.elastic u
    have hlength := length_le_entriesWeight entries
    apply (new_returns hI).bind
    intro m hm
    have hfold := fold_conj_returns (m := m) force hI (Value.equals_decides force n hI) hs hitems
      (fits_of_lazyFree hfree (by omega)) (by simp [hm]) (n := n) (by omega)
    rwa [hm, Table.putAll_nil hdistinct] at hfold

end Settles

/-- All views of a map show the same entries, and a map that was built without lazy keys is given
back by the entries that its cursor gives and by those that its sequences show. -/
theorem views_rebuild (force : Force) {m : Dict} (hm : m.Built LazyFree) :
    m.Shown force ∧
    (∀ entries, m.cursor.Drains entries →
      Settles (fun n => Dict.ofList (Value.equals force n) entries) (·.entries = m.entries)) ∧
    Settles (gather force m.entrySeq) (·.entries = m.entries) ∧
    Settles (gather force m.seq) (·.entries = m.entries) := by
  have hfree : ∀ e ∈ m.entries, e.1.LazyFree :=
    fun e he => hm.separate.all e.1 (List.mem_map_of_mem he)
  have hdistinct := hm.distinct_of_lazyFree hfree
  refine ⟨m.shown force, ?_, ?_, ?_⟩
  · intro entries hdrains
    rw [m.cursor_holds.eq_of_drains hdrains]
    exact ofList_settles force hfree hdistinct
  · exact gather_settles force hfree hdistinct m.entrySeq_eager m.items_entrySeq
  · exact gather_settles force hfree hdistinct m.seq_eager m.items_seq

/-- A map with a NaN for a key twice and with a lazy value, also after its first entry was given. -/
theorem views_rebuild_nan_key :
    let nan : Value := .double ⟨0x7ff8000000000000⟩
    let vector : Value := .vector ⟨⟨20, [.int 1]⟩, .plain⟩
    let m : Dict := ⟨3, [(nan, .int 1), (vector, .seq (.lazy 0 .plain)), (nan, .nil)], .plain⟩
    let force : Force := fun _ => Run.exhausted
    let c : Cursor := ⟨m.flatten, 2⟩
    (m.Built LazyFree ∧ m.cursor.Drains m.entries ∧ m.cursor.Passes [(nan, .int 1)] c) ∧
      (∃ rest, m.entries = [(nan, .int 1)] ++ rest ∧ c.Drains rest ∧
        c.sizeHint = (rest.length, some rest.length)) ∧
      Settles (fun n => Dict.ofList (Value.equals force n) m.entries) (·.entries = m.entries) ∧
      Settles (gather force m.entrySeq) (·.entries = m.entries) := by
  intro nan vector m force c
  have hatom (a : Atom) : (Value.atom a).LazyFree :=
    Value.everywhere_iff.2 ⟨rfl, by simp [Value.parts]⟩
  have hvector : vector.LazyFree :=
    Value.everywhere_iff.2 ⟨rfl, List.forall_mem_singleton.2 (hatom _)⟩
  have hrun : Dict.ofList (Value.equals force 1) m.entries {} =
      some (.ok m, { storages := 4 }) := rfl
  have hm : m.Built LazyFree := .ofList (by simp [m, nan, hatom, hvector]) hrun
  have hdrains : m.cursor.Drains m.entries := m.cursor_holds.drains
  have hpasses : m.cursor.Passes [(nan, .int 1)] c := .step rfl (.refl c)
  obtain ⟨hshown, hcursor, hentries, -⟩ := views_rebuild force hm
  exact ⟨⟨hm, hdrains, hpasses⟩, hshown.cursor hpasses, hcursor _ hdrains, hentries⟩

end Dict

end LispKernel
