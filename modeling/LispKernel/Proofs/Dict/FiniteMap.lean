import LispKernel.Proofs.Equality.Laws

/-!
# Maps are finite maps up to equality

A map that was built with lawful keys never has two equal ones. Reading after an entry was put,
taken out or merged in gives what a finite map gives, and the other entries keep their order. A key
that is not equal to itself, such as a NaN, is never found, but it does no harm to the other keys.
-/
namespace LispKernel.Dict

open Run (Settles Refines)
open Value (Lawful LazyFree Fits Equal agree)

/-- What is read under a key. -/
def Reads (force : Force) (m : Dict) (key : Value) (found : Option Value) : Prop :=
  Settles (fun n => m.get (Value.equals force n) key) (· = found)

/-- The map `m'` is the map `m` with a value put under a key. An entry that is overwritten keeps its
place and its key. -/
structure Assigned (force : Force) (σ : Store) (m : Dict) (key value : Value) (m' : Dict) :
    Prop where
  get_equal {j : Value} : j.Lawful σ → Equal force j key → m'.Reads force j (some value)
  get_other {j : Value} {found : Option Value} : j.Lawful σ → ¬ Equal force j key →
    m.Reads force j found → m'.Reads force j found
  of_absent : m.Reads force key none → m'.entries = m.entries ++ [(key, value)]
  of_present : ¬ m.Reads force key none → ∃ us e vs, m.entries = us ++ e :: vs ∧
    Equal force e.1 key ∧ m'.entries = us ++ (e.1, value) :: vs
  count_succ : m'.count = m.count + 1 ↔ m.Reads force key none
  count_same : m'.count = m.count ↔ ¬ m.Reads force key none

/-- The map `m'` is the map `m` without a key. -/
structure Removed (force : Force) (σ : Store) (m : Dict) (key : Value) (m' : Dict) : Prop where
  get_equal {j : Value} : j.Lawful σ → Equal force j key → m'.Reads force j none
  get_other {j : Value} {found : Option Value} : j.Lawful σ → ¬ Equal force j key →
    m.Reads force j found → m'.Reads force j found
  of_absent : m.Reads force key none → m'.entries = m.entries
  of_present : ¬ m.Reads force key none → ∃ us e vs, m.entries = us ++ e :: vs ∧
    Equal force e.1 key ∧ m'.entries = us ++ vs
  count_pred : m.count = m'.count + 1 ↔ ¬ m.Reads force key none
  count_same : m.count = m'.count ↔ m.Reads force key none

open Classical in
/-- The map `m'` is the map `m` with another put over it: the entries of `m` in their places, with
new values where the other map has one, and then the entries of the other map that `m` lacks. -/
structure Joined (force : Force) (σ : Store) (m other m' : Dict) : Prop where
  get_some {j x : Value} : j.Lawful σ → other.Reads force j (some x) → m'.Reads force j (some x)
  get_none {j : Value} {found : Option Value} : j.Lawful σ → other.Reads force j none →
    m.Reads force j found → m'.Reads force j found
  entries : ∃ kept, List.Forall₂ (fun e f => f.1 = e.1 ∧
      (other.Reads force e.1 none → f.2 = e.2) ∧ ∀ x, other.Reads force e.1 (some x) → f.2 = x)
        m.entries kept ∧
    m'.entries = kept ++ other.entries.filter fun e => m.Reads force e.1 none
  count : m'.count = m.count + other.entries.countP fun e => m.Reads force e.1 none

variable {force : Force} {σ : Store} {m m' other : Dict} {key value : Value}

/-! ## Built maps -/

theorem Built.keys (h : m.Built (Lawful σ)) : ∀ e ∈ m.entries, e.1.Lawful σ :=
  fun _ he => h.separate.all _ (List.mem_map_of_mem he)

theorem Built.distinct (h : m.Built (Lawful σ)) : Table.Distinct agree m.entries :=
  h.distinct_of_lazyFree fun e he => (h.keys e he).lazyFree

/-! ## The outcome of operations -/

theorem fits_of_lazyFree {entries : List (Value × Value)} (h : ∀ e ∈ entries, e.1.LazyFree)
    {n : Nat} (hn : entriesWeight entries ≤ n) : ∀ e ∈ entries, e.1.Fits n := by
  intro e he
  have := entryWeight_le_entriesWeight he
  rw [entryWeight_eq] at this
  exact ⟨h e he, by omega⟩

theorem keys_fit {entries : List (Value × Value)} (h : ∀ e ∈ entries, e.1.Lawful σ) {n : Nat}
    (hn : entriesWeight entries ≤ n) : ∀ e ∈ entries, e.1.Fits n :=
  fits_of_lazyFree (fun e he => (h e he).lazyFree) hn

section Settles

variable (force) (hm : ∀ e ∈ m.entries, e.1.Lawful σ)

include hm

theorem get_settles (hkey : key.Lawful σ) : Settles (fun n => m.get (Value.equals force n) key)
    (· = Table.lookup agree key m.entries) := by
  refine Value.settles_of_decides force (x := fun eq => m.get eq key)
    (N := entriesWeight m.entries + key.weight) (fun heq => get_congr Refines.any heq m key) ?_
  intro n hn I eq hI heq
  exact get_returns heq ⟨hkey.lazyFree, by omega⟩ (keys_fit hm (by omega))

theorem reads_iff (hkey : key.Lawful σ) {found : Option Value} :
    m.Reads force key found ↔ Table.lookup agree key m.entries = found := by
  have hget := get_settles force hm hkey
  constructor
  · exact fun h => hget.unique h
  · rintro rfl
    exact hget

theorem assoc_settles (hkey : key.Lawful σ) (value : Value) :
    Settles (fun n => m.assoc (Value.equals force n) key value)
      (·.entries = Table.put agree key value m.entries) := by
  refine Value.settles_of_decides force (x := fun eq => m.assoc eq key value)
    (N := entriesWeight m.entries + key.weight)
    (fun heq => set_congr Refines.any heq m.detached key value) ?_
  intro n hn I eq hI heq
  exact assoc_returns hI heq ⟨hkey.lazyFree, by omega⟩ (keys_fit hm (by omega))

theorem without_settles (hkey : key.Lawful σ) :
    Settles (fun n => m.without (Value.equals force n) key)
      (·.entries = Table.erase agree key m.entries) := by
  refine Value.settles_of_decides force (x := fun eq => m.without eq key)
    (N := entriesWeight m.entries + key.weight) (fun heq => without_congr Refines.any heq m key) ?_
  intro n hn I eq hI heq
  exact without_returns hI heq ⟨hkey.lazyFree, by omega⟩ (keys_fit hm (by omega))

theorem merge_settles (ho : ∀ e ∈ other.entries, e.1.Lawful σ)
    (hd : Table.Distinct agree other.entries) :
    Settles (fun n => m.merge (Value.equals force n) other)
      (·.entries = Table.putAll agree m.entries other.entries) := by
  refine Value.settles_of_decides force (x := fun eq => m.merge eq other)
    (N := entriesWeight m.entries + entriesWeight other.entries)
    (fun heq => merge_congr Refines.any heq m other) ?_
  intro n hn I eq hI heq
  exact merge_returns hI heq (keys_fit hm (by omega)) (keys_fit ho (by omega)) hd

end Settles

/-! ## From tables to maps -/

theorem equal_iff {j : Value} (hj : j.Lawful σ) (hkey : key.Lawful σ) :
    Equal force j key ↔ agree key j = true := by
  rw [Value.equal_iff_agree force hj.lazyFree hkey.lazyFree,
    (Value.agree_partialEquivalence σ).comm hj hkey]

theorem assigned (hm : m.Built (Lawful σ)) (hkey : key.Lawful σ)
    (h : m'.entries = Table.put agree key value m.entries) : m.Assigned force σ key value m' := by
  have hp := Value.agree_partialEquivalence σ
  have hkeys : ∀ e ∈ m'.entries, e.1.Lawful σ := h ▸ Table.keys_put _ hkey hm.keys
  have hget {j : Value} (hj : j.Lawful σ) := Table.lookup_put (v := value) hp hm.keys hkey hj
  constructor
  · intro j hj hequal
    rw [reads_iff force hkeys hj, h, hget hj, if_pos ((equal_iff hj hkey).1 hequal)]
  · intro j found hj hother
    rw [reads_iff force hkeys hj, reads_iff force hm.keys hj, h, hget hj,
      if_neg (mt (equal_iff hj hkey).2 hother)]
    exact id
  all_goals rw [reads_iff force hm.keys hkey]
  · intro habsent
    rw [h, Table.put_of_absent habsent]
  · intro hpresent
    obtain ⟨us, e, vs, hl, he, hput⟩ := Table.put_of_present (v := value) hpresent
    refine ⟨us, e, vs, hl, ?_, h.trans hput⟩
    have hek := hm.keys e (by simp [hl])
    exact (Value.equal_iff_agree force hek.lazyFree hkey.lazyFree).2 he
  all_goals
    rw [count, count, h, Table.length_put]
    split <;> simp_all

theorem removed (hm : m.Built (Lawful σ)) (hkey : key.Lawful σ)
    (h : m'.entries = Table.erase agree key m.entries) : m.Removed force σ key m' := by
  have hp := Value.agree_partialEquivalence σ
  have hkeys : ∀ e ∈ m'.entries, e.1.Lawful σ :=
    fun e he => hm.keys e (List.mem_of_mem_filter (h ▸ he))
  have hget {j : Value} (hj : j.Lawful σ) := Table.lookup_erase hp hm.keys hkey hj
  constructor
  · intro j hj hequal
    rw [reads_iff force hkeys hj, h, hget hj, if_pos ((equal_iff hj hkey).1 hequal)]
  · intro j found hj hother
    rw [reads_iff force hkeys hj, reads_iff force hm.keys hj, h, hget hj,
      if_neg (mt (equal_iff hj hkey).2 hother)]
    exact id
  all_goals rw [reads_iff force hm.keys hkey]
  · intro habsent
    rw [h, Table.erase_of_forall (Table.lookup_eq_none.1 habsent)]
  · intro hpresent
    obtain ⟨us, e, vs, hl, he, herase⟩ :=
      Table.erase_of_present hp hm.keys hkey hm.distinct hpresent
    refine ⟨us, e, vs, hl, ?_, h.trans herase⟩
    have hek := hm.keys e (by simp [hl])
    exact (Value.equal_iff_agree force hek.lazyFree hkey.lazyFree).2 he
  all_goals
    rw [count, count, h, Table.length_erase hp hm.keys hkey hm.distinct]
    split <;> simp_all

open Classical in
theorem joined (hm : m.Built (Lawful σ)) (ho : other.Built (Lawful σ))
    (h : m'.entries = Table.putAll agree m.entries other.entries) : m.Joined force σ other m' := by
  have hp := Value.agree_partialEquivalence σ
  have hkeys : ∀ e ∈ m'.entries, e.1.Lawful σ := h ▸ Table.keys_putAll _ hm.keys ho.keys
  have hget {j : Value} (hj : j.Lawful σ) :=
    Table.lookup_putAll hp hm.keys hj ho.distinct ho.keys
  have hentries := Table.putAll_eq hp hm.keys ho.keys hm.distinct ho.distinct
  have habsent : Table.absent agree m.entries other.entries =
      other.entries.filter fun e => m.Reads force e.1 none :=
    List.filter_congr fun e he => by
      rw [Bool.eq_iff_iff, Option.isNone_iff_eq_none, decide_eq_true_iff,
        reads_iff force hm.keys (ho.keys e he)]
  constructor
  · intro j x hj
    rw [reads_iff force hkeys hj, reads_iff force ho.keys hj, h, hget hj]
    intro hx
    simp [hx]
  · intro j found hj
    rw [reads_iff force hkeys hj, reads_iff force ho.keys hj, reads_iff force hm.keys hj, h,
      hget hj]
    intro hnone hfound
    simp [hnone, hfound]
  · refine ⟨m.entries.map (Table.overlay agree other.entries), ?_, by rw [h, hentries, habsent]⟩
    rw [List.forall₂_map_right_iff, List.forall₂_same]
    intro e he
    simp only [reads_iff force ho.keys (hm.keys e he), Table.overlay, true_and]
    exact ⟨fun hnone => by simp [hnone], fun x hx => by simp [hx]⟩
  · rw [count, count, h, hentries, habsent, List.length_append, List.length_map,
      List.countP_eq_length_filter]

/-- Keys are distinct, reading always has an answer, and putting, removing and merging do what they
do to a finite map. -/
theorem finite_map_laws (force : Force) {σ : Store} {m other : Dict} {key : Value}
    (hm : m.Built (Lawful σ)) (ho : other.Built (Lawful σ)) (hkey : key.Lawful σ) (value : Value) :
    m.flatten.length = 2 * m.count ∧
    (m.entries.Pairwise fun e f => ¬ Equal force e.1 f.1 ∧ ¬ Equal force f.1 e.1) ∧
    (∃ found, m.Reads force key found) ∧
    Settles (fun n => m.assoc (Value.equals force n) key value)
      (m.Assigned force σ key value) ∧
    Settles (fun n => m.without (Value.equals force n) key) (m.Removed force σ key) ∧
    Settles (fun n => m.merge (Value.equals force n) other) (m.Joined force σ other) := by
  refine ⟨?_, ?_, ⟨_, get_settles force hm.keys hkey⟩, ?_, ?_, ?_⟩
  · simp [flatten, count, List.length_flatMap, Nat.mul_comm]
  · refine hm.distinct.imp_of_mem fun {e f} he hf hne => ?_
    rw [equal_iff (hm.keys e he) (hm.keys f hf), equal_iff (hm.keys f hf) (hm.keys e he),
      (Value.agree_partialEquivalence σ).comm (hm.keys f hf) (hm.keys e he)]
    simp [hne]
  · exact (assoc_settles force hm.keys hkey value).mono fun _ h => assigned hm hkey h
  · exact (without_settles force hm.keys hkey).mono fun _ h => removed hm hkey h
  · exact (merge_settles force hm.keys ho.keys ho.distinct).mono fun _ h => joined hm ho h

/-- A map with a NaN for a key, and one that has the other key in another form and a lazy value. -/
theorem finite_map_laws_nan_key :
    let nan : Value := .double ⟨0x7ff8000000000000⟩
    let m : Dict := ⟨2, [(nan, .int 1), (.vector ⟨⟨20, [.int 1]⟩, .plain⟩, .int 2)], .plain⟩
    let other : Dict := ⟨12, [(.seq (.cons 21 (.int 1) (.empty .plain) .plain),
      .seq (.lazy 0 .plain)), (.int 4, .nil)], .plain⟩
    let σ : Store := ⟨fun _ => (.int 1, .empty .plain), fun _ => [], fun _ => []⟩
    let force : Force := fun _ => Run.exhausted
    (m.Built (Lawful σ) ∧ other.Built (Lawful σ) ∧ nan.Lawful σ ∧ ¬ Equal force nan nan) ∧
      Settles (fun n => m.assoc (Value.equals force n) nan .nil) (m.Assigned force σ nan .nil) ∧
      Settles (fun n => m.without (Value.equals force n) nan) (m.Removed force σ nan) ∧
      Settles (fun n => m.merge (Value.equals force n) other) (m.Joined force σ other) := by
  intro nan m other σ force
  have hvector : (Value.vector ⟨⟨20, [.int 1]⟩, .plain⟩).Lawful σ := Value.lawful_iff.2
    ⟨⟨rfl, trivial, trivial⟩, by simp [Value.parts, Vec.items, Value.lawful_atom]⟩
  have hcons : (Value.seq (.cons 21 (.int 1) (.empty .plain) .plain)).Lawful σ :=
    Value.lawful_iff.2
      ⟨⟨rfl, trivial, rfl⟩, by simp [Value.parts, Value.lawful_atom, Value.lawful_empty]⟩
  have hnan : nan.Lawful σ := Value.lawful_atom _
  have hmrun : Dict.ofList (Value.equals force 1) m.entries {} =
      some (.ok m, { storages := 3 }) := rfl
  have horun : Dict.ofList (Value.equals force 1) other.entries { storages := 10 } =
      some (.ok other, { storages := 13 }) := rfl
  have hm : m.Built (Lawful σ) := .ofList (by simp [m, nan, Value.lawful_atom, hvector]) hmrun
  have ho : other.Built (Lawful σ) := .ofList (by simp [other, Value.lawful_atom, hcons]) horun
  have hne : ¬ Equal force nan nan := by
    rw [Value.equal_iff_agree force hnan.lazyFree hnan.lazyFree]
    decide
  exact ⟨⟨hm, ho, hnan, hne⟩, (finite_map_laws force hm ho hnan .nil).2.2.2⟩

end LispKernel.Dict
