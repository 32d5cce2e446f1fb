import LispKernel.Proofs.Equality.Comparison

/-!
# Maps and sets as the operations build them

Whatever comparisons the operations made on the way, in whatever worlds and with whatever fuel, a
map that they have built never has two keys without lazy cells that agree, and a set never has two
such elements.
-/
namespace LispKernel

open Run (bind_eq_ok)
open Value (LazyFree agree)

/-- The maps that the operations build; `K` holds of all keys that were put in. -/
inductive Dict.Built (K : Value → Prop) : Dict → Prop where
  | new {w w' : World} {m : Dict} : Dict.new w = some (.ok m, w') → Built K m
  | ofList {force : Force} {n : Nat} {w w' : World} {m : Dict} {entries : List (Value × Value)} :
      (∀ e ∈ entries, K e.1) →
      Dict.ofList (Value.equals force n) entries w = some (.ok m, w') → Built K m
  | set {force : Force} {n : Nat} {w w' : World} {m m' : Dict} {key value : Value} :
      Built K m → K key →
      m.set (Value.equals force n) key value w = some (.ok m', w') → Built K m'
  | add {force : Force} {n : Nat} {w w' : World} {m m' : Dict} {key value : Value} :
      Built K m → K key →
      m.add? (Value.equals force n) key value w = some (.ok (some m'), w') → Built K m'
  | assoc {force : Force} {n : Nat} {w w' : World} {m m' : Dict} {key value : Value} :
      Built K m → K key →
      m.assoc (Value.equals force n) key value w = some (.ok m', w') → Built K m'
  | without {force : Force} {n : Nat} {w w' : World} {m m' : Dict} {key : Value} :
      Built K m → m.without (Value.equals force n) key w = some (.ok m', w') → Built K m'
  | merge {force : Force} {n : Nat} {w w' : World} {m other m' : Dict} :
      Built K m → Built K other →
      m.merge (Value.equals force n) other w = some (.ok m', w') → Built K m'
  | conjEntry {force : Force} {n : Nat} {w w' : World} {m m' : Dict} {v : Vec} :
      Built K m → (∀ key ∈ v.items.head?, K key) →
      m.conj (Value.equals force n) (.vector v) w = some (.ok m', w') → Built K m'
  | conjMap {force : Force} {n : Nat} {w w' : World} {m other m' : Dict} :
      Built K m → Built K other →
      m.conj (Value.equals force n) (.map other) w = some (.ok m', w') → Built K m'
  | withInfo {m : Dict} (info : Info) : Built K m → Built K { m with info }

/-- The sets that the operations build; `K` holds of all elements that were put in. -/
inductive ElemSet.Built (K : Value → Prop) : ElemSet → Prop where
  | new {w w' : World} {s : ElemSet} : ElemSet.new w = some (.ok s, w') → Built K s
  | add {force : Force} {n : Nat} {w w' : World} {s s' : ElemSet} {x : Value} :
      Built K s → K x →
      s.add? (Value.equals force n) x w = some (.ok (some s'), w') → Built K s'
  | conj {force : Force} {n : Nat} {w w' : World} {s s' : ElemSet} {x : Value} :
      Built K s → K x → s.conj (Value.equals force n) x w = some (.ok s', w') → Built K s'
  | disj {force : Force} {n : Nat} {w w' : World} {s s' : ElemSet} {x : Value} :
      Built K s → s.disj (Value.equals force n) x w = some (.ok s', w') → Built K s'
  | withInfo {s : ElemSet} (info : Info) : Built K s → Built K { s with info }

/-! ## What a finished comparison tells -/

/-- Two values that are not equal, unless a lazy cell occurs in one of them. -/
def Value.Apart (a b : Value) : Prop := a.LazyFree → b.LazyFree → agree a b = false

/-- An answer that two values differ sets them apart. -/
def Comparison.Tells (eq : Comparison) : Prop :=
  ∀ a b, (eq a b).Yields fun r => r = false → a.Apart b

theorem Value.equals_tells (force : Force) (n : Nat) : Comparison.Tells (equals force n) := by
  intro a b w r w' h hr ha hb
  obtain ⟨_, hok, rfl⟩ := (equals_settles force ha hb).outcome h
  exact (Except.ok.inj hok).symm.trans hr

theorem Value.lenient_tells (force : Force) (n : Nat) :
    Comparison.Tells (Comparison.lenient (equals force n)) := by
  intro a b w r w' h hr ha hb
  subst hr
  unfold Comparison.lenient Run.lenient at h
  cases heq : equals force n a b w with
  | none => simp [heq] at h
  | some out =>
    obtain ⟨r, v⟩ := out
    obtain ⟨_, rfl, rfl⟩ := (equals_settles force ha hb).outcome heq
    rw [heq] at h
    simp only [Option.some.injEq, Prod.mk.injEq, Except.ok.injEq] at h
    exact h.1

/-- All of a class, and no two of them equal. -/
structure Value.Separate (K : Value → Prop) (xs : List Value) : Prop where
  all : ∀ x ∈ xs, K x
  apart : xs.Pairwise Apart

namespace Value.Separate

variable {K : Value → Prop} {x : Value} {xs ys : List Value}

theorem nil : Separate K [] := ⟨by simp, .nil⟩

theorem append_singleton (h : Separate K xs) (hx : K x) (ha : ∀ y ∈ xs, y.Apart x) :
    Separate K (xs ++ [x]) := by
  refine ⟨fun y hy => ?_, List.pairwise_append.2 ⟨h.apart, by simp, fun y hy z hz => ?_⟩⟩
  · rcases List.mem_append.1 hy with hy | hy
    · exact h.all y hy
    · exact List.mem_singleton.1 hy ▸ hx
  · exact List.mem_singleton.1 hz ▸ ha y hy

theorem sublist (h : Separate K ys) (hs : xs.Sublist ys) : Separate K xs :=
  ⟨fun x hx => h.all x (hs.subset hx), h.apart.sublist hs⟩

end Value.Separate

open Value (Separate)

variable {K : Value → Prop} {eq : Comparison}

theorem Run.reject_yields {α : Type} (f : α → Run Bool) (l : List α) :
    (Run.reject f l).Yields (·.Sublist l) := by
  induction l with
  | nil => exact .pure .slnil
  | cons x l ih =>
    refine .bind (.trivial _) fun drop _ => .bind ih fun rest hrest => .pure ?_
    cases drop with
    | true => exact hrest.cons x
    | false => exact hrest.cons_cons x

/-! ## Maps -/

namespace Dict

variable {m other : Dict} {key : Value} (value : Value)

theorem indexOf_yields (heq : eq.Tells) (key : Value) (entries : List (Value × Value)) :
    (indexOf eq key entries).Yields fun i =>
      i = none → ∀ k ∈ entries.map Prod.fst, k.Apart key := by
  induction entries with
  | nil => exact .pure (by simp)
  | cons e entries ih =>
    refine .bind (heq e.1 key) fun found hfound => ?_
    cases found with
    | true => exact .pure (by simp)
    | false =>
      refine .bind ih fun i hi => .pure fun hnone => ?_
      have htail := hi (by simpa using hnone)
      exact List.forall_mem_cons.2 ⟨hfound rfl, htail⟩

theorem replace_yields (m : Dict) (entries : List (Value × Value)) :
    (m.replace entries).Yields (·.entries = entries) :=
  .bind (.trivial _) fun _ _ => .pure rfl

theorem keys_modify (entries : List (Value × Value)) (i : Nat) :
    (entries.modify i fun e => (e.1, value)).map Prod.fst = entries.map Prod.fst := by
  induction entries generalizing i with
  | nil => simp
  | cons e entries ih => cases i <;> simp [ih]

/-- Setting leaves the keys as they are or puts a new one at the end. -/
theorem set_yields (heq : eq.lenient.Tells) (h : Separate K (m.entries.map Prod.fst)) (hk : K key) :
    (m.set eq key value).Yields fun m' => Separate K (m'.entries.map Prod.fst) := by
  refine .bind (indexOf_yields heq key m.entries) fun i hi => ?_
  cases i with
  | some i =>
    refine (replace_yields m _).mono fun m' hm' => ?_
    rwa [hm', keys_modify]
  | none =>
    refine (replace_yields m _).mono fun m' hm' => ?_
    rw [hm', List.map_append]
    exact h.append_singleton hk (hi rfl)

theorem add_yields (heq : eq.Tells) (h : Separate K (m.entries.map Prod.fst)) (hk : K key) :
    (m.add? eq key value).Yields fun o => ∀ m' ∈ o, Separate K (m'.entries.map Prod.fst) := by
  refine .bind (indexOf_yields heq key m.entries) fun i hi => ?_
  cases i with
  | some i => exact .pure (by simp)
  | none =>
    refine .bind (replace_yields m _) fun m' hm' => .pure fun m'' hm'' => ?_
    obtain rfl : m' = m'' := by simpa using hm''
    rw [hm', List.map_append]
    exact h.append_singleton hk (hi rfl)

theorem setAll_yields (heq : eq.lenient.Tells) {entries : List (Value × Value)}
    (h : Separate K (m.entries.map Prod.fst)) (hk : ∀ e ∈ entries, K e.1) :
    (m.setAll eq entries).Yields fun m' => Separate K (m'.entries.map Prod.fst) := by
  unfold setAll
  induction entries generalizing m with
  | nil => exact .pure h
  | cons e entries ih =>
    rw [List.foldlM_cons]
    exact .bind (set_yields e.2 heq h (hk e (by simp))) fun m' hm' =>
      ih hm' fun f hf => hk f (by simp [hf])

theorem merge_yields (heq : eq.lenient.Tells) (h : Separate K (m.entries.map Prod.fst))
    (h' : Separate K (other.entries.map Prod.fst)) :
    (m.merge eq other).Yields fun m' => Separate K (m'.entries.map Prod.fst) := by
  unfold merge
  split
  · exact .pure h
  · split
    · exact .pure h'
    · exact setAll_yields (m := m.detached) heq h fun e he => h'.all _ (List.mem_map_of_mem he)

theorem conj_vector_yields (heq : eq.lenient.Tells) {v : Vec}
    (h : Separate K (m.entries.map Prod.fst)) (hk : ∀ key ∈ v.items.head?, K key) :
    (m.conj eq (.vector v)).Yields fun m' => Separate K (m'.entries.map Prod.fst) := by
  rw [conj]
  split
  · next key value hv => exact set_yields (m := m.detached) value heq h (hk key (by simp [hv]))
  · exact fun _ _ _ hfail => nomatch hfail

/-- The keys of a map that the operations have built. -/
theorem Built.separate (h : Built K m) : Separate K (m.entries.map Prod.fst) := by
  induction h with
  | new hnew =>
    obtain ⟨_, _, -, hm⟩ := bind_eq_ok.1 hnew
    cases hm
    exact .nil
  | @ofList force n _ _ _ entries hk hrun =>
    obtain ⟨m, _, hnew, hm⟩ := bind_eq_ok.1 hrun
    obtain ⟨_, _, -, hempty⟩ := bind_eq_ok.1 hnew
    cases hempty
    exact (setAll_yields (Value.lenient_tells force n) .nil hk).of_ok hm
  | set _ hk hrun ih => exact (set_yields _ (Value.lenient_tells _ _) ih hk).of_ok hrun
  | add _ hk hrun ih => exact (add_yields _ (Value.equals_tells _ _) ih hk).of_ok hrun _ rfl
  | assoc _ hk hrun ih =>
    exact (set_yields (m := detached _) _ (Value.lenient_tells _ _) ih hk).of_ok hrun
  | without _ hrun ih =>
    obtain ⟨l, _, hl, hm⟩ := bind_eq_ok.1 hrun
    rw [(replace_yields _ l).of_ok hm]
    exact ih.sublist (((Run.reject_yields _ _).of_ok hl).map _)
  | merge _ _ hrun ih ih' => exact (merge_yields (Value.lenient_tells _ _) ih ih').of_ok hrun
  | conjEntry _ hk hrun ih =>
    exact (conj_vector_yields (Value.lenient_tells _ _) ih hk).of_ok hrun
  | conjMap _ _ hrun ih ih' => exact (merge_yields (Value.lenient_tells _ _) ih ih').of_ok hrun
  | withInfo info _ ih => exact ih

theorem Built.distinct_of_lazyFree (h : Built K m) (hfree : ∀ e ∈ m.entries, e.1.LazyFree) :
    Table.Distinct agree m.entries := by
  refine List.Pairwise.imp_of_mem ?_ (List.pairwise_map.1 h.separate.apart)
  intro e f he hf hapart
  exact hapart (hfree e he) (hfree f hf)

end Dict

/-! ## Sets -/

namespace ElemSet

variable {s : ElemSet} {x : Value}

theorem anyM_yields (heq : eq.Tells) (x : Value) (items : List Value) :
    (anyM (fun item => eq item x) items).Yields fun r => r = false → ∀ y ∈ items, y.Apart x := by
  induction items with
  | nil => exact .pure (by simp)
  | cons y items ih =>
    refine .bind (heq y x) fun found hfound => ?_
    cases found with
    | true => exact .pure (by simp)
    | false => exact ih.mono fun r hr hfalse => List.forall_mem_cons.2 ⟨hfound rfl, hr hfalse⟩

theorem replace_yields (s : ElemSet) (items : List Value) :
    (s.replace items).Yields (·.items = items) :=
  .bind (.trivial _) fun _ _ => .pure rfl

/-- The elements of a set that the operations have built. -/
theorem Built.separate (h : Built K s) : Separate K s.items := by
  induction h with
  | new hnew =>
    obtain ⟨_, _, -, hs⟩ := bind_eq_ok.1 hnew
    cases hs
    exact .nil
  | @add _ _ _ _ _ _ x _ hx hrun ih =>
    obtain ⟨found, _, hfound, hs⟩ := bind_eq_ok.1 hrun
    cases found with
    | true => cases hs
    | false =>
      obtain ⟨s', _, hreplace, hs'⟩ := bind_eq_ok.1 hs
      cases hs'
      rw [(replace_yields _ _).of_ok hreplace]
      exact ih.append_singleton hx ((anyM_yields (Value.equals_tells _ _) x _).of_ok hfound rfl)
  | @conj _ _ _ _ _ _ x _ hx hrun ih =>
    obtain ⟨found, _, hfound, hs⟩ := bind_eq_ok.1 hrun
    cases found with
    | true =>
      cases hs
      exact ih
    | false =>
      rw [(replace_yields _ _).of_ok hs]
      exact ih.append_singleton hx ((anyM_yields (Value.lenient_tells _ _) x _).of_ok hfound rfl)
  | disj _ hrun ih =>
    obtain ⟨l, _, hl, hs⟩ := bind_eq_ok.1 hrun
    rw [(replace_yields _ l).of_ok hs]
    exact ih.sublist ((Run.reject_yields _ _).of_ok hl)
  | withInfo info _ ih => exact ih

end ElemSet

end LispKernel
