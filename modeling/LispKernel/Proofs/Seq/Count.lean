import LispKernel.Native.Stream
import LispKernel.Proofs.Seq.Index

/-!
# Counting and walking

Counting walks along a sequence until the end, a cell that fails or a rest that knows how long it
is. Collecting the elements never stops at such a rest, and it makes a new vector of every entry of
a map. Each looks at a sequence several times before it goes on, and of these looks only the first
realizes cells. Both meet the same cells in the same order, so they have the same outcome and leave
the same world but for the storage of the new vectors.
-/
namespace LispKernel

namespace Seq

open Run (ComesTo Alike)

variable {force : Force} {s : Seq} {w w' v : World} {k seen : Nat}

/-- What a walk to the end comes to: how many elements there are, or the error of a cell on the
way. -/
inductive Traverses (force : Force) : Seq → World → Except Error Nat → World → Prop where
  | broken {s : Seq} {w w' : World} {e : Error} :
      Look force s w (.error e) w' → Traverses force s w (.error e) w'
  | ended {s : Seq} {w w' : World} : Look force s w (.ok .done) w' → Traverses force s w (.ok 0) w'
  | further {s : Seq} {f : Front} {w v w' : World} {r : Except Error Nat} :
      Look force s w (.ok f) v → f.isDone = false → Traverses force f.rest v r w' →
      Traverses force s w (r.map (· + 1)) w'

theorem Traverses.unique {r t : Except Error Nat} (h : Traverses force s w r w')
    (h' : Traverses force s w t v) : r = t ∧ w' = v := by
  induction h generalizing t v with
  | broken hlook =>
    cases h' with
    | broken hlook' =>
      obtain ⟨⟨⟩, rfl⟩ := hlook.unique hlook'
      exact ⟨rfl, rfl⟩
    | ended hlook' => cases (hlook.unique hlook').1
    | further hlook' _ _ => cases (hlook.unique hlook').1
  | ended hlook =>
    cases h' with
    | broken hlook' => cases (hlook.unique hlook').1
    | ended hlook' => exact ⟨rfl, (hlook.unique hlook').2⟩
    | further hlook' hdone _ =>
      cases (hlook.unique hlook').1
      cases hdone
  | further hlook hdone _ ih =>
    cases h' with
    | broken hlook' => cases (hlook.unique hlook').1
    | ended hlook' =>
      cases (hlook.unique hlook').1
      cases hdone
    | further hlook' _ hrest =>
      obtain ⟨⟨⟩, rfl⟩ := hlook.unique hlook'
      obtain ⟨rfl, rfl⟩ := ih hrest
      exact ⟨rfl, rfl⟩

/-! ## Rests that know how long they are -/

theorem counted_ofSlice (kind : ViewKind) (storage : Storage) (slice : Slice) :
    (ofSlice kind storage slice).counted = some slice.count :=
  ofSlice_cases (fun _ => rfl) fun hnil => by rw [slice.count_eq, hnil]; rfl

theorem counted_ofEntries (storage : Storage) (slice : EntrySlice) :
    (ofEntries storage slice).counted = some slice.count :=
  ofEntries_cases (fun _ => rfl) fun hnil => by rw [slice.count_eq, hnil]; rfl

/-- One step along a sequence that knows how long it is. -/
theorem counted_cases (h : s.counted = some k) : (k = 0 ∧ s.Opens .done) ∨
    ∃ f j, k = j + 1 ∧ s.Opens f ∧ f.isDone = false ∧ f.rest.counted = some j := by
  cases s with
  | empty info =>
    cases h
    exact .inl ⟨rfl, fun _ _ _ => rfl⟩
  | cons cell x rest info => cases h
  | view kind storage slice info =>
    cases h
    have hopens := opens_view kind storage slice info
    obtain ⟨hnil, hfront⟩ | ⟨x, hcons, hfront⟩ := slice.front_cases kind storage
    · rw [hfront] at hopens
      exact .inl ⟨by rw [slice.count_eq, hnil]; rfl, hopens⟩
    · rw [hfront] at hopens
      refine .inr ⟨_, slice.rest.count, ?_, hopens, rfl, counted_ofSlice kind storage slice.rest⟩
      rw [slice.count_eq, slice.rest.count_eq, hcons, List.length_cons]
  | entries storage slice info =>
    cases h
    have hopens := opens_entries storage slice info
    obtain ⟨hnil, hfront⟩ | ⟨key, value, hcons, hfront⟩ := slice.front_cases storage
    · rw [hfront] at hopens
      exact .inl ⟨by rw [slice.count_eq, hnil]; rfl, hopens⟩
    · rw [hfront] at hopens
      refine .inr ⟨_, slice.rest.count, ?_, hopens, rfl, counted_ofEntries storage slice.rest⟩
      rw [slice.count_eq, slice.rest.count_eq, hcons, List.length_cons]
  | «lazy» cell info => cases h

theorem traverses_of_counted (h : s.counted = some k) (w : World) :
    Traverses force s w (.ok k) w := by
  induction k generalizing s with
  | zero =>
    rcases counted_cases h with ⟨-, hopens⟩ | ⟨f, j, hj, -⟩
    · exact .ended (.opens hopens)
    · cases hj
  | succ k ih =>
    rcases counted_cases h with ⟨hk, -⟩ | ⟨f, j, hj, hopens, hdone, hrest⟩
    · cases hk
    · cases hj
      exact .further (.opens hopens) hdone (ih hrest)

/-- After an entry of a map there are only more entries. -/
theorem Look.counted_of_entry {key value : Value} {rest : Seq}
    (h : Look force s w (.ok (.entry key value rest)) w') : ∃ j, rest.counted = some j := by
  generalize hr : (Except.ok (Front.entry key value rest) : Except Error Front) = r at h
  induction h with
  | @opens s f w hopens =>
    cases hr
    have hfront := hopens (fun _ => Run.exhausted) 0 w
    cases s with
    | empty info => cases hfront
    | cons cell x rest info => cases hfront
    | view kind storage slice info =>
      rw [opens_view kind storage slice info] at hfront
      obtain ⟨-, hslice⟩ | ⟨x, -, hslice⟩ := slice.front_cases kind storage
      · rw [hslice] at hfront
        cases hfront
      · rw [hslice] at hfront
        cases hfront
    | entries storage slice info =>
      rw [opens_entries storage slice info] at hfront
      obtain ⟨-, hslice⟩ | ⟨key, value, -, hslice⟩ := slice.front_cases storage
      · rw [hslice] at hfront
        cases hfront
      · rw [hslice] at hfront
        cases hfront
        exact ⟨_, counted_ofEntries storage slice.rest⟩
    | «lazy» cell info => cases hfront
  | broken hcell => cases hr
  | realized hcell _ ih => exact ih hr

/-! ## Counting -/

theorem map_add_map_succ (r : Except Error Nat) (seen : Nat) :
    (r.map (· + 1)).map (seen + ·) = r.map (seen + 1 + ·) := by
  cases r with
  | error e => rfl
  | ok k =>
    have hsum : seen + (k + 1) = seen + 1 + k := by omega
    exact congrArg Except.ok hsum

theorem countFrom_of_counted (h : s.counted = some k) (seen : Nat) (w : World) :
    ComesTo (s.countFrom force · seen) w (.ok (seen + k)) w :=
  .of_succ (N := 0) fun n _ => by rw [countFrom, h]; rfl

theorem countFrom_of_broken {n : Nat} {e : Error} (hk : s.counted = none)
    (h : s.front force n w = some (.error e, v)) :
    s.countFrom force (n + 1) seen w = some (.error e, v) := by
  rw [countFrom, hk]
  exact Run.bind_eq_error.2 (.inl (isEmpty_of_broken h))

theorem countFrom_of_done {n : Nat} (hk : s.counted = none)
    (h : s.front force n w = some (.ok .done, v)) :
    s.countFrom force (n + 1) seen w = some (.ok seen, v) := by
  rw [countFrom, hk]
  exact Run.bind_of_ok (isEmpty_of_front h)

/-- A step of counting at a front that is not the end. The look for the rest finds it again. -/
theorem countFrom_succ {n : Nat} {f : Front} (hk : s.counted = none)
    (hfront : s.front force n w = some (.ok f, v)) (hsettled : Settled force n s f v)
    (hdone : f.isDone = false) :
    s.countFrom force (n + 1) seen w = f.rest.countFrom force n (seen + 1) v := by
  rw [countFrom, hk]
  refine (Run.bind_of_ok (isEmpty_of_front hfront)).trans ?_
  rw [hdone]
  exact Run.bind_of_ok (rest_of_front (hsettled v rfl))

/-- What counting makes of a walk, if the shortcut makes no difference. -/
theorem Traverses.countFrom_of {r : Except Error Nat} (h : Traverses force s w r w')
    (huncounted : s.counted = none → ComesTo (s.countFrom force · seen) w (r.map (seen + ·)) w') :
    ComesTo (s.countFrom force · seen) w (r.map (seen + ·)) w' := by
  cases hk : s.counted with
  | none => exact huncounted hk
  | some k =>
    obtain ⟨rfl, rfl⟩ := h.unique (traverses_of_counted hk w)
    exact countFrom_of_counted hk seen w'

theorem Traverses.countFrom {r : Except Error Nat} (hforce : Steady force)
    (h : Traverses force s w r w') (seen : Nat) :
    ComesTo (s.countFrom force · seen) w (r.map (seen + ·)) w' := by
  induction h generalizing seen with
  | broken hlook =>
    apply (Traverses.broken hlook).countFrom_of
    intro hk
    obtain ⟨N, hN⟩ := hlook.comesTo
    exact .of_succ fun n hn => countFrom_of_broken hk (hN n hn)
  | ended hlook =>
    apply (Traverses.ended hlook).countFrom_of
    intro hk
    obtain ⟨N, hN⟩ := hlook.comesTo
    exact .of_succ fun n hn => countFrom_of_done hk (hN n hn)
  | @further s f w v w' r hlook hdone hrest ih =>
    apply (Traverses.further hlook hdone hrest).countFrom_of
    intro hk
    obtain ⟨N, hN⟩ := hlook.comesTo
    obtain ⟨M, hM⟩ := ih (seen + 1)
    refine .of_succ (N := max N M) fun n hn => ?_
    have hfront := hN n (by omega)
    rw [countFrom_succ hk hfront (hforce hfront) hdone, map_add_map_succ]
    exact hM n (by omega)

theorem traverses_of_countFrom {n : Nat} {t : Except Error Nat} (hforce : Steady force)
    (h : s.countFrom force n seen w = some (t, w')) :
    ∃ r, Traverses force s w r w' ∧ t = r.map (seen + ·) := by
  induction n generalizing s seen w with
  | zero => cases h
  | succ n ih =>
    cases hk : s.counted with
    | some k =>
      rw [countFrom, hk] at h
      cases h
      exact ⟨.ok k, traverses_of_counted hk _, rfl⟩
    | none =>
      rcases hfront : s.front force n w with _ | ⟨e | f, v⟩
      · simp [countFrom, hk, isEmpty_eq, bind, Run.bind, hfront] at h
      · cases (countFrom_of_broken hk hfront).symm.trans h
        exact ⟨_, .broken (look_of_front hfront), rfl⟩
      · cases hdone : f.isDone with
        | true =>
          cases Front.eq_done hdone
          cases (countFrom_of_done hk hfront).symm.trans h
          exact ⟨_, .ended (look_of_front hfront), rfl⟩
        | false =>
          rw [countFrom_succ hk hfront (hforce hfront) hdone] at h
          obtain ⟨r, hr, rfl⟩ := ih h
          exact ⟨_, .further (look_of_front hfront) hdone hr, (map_add_map_succ r seen).symm⟩

/-! ## Collecting the elements -/

/-- The elements in reverse, before those that are behind already. -/
abbrev collect (force : Force) (n : Nat) (behind : List Value) (s : Seq) : Run (List Value) :=
  s.fold force (fun xs x => return x :: xs) n behind

/-- A step of collecting at a front that is not the end. -/
theorem collect_succ {n : Nat} {behind : List Value} {f : Front} {x : Value} {u : World}
    (hfront : s.front force n w = some (.ok f, v)) (hsettled : Settled force n s f v)
    (hdone : f.isDone = false) (hfirst : f.first v = some (.ok x, u)) :
    s.collect force (n + 1) behind w = f.rest.collect force n (x :: behind) u := by
  rw [collect, fold, Run.bind_of_ok (next_of_front hfront hsettled hdone hfirst)]
  rfl

namespace Look

variable {behind : List Value}

theorem collect_broken {e : Error} (h : Look force s w (.error e) w') :
    ComesTo (s.collect force · behind) w (.error e) w' := by
  obtain ⟨N, hN⟩ := h.comesTo
  exact .of_succ fun n hn => Run.bind_eq_error.2 (.inl (next_of_broken (hN n hn)))

theorem collect_ended (h : Look force s w (.ok .done) w') :
    ComesTo (s.collect force · behind) w (.ok behind) w' := by
  obtain ⟨N, hN⟩ := h.comesTo
  exact .of_succ fun n hn => Run.bind_of_ok (next_of_done (hN n hn))

theorem collect_further {f : Front} {x : Value} {u : World} {t : Except Error (List Value)}
    (hforce : Steady force) (h : Look force s w (.ok f) v) (hdone : f.isDone = false)
    (hfirst : f.first v = some (.ok x, u))
    (hrest : ComesTo (f.rest.collect force · (x :: behind)) u t w') :
    ComesTo (s.collect force · behind) w t w' := by
  obtain ⟨N, hN⟩ := h.comesTo
  obtain ⟨M, hM⟩ := hrest
  refine .of_succ (N := max N M) fun n hn => ?_
  have hfront := hN n (by omega)
  exact (collect_succ hfront (hforce hfront) hdone hfirst).trans (hM n (by omega))

end Look

theorem collect_of_counted (hforce : Steady force) (h : s.counted = some k) (behind : List Value)
    (w : World) :
    ∃ xs v, ComesTo (s.collect force · behind) w (.ok xs) v ∧
      xs.length = behind.length + k ∧ w.Ahead v := by
  induction k generalizing s behind w with
  | zero =>
    rcases counted_cases h with ⟨-, hopens⟩ | ⟨f, j, hj, -⟩
    · exact ⟨behind, w, Look.collect_ended (.opens hopens), rfl, .refl w⟩
    · cases hj
  | succ k ih =>
    rcases counted_cases h with ⟨hk, -⟩ | ⟨f, j, hj, hopens, hdone, hrest⟩
    · cases hk
    · cases hj
      obtain ⟨x, u, hfirst, hu⟩ := f.first_ahead w
      obtain ⟨xs, v, hrun, hlength, hv⟩ := ih hrest (x :: behind) u
      rw [List.length_cons] at hlength
      have hcollect := Look.collect_further hforce (.opens hopens) hdone hfirst hrun
      exact ⟨xs, v, hcollect, by omega, hu.trans hv⟩

/-- The world in which a walk goes on after an element was taken is the one before, unless there are
only entries left. -/
theorem Look.first_cases {f : Front} {x : Value} {u : World} (h : Look force s w (.ok f) v)
    (hfirst : f.first v = some (.ok x, u)) : u = v ∨ v.Ahead u ∧ ∃ j, f.rest.counted = some j := by
  cases f with
  | done =>
    cases hfirst
    exact .inl rfl
  | item y rest =>
    cases hfirst
    exact .inl rfl
  | entry key value rest =>
    cases hfirst
    exact .inr ⟨⟨1, rfl⟩, h.counted_of_entry⟩

/-- The list is longer by the number of elements. -/
def Longer (behind : List Value) (xs : List Value) (k : Nat) : Prop :=
  xs.length = behind.length + k

theorem Longer.succ {behind : List Value} {x : Value} {t : Except Error (List Value)}
    {r : Except Error Nat} (h : Alike (Longer (x :: behind)) t r) :
    Alike (Longer behind) t (r.map (· + 1)) := by
  cases t <;> cases r
  case ok.ok xs k =>
    have hlength : xs.length = behind.length + 1 + k := h
    show xs.length = behind.length + (k + 1)
    omega
  all_goals exact h

theorem Traverses.collect {r : Except Error Nat} (hforce : Steady force)
    (h : Traverses force s w r w') (behind : List Value) :
    ∃ t u, ComesTo (s.collect force · behind) w t u ∧ Alike (Longer behind) t r ∧ w'.Ahead u := by
  induction h generalizing behind with
  | broken hlook => exact ⟨_, _, hlook.collect_broken, rfl, .refl _⟩
  | ended hlook => exact ⟨_, _, hlook.collect_ended, rfl, .refl _⟩
  | @further s f w v w' r hlook hdone hrest ih =>
    obtain ⟨x, u, hfirst, -⟩ := f.first_ahead v
    rcases hlook.first_cases hfirst with rfl | ⟨hu, j, hj⟩
    · obtain ⟨t, u', hrun, ht, hu'⟩ := ih (x :: behind)
      exact ⟨t, u', hlook.collect_further hforce hdone hfirst hrun, Longer.succ ht, hu'⟩
    · obtain ⟨rfl, rfl⟩ := hrest.unique (traverses_of_counted hj v)
      obtain ⟨xs, u', hrun, hlength, hu'⟩ := collect_of_counted hforce hj (x :: behind) u
      have hcollect := hlook.collect_further hforce hdone hfirst hrun
      exact ⟨.ok xs, u', hcollect, Longer.succ hlength, hu.trans hu'⟩

theorem traverses_of_collect {n : Nat} {behind : List Value} {t : Except Error (List Value)}
    {u : World} (hforce : Steady force) (h : s.collect force n behind w = some (t, u)) :
    ∃ r w', Traverses force s w r w' := by
  induction n generalizing s behind w with
  | zero => cases h
  | succ n ih =>
    rcases hfront : s.front force n w with _ | ⟨e | f, v⟩
    · simp [Seq.collect, fold, next, isEmpty_eq, bind, Run.bind, hfront] at h
    · exact ⟨_, _, .broken (look_of_front hfront)⟩
    · have hlook := look_of_front hfront
      cases hdone : f.isDone with
      | true =>
        cases Front.eq_done hdone
        exact ⟨_, _, .ended hlook⟩
      | false =>
        obtain ⟨x, v', hfirst, -⟩ := f.first_ahead v
        rw [collect_succ hfront (hforce hfront) hdone hfirst] at h
        obtain ⟨r, w', hrest⟩ := ih h
        rcases hlook.first_cases hfirst with rfl | ⟨-, j, hj⟩
        · exact ⟨_, _, .further hlook hdone hrest⟩
        · exact ⟨_, _, .further hlook hdone (traverses_of_counted hj v)⟩

/-! ## Counting agrees with collecting -/

theorem count_comesTo_iff {r : Except Error Nat} (hforce : Steady force) :
    ComesTo (s.count force ·) w r w' ↔ Traverses force s w r w' := by
  have hzero (r : Except Error Nat) : r.map (0 + ·) = r := by cases r <;> simp [Except.map]
  constructor
  · rintro ⟨N, hN⟩
    obtain ⟨t, htraverses, ht⟩ := traverses_of_countFrom hforce (hN N (Nat.le_refl N))
    rwa [ht, hzero]
  · intro h
    have hcount := h.countFrom hforce 0
    rwa [hzero] at hcount

/-- A list for a number of elements, or the same error. -/
abbrev SameCount (t : Except Error (List Value)) (r : Except Error Nat) : Prop :=
  Alike (fun xs k => xs.length = k) t r

theorem Traverses.toList {r : Except Error Nat} (hforce : Steady force)
    (h : Traverses force s w r w') :
    ∃ t u, ComesTo (s.toList force ·) w t u ∧ SameCount t r ∧ w'.Ahead u := by
  obtain ⟨t, u, ⟨N, hN⟩, ht, hu⟩ := h.collect hforce []
  cases t <;> cases r
  case error.error e _ =>
    exact ⟨.error e, u, ⟨N, fun n hn => Run.bind_eq_error.2 (.inl (hN n hn))⟩, ht, hu⟩
  case ok.ok xs k =>
    have hlength : xs.reverse.length = k := by
      rw [List.length_reverse]
      exact Eq.trans ht (Nat.zero_add k)
    exact ⟨.ok xs.reverse, u, ⟨N, fun n hn => Run.bind_of_ok (hN n hn)⟩, hlength, hu⟩
  all_goals cases ht

theorem traverses_of_toList {t : Except Error (List Value)} {u : World} (hforce : Steady force)
    (h : ComesTo (s.toList force ·) w t u) :
    ∃ r w', Traverses force s w r w' ∧ SameCount t r ∧ w'.Ahead u := by
  obtain ⟨N, hN⟩ := h
  have hlist : s.toList force N w = some (t, u) := hN N (Nat.le_refl N)
  obtain ⟨t₀, u₀, hcollect⟩ : ∃ t₀ u₀, s.collect force N [] w = some (t₀, u₀) := by
    cases hc : s.collect force N [] w with
    | none => simp [toList, bind, Run.bind, hc] at hlist
    | some p => exact ⟨p.1, p.2, rfl⟩
  obtain ⟨r, w', htraverses⟩ := traverses_of_collect hforce hcollect
  obtain ⟨t', u', hcomes, ht', hu'⟩ := htraverses.toList hforce
  obtain ⟨rfl, rfl⟩ := hcomes.same ⟨N, hN⟩
  exact ⟨r, w', htraverses, ht', hu'⟩

/-- From the same world, counting gives a number iff collecting gives a list of that length, the two
fail with the same errors, and they leave the same cells realized after the same calls: the worlds
they end in differ in nothing but how much storage was taken. -/
theorem count_agrees_with_walk (m : Nat) (s : Seq) (w : World) :
    (∀ k, (∃ v, ComesTo (s.count (Machine.force m) ·) w (.ok k) v) ↔
      ∃ xs v, ComesTo (s.toList (Machine.force m) ·) w (.ok xs) v ∧ xs.length = k) ∧
    (∀ e, (∃ v, ComesTo (s.count (Machine.force m) ·) w (.error e) v) ↔
      ∃ v, ComesTo (s.toList (Machine.force m) ·) w (.error e) v) ∧
    ∀ r t v v', ComesTo (s.count (Machine.force m) ·) w r v →
      ComesTo (s.toList (Machine.force m) ·) w t v' → v.Ahead v' := by
  have hforce : Steady (Machine.force m) := Machine.force_steady m
  simp only [count_comesTo_iff hforce]
  refine ⟨fun k => ⟨?_, ?_⟩, fun e => ⟨?_, ?_⟩, ?_⟩
  · rintro ⟨v, h⟩
    obtain ⟨_ | xs, u, hlist, hsame, -⟩ := h.toList hforce
    · cases hsame
    · exact ⟨xs, u, hlist, hsame⟩
  · rintro ⟨xs, v, hlist, rfl⟩
    obtain ⟨_ | j, u, h, hsame, -⟩ := traverses_of_toList hforce hlist
    · cases hsame
    · cases hsame
      exact ⟨u, h⟩
  · rintro ⟨v, h⟩
    obtain ⟨_ | xs, u, hlist, hsame, -⟩ := h.toList hforce
    · cases hsame
      exact ⟨u, hlist⟩
    · cases hsame
  · rintro ⟨v, hlist⟩
    obtain ⟨_ | j, u, h, hsame, -⟩ := traverses_of_toList hforce hlist
    · cases hsame
      exact ⟨u, h⟩
    · cases hsame
  · intro r t v v' h hlist
    obtain ⟨r', u, h', -, hahead⟩ := traverses_of_toList hforce hlist
    rwa [(h.unique h').2]

/-- An element before a cell whose producer fails at first and then gives a map. Counting does not
walk along its entries. -/
theorem count_agrees_with_walk_flaky :
    let d : Dict := ⟨0, [(.int 1, .int 2), (.int 3, .int 4)], .plain⟩
    let early : Error := .malformedInput "early"
    let producer := Stream.scripted 0 1 (.lazy 0 .plain) [.fail early, .value (.map d)]
    let s : Seq := .cons 0 (.int 0) (.lazy 0 .plain) .plain
    let w : World := { lazies := ⟨#[.pending (.proc ⟨"p", 0⟩) []]⟩, natives := ⟨#[producer]⟩,
                       counters := ⟨#[0, 0]⟩ }
    ∃ v v' u u' xs,
      ComesTo (s.count (Machine.force 9) ·) w (.error early) v ∧
      ComesTo (s.toList (Machine.force 9) ·) w (.error early) v' ∧ v.Ahead v' ∧
      ComesTo (s.count (Machine.force 9) ·) v (.ok 3) u ∧
      ComesTo (s.toList (Machine.force 9) ·) v (.ok xs) u' ∧ xs.length = 3 ∧ u.Ahead u' := by
  intro d early producer s w
  let v : World := { w with counters := ⟨#[1, 1]⟩, productions := [0] }
  let u : World := { w with lazies := ⟨#[.realized d.seq]⟩, counters := ⟨#[2, 2]⟩,
                            productions := [0, 0] }
  have hv : s.count (Machine.force 9) 9 w = some (.error early, v) := rfl
  have hu : s.count (Machine.force 9) 9 v = some (.ok 3, u) := by
    subst d
    rfl
  have hforce : Steady (Machine.force 9) := Machine.force_steady 9
  obtain ⟨r, hearly, hr⟩ := traverses_of_countFrom hforce hv
  obtain ⟨r', hlater, hr'⟩ := traverses_of_countFrom hforce hu
  have hfail := hearly.countFrom hforce 0
  have hcount := hlater.countFrom hforce 0
  rw [← hr] at hfail
  rw [← hr'] at hcount
  obtain ⟨-, herrors, hworlds⟩ := count_agrees_with_walk 9 s w
  obtain ⟨v', hfail'⟩ := (herrors early).1 ⟨v, hfail⟩
  obtain ⟨hcounts, -, hworlds'⟩ := count_agrees_with_walk 9 s v
  obtain ⟨xs, u', hlist, hlength⟩ := (hcounts 3).1 ⟨u, hcount⟩
  exact ⟨v, v', u, u', xs, hfail, hfail', hworlds _ _ _ _ hfail hfail', hcount, hlist, hlength,
    hworlds' _ _ _ _ hcount hlist⟩

end Seq

end LispKernel
