import LispKernel.Proofs.Refinement.Machine
import LispKernel.Proofs.Render.Text
import LispKernel.Proofs.Seq.Index

/-!
# Rendering under a print length

A collection is written as the texts of its first elements between brackets, with an ellipsis in
place of those that the print length cuts off. A print length that no collection in the value
exceeds makes no difference. Of a sequence nothing is written but the elements that are shown and
whether something is behind them, be it only a cell that fails.
-/
namespace LispKernel

open Run (ComesTo Refines ReturnsIn SettlesIn)

/-! ## Texts of collections -/

namespace Listing

/-- The texts of the elements that the limit allows. -/
def shown : Option Nat → List String → List String
  | none, texts => texts
  | some n, texts => texts.take n

/-- What stands for the elements that the limit cuts off. -/
def ellipsis : Option Nat → Nat → String
  | none, _ => ""
  | some n, size => if n < size then (if 0 < n then " ..." else "...") else ""

end Listing

/-- The text of a collection, given those of its elements. -/
def listing (opening separator closing : String) (limit : Option Nat) (texts : List String) :
    String :=
  opening ++ (separator.intercalate (Listing.shown limit texts) ++
    Listing.ellipsis limit texts.length) ++ closing

theorem Excerpt.join_first (separator : String) (limit : Option Nat) (texts : List String) :
    (first limit texts).join separator =
      separator.intercalate (Listing.shown limit texts) ++ Listing.ellipsis limit texts.length := by
  cases limit with
  | none => rfl
  | some n =>
    by_cases hn : n < texts.length
    · have htexts : texts ≠ [] := by
        rintro rfl
        exact absurd hn (Nat.not_lt_zero n)
      cases n <;> simp [first, join, Listing.shown, Listing.ellipsis, hn, htexts]
    · simp [first, join, Listing.shown, Listing.ellipsis, hn]

namespace Value

variable (escape : Bool) (limit : Option Nat)

/-- The layout of a value, given the texts of the values in it. -/
def layout (text : Value → String) : Value → String
  | atom a => a.render escape
  | vector v => listing "[" " " "]" limit (v.items.map text)
  | map m => listing "\x7b" ", " "\x7d" limit (m.entries.map fun e => text e.1 ++ " " ++ text e.2)
  | set s => listing "#\x7b" " " "\x7d" limit (s.items.map text)
  | seq s => listing "(" " " ")" limit (s.items.map text)

theorem textBy_eq_layout (text : Value → String) (v : Value) :
    v.textBy escape limit text = v.layout escape limit text := by
  cases v <;> simp only [textBy, layout, listing, Excerpt.join_first]

theorem text_eq_layout (v : Value) :
    v.text escape limit = v.layout escape limit (text escape limit) := by
  rw [text_eq, textBy_eq_layout]

theorem render_settles_text (force : Force) {v : Value} (hv : v.LazyFree) :
    SettlesIn (·.printLength = limit) (v.render force escape ·) (· = v.text escape limit) :=
  .of_returnsIn (N := v.weight) (render_mono escape force v) fun _ hn =>
    render_returns escape limit force (fun _ hw => hw) (fun _ hw => hw) hv hn

/-! ## Limits that cut nothing off -/

end Value

namespace Content

def size : Content → Nat
  | atom _ => 0
  | items xs => xs.length
  | entries l => l.length
  | elems xs => xs.length

/-- Elements, keys and values. -/
def values : Content → List Value
  | atom _ => []
  | items xs => xs
  | entries l => l.flatMap fun e => [e.1, e.2]
  | elems xs => xs

theorem forall_values {P : Value → Prop} {c : Content} (h : ∀ x ∈ c.values, P x) : c.Forall P := by
  cases c with
  | atom a => trivial
  | items xs => exact h
  | entries l =>
    intro e he
    have hmem {x : Value} (hx : x ∈ [e.1, e.2]) : P x := h x (List.mem_flatMap.2 ⟨e, he, hx⟩)
    exact ⟨hmem (by simp), hmem (by simp)⟩
  | elems xs => exact h

end Content

namespace Value

/-- No collection in the value has more than so many elements, entries that are seen as pairs
included. -/
inductive Bounded (n : Nat) : Value → Prop where
  | intro {v : Value} : v.content.size ≤ n → (∀ x ∈ v.content.values, Bounded n x) → Bounded n v

theorem layout_of_size {n : Nat} {v : Value} (h : v.content.size ≤ n) (escape : Bool)
    (text : Value → String) : v.layout escape (some n) text = v.layout escape none text := by
  have hlisting (opening separator closing : String) (texts : List String) (h : texts.length ≤ n) :
      listing opening separator closing (some n) texts =
        listing opening separator closing none texts := by
    simp [listing, Listing.shown, Listing.ellipsis, List.take_of_length_le h, Nat.not_lt.2 h]
  cases v with
  | atom a => rfl
  | vector v => exact hlisting _ _ _ _ (by rwa [List.length_map])
  | map m => exact hlisting _ _ _ _ (by rwa [List.length_map])
  | set s => exact hlisting _ _ _ _ (by rwa [List.length_map])
  | seq s => exact hlisting _ _ _ _ (by rwa [List.length_map])

theorem Bounded.text_eq {n : Nat} {v : Value} (h : v.Bounded n) (escape : Bool) :
    v.text escape (some n) = v.text escape none := by
  induction h with
  | @intro v hsize _ ih =>
    have hparts := Content.forall_values ih
    calc v.text escape (some n)
      _ = v.textBy escape (some n) (text escape (some n)) := Value.text_eq ..
      _ = v.textBy escape (some n) (text escape none) := textBy_congr escape (some n) hparts
      _ = v.layout escape (some n) (text escape none) := textBy_eq_layout ..
      _ = v.layout escape none (text escape none) := layout_of_size hsize ..
      _ = v.text escape none := (text_eq_layout ..).symm

end Value

/-! ## Sequences of which only the beginning is known -/

/-- The machine never changes the print length. -/
theorem printLength_steps : Steps fun w v => v.printLength = w.printLength where
  refl _ := rfl
  trans h h' := h'.trans h
  storage _ := rfl
  frame _ _ := rfl
  vars _ _ := rfl
  namespaces _ _ := rfl
  registries _ _ := rfl
  counters _ _ := rfl
  log _ _ := rfl
  suspend _ _ _ := rfl
  start _ := rfl
  fill _ _ h _ := h
  nested h := h

namespace Seq

variable {s : Seq} {w v w' : World}

/-- What a look at the sequence comes to. -/
def Looks (s : Seq) (w : World) (r : Except Error Front) (w' : World) : Prop :=
  ComesTo (fun n => s.front (Machine.force n) n) w r w'

theorem front_refines {R : World → World → Prop} (hR : Steps R) (s : Seq) {m m' n n' : Nat}
    (hm : m ≤ m') (hn : n ≤ n') :
    Refines R (s.front (Machine.force m) n) (s.front (Machine.force m') n') :=
  front_congr (Run.Refines.congruence hR.change) (Machine.refines hR hm).2.2 hn s

theorem Looks.printLength_eq {r : Except Error Front} (h : s.Looks w r v) :
    v.printLength = w.printLength := by
  obtain ⟨N, hN⟩ := h
  have hrefines := s.front_refines printLength_steps (Nat.le_refl N) (Nat.le_refl N)
  exact (hrefines w r v (hN N (Nat.le_refl N))).2

/-- The fuel of the look and that of the calls need not be the same. -/
theorem Looks.front {r : Except Error Front} (h : s.Looks w r v) :
    ∃ N, ∀ m ≥ N, ∀ n ≥ N, s.front (Machine.force m) n w = some (r, v) := by
  obtain ⟨N, hN⟩ := h
  exact ⟨N, fun m hm n hn => (s.front_refines Steps.any hm hn w r v (hN N (Nat.le_refl N))).1⟩

theorem Opens.looks {f : Front} (h : s.Opens f) (w : World) : s.Looks w (.ok f) w :=
  .of_succ (N := 0) fun n _ => h _ n w

/-- What there is behind the last element shown: the end, or something that is not shown, be it
only a cell that fails. -/
inductive Behind (s : Seq) (w : World) : Bool → World → Prop where
  | ended {v : World} : s.Looks w (.ok .done) v → Behind s w false v
  | further {f : Front} {x : Value} {v v' : World} : s.Looks w (.ok f) v → f.isDone = false →
      f.first v = some (.ok x, v') → Behind s w true v'
  | broken {e : Error} {v : World} : s.Looks w (.error e) v → Behind s w true v

/-- The sequence shows these elements and then that there are more or not, however much storage is
taken between the looks. Of the world after the last look `Q` holds. -/
def Unrolls (Q : World → Prop) (more : Bool) : List Value → Seq → World → Prop
  | [], s, w => ∀ u, w.Ahead u → ∃ v, Behind s u more v ∧ Q v
  | x :: xs, s, w => ∀ u, w.Ahead u → ∃ f v y v', s.Looks u (.ok f) v ∧ f.isDone = false ∧
      f.first v = some (.ok y, v') ∧ Value.Copy y x ∧ Unrolls Q more xs f.rest v'

end Seq

namespace Excerpt

variable {force : Force} {write : Value → Run String} {n : Nat} {limit : Option Nat} {s : Seq}
  {w v u w' : World}

theorem ofSeq_ended (hfront : s.front force n w = some (.ok .done, v)) :
    ofSeq force write (n + 1) limit s w = some (.ok ⟨[], false⟩, v) :=
  Run.bind_of_ok (Run.attempt_eq (Seq.next_of_done hfront))

theorem ofSeq_cut {r : Except Error (Option (Value × Seq))} (hnext : s.next force n w = some (r, v))
    (hr : r ≠ .ok none) :
    ofSeq force write (n + 1) (some 0) s w = some (.ok ⟨[], true⟩, v) := by
  rw [ofSeq, Run.bind_of_ok (Run.attempt_eq hnext)]
  rcases r with e | _ | next
  · rfl
  · exact absurd rfl hr
  · rfl

theorem ofSeq_shown {x : Value} {rest : Seq} {piece : String} {e : Excerpt}
    (hnext : s.next force n w = some (.ok (some (x, rest)), v)) (hlimit : limit ≠ some 0)
    (hwrite : write x v = some (.ok piece, u))
    (hrest : ofSeq force write n (limit.map (· - 1)) rest u = some (.ok e, w')) :
    ofSeq force write (n + 1) limit s w = some (.ok (e.cons piece), w') := by
  rw [ofSeq, Run.bind_of_ok (Run.attempt_eq hnext)]
  rcases limit with _ | _ | k
  · exact (Run.bind_of_ok hwrite).trans (Run.bind_of_ok hrest)
  · exact absurd rfl hlimit
  · exact (Run.bind_of_ok hwrite).trans (Run.bind_of_ok hrest)

end Excerpt

/-! ## The text of a beginning -/

theorem Value.Copy.lazyFree {x y : Value} (h : Copy y x) (hx : x.LazyFree) : y.LazyFree := by
  cases h with
  | refl => exact hx
  | vector s t items info => exact everywhere_iff.2 ⟨rfl, (everywhere_iff.1 hx).2⟩

/-- A value without lazy cells is rendered at the cost of storage at most. -/
theorem Value.render_reaches (escape : Bool) {x : Value} (hx : x.LazyFree) (w : World) :
    ∃ N v, w.Ahead v ∧ ∀ m ≥ N, ∀ n ≥ N, x.render (Machine.force m) escape n w =
      some (.ok (x.text escape w.printLength), v) := by
  have hreturns := render_returns escape w.printLength (Machine.force 0) (World.Ahead.elastic w)
    (fun _ h => h.printLength_eq) hx (Nat.le_refl x.weight)
  obtain ⟨_, v, hrun, hv, rfl⟩ := hreturns w (.refl w)
  refine ⟨x.weight, v, hv, fun m _ n hn => ?_⟩
  have hrefines := render_congr Refines.any (Machine.refines Steps.any (Nat.zero_le m)).2.2 hn
    escape x
  exact (hrefines w _ v hrun).1

namespace Seq

variable {Q : World → Prop} {more : Bool} {xs : List Value} {s : Seq} {w u : World}

theorem Unrolls.delay (h : w.Ahead u) (hs : s.Unrolls Q more xs w) : s.Unrolls Q more xs u := by
  cases xs with
  | nil => exact fun v hv => hs v (h.trans hv)
  | cons x xs => exact fun v hv => hs v (h.trans hv)

theorem Unrolls.mono {Q' : World → Prop} (hQ : ∀ v, Q v → Q' v) (h : s.Unrolls Q more xs w) :
    s.Unrolls Q' more xs w := by
  induction xs generalizing s w with
  | nil =>
    intro u hu
    obtain ⟨v, hbehind, hv⟩ := h u hu
    exact ⟨v, hbehind, hQ v hv⟩
  | cons x xs ih =>
    intro u hu
    obtain ⟨f, v, y, v', hlook, hdone, hfirst, hcopy, hrest⟩ := h u hu
    exact ⟨f, v, y, v', hlook, hdone, hfirst, hcopy, ih hrest⟩

theorem Behind.ofSeq {v : World} (h : s.Behind w more v) {limit : Option Nat}
    (hmore : more = true → limit = some 0) : ∃ N, ∀ m ≥ N, ∀ n ≥ N, ∀ write,
      Excerpt.ofSeq (Machine.force m) write (n + 1) limit s w = some (.ok ⟨[], more⟩, v) := by
  cases h with
  | ended hlook =>
    obtain ⟨N, hN⟩ := hlook.front
    exact ⟨N, fun m hm n hn write => Excerpt.ofSeq_ended (hN m hm n hn)⟩
  | further hlook hdone hfirst =>
    obtain ⟨N, hN⟩ := hlook.front
    refine ⟨N, fun m hm n hn write => ?_⟩
    have hnext := Machine.next_of_front (hN m hm n hn) hdone hfirst
    rw [hmore rfl, Excerpt.ofSeq_cut hnext (by simp)]
  | broken hlook =>
    obtain ⟨N, hN⟩ := hlook.front
    refine ⟨N, fun m hm n hn write => ?_⟩
    rw [hmore rfl, Excerpt.ofSeq_cut (next_of_broken (hN m hm n hn)) (by simp)]

/-- The excerpt from a sequence that unrolls as far as the limit allows. -/
theorem Unrolls.ofSeq (escape : Bool) (h : s.Unrolls Q more xs w) (hxs : ∀ x ∈ xs, x.LazyFree)
    {limit : Option Nat} (hroom : ∀ k ∈ limit, xs.length ≤ k)
    (hmore : more = true → limit = some xs.length) :
    ∃ N w', Q w' ∧ ∀ m ≥ N, ∀ l ≥ N, ∀ n ≥ N,
      Excerpt.ofSeq (Machine.force m) (Value.render (Machine.force m) escape l) (n + 1) limit s w =
        some (.ok ⟨xs.map (Value.text escape w.printLength), more⟩, w') := by
  induction xs generalizing s w limit with
  | nil =>
    obtain ⟨w', hbehind, hQ⟩ := h w (.refl w)
    obtain ⟨N, hN⟩ := hbehind.ofSeq hmore
    exact ⟨N, w', hQ, fun m hm l _ n hn => hN m hm n hn _⟩
  | cons x xs ih =>
    obtain ⟨f, v, y, v', hlook, hdone, hfirst, hcopy, hrest⟩ := h w (.refl w)
    obtain ⟨M, u, hu, hwrite⟩ := Value.render_reaches escape (hcopy.lazyFree (hxs x (by simp))) v'
    have hlimit : limit ≠ some 0 := by
      rintro rfl
      exact absurd (hroom 0 rfl) (by simp)
    have hroom' : ∀ k ∈ limit.map (· - 1), xs.length ≤ k := by
      intro k hk
      obtain ⟨j, hj, rfl⟩ := Option.map_eq_some_iff.1 hk
      have hle := hroom j hj
      rw [List.length_cons] at hle
      omega
    have hmore' : more = true → limit.map (· - 1) = some xs.length := by
      intro h
      rw [hmore h]
      rfl
    obtain ⟨K, w', hQ, hK⟩ :=
      ih (hrest.delay hu) (fun y hy => hxs y (by simp [hy])) hroom' hmore'
    obtain ⟨N, hN⟩ := hlook.front
    refine ⟨max N (max M (K + 1)), w', hQ, fun m hm l hl n hn => ?_⟩
    obtain ⟨n, rfl⟩ : ∃ i, n = i + 1 := ⟨n - 1, by omega⟩
    have hnext := Machine.next_of_front (hN m (by omega) (n + 1) (by omega)) hdone hfirst
    rw [Excerpt.ofSeq_shown hnext hlimit (hwrite m (by omega) l (by omega))
      (hK m (by omega) l (by omega) n (by omega))]
    -- nothing on the way has changed the print length
    have hv' : v'.printLength = w.printLength := by
      obtain ⟨z, v'', hfirst', hv''⟩ := f.first_ahead v
      cases hfirst.symm.trans hfirst'
      exact hv''.printLength_eq.trans hlook.printLength_eq
    rw [hu.printLength_eq, hv', hcopy.text_eq]
    rfl

theorem Unrolls.render (escape : Bool) (h : s.Unrolls Q more xs w) (hxs : ∀ x ∈ xs, x.LazyFree)
    (hroom : ∀ k ∈ w.printLength, xs.length ≤ k)
    (hmore : more = true → w.printLength = some xs.length) :
    ∃ w', Q w' ∧ ComesTo (fun n => (Value.seq s).render (Machine.force n) escape n) w
      (.ok ("(" ++ (Excerpt.mk (xs.map (Value.text escape w.printLength)) more).join " " ++ ")"))
      w' := by
  obtain ⟨N, w', hQ, hN⟩ := h.ofSeq escape hxs hroom hmore
  refine ⟨w', hQ, .of_succ (N := N + 1) fun n hn => ?_⟩
  obtain ⟨n, rfl⟩ : ∃ i, n = i + 1 := ⟨n - 1, by omega⟩
  have hexcerpt := hN (n + 1 + 1) (by omega) (n + 1) (by omega) n (by omega)
  rw [Value.render]
  exact (Run.bind_of_ok rfl).trans (Run.bind_of_ok hexcerpt)

/-- The sequence starts with these elements, and behind them is another one or a cell that fails. -/
def Begins (s : Seq) (xs : List Value) (w : World) : Prop := s.Unrolls (fun _ => True) true xs w

theorem Begins.render (escape : Bool) (h : s.Begins xs w) (hxs : ∀ x ∈ xs, x.LazyFree)
    (hw : w.printLength = some xs.length) :
    ∃ w', ComesTo (fun n => (Value.seq s).render (Machine.force n) escape n) w
      (.ok ("(" ++ (Excerpt.mk (xs.map (Value.text escape (some xs.length))) true).join " " ++ ")"))
      w' := by
  have hroom : ∀ k ∈ w.printLength, xs.length ≤ k := by
    intro k hk
    rw [hw] at hk
    cases hk
    exact Nat.le_refl _
  obtain ⟨w', -, hrender⟩ := Unrolls.render escape h hxs hroom fun _ => hw
  rw [hw] at hrender
  exact ⟨w', hrender⟩

end Seq

/-- Under every print length a value without lazy cells is rendered as its text, which has the same
layout at every depth. It is the whole text if no collection in the value is longer than the print
length. Two sequences that start with the same elements, as many as are shown, and have another one
or a failing cell after them are rendered as the same text. -/
theorem render_under_print_length (escape : Bool) (limit : Option Nat) :
    (∀ (force : Force) (v : Value), v.LazyFree → SettlesIn (·.printLength = limit)
      (v.render force escape ·) (· = v.text escape limit)) ∧
    (∀ v : Value, v.text escape limit = v.layout escape limit (Value.text escape limit)) ∧
    (∀ (n : Nat) (v : Value), v.Bounded n → v.text escape (some n) = v.text escape none) ∧
    ∀ (xs : List Value) (s t : Seq) (w w' : World), (∀ x ∈ xs, x.LazyFree) →
      w.printLength = some xs.length → w'.printLength = some xs.length →
      s.Begins xs w → t.Begins xs w' →
      ∃ shown, (∃ v, ComesTo (fun n => (Value.seq s).render (Machine.force n) escape n) w
          (.ok shown) v) ∧
        ∃ v, ComesTo (fun n => (Value.seq t).render (Machine.force n) escape n) w'
          (.ok shown) v := by
  refine ⟨?_, ?_, ?_, ?_⟩
  · intro force v hv
    exact Value.render_settles_text escape limit force hv
  · intro v
    exact v.text_eq_layout escape limit
  · intro n v hv
    exact hv.text_eq escape
  · intro xs s t w w' hxs hw hw' hs ht
    exact ⟨_, hs.render escape hxs hw, ht.render escape hxs hw'⟩

/-- One element is shown of a sequence that fails behind it and of a vector of two. -/
theorem render_under_print_length_failing :
    let s : Seq := .cons 0 (.int 1) (.lazy 0 .plain) .plain
    let t : Seq := .view .array 1 ⟨#[.int 1, .int 2], 0⟩ .plain
    let w : World := { lazies := ⟨#[.pending (.proc ⟨"p", 0⟩) []]⟩,
                       natives := ⟨#[fun _ => .fail (.malformedInput "late")]⟩,
                       printLength := some 1 }
    (Value.seq t).LazyFree ∧ (Value.seq t).Bounded 2 ∧ s.Begins [.int 1] w ∧ t.Begins [.int 1] w ∧
    SettlesIn (·.printLength = some 1) ((Value.seq t).render (Machine.force 0) true ·)
      (· = (Value.seq t).text true (some 1)) ∧
    (Value.seq t).text true (some 2) = (Value.seq t).text true none ∧
    ∃ shown, (∃ v, ComesTo (fun n => (Value.seq s).render (Machine.force n) true n) w
        (.ok shown) v) ∧
      ∃ v, ComesTo (fun n => (Value.seq t).render (Machine.force n) true n) w (.ok shown) v := by
  intro s t w
  have hatom (a : Atom) : (Value.atom a).LazyFree :=
    Value.everywhere_iff.2 ⟨rfl, by simp [Value.parts]⟩
  have hbounded (a : Atom) : (Value.atom a).Bounded 2 :=
    .intro (Nat.zero_le 2) (by simp [Value.content, Content.values])
  have hmem {x : Value} (hx : x ∈ [Value.int 1, .int 2]) : ∃ a, x = .atom a := by
    rcases List.mem_cons.1 hx with rfl | hx
    · exact ⟨.int 1, rfl⟩
    · exact ⟨.int 2, List.mem_singleton.1 hx⟩
  have hlazyFree : (Value.seq t).LazyFree := by
    refine Value.everywhere_iff.2 ⟨rfl, fun x hx => ?_⟩
    obtain ⟨a, rfl⟩ := hmem hx
    exact hatom a
  have hsize : (Value.seq t).Bounded 2 := by
    refine .intro (Nat.le_refl 2) fun x hx => ?_
    obtain ⟨a, rfl⟩ := hmem hx
    exact hbounded a
  have hs : s.Begins [.int 1] w := by
    have hopens : s.Opens (.item (.int 1) (.lazy 0 .plain)) := fun _ _ _ => rfl
    intro u hu
    refine ⟨_, _, _, _, hopens.looks u, rfl, rfl, .refl _, ?_⟩
    intro v hv
    obtain ⟨k, rfl⟩ := hu.trans hv
    have hlook : (Seq.lazy 0 .plain).Looks { w with storages := w.storages + k }
        (.error (.malformedInput "late"))
        { w with storages := w.storages + k, productions := [0] } := by
      refine ⟨3, fun n hn => ?_⟩
      obtain ⟨n, rfl⟩ : ∃ i, n = i + 3 := ⟨n - 3, by omega⟩
      rfl
    exact ⟨_, .broken hlook, trivial⟩
  have ht : t.Begins [.int 1] w := by
    let rest (index : Nat) : Seq := .ofSlice .array 1 ⟨#[.int 1, .int 2], index⟩
    have hopens : t.Opens (.item (.int 1) (rest 1)) := fun _ _ _ => rfl
    have hopens' : (rest 1).Opens (.item (.int 2) (rest 2)) := fun _ _ _ => rfl
    intro u hu
    refine ⟨_, _, _, _, hopens.looks u, rfl, rfl, .refl _, ?_⟩
    intro v hv
    exact ⟨_, .further (hopens'.looks v) rfl rfl, trivial⟩
  have hone : ∀ x ∈ [Value.int 1], x.LazyFree := by
    intro x hx
    rw [List.mem_singleton.1 hx]
    exact hatom (.int 1)
  obtain ⟨htext, -, hwhole, hsame⟩ := render_under_print_length true (some 1)
  exact ⟨hlazyFree, hsize, hs, ht, htext _ _ hlazyFree, hwhole 2 _ hsize,
    hsame _ s t w w hone rfl rfl hs ht⟩

end LispKernel
