import LispKernel.Proofs.Refinement.Run
import LispKernel.Proofs.Seq.Front
import LispKernel.Equality
import LispKernel.Hash
import LispKernel.Render

/-!
# Refinement of walks, comparisons and folds

A congruence relates each operation on values to itself with more fuel and with a related way to
realize lazy cells, and an operation that compares to itself with a related comparison. In
particular each operation refines itself.
-/
namespace LispKernel

variable {Q : (α : Type) → Run α → Run α → Prop} (hQ : Congruence Q)

/-! ## Storage -/

include hQ

theorem Vec.ofList_congr (items : List Value) : Q _ (ofList items) (ofList items) :=
  hQ.bind hQ.freshStorage fun _ => hQ.pure _

theorem Front.first_congr (front : Front) : Q _ front.first front.first := by
  cases front with
  | done => exact hQ.pure _
  | item x rest => exact hQ.pure _
  | entry key value rest => exact hQ.bind (Vec.ofList_congr hQ _) fun _ => hQ.pure _

theorem Value.seq?_congr (v : Value) : Q _ v.seq? v.seq? := by
  unfold Value.seq?
  split
  all_goals first
    | exact hQ.pure _
    | exact hQ.bind (hQ.bind hQ.freshStorage fun _ => hQ.pure _) fun _ => hQ.pure _

/-! ## Sequences -/

section Sequences

variable {force force' : Force} (hforce : ∀ cell, Q _ (force cell) (force' cell))
  {n n' : Nat} (hn : n ≤ n')

include hforce hn

namespace Seq

theorem front_congr (s : Seq) : Q _ (s.front force n) (s.front force' n') := by
  induction n generalizing n' s with
  | zero => exact hQ.exhausted _
  | succ n ih =>
    obtain ⟨m, rfl⟩ : ∃ m, n' = m + 1 := ⟨n' - 1, by omega⟩
    cases s with
    | empty info => exact hQ.pure _
    | cons cell x rest info => exact hQ.pure _
    | view kind storage slice info => exact hQ.pure _
    | entries storage slice info => exact hQ.pure _
    | «lazy» cell info => exact hQ.bind (hforce cell) fun s => ih (by omega) s

theorem isEmpty_congr (s : Seq) : Q _ (s.isEmpty force n) (s.isEmpty force' n') := by
  rw [isEmpty_eq, isEmpty_eq]
  exact hQ.bind (front_congr hQ hforce hn s) fun _ => hQ.pure _

theorem first_congr (s : Seq) : Q _ (s.first force n) (s.first force' n') := by
  rw [first_eq, first_eq]
  exact hQ.bind (front_congr hQ hforce hn s) fun front => front.first_congr hQ

theorem rest_congr (s : Seq) : Q _ (s.rest force n) (s.rest force' n') := by
  rw [rest_eq, rest_eq]
  exact hQ.bind (front_congr hQ hforce hn s) fun _ => hQ.pure _

theorem second_congr (s : Seq) : Q _ (s.second force n) (s.second force' n') :=
  hQ.bind (rest_congr hQ hforce hn s) fun t => first_congr hQ hforce hn t

theorem third_congr (s : Seq) : Q _ (s.third force n) (s.third force' n') :=
  hQ.bind (rest_congr hQ hforce hn s) fun t => second_congr hQ hforce hn t

theorem fourth_congr (s : Seq) : Q _ (s.fourth force n) (s.fourth force' n') :=
  hQ.bind (rest_congr hQ hforce hn s) fun t => third_congr hQ hforce hn t

theorem next_congr (s : Seq) : Q _ (s.next force n) (s.next force' n') := by
  refine hQ.bind (isEmpty_congr hQ hforce hn s) fun b => ?_
  cases b with
  | true => exact hQ.pure _
  | false =>
    refine hQ.bind (first_congr hQ hforce hn s) fun x => ?_
    exact hQ.bind (rest_congr hQ hforce hn s) fun _ => hQ.pure _

theorem fold_congr {β : Type} {f g : β → Value → Run β} (hf : ∀ b x, Q _ (f b x) (g b x))
    (b : β) (s : Seq) : Q _ (s.fold force f n b) (s.fold force' g n' b) := by
  induction n generalizing n' b s with
  | zero => exact hQ.exhausted _
  | succ n ih =>
    obtain ⟨m, rfl⟩ : ∃ m, n' = m + 1 := ⟨n' - 1, by omega⟩
    refine hQ.bind (next_congr hQ hforce (by omega) s) fun next => ?_
    rcases next with _ | ⟨x, rest⟩
    · exact hQ.pure _
    · exact hQ.bind (hf b x) fun b => ih (by omega) b rest

theorem toList_congr (s : Seq) : Q _ (s.toList force n) (s.toList force' n') :=
  hQ.bind (fold_congr hQ hforce hn (fun _ _ => hQ.pure _) _ s) fun _ => hQ.pure _

theorem countFrom_congr (seen : Nat) (s : Seq) :
    Q _ (s.countFrom force n seen) (s.countFrom force' n' seen) := by
  induction n generalizing n' seen s with
  | zero => exact hQ.exhausted _
  | succ n ih =>
    obtain ⟨m, rfl⟩ : ∃ m, n' = m + 1 := ⟨n' - 1, by omega⟩
    rw [countFrom, countFrom]
    cases s.counted with
    | some k => exact hQ.pure _
    | none =>
      refine hQ.bind (isEmpty_congr hQ hforce (by omega) s) fun b => ?_
      cases b with
      | true => exact hQ.pure _
      | false => exact hQ.bind (rest_congr hQ hforce (by omega) s) fun t => ih (by omega) _ t

theorem nthFrom_congr (index : Int64) (walked : Nat) (s : Seq) :
    Q _ (s.nthFrom force index n walked) (s.nthFrom force' index n' walked) := by
  induction n generalizing n' walked s with
  | zero => exact hQ.exhausted _
  | succ n ih =>
    obtain ⟨m, rfl⟩ : ∃ m, n' = m + 1 := ⟨n' - 1, by omega⟩
    refine hQ.bind (isEmpty_congr hQ hforce (by omega) s) fun b => ?_
    cases b with
    | true => exact hQ.fail _
    | false =>
      by_cases hindex : walked = index.toInt
      · rw [if_neg Bool.false_ne_true, if_neg Bool.false_ne_true, if_pos hindex, if_pos hindex]
        exact first_congr hQ hforce (by omega) s
      · rw [if_neg Bool.false_ne_true, if_neg Bool.false_ne_true, if_neg hindex, if_neg hindex]
        exact hQ.bind (rest_congr hQ hforce (by omega) s) fun t => ih (by omega) _ t

theorem nth_congr (s : Seq) (index : Int64) :
    Q _ (s.nth force n index) (s.nth force' n' index) := by
  unfold nth
  split
  · exact hQ.fail _
  · exact nthFrom_congr hQ hforce hn index 0 s

theorem equal_congr {eq eq' : Comparison} (heq : ∀ a b, Q _ (eq a b) (eq' a b))
    (s t : Seq) : Q _ (s.equal force eq n t) (s.equal force' eq' n' t) := by
  induction n generalizing n' s t with
  | zero => exact hQ.exhausted _
  | succ n ih =>
    obtain ⟨m, rfl⟩ : ∃ m, n' = m + 1 := ⟨n' - 1, by omega⟩
    refine hQ.bind (hQ.attempt (next_congr hQ hforce (by omega) s)) fun a => ?_
    refine hQ.bind (hQ.attempt (next_congr hQ hforce (by omega) t)) fun b => ?_
    rcases a with e | _ | ⟨x, s⟩ <;> rcases b with e' | _ | ⟨y, t⟩
    case ok.some.ok.some =>
      refine hQ.bind (heq x y) fun same => ?_
      cases same
      · exact hQ.pure _
      · exact ih (by omega) s t
    all_goals first
      | exact hQ.pure _
      | exact hQ.fail _

theorem Cursor.next_congr (c : Cursor) : Q _ (c.next force n) (c.next force' n') := by
  rcases c with ⟨_ | s⟩
  · exact hQ.pure _
  · refine hQ.bind (hQ.attempt (Seq.next_congr hQ hforce hn s)) fun next => ?_
    rcases next with e | _ | ⟨x, rest⟩ <;> exact hQ.pure _

end Seq

end Sequences

/-! ## Maps and sets -/

theorem Run.reject_congr {α : Type} {p q : α → Run Bool} (h : ∀ x, Q _ (p x) (q x))
    (l : List α) : Q _ (Run.reject p l) (Run.reject q l) := by
  induction l with
  | nil => exact hQ.pure _
  | cons x l ih => exact hQ.bind (h x) fun _ => hQ.bind ih fun _ => hQ.pure _

section Comparing

variable {eq eq' : Comparison} (heq : ∀ a b, Q _ (eq a b) (eq' a b))

include heq in
theorem Comparison.lenient_congr (a b : Value) : Q _ (eq.lenient a b) (eq'.lenient a b) :=
  hQ.lenient (heq a b)

namespace Dict

theorem new_congr : Q _ Dict.new Dict.new :=
  hQ.bind hQ.freshStorage fun _ => hQ.pure _

theorem replace_congr (m : Dict) (entries : List (Value × Value)) :
    Q _ (m.replace entries) (m.replace entries) :=
  hQ.bind hQ.freshStorage fun _ => hQ.pure _

include heq

theorem indexOf_congr (key : Value) (entries : List (Value × Value)) :
    Q _ (indexOf eq key entries) (indexOf eq' key entries) := by
  induction entries with
  | nil => exact hQ.pure _
  | cons entry entries ih =>
    refine hQ.bind (heq entry.1 key) fun found => ?_
    cases found
    · exact hQ.bind ih fun _ => hQ.pure _
    · exact hQ.pure _

theorem tryGet_congr (m : Dict) (key : Value) : Q _ (m.tryGet eq key) (m.tryGet eq' key) :=
  hQ.bind (indexOf_congr hQ heq key m.entries) fun _ => hQ.pure _

theorem get_congr (m : Dict) (key : Value) : Q _ (m.get eq key) (m.get eq' key) :=
  tryGet_congr hQ (Comparison.lenient_congr hQ heq) m key

theorem set_congr (m : Dict) (key value : Value) :
    Q _ (m.set eq key value) (m.set eq' key value) := by
  refine hQ.bind (indexOf_congr hQ (Comparison.lenient_congr hQ heq) key m.entries) fun i => ?_
  cases i <;> exact replace_congr hQ m _

theorem add?_congr (m : Dict) (key value : Value) :
    Q _ (m.add? eq key value) (m.add? eq' key value) := by
  refine hQ.bind (indexOf_congr hQ heq key m.entries) fun i => ?_
  cases i with
  | none => exact hQ.bind (replace_congr hQ m _) fun _ => hQ.pure _
  | some i => exact hQ.pure _

theorem setAll_congr (m : Dict) (entries : List (Value × Value)) :
    Q _ (m.setAll eq entries) (m.setAll eq' entries) := by
  unfold setAll
  exact hQ.foldlM (fun m entry _ => set_congr hQ heq m entry.1 entry.2) m

theorem without_congr (m : Dict) (key : Value) :
    Q _ (m.without eq key) (m.without eq' key) :=
  hQ.bind (Run.reject_congr hQ (fun e => hQ.lenient (heq e.1 key)) m.entries) fun _ =>
    replace_congr hQ _ _

theorem merge_congr (m other : Dict) : Q _ (m.merge eq other) (m.merge eq' other) := by
  unfold merge
  split
  · exact hQ.pure _
  · split
    · exact hQ.pure _
    · exact setAll_congr hQ heq _ _

theorem mergeOption_congr (m other : Option Dict) :
    Q _ (mergeOption eq m other) (mergeOption eq' m other) := by
  rcases m with _ | m
  · exact hQ.pure _
  · rcases other with _ | other
    · exact hQ.pure _
    · exact hQ.bind (merge_congr hQ heq m other) fun _ => hQ.pure _

theorem conj_congr (m : Dict) (x : Value) : Q _ (m.conj eq x) (m.conj eq' x) := by
  unfold conj
  split
  · split
    · exact set_congr hQ heq _ _ _
    · exact hQ.fail _
  · exact merge_congr hQ heq m _
  · exact hQ.fail _

theorem call_congr (m : Dict) (args : List Value) :
    Q _ (m.call eq args) (m.call eq' args) := by
  unfold call
  split
  · exact hQ.bind (tryGet_congr hQ heq m _) fun _ => hQ.pure _
  · exact hQ.bind (tryGet_congr hQ heq m _) fun _ => hQ.pure _
  · exact hQ.fail _

theorem within_congr (other : Dict) (entries : List (Value × Value)) :
    Q _ (within eq other entries) (within eq' other entries) := by
  induction entries with
  | nil => exact hQ.pure _
  | cons entry entries ih =>
    refine hQ.bind (get_congr hQ heq other entry.1) fun found => ?_
    rcases found with _ | found
    · exact hQ.pure _
    · refine hQ.bind (heq found entry.2) fun same => ?_
      cases same
      · exact hQ.pure _
      · exact ih

theorem equal_congr (m other : Dict) : Q _ (m.equal eq other) (m.equal eq' other) := by
  unfold equal
  split
  · exact hQ.pure _
  · split
    · exact hQ.pure _
    · exact within_congr hQ heq other _

end Dict

namespace ElemSet

theorem new_congr : Q _ ElemSet.new ElemSet.new :=
  hQ.bind hQ.freshStorage fun _ => hQ.pure _

theorem replace_congr (s : ElemSet) (items : List Value) :
    Q _ (s.replace items) (s.replace items) :=
  hQ.bind hQ.freshStorage fun _ => hQ.pure _

theorem anyM_congr {p q : Value → Run Bool} (h : ∀ x, Q _ (p x) (q x))
    (items : List Value) : Q _ (anyM p items) (anyM q items) := by
  induction items with
  | nil => exact hQ.pure _
  | cons x items ih =>
    refine hQ.bind (h x) fun found => ?_
    cases found
    · exact ih
    · exact hQ.pure _

include heq

theorem tryContains_congr (s : ElemSet) (x : Value) :
    Q _ (s.tryContains eq x) (s.tryContains eq' x) :=
  anyM_congr hQ (fun item => heq item x) s.items

theorem add?_congr (s : ElemSet) (x : Value) : Q _ (s.add? eq x) (s.add? eq' x) := by
  refine hQ.bind (tryContains_congr hQ heq s x) fun found => ?_
  cases found
  · exact hQ.bind (replace_congr hQ s _) fun _ => hQ.pure _
  · exact hQ.pure _

theorem contains_congr (s : ElemSet) (x : Value) :
    Q _ (s.contains eq x) (s.contains eq' x) :=
  tryContains_congr hQ (Comparison.lenient_congr hQ heq) s x

theorem conj_congr (s : ElemSet) (x : Value) : Q _ (s.conj eq x) (s.conj eq' x) := by
  refine hQ.bind (contains_congr hQ heq s x) fun found => ?_
  cases found
  · exact replace_congr hQ s _
  · exact hQ.pure _

theorem disj_congr (s : ElemSet) (x : Value) : Q _ (s.disj eq x) (s.disj eq' x) :=
  hQ.bind (Run.reject_congr hQ (fun item => Comparison.lenient_congr hQ heq item x) s.items)
    fun items => replace_congr hQ s items

theorem call_congr (s : ElemSet) (args : List Value) :
    Q _ (s.call eq args) (s.call eq' args) := by
  unfold call
  split
  · exact hQ.bind (tryContains_congr hQ heq s _) fun _ => hQ.pure _
  · exact hQ.fail _

theorem within_congr (other : ElemSet) (items : List Value) :
    Q _ (within eq other items) (within eq' other items) := by
  induction items with
  | nil => exact hQ.pure _
  | cons x items ih =>
    refine hQ.bind (anyM_congr hQ (heq x) other.items) fun found => ?_
    cases found
    · exact hQ.pure _
    · exact ih

theorem equal_congr (s other : ElemSet) : Q _ (s.equal eq other) (s.equal eq' other) := by
  unfold equal
  split
  · exact hQ.pure _
  · exact within_congr hQ heq other _

end ElemSet

include heq

theorem Comparison.all_congr (xs ys : List Value) : Q _ (eq.all xs ys) (eq'.all xs ys) := by
  induction xs generalizing ys with
  | nil => exact hQ.pure _
  | cons x xs ih =>
    cases ys with
    | nil => exact hQ.pure _
    | cons y ys =>
      refine hQ.bind (heq x y) fun same => ?_
      cases same
      · exact hQ.pure _
      · exact ih ys

theorem Vec.equal_congr (v other : Vec) : Q _ (v.equal eq other) (v.equal eq' other) := by
  unfold equal
  split
  · exact hQ.pure _
  · exact Comparison.all_congr hQ heq _ _

end Comparing

theorem Vec.call_congr (v : Vec) (args : List Value) : Q _ (v.call args) (v.call args) := by
  unfold call
  split
  · exact hQ.ofExcept _
  · exact hQ.fail _

/-! ## Values -/

section Values

variable {force force' : Force} (hforce : ∀ cell, Q _ (force cell) (force' cell))
  {n n' : Nat} (hn : n ≤ n')

include hforce

namespace Excerpt

omit hforce in
theorem ofList_congr {α : Type} {write write' : α → Run String}
    (h : ∀ x, Q _ (write x) (write' x)) (limit : Option Nat) (l : List α) :
    Q _ (ofList write limit l) (ofList write' limit l) := by
  induction l generalizing limit with
  | nil => rw [ofList, ofList]; exact hQ.pure _
  | cons x l ih =>
    rcases limit with _ | _ | k
    · exact hQ.bind (h x) fun _ => hQ.bind (ih _) fun _ => hQ.pure _
    · exact hQ.pure _
    · exact hQ.bind (h x) fun _ => hQ.bind (ih _) fun _ => hQ.pure _

theorem ofSeq_congr {write write' : Value → Run String}
    (h : ∀ x, Q _ (write x) (write' x)) (hn : n ≤ n') (limit : Option Nat) (s : Seq) :
    Q _ (ofSeq force write n limit s) (ofSeq force' write' n' limit s) := by
  induction n generalizing n' limit s with
  | zero => exact hQ.exhausted _
  | succ n ih =>
    obtain ⟨m, rfl⟩ : ∃ m, n' = m + 1 := ⟨n' - 1, by omega⟩
    refine hQ.bind (hQ.attempt (Seq.next_congr hQ hforce (by omega) s)) fun next => ?_
    rcases next with e | _ | ⟨x, rest⟩ <;> rcases limit with _ | _ | k
    case ok.some.none | ok.some.some.succ =>
      exact hQ.bind (h x) fun _ => hQ.bind (ih (by omega) _ rest) fun _ => hQ.pure _
    all_goals first
      | exact hQ.pure _
      | exact hQ.fail _

end Excerpt

namespace Value

include hn

theorem equals_congr (a b : Value) : Q _ (a.equals force n b) (a.equals force' n' b) := by
  induction n generalizing n' a b with
  | zero => exact hQ.exhausted _
  | succ n ih =>
    obtain ⟨m, rfl⟩ : ∃ m, n' = m + 1 := ⟨n' - 1, by omega⟩
    have hm : n ≤ m := by omega
    have heq := fun a b => ih hm a b
    cases a <;> cases b
    case vector.vector v u => exact v.equal_congr hQ heq u
    case vector.seq v t => exact v.seq.equal_congr hQ hforce hm heq t
    case seq.vector s v => exact s.equal_congr hQ hforce hm heq v.seq
    case seq.seq s t =>
      rw [equals, equals]
      split
      · exact hQ.pure _
      · exact s.equal_congr hQ hforce hm heq t
    case map.map m o => exact m.equal_congr hQ heq o
    case set.set s o => exact s.equal_congr hQ heq o
    all_goals exact hQ.pure _

theorem hash_congr (single : Identity → UInt32) (v : Value) :
    Q _ (v.hash force single n) (v.hash force' single n') := by
  induction n generalizing n' v with
  | zero => exact hQ.exhausted _
  | succ n ih =>
    obtain ⟨m, rfl⟩ : ∃ m, n' = m + 1 := ⟨n' - 1, by omega⟩
    have hhash := fun v => ih (by omega : n ≤ m) v
    cases v with
    | atom a => exact hQ.pure _
    | vector v =>
      exact hQ.bind (hQ.foldlM (fun t x _ => hQ.bind (hhash x) fun _ => hQ.pure _) _)
        fun _ => hQ.pure _
    | map d =>
      refine hQ.bind (hQ.foldlM (fun t entry _ => hQ.bind ?_ fun _ => hQ.pure _) _)
        fun _ => hQ.pure _
      exact hQ.bind (hhash entry.1) fun _ => hQ.bind (hhash entry.2) fun _ => hQ.pure _
    | set s =>
      exact hQ.bind (hQ.foldlM (fun t x _ => hQ.bind (hhash x) fun _ => hQ.pure _) _)
        fun _ => hQ.pure _
    | seq s =>
      exact hQ.bind (s.fold_congr hQ hforce (by omega)
        (fun t x => hQ.bind (hhash x) fun _ => hQ.pure _) _) fun _ => hQ.pure _

theorem render_congr (escape : Bool) (v : Value) :
    Q _ (v.render force escape n) (v.render force' escape n') := by
  induction n generalizing n' v with
  | zero => exact hQ.exhausted _
  | succ n ih =>
    obtain ⟨m, rfl⟩ : ∃ m, n' = m + 1 := ⟨n' - 1, by omega⟩
    have hrender := fun v => ih (by omega : n ≤ m) v
    refine hQ.bind (hQ.gets _) fun limit => ?_
    cases v with
    | atom a => exact hQ.pure _
    | vector v => exact hQ.bind (Excerpt.ofList_congr hQ hrender _ _) fun _ => hQ.pure _
    | map d =>
      refine hQ.bind (Excerpt.ofList_congr hQ (fun entry => ?_) _ _) fun _ => hQ.pure _
      exact hQ.bind (hrender entry.1) fun _ => hQ.bind (hrender entry.2) fun _ => hQ.pure _
    | set s => exact hQ.bind (Excerpt.ofList_congr hQ hrender _ _) fun _ => hQ.pure _
    | seq s =>
      exact hQ.bind (Excerpt.ofSeq_congr hQ hforce hrender (by omega) _ s) fun _ => hQ.pure _

theorem display_congr (escape : Bool) (v : Value) :
    Q _ (v.display force escape n) (v.display force' escape n') := by
  refine hQ.bind (hQ.attempt (render_congr hQ hforce hn escape v)) fun text => ?_
  cases text <;> exact hQ.pure _

end Value

end Values

end LispKernel
