import LispKernel.Proofs.ElemSet.FiniteSet
import LispKernel.Proofs.Evaluation.Definition
import LispKernel.Proofs.Render.Text

/-!
# Literals that refuse repetitions

The literal of a map or a set evaluates its parts in turn and collects what they give. It comes to
all of it in order if no two keys or elements are equal. Otherwise it fails at the first one that is
equal to an earlier one and evaluates nothing after that.
-/
namespace LispKernel

open Run (ComesTo Refines ReturnsIn)
open Value (Equal agree)

theorem World.Ahead.above {u w : World} (h : u.Ahead w) : u.above.Ahead w.above := by
  obtain ⟨k, rfl⟩ := h
  exact ⟨k, rfl⟩

/-! ## Runs of the machine with enough fuel -/

/-- The text that a value without lazy cells is displayed as does not depend on the storage that is
taken. -/
theorem Value.display_comesTo {v : Value} (hv : v.LazyFree) (w : World) :
    ∃ shown, ∀ u, w.Ahead u → ∃ w',
      ComesTo (fun n => v.display (Machine.force n) false n) u (.ok shown) w' ∧ w.Ahead w' := by
  refine ⟨text false w.printLength v, fun u hu => ?_⟩
  have hmono {n m : Nat} (h : n ≤ m) : Refines (fun _ _ => True)
      (v.display (Machine.force n) false n) (v.display (Machine.force m) false m) :=
    display_congr Refines.any (Machine.refines Steps.any h).2.2 h false v
  have hreturns (n : Nat) (hn : n ≥ v.weight) : (v.display (Machine.force n) false n).ReturnsIn
      w.Ahead (· = text false w.printLength v) := by
    have hrender := render_returns false w.printLength (Machine.force n) (World.Ahead.elastic w)
      (fun _ h => h.printLength_eq) hv hn
    refine hrender.attempt.bind fun r hr => ?_
    obtain ⟨shown, rfl, hshown⟩ := hr
    exact .pure hshown
  obtain ⟨shown, w', hrun, hw', rfl⟩ := ComesTo.of_returnsIn hmono hreturns hu
  exact ⟨w', hrun, hw'⟩

theorem Evaluates.comesTo {x : Expr} {env : FrameRef} {w w' : World} {r : Except Error Value}
    (h : Evaluates x env w r w') : ComesTo (Machine.eval · x env) w r w' := by
  obtain ⟨N, hN⟩ := h
  exact .of_refines (fun hn => (Machine.refines Steps.any hn).1 x env) hN

theorem Machine.equals_refines {n m : Nat} (h : n ≤ m) (a b : Value) : Refines (fun _ _ => True)
    (a.equals (force n) n b) (a.equals (force m) m b) :=
  Value.equals_congr Refines.any (refines Steps.any h).2.2 h a b

theorem Dict.add?_comesTo {m : Dict} {key : Value} (value : Value) (w : World)
    (hm : ∀ e ∈ m.entries, e.1.LazyFree) (hkey : key.LazyFree) : ∃ added w',
      ComesTo (fun n => m.add? (Value.equals (Machine.force n) n) key value) w (.ok added) w' ∧
      w.Ahead w' ∧ (added = none ↔ ∃ e ∈ m.entries, agree e.1 key = true) ∧
      ∀ m' ∈ added, m'.entries = m.entries ++ [(key, value)] := by
  apply ComesTo.of_returnsIn (N := entriesWeight m.entries + key.weight)
    (fun h => add?_congr Refines.any (Machine.equals_refines h) m key value) ?_ (.refl w)
  intro n hn
  have hfit : ∀ e ∈ m.entries, e.1.Fits n := by
    intro e he
    have hle := entryWeight_le_entriesWeight he
    rw [entryWeight_eq] at hle
    exact ⟨hm e he, by omega⟩
  have hdecides := Value.equals_decides (Machine.force n) n (World.Ahead.elastic w)
  exact add?_returns (World.Ahead.elastic w) hdecides ⟨hkey, by omega⟩ hfit

theorem ElemSet.add?_comesTo {s : ElemSet} {x : Value} (w : World)
    (hs : ∀ y ∈ s.items, y.LazyFree) (hx : x.LazyFree) : ∃ added w',
      ComesTo (fun n => s.add? (Value.equals (Machine.force n) n) x) w (.ok added) w' ∧
      w.Ahead w' ∧ (added = none ↔ ∃ y ∈ s.items, agree y x = true) ∧
      ∀ s' ∈ added, s'.items = s.items ++ [x] := by
  apply ComesTo.of_returnsIn (N := listWeight s.items + x.weight)
    (fun h => add?_congr Refines.any (Machine.equals_refines h) s x) ?_ (.refl w)
  intro n hn
  have hfit : ∀ y ∈ s.items, y.Fits n := by
    intro y hy
    have hle := weight_le_listWeight hy
    exact ⟨hs y hy, by omega⟩
  have hdecides := Value.equals_decides (Machine.force n) n (World.Ahead.elastic w)
  apply (add?_returns hdecides ⟨hx, by omega⟩ hfit (World.Ahead.elastic w)).mono
  rintro added ⟨hnone, hsome⟩
  refine ⟨hnone.trans Elements.has_iff, fun s' hs' => ?_⟩
  have hnew : Elements.has agree s.items x = false := by
    rw [Bool.eq_false_iff, Ne, ← hnone]
    rintro rfl
    cases hs'
  rw [hsome s' hs', Elements.insert_of_not_has hnew]

/-! ## Forms of literals -/

/-- A form of literal that is made of parts and takes nothing twice. -/
structure Collecting (ι κ : Type) where
  expr : List ι → Position → Expr
  /-- A part evaluated in one world gives something and leaves another world. -/
  part : FrameRef → ι → World → κ → World → Prop
  /-- What has to be different from all that came before. -/
  key : κ → Value
  /-- The collection that holds just this, in this order. -/
  holds : Value → List κ → Prop
  refusal : String → Error

namespace Collecting

/-- A key is evaluated before its value. -/
def map : Collecting (Expr × Expr) (Value × Value) where
  expr := Expr.map
  part env e w a w' := ∃ v, Evaluates e.1 env w (.ok a.1) v ∧ Evaluates e.2 env v (.ok a.2) w'
  key := Prod.fst
  holds r as := ∃ m : Dict, r = .map m ∧ m.entries = as
  refusal := .duplicateKey

def set : Collecting Expr Value where
  expr := Expr.set
  part env x w a w' := Evaluates x env w (.ok a) w'
  key := id
  holds r as := ∃ s : ElemSet, r = .set s ∧ s.items = as
  refusal := .duplicateElement

variable {ι κ : Type} (f : Collecting ι κ) (env : FrameRef)

/-- The parts give these things one after the other. Before, between and after them nothing happens
but that storage is taken. -/
inductive InTurn : List ι → World → List κ → World → Prop where
  | nil {w w' : World} : w.Ahead w' → InTurn [] w [] w'
  | cons {x : ι} {xs : List ι} {a : κ} {as : List κ} {w u v w' : World} :
      w.Ahead u → f.part env x u a v → InTurn xs v as w' → InTurn (x :: xs) w (a :: as) w'

/-- Every part gives something without a lazy cell in its key, however much storage is taken
between two of them. -/
def Gives : List ι → World → Prop
  | [], _ => True
  | x :: xs, w => ∀ u, w.Ahead u → ∃ a v, f.part env x u a v ∧ (f.key a).LazyFree ∧ Gives xs v

/-- There is a level for the parts, and on it they give something in turn. -/
structure Yields (parts : List ι) (w : World) : Prop where
  level : w.depth < w.maxDepth
  gives : f.Gives env parts w.below

variable (force : Force)

def Distinct (as : List κ) : Prop := as.Pairwise fun x y => ¬Equal force (f.key x) (f.key y)

def Repeats (front : List κ) (a : κ) : Prop := ∃ x ∈ front, Equal force (f.key x) (f.key a)

/-- The parts are evaluated up to the one that gives `a`, and then the literal fails at its own
position and shows the key, whatever parts there are after that. -/
def FailsAt (p : Position) (parts : List ι) (w : World) (front : List κ) (a : κ) : Prop :=
  ∃ v w' shown, f.InTurn env (parts.take (front.length + 1)) w.below (front ++ [a]) v ∧
    (∃ v', ComesTo (fun n => (f.key a).display (Machine.force n) false n) v (.ok shown) v') ∧
    v.above.Ahead w' ∧ ∀ rest, Evaluates (f.expr (parts.take (front.length + 1) ++ rest) p) env w
      (.error (.positioned p (f.refusal shown))) w'

/-- What the parts give is collected if and only if it is distinct, and the literal fails at the
first thing that repeats an earlier one. -/
def Detects (p : Position) (parts : List ι) (w : World) : Prop :=
  ∃ as u, f.InTurn env parts w.below as u ∧
    ((∃ r w', Evaluates (f.expr parts p) env w (.ok r) w' ∧ f.holds r as ∧ u.above.Ahead w') ↔
      f.Distinct force as) ∧
    ∀ front a back, as = front ++ a :: back → f.Distinct force front → f.Repeats force front a →
      f.FailsAt env p parts w front a

variable {f env force} {parts xs : List ι} {x : ι} {a : κ} {as : List κ} {u v w w' : World}

theorem InTurn.delay (h : w.Ahead u) (hturn : f.InTurn env parts u as v) :
    f.InTurn env parts w as v := by
  cases hturn with
  | nil hv => exact .nil (h.trans hv)
  | cons hu hpart hrest => exact .cons (h.trans hu) hpart hrest

theorem Gives.delay (h : w.Ahead u) (hgives : f.Gives env parts w) : f.Gives env parts u := by
  cases parts with
  | nil => trivial
  | cons x xs => exact fun v hv => hgives v (h.trans hv)

theorem Repeats.not_distinct {front back : List κ} (h : f.Repeats force front a) :
    ¬f.Distinct force (front ++ a :: back) := by
  intro hdistinct
  obtain ⟨x, hx, hequal⟩ := h
  exact (List.pairwise_append.1 hdistinct).2.2 x hx a (by simp) hequal

/-- If not everything is distinct, there is a first repetition. -/
theorem exists_repeats (h : ¬f.Distinct force as) : ∃ front a back,
    as = front ++ a :: back ∧ f.Distinct force front ∧ f.Repeats force front a := by
  induction as using List.reverseRecOn with
  | nil => exact absurd List.Pairwise.nil h
  | append_singleton as a ih =>
    by_cases hdistinct : f.Distinct force as
    · refine ⟨as, a, [], rfl, hdistinct, ?_⟩
      by_contra hnew
      refine h (List.pairwise_append.2 ⟨hdistinct, List.pairwise_singleton _ a, ?_⟩)
      intro x hx y hy hequal
      rw [List.mem_singleton.1 hy] at hequal
      exact hnew ⟨x, hx, hequal⟩
    · obtain ⟨front, c, back, rfl, hfront, hrepeats⟩ := ih hdistinct
      exact ⟨front, c, back ++ [a], by simp, hfront, hrepeats⟩

theorem Gives.inTurn (h : f.Gives env parts w) : ∃ as u, f.InTurn env parts w as u := by
  induction parts generalizing w with
  | nil => exact ⟨[], w, .nil (.refl w)⟩
  | cons x xs ih =>
    obtain ⟨a, v, hpart, -, hgives⟩ := h w (.refl w)
    obtain ⟨as, u, hturn⟩ := ih hgives
    exact ⟨a :: as, u, .cons (.refl w) hpart hturn⟩

/-! ## Collecting in a loop -/

section Gather

variable {β : Type}

/-- Each part in turn is evaluated and added to what there is, or refused. -/
def gather (item : ι → Run κ) (add : β → κ → Run (Option β)) (refuse : κ → Run β) :
    β → List ι → Run β
  | b, [] => return b
  | b, x :: xs => do
    let a ← item x
    match ← add b a with
    | some b => gather item add refuse b xs
    | none => refuse a

/-- The evaluation of parts and the adding of what they give, with fuel. -/
structure Loop (f : Collecting ι κ) (env : FrameRef) (force : Force) (β : Type) where
  item : Nat → ι → Run κ
  add : Nat → β → κ → Run (Option β)
  contents : β → List κ
  item_comesTo {x : ι} {a : κ} {w w' : World} :
    f.part env x w a w' → ComesTo (item · x) w (.ok a) w'
  /-- Whatever repeats something is not added. -/
  add_comesTo {b : β} {a : κ} (w : World) : (∀ x ∈ contents b, (f.key x).LazyFree) →
    (f.key a).LazyFree → ∃ added w', ComesTo (add · b a) w (.ok added) w' ∧ w.Ahead w' ∧
      (added = none ↔ f.Repeats force (contents b) a) ∧
      ∀ b' ∈ added, contents b' = contents b ++ [a]

namespace Loop

variable (L : Loop f env force β)

/-- The loop, which shows the key that it refuses. -/
def run (n : Nat) : β → List ι → Run β :=
  gather (L.item n) (L.add n) fun a => do
    .fail (f.refusal (← (f.key a).display (Machine.force n) false n))

variable {L} {b b' : β} {r : Except Error β} {shown : String}

theorem run_accepts (hitem : ComesTo (L.item · x) w (.ok a) v)
    (hadd : ComesTo (L.add · b a) v (.ok (some b')) u) (hrest : ComesTo (L.run · b' xs) u r w') :
    ComesTo (L.run · b (x :: xs)) w r w' :=
  hitem.bind (hadd.bind hrest)

theorem run_refuses (hitem : ComesTo (L.item · x) w (.ok a) v)
    (hadd : ComesTo (L.add · b a) v (.ok none) u)
    (hshown : ComesTo (fun n => (f.key a).display (Machine.force n) false n) u (.ok shown) w') :
    ComesTo (L.run · b (x :: xs)) w (.error (f.refusal shown)) w' :=
  hitem.bind (hadd.bind (hshown.bind ⟨0, fun _ _ => rfl⟩))

variable (L)

/-- All is collected that the parts give, if it is distinct. -/
def Accepts (b : β) (parts : List ι) (w : World) (as : List κ) (u : World) : Prop :=
  f.Distinct force (L.contents b ++ as) → ∃ b' w', ComesTo (L.run · b parts) w (.ok b') w' ∧
    L.contents b' = L.contents b ++ as ∧ u.Ahead w'

/-- The first thing that repeats an earlier one is refused. -/
def Refuses (b : β) (parts : List ι) (w : World) (as : List κ) : Prop :=
  ∀ front a back, as = front ++ a :: back → f.Distinct force (L.contents b ++ front) →
    f.Repeats force (L.contents b ++ front) a →
    ∃ v w' shown, f.InTurn env (parts.take (front.length + 1)) w (front ++ [a]) v ∧
      (∃ v', ComesTo (fun n => (f.key a).display (Machine.force n) false n) v (.ok shown) v') ∧
      v.Ahead w' ∧ ∀ rest, ComesTo (L.run · b (parts.take (front.length + 1) ++ rest)) w
        (.error (f.refusal shown)) w'

variable {L}

theorem refuses_of_repeats (hpart : f.part env x w a v) (hkey : (f.key a).LazyFree)
    (hrepeats : f.Repeats force (L.contents b) a) (hadd : ComesTo (L.add · b a) v (.ok none) u)
    (hu : v.Ahead u) : L.Refuses b (x :: xs) w (a :: as) := by
  intro front c back hsplit hdistinct _
  cases front with
  | nil =>
    cases hsplit
    obtain ⟨shown, hshown⟩ := Value.display_comesTo hkey v
    obtain ⟨v', hv, -⟩ := hshown v (.refl v)
    obtain ⟨w', hw, hw'⟩ := hshown u hu
    exact ⟨v, w', shown, .cons (.refl w) hpart (.nil (.refl v)), ⟨v', hv⟩, hw',
      fun rest => run_refuses (L.item_comesTo hpart) hadd hw⟩
  | cons d front =>
    -- the repetition would have come before
    cases hsplit
    exact absurd hdistinct hrepeats.not_distinct

theorem refuses_of_new (hpart : f.part env x w a v)
    (hrepeats : ¬f.Repeats force (L.contents b) a)
    (hadd : ComesTo (L.add · b a) v (.ok (some b')) u) (hu : v.Ahead u)
    (hcontents : L.contents b' = L.contents b ++ [a]) (hrest : L.Refuses b' xs u as) :
    L.Refuses b (x :: xs) w (a :: as) := by
  intro front c back hsplit hdistinct hrepeats'
  cases front with
  | nil =>
    cases hsplit
    rw [List.append_nil] at hrepeats'
    exact absurd hrepeats' hrepeats
  | cons d front =>
    cases hsplit
    have happend : L.contents b ++ a :: front = L.contents b' ++ front := by
      rw [hcontents, List.append_assoc]
      rfl
    rw [happend] at hdistinct hrepeats'
    obtain ⟨v', w', shown, hturn, hshown, hw', hrun⟩ :=
      hrest front c back rfl hdistinct hrepeats'
    exact ⟨v', w', shown, .cons (.refl w) hpart (hturn.delay hu), hshown, hw',
      fun rest => run_accepts (L.item_comesTo hpart) hadd (hrun rest)⟩

theorem accepts_of_new (hpart : f.part env x w a v)
    (hadd : ComesTo (L.add · b a) v (.ok (some b')) u)
    (hcontents : L.contents b' = L.contents b ++ [a]) (hrest : L.Accepts b' xs u as w') :
    L.Accepts b (x :: xs) w (a :: as) w' := by
  have happend : L.contents b ++ a :: as = L.contents b' ++ as := by
    rw [hcontents, List.append_assoc]
    rfl
  intro hdistinct
  rw [happend] at hdistinct ⊢
  obtain ⟨b'', v', hrun, hb'', hv'⟩ := hrest hdistinct
  exact ⟨b'', v', run_accepts (L.item_comesTo hpart) hadd hrun, hb'', hv'⟩

/-- Parts that give something in turn are collected, or the first repetition is refused. -/
theorem run_detects (hgives : f.Gives env parts w) (hb : ∀ x ∈ L.contents b, (f.key x).LazyFree) :
    ∃ as u, f.InTurn env parts w as u ∧ L.Accepts b parts w as u ∧ L.Refuses b parts w as := by
  induction parts generalizing b w with
  | nil =>
    refine ⟨[], w, .nil (.refl w), fun _ => ⟨b, w, .pure b w, by simp, .refl w⟩, ?_⟩
    intro front a back hsplit
    simp at hsplit
  | cons x xs ih =>
    obtain ⟨a, v, hpart, hkey, hgives⟩ := hgives w (.refl w)
    obtain ⟨added, u, hadd, hu, hnone, hsome⟩ := L.add_comesTo v hb hkey
    cases added with
    | none =>
      have hrepeats := hnone.1 rfl
      obtain ⟨as, w', hturn⟩ := hgives.inTurn
      exact ⟨a :: as, w', .cons (.refl w) hpart hturn, fun h => absurd h hrepeats.not_distinct,
        refuses_of_repeats hpart hkey hrepeats hadd hu⟩
    | some b' =>
      have hcontents := hsome b' rfl
      have hb' : ∀ y ∈ L.contents b', (f.key y).LazyFree := by
        rw [hcontents]
        simpa [or_imp, forall_and] using ⟨hb, hkey⟩
      have hnew : ¬f.Repeats force (L.contents b) a := fun h => by cases hnone.2 h
      obtain ⟨as, w', hturn, haccepts, hrefuses⟩ := ih (hgives.delay hu) hb'
      exact ⟨a :: as, w', .cons (.refl w) hpart (hturn.delay hu),
        accepts_of_new hpart hadd hcontents haccepts,
        refuses_of_new hpart hnew hadd hu hcontents hrefuses⟩

/-! ## Evaluating the literal -/

variable {p : Position} {make : Run β} {result : β → Value}

/-- The literal starts with an empty collection, one level deeper, and makes its value of what the
loop leaves. -/
structure Evaluated (L : Loop f env force β) (p : Position) (make : Run β) (result : β → Value) :
    Prop where
  eval_succ (n : Nat) (parts : List ι) : Machine.eval (n + 1) (f.expr parts p) env =
    (do return result (← L.run n (← make) parts) : Run Value).nested.mapError (.located p)
  make_eq (w : World) : ∃ b w', make w = some (.ok b, w') ∧ L.contents b = [] ∧ w.Ahead w'
  holds_result (b : β) : f.holds (result b) (L.contents b)
  located_refusal (shown : String) :
    Error.located p (f.refusal shown) = .positioned p (f.refusal shown)

theorem Evaluated.evaluates (h : Evaluated L p make result) (hlevel : w.depth < w.maxDepth)
    (hmake : make w.below = some (.ok b, v)) (hrun : ComesTo (L.run · b parts) v r w') :
    Evaluates (f.expr parts p) env w ((r.map result).mapError (.located p)) w'.above := by
  obtain ⟨N, hN⟩ := hrun
  have hbody : (do return result (← L.run N (← make) parts) : Run Value) w.below =
      some (r.map result, w') := by
    rw [Run.bind_of_ok hmake]
    cases r with
    | error e => exact Run.bind_eq_error.2 (.inl (hN N (Nat.le_refl N)))
    | ok b' => exact Run.bind_of_ok (hN N (Nat.le_refl N))
  refine ⟨N + 1, ?_⟩
  rw [h.eval_succ, Run.mapError, Run.nested_of_some (by omega) hbody]
  cases r <;> rfl

theorem Evaluated.detects (h : Evaluated L p make result) (hyields : f.Yields env parts w) :
    f.Detects env force p parts w := by
  obtain ⟨b, v, hmake, hempty, hv⟩ := h.make_eq w.below
  obtain ⟨as, u, hturn, haccepts, hrefuses⟩ :=
    L.run_detects (b := b) (hyields.gives.delay hv) (by simp [hempty])
  rw [Accepts, hempty, List.nil_append] at haccepts
  simp only [Refuses, hempty, List.nil_append] at hrefuses
  have hfails (front : List κ) (a : κ) (back : List κ) (hsplit : as = front ++ a :: back)
      (hfront : f.Distinct force front) (hrepeats : f.Repeats force front a) :
      f.FailsAt env p parts w front a := by
    obtain ⟨v', w', shown, hturn', hshown, hw', hrun⟩ :=
      hrefuses front a back hsplit hfront hrepeats
    refine ⟨v', w'.above, shown, hturn'.delay hv, hshown, hw'.above, fun rest => ?_⟩
    have heval := h.evaluates hyields.level hmake (hrun rest)
    rwa [Except.map, Except.mapError, h.located_refusal] at heval
  refine ⟨as, u, hturn.delay hv, ⟨?_, ?_⟩, hfails⟩
  · rintro ⟨r, w', heval, -, -⟩
    by_contra hdistinct
    obtain ⟨front, a, back, hsplit, hfront, hrepeats⟩ := exists_repeats hdistinct
    obtain ⟨_, _, _, -, -, -, heval'⟩ := hfails front a back hsplit hfront hrepeats
    have hfail := heval' (parts.drop (front.length + 1))
    rw [List.take_append_drop] at hfail
    exact hfail.not_ok heval
  · intro hdistinct
    obtain ⟨b', w', hrun, hcontents, hw'⟩ := haccepts hdistinct
    refine ⟨result b', w'.above, h.evaluates hyields.level hmake hrun, ?_, hw'.above⟩
    exact hcontents ▸ h.holds_result b'

end Loop

end Gather

/-! ## Maps and sets -/

theorem repeats_iff {front : List κ} (hfront : ∀ x ∈ front, (f.key x).LazyFree)
    (ha : (f.key a).LazyFree) :
    f.Repeats force front a ↔ ∃ x ∈ front, agree (f.key x) (f.key a) = true :=
  exists_congr fun x => and_congr_right fun hx => Value.equal_iff_agree force (hfront x hx) ha

def mapLoop (env : FrameRef) (force : Force) : Loop map env force Dict where
  item n e := do
    let key ← Machine.eval n e.1 env
    let value ← Machine.eval n e.2 env
    return (key, value)
  add n m e := m.add? (Value.equals (Machine.force n) n) e.1 e.2
  contents := Dict.entries
  item_comesTo := by
    rintro x a w w' ⟨v, hkey, hvalue⟩
    exact hkey.comesTo.bind (hvalue.comesTo.bind (.pure a w'))
  add_comesTo := by
    intro m e w hm he
    obtain ⟨added, w', hrun, hw', hnone, hsome⟩ := Dict.add?_comesTo e.2 w hm he
    exact ⟨added, w', hrun, hw', hnone.trans (repeats_iff hm he).symm, hsome⟩

def setLoop (env : FrameRef) (force : Force) : Loop set env force ElemSet where
  item n x := Machine.eval n x env
  add n s x := s.add? (Value.equals (Machine.force n) n) x
  contents := ElemSet.items
  item_comesTo := Evaluates.comesTo
  add_comesTo := by
    intro s x w hs hx
    obtain ⟨added, w', hrun, hw', hnone, hsome⟩ := ElemSet.add?_comesTo w hs hx
    exact ⟨added, w', hrun, hw', hnone.trans (repeats_iff hs hx).symm, hsome⟩

theorem addEntries_eq (env : FrameRef) (force : Force) (n : Nat) (m : Dict)
    (entries : List (Expr × Expr)) : Expr.evalWith.addEntries (fun y => Machine.eval n y env)
      (Value.equals (Machine.force n) n) (Value.display (Machine.force n) false n) m entries =
        (mapLoop env force).run n m entries := by
  induction entries generalizing m with
  | nil => rfl
  | cons e entries ih =>
    rw [Expr.evalWith.addEntries, Loop.run, gather]
    simp only [mapLoop, bind_assoc, pure_bind]
    congr 1
    funext key
    congr 1
    funext value
    congr 1
    funext added
    cases added with
    | none => rfl
    | some m => exact ih m

theorem addItems_eq (env : FrameRef) (force : Force) (n : Nat) (s : ElemSet)
    (items : List Expr) : Expr.evalWith.addItems (fun y => Machine.eval n y env)
      (Value.equals (Machine.force n) n) (Value.display (Machine.force n) false n) s items =
        (setLoop env force).run n s items := by
  induction items generalizing s with
  | nil => rfl
  | cons x items ih =>
    rw [Expr.evalWith.addItems, Loop.run, gather]
    congr 1
    funext value
    congr 1
    funext added
    cases added with
    | none => rfl
    | some s => exact ih s

theorem mapLoop_evaluated (env : FrameRef) (force : Force) (p : Position) :
    (mapLoop env force).Evaluated p Dict.new Value.map where
  eval_succ n entries := by
    simp only [← addEntries_eq]
    rfl
  make_eq w := ⟨_, _, rfl, rfl, 1, rfl⟩
  holds_result m := ⟨m, rfl, rfl⟩
  located_refusal _ := rfl

theorem setLoop_evaluated (env : FrameRef) (force : Force) (p : Position) :
    (setLoop env force).Evaluated p ElemSet.new Value.set where
  eval_succ n items := by
    simp only [← addItems_eq]
    rfl
  make_eq w := ⟨_, _, rfl, rfl, 1, rfl⟩
  holds_result s := ⟨s, rfl, rfl⟩
  located_refusal _ := rfl

end Collecting

/-- The literal of a map whose entries give keys and values comes to the map of just these entries
in order if and only if no two keys are equal. Otherwise it fails with the first key that is equal
to an earlier one, after the evaluation of its entry and before that of any other. The same holds
for the literal of a set and its elements. -/
theorem collecting_literal_detects_repeats (env : FrameRef) (force : Force) (p : Position)
    (w : World) :
    (∀ entries, Collecting.map.Yields env entries w →
      Collecting.map.Detects env force p entries w) ∧
    ∀ items, Collecting.set.Yields env items w → Collecting.set.Detects env force p items w := by
  constructor
  · intro entries hyields
    exact (Collecting.mapLoop_evaluated env force p).detects hyields
  · intro items hyields
    exact (Collecting.setLoop_evaluated env force p).detects hyields

/-- A vector and a list with the same element cannot both be keys. The values count how many entries
were evaluated. -/
theorem collecting_literal_detects_repeats_list :
    let p : Position := ⟨1, 1⟩
    let tick : Expr := .call (.literal (.proc ⟨"tick", 0⟩) p) [] p
    let vector : Value := .vector ⟨⟨0, [.int 1]⟩, .plain⟩
    let list : Value := .seq (.cons 1 (.int 1) (.empty .plain) .plain)
    let entries : List (Expr × Expr) :=
      [(.literal vector p, tick), (.literal list p, tick), (.literal .nil p, tick)]
    let items : List Expr := [.literal list p, .literal vector p]
    let w : World := { natives := ⟨#[fun _ => Action.request (.tick 0)]⟩, counters := ⟨#[0]⟩ }
    (Collecting.map.Yields 0 entries w ∧ Collecting.map.Detects 0 (Machine.force 0) p entries w) ∧
    (Collecting.set.Yields 0 items w ∧ Collecting.set.Detects 0 (Machine.force 0) p items w) ∧
    Equal (Machine.force 0) vector list := by
  intro p tick vector list entries items w
  let stage (k c : Nat) : World := { w.below with storages := k, counters := ⟨#[c]⟩ }
  have hliteral (a : Value) (k c : Nat) :
      Evaluates (.literal a p) 0 (stage k c) (.ok a) (stage k c) := ⟨1, rfl⟩
  have htick (k c : Nat) :
      Evaluates tick 0 (stage k c) (.ok (.int (Int64.ofNat c))) (stage k (c + 1)) := ⟨4, rfl⟩
  have hatom (a : Atom) : (Value.atom a).LazyFree :=
    Value.everywhere_iff.2 ⟨rfl, by simp [Value.parts]⟩
  have hone : ∀ x ∈ [Value.int 1], x.LazyFree := by
    rintro x hx
    rw [List.mem_singleton.1 hx]
    exact hatom (.int 1)
  have hvector : vector.LazyFree := Value.everywhere_iff.2 ⟨rfl, hone⟩
  have hlist : list.LazyFree := by
    refine Value.everywhere_iff.2 ⟨rfl, fun x hx => ?_⟩
    rcases List.mem_cons.1 hx with rfl | hx
    · exact hatom (.int 1)
    · rw [List.mem_singleton.1 hx]
      exact Value.everywhere_iff.2 ⟨rfl, by simp [Value.parts]⟩
  have hmap : Collecting.map.Yields 0 entries w := by
    refine ⟨by decide, ?_⟩
    rintro _ ⟨k, rfl⟩
    refine ⟨(_, _), _, ⟨_, hliteral _ _ _, htick _ _⟩, hvector, ?_⟩
    rintro _ ⟨k, rfl⟩
    refine ⟨(_, _), _, ⟨_, hliteral _ _ _, htick _ _⟩, hlist, ?_⟩
    rintro _ ⟨k, rfl⟩
    exact ⟨(_, _), _, ⟨_, hliteral _ _ _, htick _ _⟩, hatom _, trivial⟩
  have hset : Collecting.set.Yields 0 items w := by
    refine ⟨by decide, ?_⟩
    rintro _ ⟨k, rfl⟩
    refine ⟨_, _, hliteral _ _ _, hlist, ?_⟩
    rintro _ ⟨k, rfl⟩
    exact ⟨_, _, hliteral _ _ _, hvector, trivial⟩
  have hdetects := collecting_literal_detects_repeats 0 (Machine.force 0) p w
  exact ⟨⟨hmap, hdetects.1 entries hmap⟩, ⟨hset, hdetects.2 items hset⟩,
    (Value.equal_iff_agree _ hvector hlist).2 (by decide)⟩

end LispKernel
