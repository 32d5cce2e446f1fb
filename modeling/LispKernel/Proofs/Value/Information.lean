import LispKernel.Proofs.Dict.FiniteMap
import LispKernel.Proofs.ElemSet.FiniteSet
import LispKernel.Proofs.Hash.Agreement
import LispKernel.Proofs.Render.Text
import LispKernel.Proofs.Value.Reannotation

/-!
# Positions and metadata do not show

A value without lazy cells is compared, hashed, rendered and looked up in the same way whatever
positions and metadata there are on it and in it. Hash codes and texts are functions of what the
value is made of. A comparison has a shortcut for values in the same storage, which a change of
annotations may open or close; where no NaN occurs the shortcut is no more than that.
-/
namespace LispKernel

open List (Forall₂)
open Run (Settles SettlesIn Refines)

/-! ## Searches in lists that correspond -/

section Lists

variable {α β : Type} {T : α → β → Prop} {l : List α} {l' : List β}

theorem any_eq_of_forall₂ {q : α → Bool} {q' : β → Bool} (h : Forall₂ T l l')
    (hq : ∀ e e', T e e' → q e = q' e') : l.any q = l'.any q' := by
  induction h with
  | nil => rfl
  | cons he _ ih => rw [List.any_cons, List.any_cons, hq _ _ he, ih]

theorem all_eq_of_forall₂ {q : α → Bool} {q' : β → Bool} (h : Forall₂ T l l')
    (hq : ∀ e e', T e e' → q e = q' e') : l.all q = l'.all q' := by
  induction h with
  | nil => rfl
  | cons he _ ih => rw [List.all_cons, List.all_cons, hq _ _ he, ih]

theorem find?_rel_of_forall₂ {q : α → Bool} {q' : β → Bool} (h : Forall₂ T l l')
    (hq : ∀ e e', T e e' → q e = q' e') : Option.Rel T (l.find? q) (l'.find? q') := by
  induction h with
  | nil => exact .none
  | @cons e e' _ _ he _ ih =>
    rw [List.find?_cons, List.find?_cons, ← hq e e' he]
    cases q e with
    | true => exact .some he
    | false => exact ih

theorem any_eq_of_rel {q : α → Bool} {q' : β → Bool} {o : Option α} {o' : Option β}
    (h : Option.Rel T o o') (hq : ∀ e e', T e e' → q e = q' e') : o.any q = o'.any q' := by
  cases h with
  | none => rfl
  | some he => exact hq _ _ he

theorem isSome_eq_of_rel {o : Option α} {o' : Option β} (h : Option.Rel T o o') :
    o.isSome = o'.isSome := by
  cases h <;> rfl

theorem rel_map {γ δ : Type} {U : γ → δ → Prop} {f : α → γ} {g : β → δ} {o : Option α}
    {o' : Option β} (h : Option.Rel T o o') (hU : ∀ e e', T e e' → U (f e) (g e')) :
    Option.Rel U (o.map f) (o'.map g) := by
  cases h with
  | none => exact .none
  | some he => exact .some (hU _ _ he)

end Lists

/-! ## Contents that correspond -/

namespace Content

variable {R S : Value → Value → Prop} {p : Test} {c c' d d' : Content}

theorem isEqv_paired {xs xs' ys ys' : List Value} (hx : Forall₂ R xs xs') (hy : Forall₂ S ys ys')
    (h : ∀ x x' y y', R x x' → S y y' → p x y = p x' y') : xs.isEqv ys p = xs'.isEqv ys' p := by
  induction hx generalizing ys ys' with
  | nil => cases hy <;> rfl
  | cons hxx' _ ih =>
    cases hy with
    | nil => rfl
    | cons hyy' hys => rw [List.isEqv, List.isEqv, h _ _ _ _ hxx' hyy', ih hys]

/-- A test that cannot tell the parts apart cannot tell the contents apart. -/
theorem agreeBy_paired (hc : Paired R c c') (hd : Paired S d d')
    (h : ∀ x x' y y', R x x' → S y y' → p x y = p x' y' ∧ p y x = p y' x') :
    c.agreeBy p d = c'.agreeBy p d' := by
  cases hc with
  | atom a => cases hd <;> rfl
  | items hx =>
    cases hd with
    | items hy => exact isEqv_paired hx hy fun x x' y y' hx hy => (h x x' y y' hx hy).1
    | _ => rfl
  | entries hl =>
    cases hd with
    | entries hr =>
      rw [agreeBy, agreeBy, hl.length_eq, hr.length_eq]
      congr 1
      refine all_eq_of_forall₂ hl fun e e' he => ?_
      have hfind : Option.Rel _ (Table.find? p e.1 _) (Table.find? p e'.1 _) :=
        find?_rel_of_forall₂ hr fun f f' hf => (h _ _ _ _ he.1 hf.1).2
      exact any_eq_of_rel hfind fun f f' hf => (h _ _ _ _ he.2 hf.2).2
    | _ => rfl
  | elems hx =>
    cases hd with
    | elems hy =>
      rw [agreeBy, agreeBy, hx.length_eq, hy.length_eq]
      congr 1
      refine all_eq_of_forall₂ hx fun x x' hxx' => ?_
      exact any_eq_of_forall₂ hy fun y y' hyy' => (h _ _ _ _ hxx' hyy').1
    | _ => rfl

theorem hashBy_paired (single : Identity → UInt32) {h : Value → UInt32} (hc : Paired R c c')
    (hR : ∀ x y, R x y → h x = h y) : c.hashBy single h = c'.hashBy single h := by
  cases hc with
  | atom a => rfl
  | items hx => rw [hashBy, hashBy, map_eq_of_forall₂ hx fun x _ y _ => hR x y]
  | entries hl =>
    rw [hashBy, hashBy, map_eq_of_forall₂ hl]
    intro e _ f _ hef
    rw [hR _ _ hef.1, hR _ _ hef.2]
  | elems hx => rw [hashBy, hashBy, map_eq_of_forall₂ hx fun x _ y _ => hR x y]

end Content

namespace Value

variable {σ σ' : Store} {a a' b b' : Value}

/-! ## Comparison -/

theorem NaNFree.related_self (h : a.NaNFree) : Content.Related agree a.content a.content := by
  have hself : a.content.Forall fun x => agree x x = true := h.content.imp fun x => agree_self
  cases a with
  | atom a => exact .atom (equals_self h.here)
  | vector v => exact .items (List.forall₂_same.2 hself)
  | map m => exact .entries ⟨m.entries, .refl _, List.forall₂_same.2 hself⟩
  | set s => exact .elems ⟨s.items, .refl _, List.forall₂_same.2 hself⟩
  | seq s => exact .items (List.forall₂_same.2 hself)

/-- Where no NaN occurs on one side, storage plays no part in a comparison. -/
theorem Lawful.agree_eq_content (ha : a.Lawful σ) (hb : b.Lawful σ)
    (hnan : a.NaNFree ∨ b.NaNFree) : agree a b = a.content.agreeBy agree b.content := by
  rw [agree_eq, agreeBy]
  cases hident : a.identical b with
  | false => rfl
  | true =>
    have hcontent := Store.content_eq_of_identical ha.stored.here hb.stored.here hident
    have hrelated : Content.Related agree a.content b.content := by
      rcases hnan with h | h
      · exact hcontent ▸ h.related_self
      · exact hcontent ▸ h.related_self
    rw [Bool.true_or]
    exact ((Content.agreeBy_iff (agree_partialEquivalence σ) ha.content hb.content ha.distinct
      hb.distinct).2 hrelated).symm

/-- Values of one store agree just as their reannotations in another. -/
theorem Reannotated.agree_eq (ha : a.Lawful σ) (hb : b.Lawful σ) (ha' : a'.Lawful σ')
    (hb' : b'.Lawful σ') (hnan : a.NaNFree ∨ b.NaNFree) (haa' : a.Reannotated a')
    (hbb' : b.Reannotated b') : agree a b = agree a' b' := by
  induction hd : a.weight + b.weight using Nat.strongRecOn generalizing a a' b b' with
  | ind d ih =>
    rw [ha.agree_eq_content hb hnan,
      ha'.agree_eq_content hb' (hnan.imp haa'.nanFree hbb'.nanFree)]
    have hfree (v : Value) : v.content.Forall fun x => v.NaNFree → x.NaNFree := by
      by_cases hv : v.NaNFree
      · exact hv.content.imp fun x hx _ => hx
      · exact v.weight_content.imp fun x _ h => absurd h hv
    have hparts {v v' : Value} (hv : v.Lawful σ) (hv' : v'.Lawful σ') (h : v.Reannotated v') :=
      h.content.refine (hv.content.and (v.weight_content.and (hfree v))) hv'.content
    apply Content.agreeBy_paired (hparts ha ha' haa') (hparts hb hb' hbb')
    rintro x x' y y' ⟨hxx', ⟨hx, hxlt, hxfree⟩, hx'⟩ ⟨hyy', ⟨hy, hylt, hyfree⟩, hy'⟩
    have hxy := hnan.imp hxfree hyfree
    exact ⟨ih _ (by omega) hx hy hx' hy' hxy hxx' hyy' rfl,
      ih _ (by omega) hy hx hy' hx' hxy.symm hyy' hxx' rfl⟩

/-! ## Hash codes and texts -/

theorem Reannotated.digest_eq (single : Identity → UInt32) (h : a.Reannotated a') :
    digest single a = digest single a' := by
  induction hd : a.weight using Nat.strongRecOn generalizing a a' with
  | ind d ih =>
    have hparts := h.content.refine a.weight_content a'.weight_content
    rw [Value.digest_eq, Value.digest_eq single a']
    exact Content.hashBy_paired single hparts fun x y hxy => ih _ (hd ▸ hxy.2.1) hxy.1 rfl

theorem Reannotated.text_eq (escape : Bool) (limit : Option Nat) (h : a.Reannotated a') :
    text escape limit a = text escape limit a' := by
  induction hd : a.weight using Nat.strongRecOn generalizing a a' with
  | ind d ih =>
    have hitems {xs ys : List Value} (hx : ∀ x ∈ xs, x.weight < a.weight)
        (hxy : Forall₂ Reannotated xs ys) :
        xs.map (text escape limit) = ys.map (text escape limit) :=
      map_eq_of_forall₂ hxy fun x hmem y _ hxy => ih _ (hd ▸ hx x hmem) hxy rfl
    have hweight := a.weight_content
    rw [Value.text_eq, Value.text_eq escape limit a']
    cases a with
    | atom a =>
      cases h
      rfl
    | vector v =>
      cases h with
      | vector hv => rw [textBy, textBy, hitems hweight hv]
    | map m =>
      cases h with
      | map hl =>
        rw [textBy, textBy, map_eq_of_forall₂ hl]
        intro e he f _ hef
        obtain ⟨hkey, hvalue⟩ := entryReannotated_iff.1 hef
        rw [ih _ (hd ▸ (hweight e he).1) hkey rfl, ih _ (hd ▸ (hweight e he).2) hvalue rfl]
    | set s =>
      cases h with
      | set hs => rw [textBy, textBy, hitems hweight hs]
    | seq s =>
      obtain ⟨t, rfl⟩ := h.eq_seq
      rw [textBy, textBy, hitems hweight h.items]

theorem render_settlesIn (force : Force) (escape : Bool) (world : World) (ha : a.LazyFree) :
    SettlesIn (World.Storing world) (fun n => a.render force escape n)
      (· = text escape world.printLength a) := by
  refine .of_returnsIn (N := a.weight) (render_mono escape force a) fun n hn => ?_
  have hrun := render_returns_expand escape world.printLength
    (.nothing force (World.Storing.elastic world)) (by rintro w ⟨k, rfl⟩; rfl) ha
    (n := n) (by rw [a.expand_lazy]; exact hn)
  rwa [a.expand_lazy] at hrun

end Value

/-! ## Lookups -/

open Value (Lawful Reannotated agree)

variable {σ σ' : Store} {key key' : Value}

namespace Dict

variable {m m' : Dict}

theorem lookup_rel (hm : ∀ e ∈ m.entries, e.1.Lawful σ) (hm' : ∀ e ∈ m'.entries, e.1.Lawful σ')
    (hmm' : (Value.map m).Reannotated (.map m')) (hkey : key.Lawful σ) (hkey' : key'.Lawful σ')
    (hnan : key.NaNFree) (hkk' : key.Reannotated key') :
    Option.Rel Reannotated (Table.lookup agree key m.entries)
      (Table.lookup agree key' m'.entries) := by
  cases hmm' with
  | map hl =>
    have hl := forall₂_mono_mem hl fun e he f hf hef =>
      And.intro (entryReannotated_iff.1 hef) (And.intro (hm e he) (hm' f hf))
    have hfind : Option.Rel _ (Table.find? agree key m.entries)
        (Table.find? agree key' m'.entries) :=
      find?_rel_of_forall₂ hl fun e f hef =>
        Reannotated.agree_eq hef.2.1 hkey hef.2.2 hkey' (.inr hnan) hef.1.1 hkk'
    exact rel_map hfind fun e f hef => hef.1.2

variable (force : Force) (hm : ∀ e ∈ m.entries, e.1.Lawful σ) (hkey : key.Lawful σ)

include hm hkey

theorem tryGet_settles : Settles (fun n => m.tryGet (Value.equals force n) key)
    (· = Table.lookup agree key m.entries) := by
  refine Value.settles_of_decides force (x := fun eq => m.tryGet eq key)
    (N := entriesWeight m.entries + key.weight) (fun heq => tryGet_congr Refines.any heq m key) ?_
  intro n hn I eq hI heq
  exact tryGet_returns heq ⟨hkey.lazyFree, by omega⟩ (keys_fit hm (by omega))

theorem containsKey_settles : Settles (fun n => m.containsKey (Value.equals force n) key)
    (· = (Table.lookup agree key m.entries).isSome) := by
  refine Value.settles_of_decides force (x := fun eq => m.containsKey eq key)
    (N := entriesWeight m.entries + key.weight)
    (fun heq => Refines.any.bind (get_congr Refines.any heq m key) fun _ => Refines.any.pure _) ?_
  intro n hn I eq hI heq
  refine (get_returns heq ⟨hkey.lazyFree, by omega⟩ (keys_fit hm (by omega))).bind fun found h => ?_
  exact .pure (by rw [h])

end Dict

namespace ElemSet

variable {s s' : ElemSet}

theorem any_agree_eq (hs : ∀ x ∈ s.items, x.Lawful σ) (hs' : ∀ x ∈ s'.items, x.Lawful σ')
    (hss' : (Value.set s).Reannotated (.set s')) (hkey : key.Lawful σ) (hkey' : key'.Lawful σ')
    (hnan : key.NaNFree) (hkk' : key.Reannotated key') :
    s.items.any (agree · key) = s'.items.any (agree · key') := by
  cases hss' with
  | set hitems =>
    have hitems := forall₂_mono_mem hitems fun x hx y hy hxy =>
      And.intro hxy (And.intro (hs x hx) (hs' y hy))
    refine any_eq_of_forall₂ hitems fun x y hxy => ?_
    exact Reannotated.agree_eq hxy.2.1 hkey hxy.2.2 hkey' (.inr hnan) hxy.1 hkk'

end ElemSet

/-- Both runs settle, and the values they settle on are related. -/
def Run.Concur {α β : Type} (R : α → β → Prop) (x : Nat → Run α) (y : Nat → Run β) : Prop :=
  ∃ a b, Settles x (· = a) ∧ Settles y (· = b) ∧ R a b

open Run (Concur)

namespace Value

/-- Whatever positions and metadata are changed in two lawful values, the answers are those that
the values gave before: of a comparison, of a hash code, of a text in whatever world it is rendered,
and of a search in maps and sets, whose keys and elements may be reannotated as well. -/
theorem information_invisible (force : Force) {σ σ' : Store} {a a' b b' : Value} (ha : a.Lawful σ)
    (hb : b.Lawful σ) (ha' : a'.Lawful σ') (hb' : b'.Lawful σ') (hnan : a.NaNFree)
    (haa' : a.Reannotated a') (hbb' : b.Reannotated b') :
    Concur (· = ·) (fun n => a.equals force n b) (fun n => a'.equals force n b') ∧
    (∀ single, Concur (· = ·) (fun n => a.hash force single n) (fun n => a'.hash force single n)) ∧
    (∀ escape world, ∃ text,
      SettlesIn (World.Storing world) (fun n => a.render force escape n) (· = text) ∧
      SettlesIn (World.Storing world) (fun n => a'.render force escape n) (· = text)) ∧
    (∀ m m' : Dict, (∀ e ∈ m.entries, e.1.Lawful σ) → (∀ e ∈ m'.entries, e.1.Lawful σ') →
      (map m).Reannotated (map m') →
      Concur (· = ·) (fun n => m.containsKey (equals force n) a)
        (fun n => m'.containsKey (equals force n) a') ∧
      Concur (Option.Rel Reannotated) (fun n => m.get (equals force n) a)
        (fun n => m'.get (equals force n) a') ∧
      Concur (Option.Rel Reannotated) (fun n => m.tryGet (equals force n) a)
        (fun n => m'.tryGet (equals force n) a')) ∧
    (∀ s s' : ElemSet, (∀ x ∈ s.items, x.Lawful σ) → (∀ x ∈ s'.items, x.Lawful σ') →
      (set s).Reannotated (set s') →
      Concur (· = ·) (fun n => s.contains (equals force n) a)
        (fun n => s'.contains (equals force n) a') ∧
      Concur (· = ·) (fun n => s.tryContains (equals force n) a)
        (fun n => s'.tryContains (equals force n) a')) := by
  refine ⟨?_, fun single => ?_, fun escape world => ?_, ?_, ?_⟩
  · exact ⟨_, _, equals_settles force ha.lazyFree hb.lazyFree,
      equals_settles force ha'.lazyFree hb'.lazyFree,
      Reannotated.agree_eq ha hb ha' hb' (.inl hnan) haa' hbb'⟩
  · exact ⟨_, _, hash_settles single force ha.lazyFree, hash_settles single force ha'.lazyFree,
      haa'.digest_eq single⟩
  · refine ⟨_, render_settlesIn force escape world ha.lazyFree, ?_⟩
    rw [haa'.text_eq escape world.printLength]
    exact render_settlesIn force escape world ha'.lazyFree
  · intro m m' hm hm' hmm'
    have hfound := Dict.lookup_rel hm hm' hmm' ha ha' hnan haa'
    exact ⟨⟨_, _, Dict.containsKey_settles force hm ha, Dict.containsKey_settles force hm' ha',
        isSome_eq_of_rel hfound⟩,
      ⟨_, _, Dict.get_settles force hm ha, Dict.get_settles force hm' ha', hfound⟩,
      ⟨_, _, Dict.tryGet_settles force hm ha, Dict.tryGet_settles force hm' ha', hfound⟩⟩
  · intro s s' hs hs' hss'
    have hfound := ElemSet.any_agree_eq hs hs' hss' ha ha' hnan haa'
    exact ⟨⟨_, _, ElemSet.contains_settles force hs ha, ElemSet.contains_settles force hs' ha',
        hfound⟩,
      ⟨_, _, ElemSet.tryContains_settles force hs ha, ElemSet.tryContains_settles force hs' ha',
        hfound⟩⟩

/-- A list and a map in a vector, annotated anew at every level, are compared with an array that
shares the plain list and map with the plain vector, and looked up in a map that has the array for a
key. -/
theorem information_invisible_nested :
    let info : Info := ⟨some ⟨3, 7⟩, some ⟨1, [(.keyword ⟨none, "doc"⟩, .nil)], .plain⟩⟩
    let list : Value := .seq (.cons 2 (.int 1) (.empty .plain) .plain)
    let list' : Value := .seq (.cons 12 (.int 1) (.empty info) info)
    let m : Dict := ⟨3, [(.int 2, .vector ⟨⟨4, []⟩, .plain⟩)], .plain⟩
    let m' : Dict := ⟨13, [(.int 2, .vector ⟨⟨14, []⟩, info⟩)], info⟩
    let a : Value := .vector ⟨⟨5, [list, .map m]⟩, .plain⟩
    let a' : Value := .vector ⟨⟨15, [list', .map m']⟩, info⟩
    let b : Value := .seq (.view .array 6 ⟨#[list, .map m], 0⟩ .plain)
    let o : Dict := ⟨7, [(b, .int 5)], .plain⟩
    let σ : Store := ⟨fun c => (.int 1, .empty (if c = 2 then .plain else info)),
      fun _ => [list, .map m], fun c => if c = 3 then m.entries else m'.entries⟩
    let force : Force := fun _ => Run.exhausted
    (a.Lawful σ ∧ b.Lawful σ ∧ a'.Lawful σ ∧ a.NaNFree ∧ a.Reannotated a' ∧ b.Reannotated b ∧
      ∀ e ∈ o.entries, e.1.Lawful σ) ∧
    Equal force a' b ∧ Settles (fun n => o.containsKey (equals force n) a') (· = true) := by
  intro info list list' m m' a a' b o σ force
  have hrun : Dict.ofList (equals force 1) m.entries { storages := 2 } =
      some (.ok m, { storages := 4 }) := rfl
  have hrun' : Dict.ofList (equals force 1) m'.entries { storages := 12 } =
      some (.ok { m' with info := .plain }, { storages := 14 }) := rfl
  have hempty (i : Info) (c : Storage) : (vector ⟨⟨c, []⟩, i⟩).Lawful σ :=
    lawful_iff.2 ⟨⟨rfl, trivial, trivial⟩, by simp [parts, Vec.items]⟩
  have hlist : list.Lawful σ :=
    lawful_iff.2 ⟨⟨rfl, trivial, rfl⟩, by simp [parts, list, lawful_atom, lawful_empty]⟩
  have hlist' : list'.Lawful σ :=
    lawful_iff.2 ⟨⟨rfl, trivial, rfl⟩, by simp [parts, list', lawful_atom, lawful_empty]⟩
  have hm : (map m).Lawful σ := lawful_iff.2
    ⟨⟨rfl, .ofList (fun _ _ => trivial) hrun, rfl⟩, by simp [parts, m, lawful_atom, hempty]⟩
  have hm' : (map m').Lawful σ := lawful_iff.2
    ⟨⟨rfl, .withInfo info (.ofList (fun _ _ => trivial) hrun'), rfl⟩,
      by simp [parts, m', lawful_atom, hempty]⟩
  have ha : a.Lawful σ :=
    lawful_iff.2 ⟨⟨rfl, trivial, trivial⟩, by simp [parts, a, Vec.items, hlist, hm]⟩
  have ha' : a'.Lawful σ :=
    lawful_iff.2 ⟨⟨rfl, trivial, trivial⟩, by simp [parts, a', Vec.items, hlist', hm']⟩
  have hb : b.Lawful σ :=
    lawful_iff.2 ⟨⟨rfl, trivial, rfl⟩, by simp [parts, b, Slice.toList, hlist, hm]⟩
  have ho : ∀ e ∈ o.entries, e.1.Lawful σ := by simp [o, hb]
  have hfree {v : Value} (hv : v.isNaN = false) (hparts : ∀ x ∈ v.parts, x.NaNFree) : v.NaNFree :=
    everywhere_iff.2 ⟨hv, hparts⟩
  have hint (n : Int64) : (int n).NaNFree := hfree rfl (by simp [parts])
  have hnil : (seq (.empty .plain)).NaNFree := hfree rfl (by simp [parts])
  have hvector : (vector ⟨⟨4, []⟩, .plain⟩).NaNFree := hfree rfl (by simp [parts, Vec.items])
  have hlistfree : list.NaNFree := hfree rfl (by simp [parts, list, hint, hnil])
  have hmfree : (map m).NaNFree := hfree rfl (by simp [parts, m, hint, hvector])
  have hnan : a.NaNFree := hfree rfl (by simp [parts, a, Vec.items, hlistfree, hmfree])
  have hlists : list.Reannotated list' := .cons (.atom _) .empty
  have hmaps : (map m).Reannotated (map m') := .map (.cons (.mk (.atom _) (.vector .nil)) .nil)
  have haa' : a.Reannotated a' := .vector (.cons hlists (.cons hmaps .nil))
  have hall := information_invisible force ha hb ha' hb hnan haa' (.refl b)
  refine ⟨⟨ha, hb, ha', hnan, haa', .refl b, ho⟩, ?_, ?_⟩
  · obtain ⟨r, r', hr, hr', rfl⟩ := hall.1
    have htrue : r = true :=
      hr.unique ((equal_iff_agree force ha.lazyFree hb.lazyFree).2 (by decide))
    rw [htrue] at hr'
    exact hr'
  · obtain ⟨r, r', hr, hr', rfl⟩ := (hall.2.2.2.1 o o ho ho (.refl _)).1
    have htrue : r = true := hr.unique (Dict.containsKey_settles force ho ha)
    rw [htrue] at hr'
    exact hr'

end Value

end LispKernel
