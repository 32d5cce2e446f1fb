import LispKernel.Proofs.Matching
import LispKernel.Proofs.Value.Expansion

/-!
# Values with other positions and metadata

Two values that differ in nothing but the positions and the metadata on what occurs in them. A value
in which something deep down is annotated anew has to be in other storage from there upwards, so
nothing is said of storage either, nor of the elements that a view has left behind. The parts of
such values correspond one to one, and so do their contents.
-/
namespace LispKernel

open List (Forall₂)

mutual

/-- The same value but for positions, metadata and storage, at any depth. -/
inductive Value.Reannotated : Value → Value → Prop where
  | atom (a : Atom) : Value.Reannotated (.atom a) (.atom a)
  | vector {v u : Vec} : Forall₂ Value.Reannotated v.items u.items →
      Value.Reannotated (.vector v) (.vector u)
  | map {m o : Dict} : Forall₂ EntryReannotated m.entries o.entries →
      Value.Reannotated (.map m) (.map o)
  | set {s t : ElemSet} : Forall₂ Value.Reannotated s.items t.items →
      Value.Reannotated (.set s) (.set t)
  | empty {i j : Info} : Value.Reannotated (.seq (.empty i)) (.seq (.empty j))
  | cons {c d : Storage} {x y : Value} {s t : Seq} {i j : Info} : Value.Reannotated x y →
      Value.Reannotated (.seq s) (.seq t) →
      Value.Reannotated (.seq (.cons c x s i)) (.seq (.cons d y t j))
  | view {kind : ViewKind} {c d : Storage} {xs ys : Slice} {i j : Info} :
      Forall₂ Value.Reannotated xs.toList ys.toList →
      Value.Reannotated (.seq (.view kind c xs i)) (.seq (.view kind d ys j))
  | entries {c d : Storage} {l l' : EntrySlice} {i j : Info} :
      Forall₂ Value.Reannotated l.flat l'.flat →
      Value.Reannotated (.seq (.entries c l i)) (.seq (.entries d l' j))
  | lazy {cell : LazyRef} {i j : Info} :
      Value.Reannotated (.seq (.lazy cell i)) (.seq (.lazy cell j))

inductive EntryReannotated : Value × Value → Value × Value → Prop where
  | mk {k k' v v' : Value} : Value.Reannotated k k' → Value.Reannotated v v' →
      EntryReannotated (k, v) (k', v')

end

theorem entryReannotated_iff {e f : Value × Value} :
    EntryReannotated e f ↔ e.1.Reannotated f.1 ∧ e.2.Reannotated f.2 :=
  ⟨fun ⟨hkey, hvalue⟩ => ⟨hkey, hvalue⟩, fun h => .mk h.1 h.2⟩

namespace Value.Reannotated

variable {a a' : Value}

/-! ## Parts -/

theorem parts (h : a.Reannotated a') : Forall₂ Reannotated a.parts a'.parts := by
  have hentries {l l' : List (Value × Value)} (hl : Forall₂ EntryReannotated l l') :
      Forall₂ Reannotated (l.flatMap fun e => [e.1, e.2]) (l'.flatMap fun e => [e.1, e.2]) := by
    apply List.rel_flatMap hl
    rintro e f hef
    obtain ⟨hkey, hvalue⟩ := entryReannotated_iff.1 hef
    exact .cons hkey (.cons hvalue .nil)
  cases h with
  | atom | empty | lazy => exact .nil
  | vector hitems | set hitems | view hitems | entries hitems => exact hitems
  | map hl => exact hentries hl
  | cons hx hs => exact .cons hx (.cons hs .nil)

theorem nanFree (h : a.Reannotated a') (ha : a.NaNFree) : a'.NaNFree := by
  induction hd : a.weight using Nat.strongRecOn generalizing a a' with
  | ind d ih =>
    obtain ⟨hnan, hparts⟩ := everywhere_iff.1 ha
    refine everywhere_iff.2 ⟨?_, fun x' hx' => ?_⟩
    · cases h <;> exact hnan
    · obtain ⟨x, hx, hxx'⟩ := (Matching.symm ⟨_, .refl _, h.parts⟩).exists_right hx'
      exact ih x.weight (hd ▸ weight_lt_of_mem_parts hx) hxx' (hparts x hx) rfl

/-- Every value is a reannotation of itself. -/
protected theorem refl (v : Value) : v.Reannotated v := by
  induction hd : v.weight using Nat.strongRecOn generalizing v with
  | ind d ih =>
    have hparts : ∀ x ∈ v.parts, x.Reannotated x := fun x hx =>
      ih x.weight (hd ▸ weight_lt_of_mem_parts hx) x rfl
    have hentries {l : List (Value × Value)}
        (hl : ∀ x ∈ l.flatMap fun e => [e.1, e.2], x.Reannotated x) :
        Forall₂ EntryReannotated l l :=
      List.forall₂_same.2 fun e he => entryReannotated_iff.2 (forall_entries hl e he)
    cases v with
    | atom a => exact .atom a
    | vector v => exact .vector (List.forall₂_same.2 hparts)
    | map m => exact .map (hentries hparts)
    | set s => exact .set (List.forall₂_same.2 hparts)
    | seq s =>
      cases s with
      | empty info => exact .empty
      | cons cell x rest info =>
        exact .cons (hparts x (by simp [Value.parts])) (hparts (seq rest) (by simp [Value.parts]))
      | view kind storage slice info => exact .view (List.forall₂_same.2 hparts)
      | entries storage slice info => exact .entries (List.forall₂_same.2 hparts)
      | lazy cell info => exact .lazy

/-! ## Elements -/

theorem pair {k k' v v' : Value} (hk : k.Reannotated k') (hv : v.Reannotated v') :
    (Value.pair k v).Reannotated (Value.pair k' v') :=
  .vector (.cons hk (.cons hv .nil))

/-- Entries are related if their keys and values are. -/
theorem forall₂_pairUp {R : Value → Value → Prop} {xs ys : List Value} (h : Forall₂ R xs ys) :
    Forall₂ (fun e f => R e.1 f.1 ∧ R e.2 f.2) (EntrySlice.pairUp xs) (EntrySlice.pairUp ys) := by
  induction xs using EntrySlice.pairUp.induct generalizing ys with
  | case1 key value rest ih =>
    obtain _ | ⟨hkey, _ | ⟨hvalue, hrest⟩⟩ := h
    exact .cons ⟨hkey, hvalue⟩ (ih hrest)
  | case2 xs hxs =>
    obtain _ | ⟨hx, _ | ⟨hy, hrest⟩⟩ := h
    · simp [EntrySlice.pairUp]
    · simp [EntrySlice.pairUp]
    · exact absurd rfl (hxs _ _ _)

theorem eq_seq {s : Seq} (h : (seq s).Reannotated a') : ∃ t, a' = seq t := by
  cases h <;> exact ⟨_, rfl⟩

theorem items {s t : Seq} (h : (seq s).Reannotated (seq t)) :
    Forall₂ Reannotated s.items t.items := by
  induction s using Seq.items.induct generalizing t with
  | case1 info =>
    cases h
    exact .nil
  | case2 cell first rest info ih =>
    cases h with
    | cons hx hs => exact .cons hx (ih hs)
  | case3 kind storage slice info =>
    cases h with
    | view hitems => exact hitems
  | case4 storage slice info =>
    cases h with
    | entries hl =>
      rw [Seq.items, Seq.items, EntrySlice.map, EntrySlice.map, List.forall₂_map_left_iff,
        List.forall₂_map_right_iff]
      exact (forall₂_pairUp hl).imp fun e f hef => hef.1.pair hef.2
  | case5 cell info =>
    cases h
    exact .nil

end Value.Reannotated

/-! ## Contents -/

namespace Content

/-- The parts of two contents are related one to one, in the order they are in. -/
inductive Paired (R : Value → Value → Prop) : Content → Content → Prop where
  | atom (a : Atom) : Paired R (.atom a) (.atom a)
  | items {xs ys : List Value} : Forall₂ R xs ys → Paired R (.items xs) (.items ys)
  | entries {l l' : List (Value × Value)} :
      Forall₂ (fun e f => R e.1 f.1 ∧ R e.2 f.2) l l' → Paired R (.entries l) (.entries l')
  | elems {xs ys : List Value} : Forall₂ R xs ys → Paired R (.elems xs) (.elems ys)

variable {R S : Value → Value → Prop} {c c' d d' : Content}

/-- What is known of each side is known of the pairs. -/
theorem Paired.refine {C D : Value → Prop} (h : Paired R c c') (hc : c.Forall C)
    (hc' : c'.Forall D) : Paired (fun x y => R x y ∧ C x ∧ D y) c c' := by
  cases h with
  | atom a => exact .atom a
  | items h => exact .items (forall₂_mono_mem h fun x hx y hy hxy => ⟨hxy, hc x hx, hc' y hy⟩)
  | entries h =>
    refine .entries (forall₂_mono_mem h fun e he f hf hef => ?_)
    exact ⟨⟨hef.1, (hc e he).1, (hc' f hf).1⟩, hef.2, (hc e he).2, (hc' f hf).2⟩
  | elems h => exact .elems (forall₂_mono_mem h fun x hx y hy hxy => ⟨hxy, hc x hx, hc' y hy⟩)

end Content

theorem Value.Reannotated.content {a a' : Value} (h : a.Reannotated a') :
    Content.Paired Reannotated a.content a'.content := by
  cases a with
  | atom a =>
    cases h
    exact .atom a
  | vector v =>
    cases h with
    | vector hitems => exact .items hitems
  | map m =>
    cases h with
    | map hl => exact .entries (hl.imp fun e f => entryReannotated_iff.1)
  | set s =>
    cases h with
    | set hitems => exact .elems hitems
  | seq s =>
    obtain ⟨t, rfl⟩ := h.eq_seq
    exact .items h.items

end LispKernel
