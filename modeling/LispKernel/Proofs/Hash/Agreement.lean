import LispKernel.Hash
import LispKernel.Proofs.Equality.Laws

/-!
# Equal values have equal hash codes

The hash code of a value without lazy cells is a function of its content. A tally in which order
does not matter comes out the same for every way to pair off entries or elements, so values that
agree have the same hash code, however single things are hashed.
-/
namespace LispKernel

open List (Forall₂)
open Run (ReturnsIn Settles Refines)

namespace Hash

def ordered (hs : List UInt32) : UInt32 := (hs.foldl Tally.ordered (Tally.seeded 1)).finish

def unordered (seed : UInt32) (hs : List UInt32) : UInt32 :=
  (hs.foldl Tally.unordered (Tally.seeded seed)).finish

instance : RightCommutative Tally.unordered :=
  ⟨fun t g h => by simp only [Tally.unordered, UInt32.add_assoc, UInt32.add_comm g h]⟩

theorem unordered_perm {seed : UInt32} {hs hs' : List UInt32} (h : hs.Perm hs') :
    unordered seed hs = unordered seed hs' := by
  rw [unordered, unordered, h.foldl_eq]

end Hash

theorem map_eq_of_forall₂ {α β γ : Type} {R : α → β → Prop} {f : α → γ} {g : β → γ} {xs : List α}
    {ys : List β} (h : Forall₂ R xs ys) (hR : ∀ x ∈ xs, ∀ y ∈ ys, R x y → f x = g y) :
    xs.map f = ys.map g := by
  have heq := forall₂_mono_mem h hR
  rw [← List.forall₂_eq_eq_eq, List.forall₂_map_left_iff, List.forall₂_map_right_iff]
  exact heq

theorem Matching.map_perm {α β γ : Type} {R : α → β → Prop} {f : α → γ} {g : β → γ} {xs : List α}
    {ys : List β} (h : Matching R xs ys) (hR : ∀ x ∈ xs, ∀ y ∈ ys, R x y → f x = g y) :
    (xs.map f).Perm (ys.map g) := by
  obtain ⟨zs, hp, hz⟩ := h
  rw [map_eq_of_forall₂ hz fun x hx y hy => hR x hx y (hp.mem_iff.1 hy)]
  exact hp.map g

variable (single : Identity → UInt32)

/-- The hash code of a content, given those of its parts. -/
def Content.hashBy (h : Value → UInt32) : Content → UInt32
  | atom a => a.hash single
  | items xs => Hash.ordered (xs.map h)
  | entries l => Hash.unordered 1 (l.map fun e => Hash.ordered [h e.1, h e.2])
  | elems xs => Hash.unordered 0 (xs.map h)

theorem Content.hashBy_congr {h h' : Value → UInt32} {c : Content}
    (hc : c.Forall fun x => h x = h' x) : c.hashBy single h = c.hashBy single h' := by
  cases c with
  | atom a => rfl
  | items xs => rw [hashBy, hashBy, List.map_congr_left hc]
  | entries l =>
    rw [hashBy, hashBy, List.map_congr_left fun e he => by rw [(hc e he).1, (hc e he).2]]
  | elems xs => rw [hashBy, hashBy, List.map_congr_left hc]

namespace Value

def digestAt : Nat → Value → UInt32
  | 0, _ => 0
  | n + 1, v => v.content.hashBy single (digestAt n)

/-- The hash code of a value without lazy cells. -/
def digest (v : Value) : UInt32 := digestAt single v.weight v

theorem digestAt_eq {n : Nat} {v : Value} (h : v.weight ≤ n) :
    digestAt single n v = digest single v := by
  unfold digest
  induction hd : v.weight using Nat.strongRecOn generalizing n v with
  | ind d ih =>
    have := three_le_weight v
    obtain ⟨m, rfl⟩ : ∃ m, n = m + 1 := ⟨n - 1, by omega⟩
    obtain ⟨k, rfl⟩ : ∃ k, d = k + 1 := ⟨d - 1, by omega⟩
    refine Content.hashBy_congr single (v.weight_content.imp fun x hx => ?_)
    rw [ih x.weight (by omega) (by omega) rfl, ← ih x.weight (by omega) (n := k) (by omega) rfl]

theorem digest_eq (v : Value) : digest single v = v.content.hashBy single (digest single) := by
  rw [← digestAt_eq single (Nat.le_succ v.weight), digestAt]
  exact Content.hashBy_congr single (v.weight_content.imp fun x hx => digestAt_eq single (by omega))

theorem Copy.digest_eq {x y : Value} (h : Copy x y) : digest single x = digest single y := by
  rw [Value.digest_eq, Value.digest_eq single y, h.content_eq]

/-- Hashing a value whose cells show what stands in for them meets the hash codes of the parts one
after another. -/
theorem hash_returns_expand {I : World → Prop} {force : Force} {known : LazyRef → Prop}
    {C : Value → Prop} {shown : Showing} {K n : Nat} (h : Shows I force known C shown K) {v : Value}
    (hv : C v) (hn : (v.expand shown).weight + K ≤ n) :
    (v.hash force single n).ReturnsIn I (· = digest single (v.expand shown)) := by
  induction n generalizing v with
  | zero =>
    have := three_le_weight (v.expand shown)
    omega
  | succ n ih =>
    rw [digest_eq]
    have hweight := (v.expand shown).weight_content
    -- The parts of a value other than a sequence are hashed with less fuel.
    have hparts (hseq : ∀ s, v ≠ seq s) : v.content.Forall fun x =>
        (x.hash force single n).ReturnsIn I (· = digest single (x.expand shown)) := by
      rw [content_expand hseq, Content.forall_map] at hweight
      exact ((h.content hv hseq).and hweight).imp fun x hx => ih hx.1 (by omega)
    cases v with
    | atom a => exact .pure rfl
    | vector v =>
      have hparts := hparts (by simp)
      refine (ReturnsIn.foldlM (g := fun t x => t.ordered (digest single (x.expand shown)))
        (fun t x hx => (hparts x hx).bind fun h hh => .pure (by rw [hh])) _).bind fun t ht => ?_
      refine .pure ?_
      rw [ht, expand, content, Content.hashBy, Hash.ordered, Vec.items_expand, List.map_map,
        List.foldl_map]
      rfl
    | map m =>
      have hparts := hparts (by simp)
      have hentry : ∀ e ∈ m.entries, ReturnsIn I (do
          return (((Hash.Tally.seeded 1).ordered (← hash force single n e.1)).ordered
            (← hash force single n e.2)).finish)
          (· = Hash.ordered
            [digest single (e.1.expand shown), digest single (e.2.expand shown)]) := by
        intro e he
        refine (hparts e he).1.bind fun h hh => (hparts e he).2.bind fun h' hh' => .pure ?_
        rw [hh, hh']
        rfl
      refine (ReturnsIn.foldlM (g := fun t (e : Value × Value) => t.unordered (Hash.ordered
          [digest single (e.1.expand shown), digest single (e.2.expand shown)]))
        (fun t e he => (hentry e he).bind fun h hh => .pure (by rw [hh])) _).bind fun t ht => ?_
      refine .pure ?_
      rw [ht, expand, content, Content.hashBy, Hash.unordered, Dict.entries_expand, List.map_map,
        List.foldl_map]
      simp only [Function.comp, entryExpand_fst, entryExpand_snd]
    | set s =>
      have hparts := hparts (by simp)
      refine (ReturnsIn.foldlM (g := fun t x => t.unordered (digest single (x.expand shown)))
        (fun t x hx => (hparts x hx).bind fun h hh => .pure (by rw [hh])) _).bind fun t ht => ?_
      refine .pure ?_
      rw [ht, expand, content, Content.hashBy, Hash.unordered, ElemSet.items_expand, List.map_map,
        List.foldl_map]
      rfl
    | seq s =>
      have hlen : _ + 3 ≤ ((seq s).expand shown).weight := (s.expand shown).length_items_add
      refine (Seq.fold_returns (R := (· = ·)) (g := fun t y => t.ordered (digest single y)) h.toWalkable
        (h.over hv) (by omega) rfl ?_).bind fun t ht => .pure ?_
      · rintro t _ rfl y hy x hx
        have hxweight : (x.expand shown).weight < ((seq s).expand shown).weight :=
          hx.2.weight_eq ▸ hweight y hy
        exact (ih hx.1 (by omega)).bind fun h hh => .pure (by rw [hh, hx.2.digest_eq])
      · rw [ht, expand, content, Content.hashBy, Hash.ordered, List.foldl_map]

variable (force : Force)

theorem hash_settles {v : Value} (hv : v.LazyFree) :
    Settles (fun n => v.hash force single n) (· = digest single v) := by
  refine .of_returnsIn (N := v.weight)
    (fun h => hash_congr Refines.any (fun _ _ _ _ hcell => ⟨hcell, trivial⟩) h single v)
    fun u n hn => ?_
  have hrun := hash_returns_expand single (.nothing force (World.Storing.elastic u)) (n := n) hv
    (by rw [v.expand_lazy]; exact hn)
  rwa [v.expand_lazy] at hrun

end Value

/-! ## Agreement -/

theorem Atom.hash_eq {a b : Atom} (h : a.equals b = true) : a.hash single = b.hash single := by
  rcases equals_cases h with rfl | ⟨d, e, rfl, rfl, hde⟩ | ⟨v, u, rfl, rfl, hvu⟩ |
    ⟨p, q, rfl, rfl, hpq⟩
  · rfl
  · rw [Atom.hash, Atom.hash, (Double.equals_iff.1 hde).2.2]
  · rw [Atom.hash, Atom.hash, hvu]
  · rw [Atom.hash, Atom.hash, hpq]

theorem Content.Related.hashBy_eq {p : Test} {h : Value → UInt32} {C D : Value → Prop}
    {c d : Content} (hcd : Related p c d) (hc : c.Forall C) (hd : d.Forall D)
    (hp : ∀ x y, C x → D y → p x y = true → h x = h y) : c.hashBy single h = d.hashBy single h := by
  cases hcd with
  | atom hab => exact Atom.hash_eq single hab
  | items hxy =>
    rw [hashBy, hashBy, map_eq_of_forall₂ hxy fun x hx y hy => hp x y (hc x hx) (hd y hy)]
  | entries hl =>
    refine Hash.unordered_perm (hl.map_perm fun e he f hf hef => ?_)
    rw [hp _ _ (hc e he).1 (hd f hf).1 hef.1, hp _ _ (hc e he).2 (hd f hf).2 hef.2]
  | elems hxy =>
    exact Hash.unordered_perm (hxy.map_perm fun x hx y hy => hp x y (hc x hx) (hd y hy))

namespace Value

variable {σ : Store} {a b : Value}

theorem digest_eq_of_agree (ha : a.Lawful σ) (hb : b.Lawful σ) (h : agree a b = true) :
    digest single a = digest single b := by
  induction hn : a.weight using Nat.strongRecOn generalizing a b with
  | ind n ih =>
    rw [digest_eq, digest_eq single b]
    rcases (ha.agree_iff hb).1 h with h | h
    · rw [Store.content_eq_of_identical ha.stored.here hb.stored.here h]
    · refine h.hashBy_eq single (ha.content.and a.weight_content) hb.content ?_
      exact fun x y hx hy hxy => ih x.weight (hn ▸ hx.2) hx.1 hy hxy rfl

/-- Lawful values that are equal hash alike, whatever the hash of a single thing is. -/
theorem hash_eq_of_equal (single : Identity → UInt32) (force : Force) {σ : Store} {a b : Value}
    (ha : a.Lawful σ) (hb : b.Lawful σ) (h : Equal force a b) :
    ∃ code, Settles (fun n => a.hash force single n) (· = code) ∧
      Settles (fun n => b.hash force single n) (· = code) := by
  have hagree := (equal_iff_agree force ha.lazyFree hb.lazyFree).1 h
  refine ⟨digest single a, hash_settles single force ha.lazyFree, ?_⟩
  rw [digest_eq_of_agree single ha hb hagree]
  exact hash_settles single force hb.lazyFree

/-- Two maps in another order, with a key in another form, with both zeros and with a NaN that is
only equal to itself through the map that holds it. -/
theorem hash_eq_of_equal_maps :
    let nan : Dict := ⟨31, [(.int 1, .double ⟨0x7ff8000000000000⟩)], .plain⟩
    let a : Dict := ⟨2, [(.vector ⟨⟨20, [.int 1]⟩, .plain⟩, .double ⟨0⟩),
      (.int 2, .map nan)], .plain⟩
    let b : Dict := ⟨12, [(.int 2, .map nan),
      (.seq (.cons 21 (.int 1) (.empty .plain) .plain), .double ⟨0x8000000000000000⟩)], .plain⟩
    let σ : Store := ⟨fun _ => (.int 1, .empty .plain), fun _ => [],
      fun s => if s = 2 then a.entries else if s = 12 then b.entries else nan.entries⟩
    ((map a).Lawful σ ∧ (map b).Lawful σ ∧ Equal (fun _ => Run.exhausted) (map a) (map b)) ∧
      ∃ code, Settles (fun n => (map a).hash (fun _ => Run.exhausted) Identity.hash n) (· = code) ∧
        Settles (fun n => (map b).hash (fun _ => Run.exhausted) Identity.hash n) (· = code) := by
  intro nan a b σ
  have hnanrun : Dict.ofList (equals (fun _ => Run.exhausted) 1) nan.entries { storages := 30 } =
      some (.ok nan, { storages := 32 }) := rfl
  have harun : Dict.ofList (equals (fun _ => Run.exhausted) 1) a.entries {} =
      some (.ok a, { storages := 3 }) := rfl
  have hbrun : Dict.ofList (equals (fun _ => Run.exhausted) 1) b.entries { storages := 10 } =
      some (.ok b, { storages := 13 }) := rfl
  have hnan : (map nan).Lawful σ := lawful_iff.2
    ⟨⟨rfl, .ofList (fun _ _ => trivial) hnanrun, rfl⟩, by simp [parts, nan, lawful_atom]⟩
  have hvector : (vector ⟨⟨20, [.int 1]⟩, .plain⟩).Lawful σ :=
    lawful_iff.2 ⟨⟨rfl, trivial, trivial⟩, by simp [parts, Vec.items, lawful_atom]⟩
  have hcons : (seq (.cons 21 (.int 1) (.empty .plain) .plain)).Lawful σ :=
    lawful_iff.2 ⟨⟨rfl, trivial, rfl⟩, by simp [parts, lawful_atom, lawful_empty]⟩
  have ha : (map a).Lawful σ := lawful_iff.2
    ⟨⟨rfl, .ofList (fun _ _ => trivial) harun, rfl⟩, by simp [parts, a, lawful_atom, hvector, hnan]⟩
  have hb : (map b).Lawful σ := lawful_iff.2
    ⟨⟨rfl, .ofList (fun _ _ => trivial) hbrun, rfl⟩, by simp [parts, b, lawful_atom, hcons, hnan]⟩
  have hab : Equal (fun _ => Run.exhausted) (map a) (map b) :=
    (equal_iff_agree _ ha.lazyFree hb.lazyFree).2 (by decide)
  exact ⟨⟨ha, hb, hab⟩, hash_eq_of_equal Identity.hash _ ha hb hab⟩

end Value

end LispKernel
