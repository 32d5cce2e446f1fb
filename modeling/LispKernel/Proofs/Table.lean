import Mathlib.Data.List.Basic
import Mathlib.Data.List.Induction

/-!
# Tables

Association lists whose keys are compared by a test that is symmetric and transitive on the keys in
use, but need not be reflexive: a key that differs from itself is never found. A table without two
equal keys is a finite map up to the test, and setting all entries of a second table gives the first
one with new values in place, followed by the entries of the second that were absent.
-/
namespace LispKernel

/-- The test is symmetric and transitive on the things of a class. -/
structure PartialEquivalence {κ : Type} (C : κ → Prop) (p : κ → κ → Bool) : Prop where
  symm {x y : κ} : C x → C y → p x y = true → p y x = true
  trans {x y z : κ} : C x → C y → C z → p x y = true → p y z = true → p x z = true

namespace PartialEquivalence

variable {κ : Type} {C : κ → Prop} {p : κ → κ → Bool} (h : PartialEquivalence C p)

include h

theorem comm {x y : κ} (hx : C x) (hy : C y) : p x y = p y x :=
  Bool.eq_iff_iff.2 ⟨h.symm hx hy, h.symm hy hx⟩

/-- Equal things compare alike with a third. -/
theorem congr {x y z : κ} (hx : C x) (hy : C y) (hz : C z) (hxy : p x y = true) : p x z = p y z :=
  Bool.eq_iff_iff.2 ⟨h.trans hy hx hz (h.symm hx hy hxy), h.trans hx hy hz hxy⟩

end PartialEquivalence

namespace Table

variable {κ ν : Type} (p : κ → κ → Bool)

def find? (k : κ) (l : List (κ × ν)) : Option (κ × ν) := l.find? fun entry => p entry.1 k

def lookup (k : κ) (l : List (κ × ν)) : Option ν := (find? p k l).map Prod.snd

/-- An entry with an equal key keeps its place and its key, a new one goes to the end. -/
def put (k : κ) (v : ν) : List (κ × ν) → List (κ × ν)
  | [] => [(k, v)]
  | entry :: l => if p entry.1 k then (entry.1, v) :: l else entry :: put k v l

def erase (k : κ) (l : List (κ × ν)) : List (κ × ν) := l.filter fun entry => !p entry.1 k

def putAll (l l' : List (κ × ν)) : List (κ × ν) :=
  l'.foldl (fun l entry => put p entry.1 entry.2 l) l

def Distinct (l : List (κ × ν)) : Prop := l.Pairwise fun e f => p e.1 f.1 = false

variable {p} {k j : κ} {v : ν} {l l' : List (κ × ν)}

theorem find?_congr {q : κ → κ → Bool} (h : ∀ e ∈ l, p e.1 k = q e.1 k) :
    find? p k l = find? q k l := by
  induction l with
  | nil => rfl
  | cons e l ih =>
    have ih := ih fun f hf => h f (by simp [hf])
    unfold find? at ih ⊢
    rw [List.find?_cons, List.find?_cons, h e (by simp), ih]

@[simp] theorem lookup_nil : lookup p j ([] : List (κ × ν)) = none := rfl

theorem lookup_cons (entry : κ × ν) (l : List (κ × ν)) :
    lookup p j (entry :: l) = if p entry.1 j then some entry.2 else lookup p j l := by
  unfold lookup find?
  cases h : p entry.1 j <;> simp [h]

theorem lookup_eq_none : lookup p k l = none ↔ ∀ e ∈ l, p e.1 k = false := by
  simp [lookup, find?]

/-! ## What setting does to the list -/

theorem put_of_absent (h : lookup p k l = none) : put p k v l = l ++ [(k, v)] := by
  induction l with
  | nil => rfl
  | cons e l ih =>
    rw [lookup_eq_none] at h
    have hl := ih (lookup_eq_none.2 fun f hf => h f (by simp [hf]))
    simp [put, h e (by simp), hl]

theorem split_of_present (h : lookup p k l ≠ none) :
    ∃ us e vs, l = us ++ e :: vs ∧ p e.1 k = true ∧ ∀ u ∈ us, p u.1 k = false := by
  cases hf : find? p k l with
  | none => simp [lookup, hf] at h
  | some e =>
    obtain ⟨he, us, vs, hl, hus⟩ := List.find?_eq_some_iff_append.1 hf
    exact ⟨us, e, vs, hl, he, fun u hu => by simpa using hus u hu⟩

/-- The entry that is overwritten is the first with an equal key. -/
theorem put_of_present (h : lookup p k l ≠ none) :
    ∃ us e vs, l = us ++ e :: vs ∧ p e.1 k = true ∧ put p k v l = us ++ (e.1, v) :: vs := by
  obtain ⟨us, e, vs, rfl, he, hus⟩ := split_of_present h
  refine ⟨us, e, vs, rfl, he, ?_⟩
  clear h
  induction us with
  | nil => simp [put, he]
  | cons u us ih => simp [put, hus u (by simp), ih fun w hw => hus w (by simp [hw])]

theorem length_put :
    (put p k v l).length = if lookup p k l = none then l.length + 1 else l.length := by
  split
  · next h => simp [put_of_absent h]
  · next h =>
    obtain ⟨us, e, vs, rfl, -, hput⟩ := put_of_present (v := v) h
    simp [hput]

theorem keys_put (C : κ → Prop) (hk : C k) (hl : ∀ e ∈ l, C e.1) : ∀ e ∈ put p k v l, C e.1 := by
  induction l with
  | nil => simpa [put] using hk
  | cons e l ih =>
    have hl' := ih fun f hf => hl f (by simp [hf])
    intro f hf
    unfold put at hf
    split at hf
    · rcases List.mem_cons.1 hf with rfl | hf
      · exact hl e (by simp)
      · exact hl f (by simp [hf])
    · rcases List.mem_cons.1 hf with rfl | hf
      · exact hl f (by simp)
      · exact hl' f hf

theorem Distinct.put (h : Distinct p l) : Distinct p (put p k v l) := by
  by_cases ha : lookup p k l = none
  · rw [put_of_absent ha]
    refine List.pairwise_append.2 ⟨h, by simp, ?_⟩
    intro e he f hf
    rw [List.mem_singleton.1 hf]
    exact lookup_eq_none.1 ha e he
  · obtain ⟨us, e, vs, rfl, -, hput⟩ := put_of_present (v := v) ha
    rw [hput]
    unfold Distinct at h ⊢
    simpa [List.pairwise_append] using h

theorem erase_of_forall (h : ∀ e ∈ l, p e.1 k = false) : erase p k l = l :=
  List.filter_eq_self.2 fun e he => by simp [h e he]

theorem keys_putAll (C : κ → Prop) (hl : ∀ e ∈ l, C e.1) (hl' : ∀ e ∈ l', C e.1) :
    ∀ e ∈ putAll p l l', C e.1 := by
  induction l' generalizing l with
  | nil => exact hl
  | cons e l' ih =>
    exact ih (keys_put C (hl' e (by simp)) hl) fun f hf => hl' f (by simp [hf])

theorem Distinct.putAll (h : Distinct p l) : Distinct p (putAll p l l') := by
  induction l' generalizing l with
  | nil => exact h
  | cons e l' ih => exact ih h.put

theorem putAll_append (l l' l'' : List (κ × ν)) :
    putAll p l (l' ++ l'') = putAll p (putAll p l l') l'' := List.foldl_append

/-- Distinct entries set one after another into an empty table give themselves. -/
theorem putAll_nil (h : Distinct p l) : putAll p [] l = l := by
  induction l using List.reverseRecOn with
  | nil => rfl
  | append_singleton l e ih =>
    obtain ⟨hl, -, he⟩ := List.pairwise_append.1 h
    rw [putAll_append, ih hl]
    exact put_of_absent (lookup_eq_none.2 fun f hf => he f hf e (by simp))

/-! ## Lookup -/

section Lookup

variable {C : κ → Prop} (hp : PartialEquivalence C p) (hl : ∀ e ∈ l, C e.1) (hk : C k) (hj : C j)

include hp

/-- Among distinct keys the first entry that is found is the only one. -/
theorem find?_eq_some (hd : Distinct p l) (hl : ∀ e ∈ l, C e.1) (hk : C k) {e : κ × ν} (he : e ∈ l)
    (hek : p e.1 k = true) : find? p k l = some e := by
  induction l with
  | nil => cases he
  | cons f l ih =>
    obtain ⟨hf, hd⟩ := List.pairwise_cons.1 hd
    unfold find?
    rcases List.mem_cons.1 he with rfl | he
    · simp [hek]
    · have hfk : p f.1 k = false := by
        rw [Bool.eq_false_iff]
        intro hfk
        have := hp.trans (hl f (by simp)) hk (hl e (by simp [he])) hfk
          (hp.symm (hl e (by simp [he])) hk hek)
        simp [hf e he] at this
      have := ih hd (fun e he => hl e (by simp [he])) he
      simpa [find?, hfk] using this

include hl hk hj

theorem lookup_put : lookup p j (put p k v l) = if p k j then some v else lookup p j l := by
  induction l with
  | nil => simp [put, lookup_cons]
  | cons e l ih =>
    have he := hl e (by simp)
    have ih := ih fun f hf => hl f (by simp [hf])
    unfold put
    cases hek : p e.1 k with
    | true =>
      rw [if_pos rfl, lookup_cons, lookup_cons, hp.congr he hk hj hek]
      cases p k j <;> simp
    | false =>
      rw [if_neg (by simp), lookup_cons, lookup_cons, ih]
      cases hkj : p k j with
      | false => simp
      | true =>
        have hej : p e.1 j = false := by
          rw [hp.comm he hj, ← hp.congr hk hj he hkj, hp.comm hk he, hek]
        simp [hej]

theorem lookup_erase : lookup p j (erase p k l) = if p k j then none else lookup p j l := by
  induction l with
  | nil => simp [erase]
  | cons e l ih =>
    have he := hl e (by simp)
    have ih := ih fun f hf => hl f (by simp [hf])
    unfold erase at ih ⊢
    cases hek : p e.1 k with
    | true =>
      rw [List.filter_cons_of_neg (by simp [hek]), ih, lookup_cons, hp.congr he hk hj hek]
      cases p k j <;> simp
    | false =>
      rw [List.filter_cons_of_pos (by simp [hek]), lookup_cons, lookup_cons, ih]
      cases hkj : p k j with
      | false => simp
      | true =>
        have hej : p e.1 j = false := by
          rw [hp.comm he hj, ← hp.congr hk hj he hkj, hp.comm hk he, hek]
        simp [hej]

omit hk in
theorem lookup_putAll (hd : Distinct p l') (hl' : ∀ e ∈ l', C e.1) :
    lookup p j (putAll p l l') = (lookup p j l').or (lookup p j l) := by
  induction l' generalizing l with
  | nil => simp [putAll]
  | cons e l' ih =>
    obtain ⟨he, hd⟩ := List.pairwise_cons.1 hd
    have hek := hl' e (by simp)
    have hl'' : ∀ f ∈ l', C f.1 := fun f hf => hl' f (by simp [hf])
    show lookup p j (putAll p (put p e.1 e.2 l) l') = _
    rw [ih (keys_put C hek hl) hd hl'', lookup_put hp hl hek hj, lookup_cons]
    cases hej : p e.1 j with
    | false => simp
    | true =>
      have hnone : lookup p j l' = none := by
        rw [lookup_eq_none]
        intro f hf
        rw [hp.comm (hl'' f hf) hj, ← hp.congr hek hj (hl'' f hf) hej, he f hf]
      simp [hnone]

omit hj in
/-- Erasing a key that is present takes out the one entry that has it. -/
theorem erase_of_present (hd : Distinct p l) (h : lookup p k l ≠ none) :
    ∃ us e vs, l = us ++ e :: vs ∧ p e.1 k = true ∧ erase p k l = us ++ vs := by
  obtain ⟨us, e, vs, rfl, he, hus⟩ := split_of_present h
  have hek := hl e (by simp)
  have hvs : ∀ f ∈ vs, p f.1 k = false := by
    intro f hf
    have hfk := hl f (by simp [hf])
    obtain ⟨-, hd, -⟩ := List.pairwise_append.1 hd
    rw [hp.comm hfk hk, ← hp.congr hek hk hfk he, (List.pairwise_cons.1 hd).1 f hf]
  refine ⟨us, e, vs, rfl, he, ?_⟩
  rw [erase, List.filter_append, List.filter_cons_of_neg (by simp [he])]
  exact congrArg₂ (· ++ ·) (erase_of_forall hus) (erase_of_forall hvs)

omit hj in
theorem length_erase (hd : Distinct p l) :
    l.length = if lookup p k l = none then (erase p k l).length else (erase p k l).length + 1 := by
  split
  · next h => rw [erase_of_forall (lookup_eq_none.1 h)]
  · next h =>
    obtain ⟨us, e, vs, rfl, -, herase⟩ := erase_of_present hp hl hk hd h
    simp [herase, Nat.add_assoc]

end Lookup

/-! ## What setting all entries of a table does to the list -/

/-- The value that the second table gives to an entry of the first. -/
def overlay (p : κ → κ → Bool) (l' : List (κ × ν)) (e : κ × ν) : κ × ν :=
  (e.1, (lookup p e.1 l').getD e.2)

/-- The entries of the second table whose keys the first does not have. -/
def absent (p : κ → κ → Bool) (l l' : List (κ × ν)) : List (κ × ν) :=
  l'.filter fun e => (lookup p e.1 l).isNone

theorem overlay_cons_of_ne {e f : κ × ν} (h : p f.1 e.1 = false) :
    overlay p (f :: l') e = overlay p l' e := by
  simp [overlay, lookup_cons, h]

theorem putAll_eq {C : κ → Prop} (hp : PartialEquivalence C p) (hl : ∀ e ∈ l, C e.1)
    (hl' : ∀ e ∈ l', C e.1) (hd : Distinct p l) (hd' : Distinct p l') :
    putAll p l l' = l.map (overlay p l') ++ absent p l l' := by
  induction l' generalizing l with
  | nil =>
    have : overlay p ([] : List (κ × ν)) = id := by
      funext e
      simp [overlay]
    simp [putAll, absent, this]
  | cons f l' ih =>
    obtain ⟨hf, hd'⟩ := List.pairwise_cons.1 hd'
    have hfk := hl' f (by simp)
    have hl'' : ∀ e ∈ l', C e.1 := fun e he => hl' e (by simp [he])
    have hstep : putAll p l (f :: l') = putAll p (put p f.1 f.2 l) l' := rfl
    -- An entry of the rest never has the key that has just been set.
    have habsent : ∀ e ∈ l', lookup p e.1 (put p f.1 f.2 l) = lookup p e.1 l := by
      intro e he
      rw [lookup_put hp hl hfk (hl'' e he), hf e he]
      simp
    have hfilter : absent p (put p f.1 f.2 l) l' = absent p l l' :=
      List.filter_congr fun e he => by rw [habsent e he]
    have hnone : lookup p f.1 l' = none := by
      rw [lookup_eq_none]
      intro e he
      rw [hp.comm (hl'' e he) hfk, hf e he]
    rw [hstep, ih (keys_put C hfk hl) hl'' hd.put hd', hfilter]
    by_cases ha : lookup p f.1 l = none
    · have hother : ∀ e ∈ l, overlay p (f :: l') e = overlay p l' e := by
        intro e he
        apply overlay_cons_of_ne
        rw [hp.comm hfk (hl e he), lookup_eq_none.1 ha e he]
      have hself : overlay p l' f = f := by simp [overlay, hnone]
      have hcons : absent p l (f :: l') = f :: absent p l l' := by simp [absent, ha]
      rw [put_of_absent ha, hcons, List.map_append, List.map_congr_left hother]
      simp [hself]
    · obtain ⟨us, e, vs, rfl, hef, hput⟩ := put_of_present (v := f.2) ha
      have hek := hl e (by simp)
      have hcons : absent p (us ++ e :: vs) (f :: l') = absent p (us ++ e :: vs) l' := by
        obtain ⟨y, hy⟩ := Option.ne_none_iff_exists'.1 ha
        simp [absent, hy]
      have hfe : p f.1 e.1 = true := hp.symm hek hfk hef
      have hself : overlay p l' (e.1, f.2) = overlay p (f :: l') e := by
        have : lookup p e.1 l' = none := by
          rw [lookup_eq_none]
          intro g hg
          rw [hp.comm (hl'' g hg) hek, ← hp.congr hfk hek (hl'' g hg) hfe, hf g hg]
        simp [overlay, lookup_cons, hfe, this]
      -- Only one entry of the first table has the key, so the others keep what they had.
      have hother : ∀ g ∈ us ++ vs, overlay p (f :: l') g = overlay p l' g := by
        intro g hg
        have hgk : C g.1 := hl g (by rcases List.mem_append.1 hg with h | h <;> simp [h])
        apply overlay_cons_of_ne
        rw [hp.congr hfk hek hgk hfe]
        obtain ⟨-, hd₂, hcross⟩ := List.pairwise_append.1 hd
        rcases List.mem_append.1 hg with h | h
        · rw [hp.comm hek hgk]
          exact hcross g h e (by simp)
        · exact (List.pairwise_cons.1 hd₂).1 g h
      rw [hput, hcons, List.map_append, List.map_append, List.map_cons, List.map_cons, hself,
        List.map_congr_left fun g hg => (hother g (by simp [hg])).symm,
        List.map_congr_left fun g hg => (hother g (by simp [hg])).symm]

/-! ## Setting the entries of one table after those of another -/

variable (C : κ → Prop)

/-- The keys are of the class, and no two of them are equal. -/
structure Keyed (p : κ → κ → Bool) (l : List (κ × ν)) : Prop where
  keys : ∀ e ∈ l, C e.1
  distinct : Distinct p l

variable {C} {l₁ l₂ l₃ : List (κ × ν)}

theorem Keyed.nil : Keyed C p ([] : List (κ × ν)) := ⟨by simp, .nil⟩

theorem Keyed.putAll (h : Keyed C p l) (h' : Keyed C p l') : Keyed C p (putAll p l l') :=
  ⟨keys_putAll C h.keys h'.keys, h.distinct.putAll⟩

theorem overlay_putAll (hp : PartialEquivalence C p) (h₂ : Keyed C p l₂) (h₃ : Keyed C p l₃)
    {e : κ × ν} (he : C e.1) : overlay p (putAll p l₂ l₃) e = overlay p l₃ (overlay p l₂ e) := by
  simp only [overlay, lookup_putAll hp h₂.keys he h₃.distinct h₃.keys]
  cases lookup p e.1 l₃ <;> rfl

theorem absent_putAll (hp : PartialEquivalence C p) (h₁ : Keyed C p l₁) (h₂ : Keyed C p l₂)
    (h₃ : Keyed C p l₃) : absent p (putAll p l₁ l₂) l₃ = absent p l₁ (absent p l₂ l₃) := by
  unfold absent
  rw [List.filter_filter]
  refine List.filter_congr fun e he => ?_
  rw [lookup_putAll hp h₁.keys (h₃.keys e he) h₂.distinct h₂.keys]
  cases lookup p e.1 l₂ <;> simp

theorem absent_map_overlay (l l' l'' : List (κ × ν)) :
    absent p l (l'.map (overlay p l'')) = (absent p l l').map (overlay p l'') :=
  List.filter_map

/-- The first table that has a key gives its place and its form, the last one its value. -/
theorem putAll_assoc (hp : PartialEquivalence C p) (h₁ : Keyed C p l₁) (h₂ : Keyed C p l₂)
    (h₃ : Keyed C p l₃) : putAll p (putAll p l₁ l₂) l₃ = putAll p l₁ (putAll p l₂ l₃) := by
  have heq {l l' : List (κ × ν)} (h : Keyed C p l) (h' : Keyed C p l') :=
    putAll_eq hp h.keys h'.keys h.distinct h'.distinct
  have hkept : l₁.map (overlay p l₃ ∘ overlay p l₂) = l₁.map (overlay p (putAll p l₂ l₃)) :=
    List.map_congr_left fun e he => (overlay_putAll hp h₂ h₃ (h₁.keys e he)).symm
  calc putAll p (putAll p l₁ l₂) l₃
      = (putAll p l₁ l₂).map (overlay p l₃) ++ absent p (putAll p l₁ l₂) l₃ :=
        heq (h₁.putAll h₂) h₃
    _ = l₁.map (overlay p l₃ ∘ overlay p l₂) ++
          ((absent p l₁ l₂).map (overlay p l₃) ++ absent p l₁ (absent p l₂ l₃)) := by
        rw [absent_putAll hp h₁ h₂ h₃, heq h₁ h₂, List.map_append, List.map_map,
          List.append_assoc]
    _ = l₁.map (overlay p (putAll p l₂ l₃)) ++ absent p l₁ (putAll p l₂ l₃) := by
        rw [hkept, heq h₂ h₃, ← absent_map_overlay]
        exact congrArg _ (List.filter_append ..).symm
    _ = putAll p l₁ (putAll p l₂ l₃) := (heq h₁ (h₂.putAll h₃)).symm

end Table

end LispKernel
